import Luaw.Parsing.Reading
import Luaw.Parsing.Urls

/-!
# The parts of a URL

A URL that starts with its path is split at the first question mark and at the first number sign.
The lengths of its parts are counted in 16 bits.
-/

namespace Luaw.Parsing

open Http Lua

section Loop

variable {x : Splitting} {f : UrlField} {s : State}

@[simp] theorem HttpParserUrl.set_field (u : HttpParserUrl) (f : UrlField) (d : UrlSlice) :
    (u.set f d).field f = some d := by
  simp [HttpParserUrl.set]

theorem HttpParserUrl.set_other (u : HttpParserUrl) {f g : UrlField} (h : g ≠ f) (d : UrlSlice) :
    (u.set f d).field g = u.field g := by
  simp [HttpParserUrl.set, h]

theorem HttpParserUrl.set_set (u : HttpParserUrl) (f : UrlField) (d d' : UrlSlice) :
    (u.set f d).set f d' = u.set f d' := by
  simp [HttpParserUrl.set]

theorem urlLoop_append (i : Nat) (x : Splitting) (a b : Bytes) :
    urlLoop i x (a ++ b) = (urlLoop i x a).bind fun y => urlLoop (i + a.length) y b := by
  induction a generalizing i x with
  | nil => rfl
  | cons ch a ih =>
    rw [List.cons_append, urlLoop, urlLoop]
    cases urlByte i x ch with
    | none => rfl
    | some y =>
      rw [Option.bind_some, Option.bind_some, ih, List.length_cons, Nat.add_assoc, Nat.add_comm 1]

theorem toUInt16_succ (n : Nat) : (n + 1).toUInt16 = n.toUInt16 + 1 := UInt16.ofNat_add n 1

theorem extend_set (u : HttpParserUrl) (f : UrlField) (d : UrlSlice) :
    (u.set f d).extend f = u.set f { d with len := d.len + 1 } := by
  rw [HttpParserUrl.extend, HttpParserUrl.set_field]
  exact u.set_set f d _

/-- More bytes of the field that the loop is in. -/
theorem urlLoop_stays (hs : s.urlPart = .field f) (hat : s ≠ .reqServerWithAt) {bs : Bytes}
    (h : ∀ ch ∈ bs, parseUrlChar s ch = s) (i : Nat) (foundAt : Bool) (u : HttpParserUrl)
    (off : UInt16) (n : Nat) :
    urlLoop i ⟨s, some f, foundAt, u.set f ⟨off, n.toUInt16⟩⟩ bs =
      some ⟨s, some f, foundAt, u.set f ⟨off, (n + bs.length).toUInt16⟩⟩ := by
  induction bs generalizing i n with
  | nil => rfl
  | cons ch bs ih =>
    have hbyte : urlByte i ⟨s, some f, foundAt, u.set f ⟨off, n.toUInt16⟩⟩ ch =
        some ⟨s, some f, foundAt, u.set f ⟨off, (n + 1).toUInt16⟩⟩ := by
      unfold urlByte
      simp only [h ch List.mem_cons_self, hs, if_true, decide_eq_false hat, Bool.or_false,
        extend_set, toUInt16_succ]
    rw [urlLoop, hbyte, Option.bind_some, ih (fun c hc => h c (List.mem_cons_of_mem ch hc)),
      List.length_cons, Nat.add_assoc, Nat.add_comm 1]

/-- The bytes of a field that the loop has not been in. -/
theorem urlLoop_enters {ch : UInt8} {bs : Bytes} (hfirst : parseUrlChar x.s ch = s)
    (hs : s.urlPart = .field f) (hat : s ≠ .reqServerWithAt)
    (h : ∀ c ∈ bs, parseUrlChar s c = s) (hold : x.oldUf ≠ some f) (i : Nat) :
    urlLoop i x (ch :: bs) =
      some ⟨s, some f, x.foundAt, x.url.set f ⟨i.toUInt16, (ch :: bs).length.toUInt16⟩⟩ := by
  have hbyte : urlByte i x ch = some ⟨s, some f, x.foundAt, x.url.set f ⟨i.toUInt16, Nat.toUInt16 1⟩⟩ := by
    unfold urlByte
    simp only [hfirst, hs, if_neg hold, decide_eq_false hat, Bool.or_false]
    rfl
  rw [urlLoop, hbyte, Option.bind_some, urlLoop_stays hs hat h, List.length_cons, Nat.add_comm 1]

/-- A byte between two fields. -/
theorem urlLoop_delimiter {ch : UInt8} (hfirst : parseUrlChar x.s ch = s)
    (hs : s.urlPart = .delimiter) (i : Nat) : urlLoop i x [ch] = some { x with s := s } := by
  have hbyte : urlByte i x ch = some { x with s := s } := by
    unfold urlByte
    simp only [hfirst, hs]
  rw [urlLoop, hbyte]
  rfl

end Loop

/-- A URL that starts with its path. -/
structure OriginForm where
  path : Bytes
  query : Option Bytes
  fragment : Option Bytes

namespace OriginForm

def text (o : OriginForm) : Bytes :=
  o.path ++ ((o.query.map fun q => 63 :: q).getD [] ++ (o.fragment.map fun f => 35 :: f).getD [])

/-- The characters are those of the automaton. -/
structure WellFormed (o : OriginForm) : Prop where
  start : ∃ ch rest, o.path = ch :: rest ∧ (ch = 47 ∨ ch = 42) ∧ ∀ c ∈ rest, isUrlChar c = true
  query : ∀ q ∈ o.query, ∀ c ∈ q, isUrlChar c = true ∨ c = 63
  fragment : ∀ f ∈ o.fragment, ∀ c ∈ f, isUrlChar c = true ∨ c = 63 ∨ c = 35

end OriginForm

section Chars

theorem isUrlChar_plain {ch : UInt8} (h : isUrlChar ch = true) :
    ¬(ch = 32 ∨ ch = CR ∨ ch = LF) ∧ ¬(ch = 9 ∨ ch = 12) := by
  unfold isUrlChar at h
  constructor <;> rintro (rfl | rfl | rfl) <;> exact absurd h (by decide)

theorem parseUrlChar_path {ch : UInt8} (h : isUrlChar ch = true) :
    parseUrlChar .reqPath ch = .reqPath := by
  obtain ⟨hline, htab⟩ := isUrlChar_plain h
  rw [parseUrlChar, if_neg hline, if_neg htab]
  exact if_pos h

theorem parseUrlChar_query {s : State} (hs : s = .reqQueryStringStart ∨ s = .reqQueryString)
    {ch : UInt8} (h : isUrlChar ch = true ∨ ch = 63) : parseUrlChar s ch = .reqQueryString := by
  obtain h | rfl := h
  · obtain ⟨hline, htab⟩ := isUrlChar_plain h
    obtain rfl | rfl := hs <;> rw [parseUrlChar, if_neg hline, if_neg htab] <;> exact if_pos h
  · obtain rfl | rfl := hs <;> rfl

theorem parseUrlChar_fragmentStart {ch : UInt8} (h : isUrlChar ch = true ∨ ch = 63) :
    parseUrlChar .reqFragmentStart ch = .reqFragment := by
  obtain h | rfl := h
  · obtain ⟨hline, htab⟩ := isUrlChar_plain h
    rw [parseUrlChar, if_neg hline, if_neg htab]
    exact if_pos h
  · rfl

theorem parseUrlChar_fragment {ch : UInt8} (h : isUrlChar ch = true ∨ ch = 63 ∨ ch = 35) :
    parseUrlChar .reqFragment ch = .reqFragment := by
  obtain hch | rfl | rfl := h
  · obtain ⟨hline, htab⟩ := isUrlChar_plain hch
    rw [parseUrlChar, if_neg hline, if_neg htab]
    exact if_pos (.inl hch)
  · rfl
  · rfl

theorem parseUrlChar_inFragment {s : State} (hs : s = .reqFragmentStart ∨ s = .reqFragment)
    {ch : UInt8} (h : isUrlChar ch = true ∨ ch = 63 ∨ ch = 35) :
    parseUrlChar s ch = .reqFragmentStart ∨ parseUrlChar s ch = .reqFragment := by
  obtain rfl | rfl := hs
  · obtain hch | rfl | rfl := h
    · exact .inr (parseUrlChar_fragmentStart (.inl hch))
    · exact .inr rfl
    · exact .inl rfl
  · exact .inr (parseUrlChar_fragment h)

end Chars

section Origin

/-- A part that is not there when it is empty. -/
def HttpParserUrl.setPart (u : HttpParserUrl) (f : UrlField) (off : Nat) (part : Bytes) : HttpParserUrl :=
  if part = [] then u else u.set f ⟨off.toUInt16, part.length.toUInt16⟩

theorem HttpParserUrl.setPart_other (u : HttpParserUrl) {f g : UrlField} (h : g ≠ f) (off : Nat)
    (part : Bytes) : (u.setPart f off part).field g = u.field g := by
  unfold HttpParserUrl.setPart
  split
  · rfl
  · exact u.set_other h _

theorem urlLoop_path {path : Bytes}
    (h : ∃ ch rest, path = ch :: rest ∧ (ch = 47 ∨ ch = 42) ∧ ∀ c ∈ rest, isUrlChar c = true) :
    urlLoop 0 (urlStart false) path =
      some ⟨.reqPath, some .path, false, HttpParserUrl.empty.setPart .path 0 path⟩ := by
  obtain ⟨ch, rest, rfl, hch, hrest⟩ := h
  have hfirst : parseUrlChar .reqSpacesBeforeUrl ch = .reqPath := by obtain rfl | rfl := hch <;> rfl
  have hloop := urlLoop_enters (x := urlStart false) (f := .path) hfirst rfl (by decide)
    (fun c hc => parseUrlChar_path (hrest c hc)) (by rintro ⟨⟩) 0
  rw [hloop, HttpParserUrl.setPart, if_neg (List.cons_ne_nil ch rest)]
  rfl

/-- A question mark and the query behind it. -/
theorem urlLoop_query {x : Splitting} (hs : parseUrlChar x.s 63 = .reqQueryStringStart)
    (hold : x.oldUf = some .path) {query : Bytes} (h : ∀ c ∈ query, isUrlChar c = true ∨ c = 63)
    (i : Nat) :
    ∃ y, urlLoop i x (63 :: query) = some y ∧ parseUrlChar y.s 35 = .reqFragmentStart ∧
      y.oldUf ≠ some .fragment ∧ y.foundAt = x.foundAt ∧
      y.url = x.url.setPart .query (i + 1) query := by
  have hfirst := urlLoop_delimiter hs rfl i
  cases query with
  | nil => exact ⟨_, hfirst, rfl, by rw [hold]; decide, rfl, rfl⟩
  | cons c rest =>
    have hrest := urlLoop_enters (x := { x with s := .reqQueryStringStart }) (f := .query)
      (parseUrlChar_query (.inl rfl) (h c List.mem_cons_self)) rfl (by decide)
      (fun c' hc' => parseUrlChar_query (.inr rfl) (h c' (List.mem_cons_of_mem c hc')))
      (by rw [hold]; decide) (i + 1)
    rw [← List.singleton_append, urlLoop_append, hfirst, Option.bind_some]
    refine ⟨_, hrest, rfl, by rintro ⟨⟩, rfl, ?_⟩
    rw [HttpParserUrl.setPart, if_neg (List.cons_ne_nil c rest)]

/-- A number sign and the fragment behind it, which starts behind further number signs. -/
theorem urlLoop_fragment {x : Splitting} (hs : parseUrlChar x.s 35 = .reqFragmentStart)
    (hold : x.oldUf ≠ some .fragment) {fragment : Bytes}
    (h : ∀ c ∈ fragment, isUrlChar c = true ∨ c = 63 ∨ c = 35) (i : Nat) :
    ∃ y, urlLoop i x (35 :: fragment) = some y ∧ y.foundAt = x.foundAt ∧
      y.url = x.url.setPart .fragment (i + 1 + (fragment.takeWhile (· = 35)).length)
        (fragment.dropWhile (· = 35)) := by
  have hfirst := urlLoop_delimiter hs rfl i
  induction fragment generalizing x i with
  | nil => exact ⟨_, hfirst, rfl, rfl⟩
  | cons c rest ih =>
    rw [← List.singleton_append, urlLoop_append, hfirst, Option.bind_some, List.takeWhile_cons,
      List.dropWhile_cons]
    by_cases hc : c = 35
    · subst hc
      obtain ⟨y, hloop, hfound, hurl⟩ := ih (x := { x with s := .reqFragmentStart }) rfl hold
        (fun c' hc' => h c' (List.mem_cons_of_mem 35 hc')) (i + 1)
        (urlLoop_delimiter (x := { x with s := .reqFragmentStart }) rfl rfl (i + 1))
      refine ⟨y, hloop, hfound, ?_⟩
      rw [hurl, if_pos (by decide), if_pos (by decide), List.length_cons, Nat.add_right_comm _ 1]
      rfl
    · have hplain : isUrlChar c = true ∨ c = 63 := by
        obtain hc' | hc' | hc' := h c List.mem_cons_self
        · exact .inl hc'
        · exact .inr hc'
        · exact absurd hc' hc
      have hrest := urlLoop_enters (x := { x with s := .reqFragmentStart }) (f := .fragment)
        (parseUrlChar_fragmentStart hplain) rfl (by decide)
        (fun c' hc' => parseUrlChar_fragment (h c' (List.mem_cons_of_mem c hc'))) hold (i + 1)
      refine ⟨_, hrest, rfl, ?_⟩
      rw [decide_eq_false hc, if_neg Bool.false_ne_true, if_neg Bool.false_ne_true,
        HttpParserUrl.setPart, if_neg (List.cons_ne_nil c rest)]
      rfl

/-- The fields of a URL that starts with its path. -/
def OriginForm.url (o : OriginForm) : HttpParserUrl :=
  let u := HttpParserUrl.empty.setPart .path 0 o.path
  let u := u.setPart .query (o.path.length + 1) (o.query.getD [])
  u.setPart .fragment (o.path.length + ((o.query.map fun q => 63 :: q).getD []).length + 1 +
    ((o.fragment.getD []).takeWhile (· = 35)).length) ((o.fragment.getD []).dropWhile (· = 35))

/-- The loop over the whole URL. -/
theorem OriginForm.WellFormed.loop {o : OriginForm} (h : o.WellFormed) :
    ∃ y, urlLoop 0 (urlStart false) o.text = some y ∧ y.url = o.url := by
  obtain ⟨path, query, fragment⟩ := o
  have hquery : ∃ y, urlLoop 0 (urlStart false)
        (path ++ (query.map fun q => 63 :: q).getD []) = some y ∧
      parseUrlChar y.s 35 = .reqFragmentStart ∧ y.oldUf ≠ some .fragment ∧
      y.url = (HttpParserUrl.empty.setPart .path 0 path).setPart .query (path.length + 1)
        (query.getD []) := by
    rw [urlLoop_append, urlLoop_path h.start, Option.bind_some, Nat.zero_add]
    cases query with
    | none => exact ⟨_, rfl, rfl, by rintro ⟨⟩, rfl⟩
    | some q =>
      obtain ⟨y, hloop, hs, hold, -, hurl⟩ := urlLoop_query (x := ⟨.reqPath, some .path, false, _⟩)
        rfl rfl (h.query q rfl) path.length
      exact ⟨y, hloop, hs, hold, hurl⟩
  obtain ⟨y, hloop, hs, hold, hurl⟩ := hquery
  rw [OriginForm.text, ← List.append_assoc, urlLoop_append, hloop, Option.bind_some, Nat.zero_add,
    List.length_append]
  cases fragment with
  | none => exact ⟨y, rfl, hurl⟩
  | some f =>
    obtain ⟨z, hz, -, hzurl⟩ := urlLoop_fragment hs hold (h.fragment f rfl)
      (path.length + ((query.map fun q => 63 :: q).getD []).length)
    exact ⟨z, hz, by rw [hzurl, hurl]; rfl⟩

theorem OriginForm.url_other (o : OriginForm) {f : UrlField} (hp : f ≠ .path) (hq : f ≠ .query)
    (hf : f ≠ .fragment) : o.url.field f = none := by
  rw [OriginForm.url, HttpParserUrl.setPart_other _ hf, HttpParserUrl.setPart_other _ hq,
    HttpParserUrl.setPart_other _ hp]
  rfl

theorem OriginForm.WellFormed.parse {o : OriginForm} (h : o.WellFormed) :
    httpParserParseUrl o.text false = .parsed o.url := by
  obtain ⟨y, hloop, hurl⟩ := h.loop
  have hschema := o.url_other (f := .schema) (by decide) (by decide) (by decide)
  have hhost := o.url_other (f := .host) (by decide) (by decide) (by decide)
  have hport := o.url_other (f := .port) (by decide) (by decide) (by decide)
  unfold httpParserParseUrl
  simp only [hloop, hurl, hschema, hhost, HttpParserUrl.check, hport, Option.isSome_none,
    Bool.or_self, Bool.false_and, Bool.false_eq_true, if_false]

end Origin

section Accepted

variable {s : State} {bs : Bytes}

theorem parseUrlChar_other {c : UInt8} (h : parseUrlChar s c ≠ .dead)
    (hs : s = .reqPath ∨ s = .reqQueryStringStart ∨ s = .reqQueryString ∨ s = .reqFragmentStart ∨
      s = .reqFragment) : isUrlChar c = true ∨ c = 63 ∨ c = 35 := by
  by_contra hno
  obtain ⟨hurl, hquery, hfragment⟩ : isUrlChar c = false ∧ c ≠ 63 ∧ c ≠ 35 := by
    rw [not_or, not_or, Bool.not_eq_true] at hno
    exact hno
  apply h
  unfold parseUrlChar
  obtain rfl | rfl | rfl | rfl | rfl := hs <;> simp [hurl, hquery, hfragment]

/-- What follows a number sign. -/
theorem fragment_chars (hs : s = .reqFragmentStart ∨ s = .reqFragment)
    (h : (bs.foldl parseUrlChar s).endsUrl = true) :
    ∀ c ∈ bs, isUrlChar c = true ∨ c = 63 ∨ c = 35 := by
  induction bs generalizing s with
  | nil => exact fun c hc => absurd hc List.not_mem_nil
  | cons c bs ih =>
    have hchar := parseUrlChar_other (foldl_alive h) (by tauto)
    intro c' hc'
    obtain rfl | hc' := List.mem_cons.mp hc'
    · exact hchar
    · exact ih (parseUrlChar_inFragment hs hchar) h c' hc'

/-- What follows a question mark. -/
theorem query_chars (hs : s = .reqQueryStringStart ∨ s = .reqQueryString)
    (h : (bs.foldl parseUrlChar s).endsUrl = true) :
    ∃ (query : Bytes) (fragment : Option Bytes),
      bs = query ++ (fragment.map fun f => 35 :: f).getD [] ∧
      (∀ c ∈ query, isUrlChar c = true ∨ c = 63) ∧
      ∀ f ∈ fragment, ∀ c ∈ f, isUrlChar c = true ∨ c = 63 ∨ c = 35 := by
  induction bs generalizing s with
  | nil => exact ⟨[], none, rfl, by simp, by simp⟩
  | cons c bs ih =>
    have hplain : isUrlChar c = true ∨ c = 63 ∨ c = 35 :=
      parseUrlChar_other (foldl_alive h) (by tauto)
    by_cases hc : c = 35
    · subst hc
      have hnext : parseUrlChar s 35 = .reqFragmentStart := by obtain rfl | rfl := hs <;> rfl
      rw [List.foldl_cons, hnext] at h
      refine ⟨[], some bs, rfl, by simp, ?_⟩
      rintro f ⟨⟩
      exact fragment_chars (.inl rfl) h
    · have hquery : isUrlChar c = true ∨ c = 63 := by tauto
      rw [List.foldl_cons, parseUrlChar_query hs hquery] at h
      obtain ⟨query, fragment, rfl, hchars, hfragment⟩ := ih (.inr rfl) h
      refine ⟨c :: query, fragment, rfl, ?_, hfragment⟩
      intro c' hc'
      obtain rfl | hc' := List.mem_cons.mp hc'
      · exact hquery
      · exact hchars c' hc'

/-- A path and what follows it. -/
theorem path_chars (h : (bs.foldl parseUrlChar .reqPath).endsUrl = true) :
    ∃ (path : Bytes) (query fragment : Option Bytes),
      bs = path ++ ((query.map fun q => 63 :: q).getD [] ++
        (fragment.map fun f => 35 :: f).getD []) ∧
      (∀ c ∈ path, isUrlChar c = true) ∧
      (∀ q ∈ query, ∀ c ∈ q, isUrlChar c = true ∨ c = 63) ∧
      ∀ f ∈ fragment, ∀ c ∈ f, isUrlChar c = true ∨ c = 63 ∨ c = 35 := by
  induction bs with
  | nil => exact ⟨[], none, none, rfl, by simp, by simp, by simp⟩
  | cons c bs ih =>
    obtain hc | rfl | rfl := parseUrlChar_other (foldl_alive h) (.inl rfl)
    · rw [List.foldl_cons, parseUrlChar_path hc] at h
      obtain ⟨path, query, fragment, rfl, hpath, hrest⟩ := ih h
      refine ⟨c :: path, query, fragment, rfl, ?_, hrest⟩
      intro c' hc'
      obtain rfl | hc' := List.mem_cons.mp hc'
      · exact hc
      · exact hpath c' hc'
    · obtain ⟨query, fragment, rfl, hquery, hfragment⟩ := query_chars (.inl rfl) h
      refine ⟨[], some query, fragment, rfl, by simp, ?_, hfragment⟩
      rintro q ⟨⟩
      exact hquery
    · refine ⟨[], none, some bs, rfl, by simp, by simp, ?_⟩
      rintro f ⟨⟩
      exact fragment_chars (.inl rfl) h

/-- A URL that the parser takes and that starts with its path has that form. -/
theorem exists_originForm {m : Method} (hm : m ≠ .connect) {url : Bytes}
    (h : validUrl m url = true) (hfirst : url.head? = some 47 ∨ url.head? = some 42) :
    ∃ o : OriginForm, o.WellFormed ∧ o.text = url := by
  cases url with
  | nil => simp at hfirst
  | cons ch url =>
    have hch : ch = 47 ∨ ch = 42 := hfirst.imp Option.some.inj Option.some.inj
    have hpath : parseUrlChar .reqSpacesBeforeUrl ch = .reqPath := by obtain rfl | rfl := hch <;> rfl
    rw [validUrl, if_neg hm, List.foldl_cons, hpath] at h
    obtain ⟨path, query, fragment, rfl, hchars, hquery, hfragment⟩ := path_chars h
    exact ⟨⟨ch :: path, query, fragment⟩, ⟨⟨ch, path, rfl, hch, hchars⟩, hquery, hfragment⟩, rfl⟩

/-- The parser takes every URL of that form. -/
theorem OriginForm.WellFormed.valid {o : OriginForm} (h : o.WellFormed) {m : Method}
    (hm : m ≠ .connect) : validUrl m o.text = true := by
  obtain ⟨path, query, fragment⟩ := o
  obtain ⟨ch, rest, rfl, hch, hrest⟩ := h.start
  have hpath : (ch :: rest).foldl parseUrlChar .reqSpacesBeforeUrl = .reqPath := by
    have hfirst : parseUrlChar .reqSpacesBeforeUrl ch = .reqPath := by
      obtain rfl | rfl := hch <;> rfl
    rw [List.foldl_cons, hfirst]
    exact List.foldlRecOn rest parseUrlChar (motive := (· = .reqPath)) rfl
      (fun s hs c hc => by rw [hs, parseUrlChar_path (hrest c hc)])
  have hquery : ∀ s, s = ((query.map fun q => 63 :: q).getD []).foldl parseUrlChar .reqPath →
      s = .reqPath ∨ s = .reqQueryStringStart ∨ s = .reqQueryString := by
    rintro s rfl
    cases query with
    | none => exact .inl rfl
    | some q =>
      refine .inr (List.foldlRecOn q parseUrlChar
        (motive := fun s => s = .reqQueryStringStart ∨ s = .reqQueryString) (.inl rfl) ?_)
      exact fun s hs c hc => .inr (parseUrlChar_query hs (h.query q rfl c hc))
  rw [validUrl, if_neg hm, OriginForm.text, List.foldl_append, hpath, List.foldl_append]
  have hs := hquery _ rfl
  cases fragment with
  | none =>
    show State.endsUrl (((query.map fun q => 63 :: q).getD []).foldl parseUrlChar .reqPath) = true
    obtain hs | hs | hs := hs <;> rw [hs] <;> rfl
  | some f =>
    have hsign : parseUrlChar (((query.map fun q => 63 :: q).getD []).foldl parseUrlChar .reqPath)
        35 = .reqFragmentStart := by
      obtain hs | hs | hs := hs <;> rw [hs] <;> rfl
    show (f.foldl parseUrlChar (parseUrlChar _ 35)).endsUrl = true
    rw [hsign]
    have hend := List.foldlRecOn f parseUrlChar
      (motive := fun s => s = .reqFragmentStart ∨ s = .reqFragment) (.inl rfl)
      (fun s hs c hc => parseUrlChar_inFragment hs (h.fragment f rfl c hc))
    obtain hend | hend := hend <;> rw [hend] <;> rfl

end Accepted

section Result

variable {o : OriginForm} {unknown : Bytes → Bool → Option ParsedURL}

theorem OriginForm.url_path (hne : o.path ≠ []) :
    o.url.field .path = some ⟨0, o.path.length.toUInt16⟩ := by
  rw [OriginForm.url, HttpParserUrl.setPart_other _ (by decide),
    HttpParserUrl.setPart_other _ (by decide), HttpParserUrl.setPart, if_neg hne]
  exact HttpParserUrl.set_field _ _ _

theorem OriginForm.url_query : o.url.field .query = if o.query.getD [] = [] then none
    else some ⟨(o.path.length + 1).toUInt16, (o.query.getD []).length.toUInt16⟩ := by
  rw [OriginForm.url, HttpParserUrl.setPart_other _ (by decide), HttpParserUrl.setPart]
  split
  · rw [HttpParserUrl.setPart_other _ (by decide)]
    rfl
  · exact HttpParserUrl.set_field _ _ _

theorem toNat_toUInt16 (n : Nat) : n.toUInt16.toNat = n % 65536 := UInt16.toNat_ofNat'

/-- The path and the query of a URL, as the offsets and lengths of 16 bits show them. -/
theorem OriginForm.WellFormed.parsed (h : o.WellFormed) :
    luawParseUrl unknown o.text false = some
      ⟨some (o.path.take (o.path.length % 65536)),
        if o.query.getD [] = [] then none
        else some ((o.text.drop ((o.path.length + 1) % 65536)).take
          ((o.query.getD []).length % 65536))⟩ := by
  have hne : o.path ≠ [] := by
    obtain ⟨ch, rest, hpath, -⟩ := h.start
    rw [hpath]
    exact List.cons_ne_nil ch rest
  have hpath : o.url.part o.text .path = some (o.path.take (o.path.length % 65536)) := by
    rw [HttpParserUrl.part, OriginForm.url_path hne]
    show some ((o.text.drop 0).take o.path.length.toUInt16.toNat) = _
    rw [toNat_toUInt16, List.drop_zero, OriginForm.text,
      List.take_append_of_le_length (Nat.mod_le _ _)]
  have hquery : o.url.part o.text .query = if o.query.getD [] = [] then none
      else some ((o.text.drop ((o.path.length + 1) % 65536)).take
        ((o.query.getD []).length % 65536)) := by
    rw [HttpParserUrl.part, OriginForm.url_query]
    split
    · rfl
    · show some ((o.text.drop (o.path.length + 1).toUInt16.toNat).take
        (o.query.getD []).length.toUInt16.toNat) = _
      rw [toNat_toUInt16, toNat_toUInt16]
  rw [luawParseUrl, h.parse]
  show some (ParsedURL.mk _ _) = _
  rw [hpath, hquery]

/-- A short URL is split where its parts are. -/
theorem OriginForm.WellFormed.parsed_short (h : o.WellFormed) (hshort : o.text.length < 65536) :
    luawParseUrl unknown o.text false = some
      ⟨some o.path, if o.query.getD [] = [] then none else o.query⟩ := by
  have hlength : o.text.length = o.path.length +
      (((o.query.map fun q => 63 :: q).getD []).length +
        ((o.fragment.map fun f => 35 :: f).getD []).length) := by
    rw [OriginForm.text, List.length_append, List.length_append]
  rw [h.parsed, Nat.mod_eq_of_lt (by omega), List.take_length]
  obtain ⟨path, _ | query, fragment⟩ := o
  · rfl
  · dsimp only [Option.getD_some, Option.map_some, List.length_cons] at hlength ⊢
    rw [Nat.mod_eq_of_lt (by omega), Nat.mod_eq_of_lt (by omega)]
    split
    · rfl
    · have hdrop : (OriginForm.text ⟨path, some query, fragment⟩).drop (path.length + 1) =
          query ++ (fragment.map fun f => 35 :: f).getD [] := by
        simp [OriginForm.text]
      rw [hdrop, List.take_left]

end Result

section Reference

/-- What stands before the first question mark and the first number sign. -/
def pathOf (url : Bytes) : Bytes := url.takeWhile fun c => c ≠ 63 && c ≠ 35

/-- What stands between the first question mark and the first number sign. -/
def queryOf (url : Bytes) : Option Bytes :=
  match url.dropWhile fun c => c ≠ 63 && c ≠ 35 with
  | 63 :: rest =>
    let query := rest.takeWhile fun c => c ≠ 35
    if query = [] then none else some query
  | _ => none

variable {o : OriginForm} {unknown : Bytes → Bool → Option ParsedURL}

theorem isUrlChar_inside {c : UInt8} (h : isUrlChar c = true) : (c ≠ 63 && c ≠ 35) = true := by
  unfold isUrlChar at h
  simp only [Bool.and_eq_true, decide_eq_true_eq] at h ⊢
  exact ⟨h.2, h.1.2⟩

theorem OriginForm.WellFormed.path_inside (h : o.WellFormed) :
    ∀ c ∈ o.path, (c ≠ 63 && c ≠ 35) = true := by
  obtain ⟨ch, rest, hpath, hch, hrest⟩ := h.start
  intro c hc
  rw [hpath] at hc
  obtain rfl | hc := List.mem_cons.mp hc
  · obtain rfl | rfl := hch <;> decide
  · exact isUrlChar_inside (hrest c hc)

theorem OriginForm.WellFormed.pathOf_text (h : o.WellFormed) : pathOf o.text = o.path := by
  rw [pathOf, OriginForm.text, List.takeWhile_append_of_pos h.path_inside]
  have hstop : ((o.query.map fun q => 63 :: q).getD [] ++
      (o.fragment.map fun f => 35 :: f).getD []).takeWhile (fun c => c ≠ 63 && c ≠ 35) = [] := by
    obtain ⟨path, _ | query, _ | fragment⟩ := o <;> rfl
  rw [hstop, List.append_nil]

theorem OriginForm.WellFormed.queryOf_text (h : o.WellFormed) :
    queryOf o.text = if o.query.getD [] = [] then none else o.query := by
  rw [queryOf, OriginForm.text, List.dropWhile_append_of_pos h.path_inside]
  obtain ⟨path, _ | query, fragment⟩ := o
  · cases fragment <;> rfl
  · have hchars : ∀ c ∈ query, decide (c ≠ 35) = true := by
      intro c hc
      obtain hurl | rfl := h.query query rfl c hc
      · exact (Bool.and_eq_true_iff.mp (isUrlChar_inside hurl)).2
      · rfl
    have hquery : (query ++ (fragment.map fun f => 35 :: f).getD []).takeWhile (fun c => c ≠ 35) =
        query := by
      rw [List.takeWhile_append_of_pos hchars]
      cases fragment <;> exact List.append_nil query
    show (if (query ++ (fragment.map fun f => 35 :: f).getD []).takeWhile (fun c => c ≠ 35) = []
      then none
      else some ((query ++ (fragment.map fun f => 35 :: f).getD []).takeWhile fun c => c ≠ 35)) = _
    rw [hquery]
    rfl

/-- Every URL that the parser takes and that starts with its path is split there: into the path
and the query of a URL that is shorter than 2^16 bytes; and of a longer path, only as many bytes
are taken as its length has in 16 bits. -/
theorem luawParseUrl_eq {m : Method} (hm : m ≠ .connect) {url : Bytes}
    (h : validUrl m url = true) (hfirst : url.head? = some 47 ∨ url.head? = some 42) :
    (∃ query, luawParseUrl unknown url false =
      some ⟨some ((pathOf url).take ((pathOf url).length % 65536)), query⟩) ∧
    (url.length < 65536 → luawParseUrl unknown url false = some ⟨some (pathOf url), queryOf url⟩) := by
  obtain ⟨o, ho, rfl⟩ := exists_originForm hm h hfirst
  rw [ho.pathOf_text, ho.queryOf_text]
  exact ⟨⟨_, ho.parsed⟩, ho.parsed_short⟩

end Reference

end Luaw.Parsing
