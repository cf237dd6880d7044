import Luaw.Http.ParserReports
import Luaw.Parsing.Buffers
import Luaw.Parsing.Words

/-!
# Reading the parts of a message

`Reads p s es q`: the parser goes from `p` to `q` on the bytes of `s`, and calls back with `es`.
There is one lemma for each part of a message, and they compose.
-/

namespace Luaw.Parsing

open Http Lua

/-- The bytes are read to their end. -/
def Reads (p : Parser) (s : Bytes) (es : List Event) (q : Parser) : Prop := Feeds p s es q []

namespace Reads

variable {p q r : Parser} {s t : Bytes} {es es' : List Event} {ch : UInt8}

theorem nil (p : Parser) : Reads p [] [] p := .refl p []

theorem feeds (h : Reads p s es q) (t : Bytes) : Feeds p (s ++ t) es q t := Feeds.append h t

theorem trans (h : Reads p s es q) (h' : Reads q t es' r) : Reads p (s ++ t) (es ++ es') r :=
  (h.feeds t).trans h'

theorem cons (h : Reads p [ch] es q) (h' : Reads q t es' r) : Reads p (ch :: t) (es ++ es') r :=
  h.trans h'

/-- A byte that no callback comes of. -/
theorem next {fresh : Bool} (hmove : step p ch = some (.on q fresh)) (hq : q.state.field = none) :
    Reads p [ch] [] q := by
  have hone : (Move.on q fresh).execution ch = ⟨q, 1, .ok, none⟩ := by rw [Move.execution, hq]
  have h : Reads p [ch] (((Move.on q fresh).execution ch).event.toList ++ []) q :=
    .byte hmove rfl (by rw [hone]; exact .refl q [])
  rwa [hone] at h

/-- A byte of a field. -/
theorem piece {fresh : Bool} {f : Field} (hmove : step p ch = some (.on q fresh))
    (hq : q.state.field = some f) : Reads p [ch] [f.event [ch]] q := by
  have hone : (Move.on q fresh).execution ch = ⟨q, 1, .paused, some (f.event [ch])⟩ := by
    rw [Move.execution, hq]
  have h : Reads p [ch] (((Move.on q fresh).execution ch).event.toList ++ []) q :=
    .byte hmove rfl (by rw [hone]; exact .refl q [])
  rwa [hone] at h

/-- The byte behind a field. -/
theorem field {f : Field} (hmove : step p ch = some (.field f q true)) :
    Reads p [ch] [f.event []] q := .byte hmove rfl (.refl q [])

theorem empty {f : Field} (hmove : step p ch = some (.empty f q)) :
    Reads p [ch] [f.event []] q := .byte hmove rfl (.refl q [])

theorem notice {n : Notice} (hmove : step p ch = some (.notice n q true)) :
    Reads p [ch] [q.event (.notice n)] q := .byte hmove rfl (.refl q [])

end Reads

/-- There is room for `n` more bytes of a header. -/
def Parser.Room (p : Parser) (n : Nat) : Prop := p.nread + n ≤ httpMaxHeaderSize

/-- A byte of a header is counted. -/
theorem step_header {p : Parser} (hheader : p.state.parsingHeader = true) (hroom : p.Room 1)
    (ch : UInt8) : step p ch = (byte { p with nread := p.nread + 1 } ch 1).move p.state := by
  have hcount : p.countByte = { p with nread := p.nread + 1 } := if_pos hheader
  rw [step, if_neg, hcount]
  rintro ⟨-, hlt⟩
  rw [hcount] at hlt
  exact absurd hroom (Nat.not_le.mpr hlt)

theorem reads_next {p q : Parser} {s : State} {ch : UInt8} (hs : p.state = s)
    (hheader : s.parsingHeader = true) (hroom : p.Room 1)
    (hbyte : byte { p with nread := p.nread + 1 } ch 1 = .next q) (hq : q.state.field = none) :
    Reads p [ch] [] q :=
  .next (by rw [step_header (by rwa [hs]) hroom, hbyte]; rfl) hq

section Literals

/-- The byte only leads from one state to another. -/
structure Turns (s : State) (ch : UInt8) (s' : State) : Prop where
  header : s.parsingHeader = true
  plain : s'.field = none
  byte : ∀ p : Parser, p.state = s → byte p ch 1 = .next { p with state := s' }

inductive TurnsAll : State → Bytes → State → Prop where
  | nil (s : State) : TurnsAll s [] s
  | cons {s s₁ s' : State} {ch : UInt8} {bs : Bytes} (hturn : Turns s ch s₁)
      (hrest : TurnsAll s₁ bs s') : TurnsAll s (ch :: bs) s'

theorem TurnsAll.reads {s s' : State} {bs : Bytes} (h : TurnsAll s bs s') {p : Parser}
    (hs : p.state = s) (hroom : p.Room bs.length) :
    Reads p bs [] { p with state := s', nread := p.nread + bs.length } := by
  induction h generalizing p with
  | nil s =>
    subst hs
    exact .nil p
  | @cons s s₁ s' ch bs hturn hrest ih =>
    rw [List.length_cons] at hroom
    have hfirst : Reads p [ch] [] { p with state := s₁, nread := p.nread + 1 } :=
      reads_next hs hturn.header (by unfold Parser.Room at hroom ⊢; omega)
        (hturn.byte _ hs) hturn.plain
    have hmore := @ih { p with state := s₁, nread := p.nread + 1 } rfl
      (by unfold Parser.Room at hroom ⊢; dsimp only; omega)
    have hall := hfirst.cons hmore
    rw [List.length_cons, Nat.add_comm bs.length, ← Nat.add_assoc]
    exact hall

theorem turns_expect {s s' : State} {c : UInt8} (hheader : s.parsingHeader = true)
    (hplain : s'.field = none)
    (hbyte : ∀ p : Parser, p.state = s → ∀ ch, byte p ch 1 = expect p ch c s') : Turns s c s' :=
  ⟨hheader, hplain, fun p hp => by rw [hbyte p hp, expect, if_neg fun hne => hne rfl]⟩

/-- What comes between the URL of a request and its version. -/
theorem turns_reqHttp : TurnsAll .reqHttpStart (text "HTTP/") .reqFirstHttpMajor := by
  have hH : Turns .reqHttpStart 72 .reqHttpH := ⟨rfl, rfl, fun p hp => by unfold byte; rw [hp]; rfl⟩
  have hT : Turns .reqHttpH 84 .reqHttpHT :=
    turns_expect rfl rfl fun p hp ch => by unfold byte; rw [hp]; rfl
  have hTT : Turns .reqHttpHT 84 .reqHttpHTT :=
    turns_expect rfl rfl fun p hp ch => by unfold byte; rw [hp]; rfl
  have hP : Turns .reqHttpHTT 80 .reqHttpHTTP :=
    turns_expect rfl rfl fun p hp ch => by unfold byte; rw [hp]; rfl
  have hslash : Turns .reqHttpHTTP 47 .reqFirstHttpMajor :=
    turns_expect rfl rfl fun p hp ch => by unfold byte; rw [hp]; rfl
  exact .cons hH (.cons hT (.cons hTT (.cons hP (.cons hslash (.nil _)))))

/-- What a response starts with, behind its first letter. -/
theorem turns_resHttp : TurnsAll .resH (text "TTP/") .resFirstHttpMajor := by
  have hT : Turns .resH 84 .resHT :=
    turns_expect rfl rfl fun p hp ch => by unfold byte; rw [hp]; rfl
  have hTT : Turns .resHT 84 .resHTT :=
    turns_expect rfl rfl fun p hp ch => by unfold byte; rw [hp]; rfl
  have hP : Turns .resHTT 80 .resHTTP :=
    turns_expect rfl rfl fun p hp ch => by unfold byte; rw [hp]; rfl
  have hslash : Turns .resHTTP 47 .resFirstHttpMajor :=
    turns_expect rfl rfl fun p hp ch => by unfold byte; rw [hp]; rfl
  exact .cons hT (.cons hTT (.cons hP (.cons hslash (.nil _))))

end Literals

section Numbers

/-- A number that the parser reads in the state `first`, digit by digit. -/
structure Numeral (first more : State) (value : Parser → Nat) (put : Parser → Nat → Parser)
    (low : Nat) : Prop where
  first_header : first.parsingHeader = true := by rfl
  more_header : more.parsingHeader = true := by rfl
  more_plain : more.field = none := by rfl
  put_state : ∀ p n, (put p n).state = p.state := by intros; rfl
  put_put : ∀ p n n', put (put p n) n' = put p n' := by intros; rfl
  put_nread : ∀ p n k, { put p n with nread := k } = put { p with nread := k } n := by intros; rfl
  value_put : ∀ p n, value (put p n) = n := by intros; rfl
  nread_put : ∀ p n, (put p n).nread = p.nread := by intros; rfl
  firstDigit : ∀ p d, p.state = first → low ≤ d → d ≤ 9 →
    byte p (48 + d).toUInt8 1 = .next (put { p with state := more } d)
  moreDigit : ∀ p d, p.state = more → d ≤ 9 → value p * 10 + d ≤ 999 →
    byte p (48 + d).toUInt8 1 = .next (put p (value p * 10 + d))

theorem Numeral.reads {first more : State} {value : Parser → Nat} {put : Parser → Nat → Parser}
    {low : Nat} (N : Numeral first more value put low) (hone : low ≤ 1) {n : Nat} (hlow : low ≤ n)
    (hn : n ≤ 999) {p : Parser} (hs : p.state = first) (hroom : p.Room (decimal n).length) :
    Reads p (decimal n) []
      (put { p with state := more, nread := p.nread + (decimal n).length } n) := by
  induction n using Nat.strong_induction_on with
  | _ n ih =>
    by_cases hsmall : n < 10
    · rw [decimal_of_lt hsmall] at hroom ⊢
      refine reads_next hs N.first_header hroom ?_ ?_
      · exact N.firstDigit { p with nread := p.nread + 1 } n hs hlow (by omega)
      · rw [N.put_state]
        exact N.more_plain
    · rw [decimal_of_le (by omega)] at hroom ⊢
      rw [List.length_append, List.length_singleton] at hroom ⊢
      have hfront := ih (n / 10) (by omega) (by omega) (by omega)
        (by unfold Parser.Room at hroom ⊢; omega)
      have hlast : n / 10 * 10 + n % 10 = n := by omega
      refine hfront.trans (reads_next (s := more) ?_ N.more_header ?_ ?_ ?_)
      · rw [N.put_state]
      · unfold Parser.Room at hroom ⊢
        rw [N.nread_put]
        dsimp only
        omega
      · rw [N.nread_put, N.put_nread, N.moreDigit _ (n % 10) (by rw [N.put_state]) (by omega)
          (by rw [N.value_put]; omega), N.value_put, N.put_put, hlast]
        rfl
      · rw [N.put_state]
        exact N.more_plain

theorem digit_toUInt8 {d : Nat} (h : d ≤ 9) :
    isNum (48 + d).toUInt8 = true ∧ digit (48 + d).toUInt8 = d ∧ (48 + d).toUInt8 ≤ 57 ∧
      (48 + d).toUInt8 ≠ 46 ∧ (48 + d).toUInt8 ≠ 32 ∧ (48 + d).toUInt8 ≠ CR ∧
      (48 + d).toUInt8 ≠ LF := by
  interval_cases d <;> decide

theorem firstVersionDigit_digit (p q : Parser) {low : UInt8} {d : Nat} (hd : d ≤ 9)
    (hlow : low ≤ (48 + d).toUInt8) : firstVersionDigit p (48 + d).toUInt8 low q = .next q := by
  obtain ⟨-, -, hle, -⟩ := digit_toUInt8 hd
  rw [firstVersionDigit, if_neg]
  rintro (hlt | hlt)
  · exact absurd hlow (UInt8.not_le.mpr hlt)
  · exact absurd hle (UInt8.not_le.mpr hlt)

theorem versionDigit_digit (p q : Parser) {d n : Nat} (hd : d ≤ 9) (hn : n ≤ 999) :
    versionDigit p (48 + d).toUInt8 n q = .next q := by
  rw [versionDigit, (digit_toUInt8 hd).1, if_neg (by decide), if_neg (Nat.not_lt.mpr hn)]

theorem reqMajor : Numeral .reqFirstHttpMajor .reqHttpMajor Parser.httpMajor
    (fun p n => { p with httpMajor := n }) 1 where
  firstDigit p d hp hlow hd := by
    have hone : 49 ≤ (48 + d).toUInt8 := by interval_cases d <;> decide
    have hbyte : byte p (48 + d).toUInt8 1 = reqFirstHttpMajor p (48 + d).toUInt8 := by
      unfold byte
      rw [hp]
    rw [hbyte, reqFirstHttpMajor, firstVersionDigit_digit _ _ hd hone, (digit_toUInt8 hd).2.1]
  moreDigit p d hp hd hn := by
    obtain ⟨-, hdigit, -, hdot, -⟩ := digit_toUInt8 hd
    have hbyte : byte p (48 + d).toUInt8 1 = reqHttpMajor p (48 + d).toUInt8 := by
      unfold byte
      rw [hp]
    rw [hbyte, reqHttpMajor, if_neg hdot, hdigit, versionDigit_digit _ _ hd hn]

theorem reqMinor : Numeral .reqFirstHttpMinor .reqHttpMinor Parser.httpMinor
    (fun p n => { p with httpMinor := n }) 0 where
  firstDigit p d hp _ hd := by
    have hzero : 48 ≤ (48 + d).toUInt8 := by interval_cases d <;> decide
    have hbyte : byte p (48 + d).toUInt8 1 = reqFirstHttpMinor p (48 + d).toUInt8 := by
      unfold byte
      rw [hp]
    rw [hbyte, reqFirstHttpMinor, firstVersionDigit_digit _ _ hd hzero, (digit_toUInt8 hd).2.1]
  moreDigit p d hp hd hn := by
    obtain ⟨-, hdigit, -, -, -, hcr, hlf⟩ := digit_toUInt8 hd
    have hbyte : byte p (48 + d).toUInt8 1 = reqHttpMinor p (48 + d).toUInt8 := by
      unfold byte
      rw [hp]
    rw [hbyte, reqHttpMinor, if_neg hcr, if_neg hlf, hdigit, versionDigit_digit _ _ hd hn]

theorem resMajor : Numeral .resFirstHttpMajor .resHttpMajor Parser.httpMajor
    (fun p n => { p with httpMajor := n }) 0 where
  firstDigit p d hp _ hd := by
    have hzero : 48 ≤ (48 + d).toUInt8 := by interval_cases d <;> decide
    have hbyte : byte p (48 + d).toUInt8 1 = resFirstHttpMajor p (48 + d).toUInt8 := by
      unfold byte
      rw [hp]
    rw [hbyte, resFirstHttpMajor, firstVersionDigit_digit _ _ hd hzero, (digit_toUInt8 hd).2.1]
  moreDigit p d hp hd hn := by
    obtain ⟨-, hdigit, -, hdot, -⟩ := digit_toUInt8 hd
    have hbyte : byte p (48 + d).toUInt8 1 = resHttpMajor p (48 + d).toUInt8 := by
      unfold byte
      rw [hp]
    rw [hbyte, resHttpMajor, if_neg hdot, hdigit, versionDigit_digit _ _ hd hn]

theorem resMinor : Numeral .resFirstHttpMinor .resHttpMinor Parser.httpMinor
    (fun p n => { p with httpMinor := n }) 0 where
  firstDigit p d hp _ hd := by
    have hzero : 48 ≤ (48 + d).toUInt8 := by interval_cases d <;> decide
    have hbyte : byte p (48 + d).toUInt8 1 = resFirstHttpMinor p (48 + d).toUInt8 := by
      unfold byte
      rw [hp]
    rw [hbyte, resFirstHttpMinor, firstVersionDigit_digit _ _ hd hzero, (digit_toUInt8 hd).2.1]
  moreDigit p d hp hd hn := by
    obtain ⟨-, hdigit, -, -, hspace, -⟩ := digit_toUInt8 hd
    have hbyte : byte p (48 + d).toUInt8 1 = resHttpMinor p (48 + d).toUInt8 := by
      unfold byte
      rw [hp]
    rw [hbyte, resHttpMinor, if_neg hspace, hdigit, versionDigit_digit _ _ hd hn]

theorem resStatusNumber : Numeral .resFirstStatusCode .resStatusCode Parser.statusCode
    (fun p n => { p with statusCode := n }) 0 where
  firstDigit p d hp _ hd := by
    obtain ⟨hnum, hdigit, -⟩ := digit_toUInt8 hd
    have hbyte : byte p (48 + d).toUInt8 1 = resFirstStatusCode p (48 + d).toUInt8 := by
      unfold byte
      rw [hp]
    rw [hbyte, resFirstStatusCode, hnum, if_neg (by decide), hdigit]
  moreDigit p d hp hd hn := by
    obtain ⟨hnum, hdigit, -⟩ := digit_toUInt8 hd
    have hbyte : byte p (48 + d).toUInt8 1 = resStatusCode p (48 + d).toUInt8 := by
      unfold byte
      rw [hp]
    rw [hbyte, resStatusCode, hnum, if_neg (by decide), hdigit, if_neg (Nat.not_lt.mpr hn)]

end Numbers

section Fields

/-- A field that comes byte by byte. -/
def pieces (f : Field) (s : Bytes) : List Event := s.map fun ch => f.event [ch]

/-- A field that comes byte by byte, with the byte behind it. -/
def fieldEvents (f : Field) (s : Bytes) : List Event := pieces f s ++ [f.event []]

/-- The bytes of a field keep to it, and to what `Inv` says of the ones that are to come. -/
theorem reads_pieces {f : Field} (Inv : Bytes → Parser → Prop)
    (hfield : ∀ {rest p}, Inv rest p → p.state.field = some f)
    (hbyte : ∀ {ch rest p}, Inv (ch :: rest) p → ∃ q, step p ch = some (.on q false) ∧ Inv rest q)
    (s : Bytes) {p : Parser} (h : Inv s p) : ∃ q, Reads p s (pieces f s) q ∧ Inv [] q := by
  induction s generalizing p with
  | nil => exact ⟨p, .nil p, h⟩
  | cons ch s ih =>
    obtain ⟨q, hmove, hq⟩ := hbyte h
    obtain ⟨r, hreads, hr⟩ := ih hq
    exact ⟨r, (Reads.piece hmove (hfield hq)).cons hreads, hr⟩

theorem step_data {p q : Parser} {f : Field} {ch : UInt8} (hheader : p.state.parsingHeader = true)
    (hroom : p.Room 1) (hf : p.state.field = some f)
    (hbyte : byte { p with nread := p.nread + 1 } ch 1 = .data f q) :
    step p ch = some (.field f q true) := by
  rw [step_header hheader hroom, hbyte]
  exact congrArg some (if_pos hf)

theorem step_next {p q : Parser} {ch : UInt8} (hheader : p.state.parsingHeader = true)
    (hroom : p.Room 1) (hbyte : byte { p with nread := p.nread + 1 } ch 1 = .next q) :
    step p ch = some (.on q false) := by
  rw [step_header hheader hroom, hbyte]
  rfl

theorem step_mark {p q : Parser} {f : Field} {ch : UInt8} (hheader : p.state.parsingHeader = true)
    (hroom : p.Room 1) (hbyte : byte { p with nread := p.nread + 1 } ch 1 = .mark f q) :
    step p ch = some (.on q true) := by
  rw [step_header hheader hroom, hbyte]
  rfl

end Fields

section RequestLine

/-- The states in which the space behind a URL may come. -/
def State.endsUrl : State → Bool
  | .reqServer | .reqServerWithAt | .reqPath | .reqQueryStringStart | .reqQueryString
  | .reqFragmentStart | .reqFragment => true
  | _ => false

/-- The URL is one that the parser reads in a request with the method. -/
def validUrl (m : Method) (url : Bytes) : Bool :=
  (url.foldl parseUrlChar (if m = .connect then .reqServerStart else .reqSpacesBeforeUrl)).endsUrl

theorem parseUrlChar_dead (url : Bytes) : url.foldl parseUrlChar .dead = .dead := by
  induction url with
  | nil => rfl
  | cons ch url ih =>
    have hdead : parseUrlChar .dead ch = .dead := by
      unfold parseUrlChar
      split_ifs <;> rfl
    rw [List.foldl_cons, hdead, ih]

/-- A byte that the URL goes on with. -/
theorem parseUrlChar_alive {s : State} {ch : UInt8} (h : parseUrlChar s ch ≠ .dead) :
    ch ≠ 32 ∧ ch ≠ CR ∧ ch ≠ LF := by
  unfold parseUrlChar at h
  split at h
  · exact absurd rfl h
  · next hno =>
    rw [not_or, not_or] at hno
    exact hno

theorem foldl_alive {s : State} {ch : UInt8} {url : Bytes}
    (h : ((ch :: url).foldl parseUrlChar s).endsUrl = true) : parseUrlChar s ch ≠ .dead := by
  intro hdead
  rw [List.foldl_cons, hdead, parseUrlChar_dead] at h
  cases h

theorem byte_url {p : Parser} (hf : p.state.field = some .url) {ch : UInt8}
    (h : parseUrlChar p.state ch ≠ .dead) (n : Nat) :
    byte p ch n = .next { p with state := parseUrlChar p.state ch } := by
  obtain ⟨hspace, hcr, hlf⟩ := parseUrlChar_alive h
  have hchar : urlChar p ch = .next { p with state := parseUrlChar p.state ch } := by
    unfold urlChar
    exact if_neg h
  have hschema : reqSchema p ch = .next { p with state := parseUrlChar p.state ch } := by
    rw [reqSchema, if_neg (by simp [hspace, hcr, hlf]), hchar]
  have hserver : reqServer p ch = .next { p with state := parseUrlChar p.state ch } := by
    rw [reqServer, if_neg hspace, if_neg (by simp [hcr, hlf]), hchar]
  unfold byte
  cases hs : p.state <;> rw [hs] at hf hschema hserver <;> cases hf
  all_goals first
    | exact hschema
    | exact hserver

theorem byte_urlEnd {p : Parser} (h : p.state.endsUrl = true) (n : Nat) :
    byte p 32 n = .data .url { p with state := .reqHttpStart } := by
  unfold byte
  cases hs : p.state <;> rw [hs] at h <;> cases h <;> rfl

theorem field_header {s : State} {f : Field} (h : s.field = some f) : s.parsingHeader = true := by
  revert h
  cases s <;> cases f <;> decide

/-- A URL and the space behind it. -/
theorem reads_url {p : Parser} (hs : p.state = .reqSpacesBeforeUrl) {url : Bytes}
    (hvalid : validUrl p.method url = true) (hroom : p.Room (url.length + 1)) :
    Reads p (url ++ [32]) (fieldEvents .url url)
      { p with state := .reqHttpStart, nread := p.nread + (url.length + 1) } := by
  let start : State := if p.method = .connect then .reqServerStart else .reqSpacesBeforeUrl
  cases url with
  | nil =>
    unfold validUrl at hvalid
    split at hvalid <;> cases hvalid
  | cons ch rest =>
    have halive : parseUrlChar start ch ≠ .dead := foldl_alive hvalid
    obtain ⟨hspace, -, -⟩ := parseUrlChar_alive halive
    have hfield : (parseUrlChar start ch).field = some .url :=
      ((parseUrlChar_field start ch).resolve_left halive).1
    rw [List.length_cons] at hroom
    let first : Parser := { p with state := parseUrlChar start ch, nread := p.nread + 1 }
    have hmark : Reads p [ch] (pieces .url [ch]) first := by
      refine .piece (step_mark (f := .url) (by rw [hs]; rfl)
        (by unfold Parser.Room at hroom ⊢; omega) ?_) hfield
      unfold byte
      dsimp only
      rw [hs]
      dsimp only
      unfold reqSpacesBeforeUrl
      rw [if_neg hspace]
      exact if_neg halive
    -- the state of the automaton goes with the bytes that are to come
    obtain ⟨q, hrest, s, rfl, hend⟩ := reads_pieces (f := .url)
      (fun left q => ∃ s : State, q =
          { p with state := s, nread := p.nread + (rest.length - left.length + 1) } ∧
        s.field = some .url ∧ (left.foldl parseUrlChar s).endsUrl = true ∧
        left.length ≤ rest.length)
      (by rintro left q ⟨s, rfl, hs, -⟩; exact hs)
      (by
        rintro c left q ⟨s, rfl, hfield, hends, hle⟩
        rw [List.length_cons] at hle
        have halive := foldl_alive hends
        have hnext : (parseUrlChar s c).field = some .url :=
          ((parseUrlChar_field s c).resolve_left halive).1
        refine ⟨_, step_next (field_header hfield) ?_ (byte_url hfield halive 1),
          parseUrlChar s c, ?_, hnext, hends, by omega⟩
        · unfold Parser.Room at hroom ⊢
          show p.nread + (rest.length - (left.length + 1) + 1) + 1 ≤ _
          omega
        · have hcount : rest.length - (left.length + 1) + 1 + 1 = rest.length - left.length + 1 := by
            omega
          simp only [List.length_cons, Nat.add_assoc, ← hcount])
      rest (p := first) ⟨parseUrlChar start ch, by simp [first], hfield, hvalid, le_rfl⟩
    have hlast : Reads { p with state := s, nread := p.nread + (rest.length - 0 + 1) } [32]
        [Field.url.event []]
        { p with state := .reqHttpStart, nread := p.nread + (rest.length + 1 + 1) } := by
      refine .field (step_data (field_header hend.1) ?_ hend.1 (byte_urlEnd hend.2.1 1))
      unfold Parser.Room at hroom ⊢
      omega
    exact (hmark.trans hrest).trans hlast

/-- A method and the space behind it. -/
theorem reads_method {p : Parser} (hs : p.state = .startReq) (m : Method)
    (hroom : p.Room (m.str.length + 1)) :
    Reads p (m.str ++ [32]) [.messageBegin] { p.clear with
      method := m
      index := m.str.length + 1
      state := .reqSpacesBeforeUrl
      nread := p.nread + (m.str.length + 1) } := by
  obtain ⟨ch, rest, m₀, hstr, hfirst, hletters⟩ := methodLetters_str m
  have hlength : m.str.length = rest.length + 1 := by rw [hstr]; rfl
  obtain ⟨hline, halpha⟩ := ofFirst_alpha hfirst
  have hbegin : Reads p [ch] [.messageBegin] { p.clear with
      method := m₀, index := 1, state := .reqMethod, nread := p.nread + 1 } := by
    refine .notice (n := .messageBegin) ?_
    rw [step_header (by rw [hs]; rfl) (by unfold Parser.Room at hroom ⊢; omega)]
    have hbyte : byte { p with nread := p.nread + 1 } ch 1 =
        startReq { p with nread := p.nread + 1 } ch := by
      unfold byte
      dsimp only
      rw [hs]
    rw [hbyte, startReq, if_neg hline, halpha, if_neg (by decide), hfirst]
    rfl
  -- each letter leads to a method that has the letters so far
  have hrest : ∀ (s : Bytes) (m₁ : Method) (index k : Nat), k + s.length = rest.length →
      methodLetters (m₁, index) s = some (m, m.str.length) →
      Reads { p.clear with
          method := m₁, index := index, state := .reqMethod, nread := p.nread + (k + 1) } s []
        { p.clear with
          method := m
          index := m.str.length
          state := .reqMethod
          nread := p.nread + (rest.length + 1) } := by
    intro s
    induction s with
    | nil =>
      intro m₁ index k hk h
      cases h
      rw [← hk]
      exact .nil _
    | cons c s ih =>
      intro m₁ index k hk h
      rw [List.length_cons] at hk
      obtain ⟨⟨m₂, index'⟩, hletter, hmore⟩ := Option.bind_eq_some_iff.mp h
      refine Reads.cons (reads_next rfl rfl ?_ ?_ rfl) (ih m₂ index' (k + 1) (by omega) hmore)
      · unfold Parser.Room at hroom ⊢
        show p.nread + (k + 1) + 1 ≤ _
        omega
      · exact reqMethod_letter (p := { p.clear with
          method := m₁, index := index, state := .reqMethod, nread := p.nread + (k + 1) + 1 }) hletter
  have hspace : Reads { p.clear with
        method := m
        index := m.str.length
        state := .reqMethod
        nread := p.nread + (rest.length + 1) } [32] []
      { p.clear with
        method := m
        index := m.str.length + 1
        state := .reqSpacesBeforeUrl
        nread := p.nread + (m.str.length + 1) } := by
    rw [hlength] at hroom
    refine reads_next rfl rfl hroom ?_ rfl
    have hzero : charAt m.str m.str.length = some 0 := by
      rw [charAt, List.getElem?_append_right le_rfl, Nat.sub_self]
      rfl
    show reqMethod _ 32 = _
    unfold reqMethod
    dsimp only
    rw [if_neg (by decide), hzero]
    dsimp only
    rw [if_pos ⟨rfl, rfl⟩, hlength]
    rfl
  rw [hstr, List.cons_append]
  rw [hstr] at hspace hrest
  exact hbegin.cons ((hrest rest m₀ 1 0 (Nat.zero_add _) (by rw [← hstr]; exact hletters)).trans hspace)

end RequestLine

end Luaw.Parsing
