import Luaw.Parsing.Reading

/-!
# Reading the headers

What a header field says to the parser is a function of its name and its value, whatever the letter
case: `Head.field`. A header line has this effect, and reports the name and the value.
-/

namespace Luaw.Parsing

open Http Lua

/-- What the headers have said. -/
structure Head where
  flags : Flags
  contentLength : Nat
  deriving DecidableEq

namespace Head

/-- What the end of the line makes of a value. -/
def mark (h : Head) : HeaderState → Head
  | .connectionKeepAlive => { h with flags.connectionKeepAlive := true }
  | .connectionClose => { h with flags.connectionClose := true }
  | .transferEncodingChunked => { h with flags.chunked := true }
  | _ => h

/-- What the value of a header says, if its length is not refused. -/
def value (h : Head) (name : HeaderState) (v : Bytes) : Option Head :=
  if v = [] then some h
  else
    match name with
    | .upgrade => some { h with flags.upgrade := true }
    | .contentLength => (lengthOf v).map fun n => { h with contentLength := n }
    | _ => some (h.mark (name.ofValue v))

def field (h : Head) (f : Bytes × Bytes) : Option Head := h.value (.ofName f.1) f.2

def fields (h : Head) (fs : List (Bytes × Bytes)) : Option Head := fs.foldlM field h

end Head

def Parser.head (p : Parser) : Head := ⟨p.flags, p.contentLength⟩

def Parser.withHead (p : Parser) (h : Head) : Parser :=
  { p with flags := h.flags, contentLength := h.contentLength }

/-- The name is a token, and the value one line that does not start with a blank. -/
structure Proper (f : Bytes × Bytes) : Prop where
  named : f.1 ≠ []
  name : ∀ ch ∈ f.1, token ch ≠ 0
  value : ∀ ch ∈ f.2, ch ≠ CR ∧ ch ≠ LF
  start : ∀ ch ∈ f.2.head?, ch ≠ 32 ∧ ch ≠ 9

section HeaderLine

/-- The parser is in front of a header line, or of the line behind the headers. -/
def Parser.AtLine (p : Parser) : Prop := p.state = .headerFieldStart ∨ p.state = .headerValueLws

theorem token_plain {ch : UInt8} (h : token ch ≠ 0) :
    ch ≠ CR ∧ ch ≠ LF ∧ ch ≠ 32 ∧ ch ≠ 9 ∧ ch ≠ 58 := by
  refine ⟨?_, ?_, ?_, ?_, ?_⟩ <;> rintro rfl <;> exact h (by decide)

theorem byte_atLine {p : Parser} (h : p.AtLine) {ch : UInt8} (hspace : ch ≠ 32) (htab : ch ≠ 9)
    (n : Nat) : byte p ch n = headerFieldStart { p with state := .headerFieldStart } ch := by
  obtain hs | hs := h
  · unfold byte
    rw [hs]
    dsimp only
    rw [← hs]
  · unfold byte
    rw [hs]
    dsimp only
    rw [headerValueLws, if_neg (by simp [hspace, htab])]

theorem AtLine.header {p : Parser} (h : p.AtLine) : p.state.parsingHeader = true := by
  obtain hs | hs := h <;> rw [hs] <;> rfl

/-- A header name and the colon behind it. -/
theorem reads_name {p : Parser} (h : p.AtLine) {name : Bytes} (hnamed : name ≠ [])
    (hname : ∀ ch ∈ name, token ch ≠ 0) (hroom : p.Room (name.length + 1)) :
    ∃ index hs, Reads p (name ++ [58]) (fieldEvents .headerField name) { p with
        index := index
        headerState := hs
        state := .headerValueStart
        nread := p.nread + (name.length + 1) } ∧
      hs.known = .ofName name := by
  cases name with
  | nil => exact absurd rfl hnamed
  | cons ch rest =>
    have hch := hname ch List.mem_cons_self
    obtain ⟨hcr, hlf, hspace, htab, -⟩ := token_plain hch
    rw [List.length_cons] at hroom
    unfold Parser.Room at hroom
    let first : Parser := { p with
      index := 0
      headerState := .ofFirst (token ch)
      state := .headerField
      nread := p.nread + 1 }
    have hmark : Reads p [ch] (pieces .headerField [ch]) first := by
      refine .piece (step_mark (f := .headerField) (AtLine.header h)
        (by unfold Parser.Room; omega) ?_) rfl
      rw [byte_atLine (p := { p with nread := p.nread + 1 }) h hspace htab, headerFieldStart,
        if_neg hcr, if_neg hlf, if_neg hch]
    obtain ⟨q, hrest, w, index, hs, rfl, hw, hspells⟩ := reads_pieces (f := .headerField)
      (fun left q => ∃ w index hs, q = { p with
          index := index, headerState := hs, state := .headerField, nread := p.nread + w.length } ∧
        w ++ left = ch :: rest ∧ HeaderState.Spells (w.map token) index hs)
      (by rintro left q ⟨w, index, hs, rfl, -⟩; rfl)
      (by
        rintro c left q ⟨w, index, hs, rfl, hw, hspells⟩
        have hc : token c ≠ 0 := hname c (by rw [← hw]; simp)
        have hlength := congrArg List.length hw
        simp only [List.length_append, List.length_cons] at hlength
        obtain ⟨index', hs', hletter, hspells'⟩ := nameLetter_spells (p := { p with
          index := index
          headerState := hs
          state := .headerField
          nread := p.nread + w.length + 1 }) hspells hc
        refine ⟨_, step_next rfl (by unfold Parser.Room; dsimp only; omega) ?_, w ++ [c], index', hs',
          rfl, by rw [List.append_assoc]; exact hw, by rw [List.map_append]; exact hspells'⟩
        show headerField _ c = _
        rw [headerField, if_pos hc, hletter, List.length_append, ← Nat.add_assoc]
        rfl)
      rest (p := first) ⟨[ch], 0, _, rfl, rfl, ofFirst_spells (token ch)⟩
    rw [List.append_nil] at hw
    subst hw
    refine ⟨index, hs, (hmark.trans hrest).trans (.field (f := .headerField) (step_data
      (f := .headerField) rfl ?_ rfl ?_)), hspells.known_eq⟩
    · unfold Parser.Room
      rw [List.length_cons]
      exact hroom
    · show headerField _ 58 = _
      rw [headerField, if_neg (by decide), if_pos rfl]
      rfl

/-- The rest of a value and the CR behind it, where no letter is refused. -/
theorem reads_valueRest {p : Parser} {value : Bytes} (hvalue : ∀ ch ∈ value, ch ≠ CR ∧ ch ≠ LF)
    (hroom : p.Room (value.length + 1)) (Inv : Bytes → Parser → Prop)
    (hstate : ∀ {v q}, Inv v q → q.state = .headerValue ∧ q.nread = p.nread + v.length)
    (hletter : ∀ {ch v left q}, v ++ ch :: left = value → Inv v q →
      ∃ q', valueLetter { q with nread := q.nread + 1 } ch = .next q' ∧ Inv (v ++ [ch]) q')
    {v left : Bytes} (hv : v ++ left = value) {q : Parser} (hq : Inv v q) :
    ∃ q', Inv value q' ∧ Reads q (left ++ [CR]) (fieldEvents .headerValue left)
      { q' with state := .headerAlmostDone, nread := q'.nread + 1 } := by
  obtain ⟨q', hrest, w, hw, hinv⟩ := reads_pieces (f := .headerValue)
    (fun left q => ∃ v, v ++ left = value ∧ Inv v q)
    (by rintro left q ⟨v, -, hq⟩; rw [(hstate hq).1]; rfl)
    (by
      rintro c left q ⟨v, hv, hq⟩
      obtain ⟨hs, hnread⟩ := hstate hq
      obtain ⟨hcr, hlf⟩ := hvalue c (by rw [← hv]; simp)
      obtain ⟨q', hbyte, hq'⟩ := hletter hv hq
      have hlength := congrArg List.length hv
      simp only [List.length_append, List.length_cons] at hlength
      unfold Parser.Room at hroom
      refine ⟨q', step_next (by rw [hs]; rfl) (by unfold Parser.Room; omega) ?_, v ++ [c],
        by rw [List.append_assoc]; exact hv, hq'⟩
      unfold byte
      dsimp only
      rw [hs]
      dsimp only
      rw [headerValue, if_neg hcr, if_neg hlf, ← hbyte, ← hs])
    left ⟨v, hv, hq⟩
  rw [List.append_nil] at hw
  subst hw
  obtain ⟨hs, hnread⟩ := hstate hinv
  refine ⟨q', hinv, hrest.trans (.field (f := .headerValue) (step_data (f := .headerValue)
    (by rw [hs]; rfl) ?_ (by rw [hs]; rfl) ?_))⟩
  · unfold Parser.Room at hroom ⊢
    omega
  · unfold byte
    dsimp only
    rw [hs]
    dsimp only
    rw [headerValue, if_pos rfl]

theorem lengthOf_append {v : Bytes} (hv : v ≠ []) (rest : Bytes) :
    lengthOf (v ++ rest) = (lengthOf v).bind fun n => rest.foldlM lengthLetter n := by
  cases v with
  | nil => exact absurd rfl hv
  | cons ch v =>
    rw [List.cons_append, lengthOf, lengthOf]
    split
    · rw [List.foldlM_append]
      rfl
    · rfl

/-- The first byte of a value. -/
theorem reads_firstLetter {p q : Parser} (hs : p.state = .headerValueStart) {ch : UInt8}
    (hblank : ch ≠ 32 ∧ ch ≠ 9) (hline : ch ≠ CR ∧ ch ≠ LF) (hroom : p.Room 1)
    (hletter : firstValueLetter { p with state := .headerValue, index := 0, nread := p.nread + 1 } ch
      = .mark .headerValue q) (hq : q.state = .headerValue) :
    Reads p [ch] (pieces .headerValue [ch]) q := by
  refine .piece (f := .headerValue) (step_mark (f := .headerValue) (by rw [hs]; rfl) hroom ?_)
    (by rw [hq]; rfl)
  unfold byte
  dsimp only
  rw [hs]
  dsimp only
  rw [headerValueStart, if_neg (by simp [hblank.1, hblank.2])]
  dsimp only
  rw [if_neg hline.1, if_neg hline.2, hletter]

/-- The value of a Content-Length and the CR behind it. -/
theorem reads_length {p : Parser} (hs : p.state = .headerValueStart)
    (hname : p.headerState = .contentLength) {value : Bytes} {n : Nat}
    (hlength : lengthOf value = some n) (hvalue : ∀ ch ∈ value, ch ≠ CR ∧ ch ≠ LF)
    (hstart : ∀ ch ∈ value.head?, ch ≠ 32 ∧ ch ≠ 9) (hroom : p.Room (value.length + 1)) :
    Reads p (value ++ [CR]) (fieldEvents .headerValue value) { p with
      index := 0
      contentLength := n
      state := .headerAlmostDone
      nread := p.nread + (value.length + 1) } := by
  cases value with
  | nil => cases hlength
  | cons ch rest =>
    have hnum : isNum ch = true := by
      rw [lengthOf] at hlength
      split at hlength
      · assumption
      · cases hlength
    have hfirst := reads_firstLetter hs (hstart ch rfl) (hvalue ch List.mem_cons_self)
      (by unfold Parser.Room at hroom ⊢; rw [List.length_cons] at hroom; omega)
      (q := { p with
        state := .headerValue, index := 0, nread := p.nread + 1, contentLength := digit ch })
      (by
        unfold firstValueLetter
        dsimp only
        rw [hname]
        dsimp only
        rw [hnum, if_neg (by decide), ← hname]) rfl
    obtain ⟨q', ⟨m, rfl, hm, hne⟩, hrest⟩ := reads_valueRest (p := p) hvalue hroom
      (fun v q => ∃ m, q = { p with
          state := .headerValue, index := 0, nread := p.nread + v.length, contentLength := m } ∧
        lengthOf v = some m ∧ v ≠ [])
      (by rintro v q ⟨m, rfl, -⟩; exact ⟨rfl, rfl⟩)
      (by
        rintro c v left q hv ⟨m, rfl, hm, hne⟩
        rw [← hv, lengthOf_append hne, hm] at hlength
        obtain ⟨m', hletter, -⟩ := Option.bind_eq_some_iff.mp
          (show (lengthLetter m c).bind _ = some n from hlength)
        have hbyte := valueLetter_length (p := { p with
          state := .headerValue, index := 0, nread := p.nread + v.length + 1, contentLength := m })
          hname c
        dsimp only at hbyte
        rw [hletter] at hbyte
        refine ⟨_, hbyte, m', ?_, ?_, List.concat_ne_nil c v⟩
        · rw [List.length_append, ← Nat.add_assoc]
          rfl
        · rw [lengthOf_append hne, hm]
          show (lengthLetter m c).bind _ = some m'
          rw [hletter]
          rfl)
      (show [ch] ++ rest = ch :: rest from rfl) ⟨digit ch, rfl, by rw [lengthOf, if_pos hnum]; rfl,
        List.cons_ne_nil _ _⟩
    rw [hlength] at hm
    cases hm
    exact hfirst.trans hrest

/-- The value of another header and the CR behind it, after what its first byte has done. -/
theorem reads_word {p : Parser} (hs : p.state = .headerValueStart) {name hs₁ : HeaderState}
    {flags : Flags} (hname : name ≠ .contentLength) {ch : UInt8} {rest : Bytes}
    (hletter : firstValueLetter { p with state := .headerValue, index := 0, nread := p.nread + 1 } ch
      = .mark .headerValue { p with
        state := .headerValue, index := 0, nread := p.nread + 1, headerState := hs₁, flags := flags })
    (hmeans : name.Means [ch] 0 hs₁) (hvalue : ∀ c ∈ ch :: rest, c ≠ CR ∧ c ≠ LF)
    (hblank : ch ≠ 32 ∧ ch ≠ 9) (hroom : p.Room ((ch :: rest).length + 1)) :
    ∃ index hs', Reads p (ch :: rest ++ [CR]) (fieldEvents .headerValue (ch :: rest)) { p with
        index := index
        headerState := hs'
        flags := flags
        state := .headerAlmostDone
        nread := p.nread + ((ch :: rest).length + 1) } ∧
      hs'.told = name.ofValue (ch :: rest) := by
  have hfirst := reads_firstLetter hs hblank (hvalue ch List.mem_cons_self)
    (by unfold Parser.Room at hroom ⊢; rw [List.length_cons] at hroom; omega) hletter rfl
  obtain ⟨q', ⟨index, hs', rfl, hmeans'⟩, hrest⟩ := reads_valueRest (p := p) hvalue hroom
    (fun v q => ∃ index hs', q = { p with
        state := .headerValue
        index := index
        nread := p.nread + v.length
        headerState := hs'
        flags := flags } ∧ name.Means v index hs')
    (by rintro v q ⟨index, hs', rfl, -⟩; exact ⟨rfl, rfl⟩)
    (by
      rintro c v left q - ⟨index, hs', rfl, hmeans⟩
      obtain ⟨index', hs'', hletter, hmeans'⟩ := valueLetter_means (p := { p with
        state := .headerValue
        index := index
        nread := p.nread + v.length + 1
        headerState := hs'
        flags := flags }) c hmeans hname
      refine ⟨_, hletter, index', hs'', ?_, hmeans'⟩
      rw [List.length_append, ← Nat.add_assoc]
      rfl)
    (show [ch] ++ rest = ch :: rest from rfl) ⟨0, hs₁, rfl, hmeans⟩
  exact ⟨index, hs', hfirst.trans hrest, hmeans'.told_eq⟩

/-- A value and the CR behind it; the flags for the words come with the end of the line. -/
theorem reads_value {p : Parser} (hs : p.state = .headerValueStart) {h : Head} {value : Bytes}
    (hhead : p.head.value p.headerState.known value = some h)
    (hvalue : ∀ ch ∈ value, ch ≠ CR ∧ ch ≠ LF) (hstart : ∀ ch ∈ value.head?, ch ≠ 32 ∧ ch ≠ 9)
    (hroom : p.Room (value.length + 1)) :
    ∃ index hs' h', Reads p (value ++ [CR]) (fieldEvents .headerValue value) { p.withHead h' with
        index := index
        headerState := hs'
        state := .headerAlmostDone
        nread := p.nread + (value.length + 1) } ∧
      h'.mark hs'.told = h := by
  cases value with
  | nil =>
    cases hhead
    refine ⟨0, .general, p.head, .empty (f := .headerValue) ?_, rfl⟩
    rw [step_header (by rw [hs]; rfl) hroom]
    have hbyte : byte { p with nread := p.nread + 1 } CR 1 =
        headerValueStart { p with nread := p.nread + 1 } CR := by
      unfold byte
      dsimp only
      rw [hs]
    rw [hbyte]
    rfl
  | cons ch rest =>
    have hblank := hstart ch rfl
    unfold Head.value at hhead
    rw [if_neg (List.cons_ne_nil ch rest)] at hhead
    by_cases hlength : p.headerState = .contentLength
    · rw [hlength] at hhead
      obtain ⟨n, hn, rfl⟩ := Option.map_eq_some_iff.mp hhead
      exact ⟨0, .contentLength, ⟨p.flags, n⟩, by
        rw [← hlength]; exact reads_length hs hlength hn hvalue hstart hroom, rfl⟩
    by_cases hupgrade : p.headerState = .upgrade
    · rw [hupgrade] at hhead
      cases hhead
      have hletter : firstValueLetter { p with
            state := .headerValue, index := 0, nread := p.nread + 1 } ch =
          .mark .headerValue { p with
            state := .headerValue
            index := 0
            nread := p.nread + 1
            headerState := .general
            flags := { p.flags with upgrade := true } } := by
        unfold firstValueLetter
        dsimp only
        rw [hupgrade]
      have hmeans : HeaderState.general.Means [ch] 0 .general :=
        ⟨by decide, by rintro ⟨⟩, by rintro ⟨⟩⟩
      obtain ⟨index, hs', hreads, htold⟩ :=
        reads_word hs (by decide) hletter hmeans hvalue hblank hroom
      refine ⟨index, hs', ⟨{ p.flags with upgrade := true }, p.contentLength⟩, hreads, ?_⟩
      rw [htold]
      rfl
    · obtain ⟨hs₁, hletter, hmeans⟩ := firstValueLetter_means (p := { p with
        state := .headerValue, index := 0, nread := p.nread + 1 }) ch rfl hlength hupgrade
      have hknown : p.headerState.known ≠ .contentLength ∧ p.headerState.known ≠ .upgrade := by
        cases hstate : p.headerState <;> rw [hstate] at hlength hupgrade <;>
          first | exact absurd rfl hlength | exact absurd rfl hupgrade | decide
      obtain ⟨index, hs', hreads, htold⟩ := reads_word hs hknown.1 hletter hmeans hvalue hblank hroom
      refine ⟨index, hs', p.head, hreads, ?_⟩
      rw [htold]
      split at hhead
      · next heq => exact absurd heq hknown.2
      · next heq => exact absurd heq hknown.1
      · exact Option.some.inj hhead

theorem headerAlmostDone_LF (p : Parser) :
    headerAlmostDone p LF =
      .next { p.withHead (p.head.mark p.headerState.told) with state := .headerValueLws } := by
  unfold headerAlmostDone
  rw [if_neg fun hne => hne rfl]
  dsimp only
  cases hstate : p.headerState <;>
    simp only [HeaderState.told, Head.mark, Parser.withHead, Parser.head, hstate]

/-- A header line. -/
theorem reads_headerLine {p : Parser} (hline : p.AtLine) {f : Bytes × Bytes} (hf : Proper f)
    {h : Head} (hhead : p.head.field f = some h) (hroom : p.Room (headerLine f).length) :
    ∃ index hs, Reads p (headerLine f)
      (fieldEvents .headerField f.1 ++ fieldEvents .headerValue f.2) { p.withHead h with
        index := index
        headerState := hs
        state := .headerValueLws
        nread := p.nread + (headerLine f).length } := by
  obtain ⟨name, value⟩ := f
  have hlength : (headerLine (name, value)).length = name.length + 1 + 1 + (value.length + 1) + 1 := by
    simp only [headerLine, CRLF, List.length_append, List.length_cons, List.length_nil]
    show _ + 2 + _ + _ = _
    omega
  have hbytes : headerLine (name, value) = name ++ [58] ++ ([32] ++ (value ++ [CR] ++ [LF])) := by
    simp only [headerLine, CRLF, List.append_assoc]
    rfl
  rw [hlength] at hroom ⊢
  unfold Parser.Room at hroom
  obtain ⟨index, hs, hname, hknown⟩ := reads_name hline (show name ≠ [] from hf.named) hf.name
    (by unfold Parser.Room; omega)
  have hspace : Reads { p with
        index := index
        headerState := hs
        state := .headerValueStart
        nread := p.nread + (name.length + 1) } [32] []
      { p with
        index := index
        headerState := hs
        state := .headerValueStart
        nread := p.nread + (name.length + 1) + 1 } :=
    reads_next rfl rfl (by unfold Parser.Room; dsimp only; omega) rfl rfl
  obtain ⟨index', hs', h', hvalue, hmark⟩ := reads_value (p := { p with
      index := index
      headerState := hs
      state := .headerValueStart
      nread := p.nread + (name.length + 1) + 1 }) rfl (h := h)
    (by dsimp only; rw [hknown]; exact hhead) (show ∀ ch ∈ value, ch ≠ CR ∧ ch ≠ LF from hf.value)
    hf.start
    (by unfold Parser.Room; dsimp only; omega)
  have hend : Reads { p.withHead h' with
        index := index'
        headerState := hs'
        state := .headerAlmostDone
        nread := p.nread + (name.length + 1) + 1 + (value.length + 1) } [LF] []
      { p.withHead h with
        index := index'
        headerState := hs'
        state := .headerValueLws
        nread := p.nread + (name.length + 1 + 1 + (value.length + 1) + 1) } := by
    refine reads_next rfl rfl (by unfold Parser.Room; dsimp only; omega) ?_ rfl
    show headerAlmostDone _ LF = _
    rw [headerAlmostDone_LF, ← hmark]
    simp only [Parser.withHead, Parser.head, Nat.add_assoc]
  have hall := hname.trans (hspace.trans (hvalue.trans hend))
  rw [List.nil_append, List.append_nil] at hall
  rw [hbytes]
  exact ⟨index', hs', hall⟩

/-- What a header line reports. -/
def lineEvents (f : Bytes × Bytes) : List Event :=
  fieldEvents .headerField f.1 ++ fieldEvents .headerValue f.2

theorem Head.fields_cons {h h' : Head} {f : Bytes × Bytes} {fs : List (Bytes × Bytes)}
    (hfields : h.fields (f :: fs) = some h') :
    ∃ h₁, h.field f = some h₁ ∧ h₁.fields fs = some h' := by
  rw [Head.fields, List.foldlM_cons] at hfields
  exact Option.bind_eq_some_iff.mp hfields

theorem reads_headerLines {p : Parser} (hline : p.AtLine) {fs : List (Bytes × Bytes)}
    (hfs : ∀ f ∈ fs, Proper f) {h : Head} (hhead : p.head.fields fs = some h)
    (hroom : p.Room (fs.flatMap headerLine).length) :
    ∃ index hs s, (s = .headerFieldStart ∨ s = .headerValueLws) ∧
      Reads p (fs.flatMap headerLine) (fs.flatMap lineEvents) { p.withHead h with
        index := index
        headerState := hs
        state := s
        nread := p.nread + (fs.flatMap headerLine).length } := by
  induction fs generalizing p with
  | nil =>
    cases hhead
    exact ⟨p.index, p.headerState, p.state, hline, .nil p⟩
  | cons f fs ih =>
    obtain ⟨h₁, hfirst, hrest⟩ := Head.fields_cons hhead
    rw [List.flatMap_cons, List.length_append] at hroom
    unfold Parser.Room at hroom
    obtain ⟨index, hs, hreads⟩ := reads_headerLine hline (hfs f List.mem_cons_self) hfirst
      (by unfold Parser.Room; omega)
    obtain ⟨index', hs', s, hs'', hmore⟩ := ih (p := { p.withHead h₁ with
        index := index
        headerState := hs
        state := .headerValueLws
        nread := p.nread + (headerLine f).length }) (.inr rfl)
      (fun f' hf' => hfs f' (List.mem_cons_of_mem f hf')) hrest
      (by unfold Parser.Room; dsimp only; omega)
    refine ⟨index', hs', s, hs'', ?_⟩
    have hall := hreads.trans hmore
    rw [List.flatMap_cons, List.flatMap_cons, List.length_append, ← Nat.add_assoc]
    exact hall

/-- The header lines and the CR behind them. -/
theorem reads_headers {p : Parser} (hline : p.AtLine) {fs : List (Bytes × Bytes)}
    (hfs : ∀ f ∈ fs, Proper f) {h : Head} (hhead : p.head.fields fs = some h)
    (hroom : p.Room ((fs.flatMap headerLine).length + 1)) :
    ∃ index hs, Reads p (fs.flatMap headerLine ++ [CR]) (fs.flatMap lineEvents) { p.withHead h with
        index := index
        headerState := hs
        state := .headersAlmostDone
        nread := p.nread + ((fs.flatMap headerLine).length + 1) } := by
  unfold Parser.Room at hroom
  obtain ⟨index, hs, s, hs', hreads⟩ := reads_headerLines hline hfs hhead
    (by unfold Parser.Room; omega)
  have hlast : Reads { p.withHead h with
        index := index
        headerState := hs
        state := s
        nread := p.nread + (fs.flatMap headerLine).length } [CR] []
      { p.withHead h with
        index := index
        headerState := hs
        state := .headersAlmostDone
        nread := p.nread + ((fs.flatMap headerLine).length + 1) } := by
    refine reads_next rfl (AtLine.header (p := { p with state := s }) hs')
      (by unfold Parser.Room; dsimp only; omega) ?_ rfl
    exact byte_atLine (p := { p.withHead h with
      index := index
      headerState := hs
      state := s
      nread := p.nread + (fs.flatMap headerLine).length + 1 }) hs' (by decide) (by decide) 1
  have hall := hreads.trans hlast
  rw [List.append_nil] at hall
  exact ⟨index, hs, hall⟩

end HeaderLine

end Luaw.Parsing
