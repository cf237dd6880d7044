import Luaw.Parsing.Buffers

/-!
# The parser of `luaw_http_parser.c`

The invariant is kept by every call, so that the parsers that can be built are a type of their
own, and the vendored parser is an instance of what the rest of the development relies on.
-/

namespace Luaw.Parsing

open Http

/-- The parser has failed, or its invariant holds. -/
def Parser.Valid (p : Parser) : Prop := p.Sound ∨ ∃ code, p.errno = .failed code

theorem init_sound (t : ParserType) : (httpParserInit t).Sound := by
  cases t <;>
    exact ⟨⟨rfl, Nat.zero_le _, Nat.zero_le _, Nat.zero_le _, Nat.zero_le _, Nat.zero_le _,
      Nat.zero_le _⟩, trivial⟩

theorem parseHttp_failed_state {p : Parser} {code : Nat} (h : p.errno = .failed code) (buf : Bytes) :
    parseHttp p buf = if buf = [] then none else some ⟨p, 0, .failed code, none⟩ := by
  have hrun : httpParserExecute p buf = some ⟨p, 0, none⟩ := by
    rw [httpParserExecute, if_pos (by rw [h]; rintro ⟨⟩)]
  rw [parseHttp, hrun, Option.bind_some]
  cases buf with
  | nil =>
    rw [if_neg fun hfail => Nat.lt_irrefl 0 hfail.1, if_pos rfl, Parser.httpParserPause, h]
    rfl
  | cons ch rest =>
    rw [if_pos ⟨Nat.succ_pos _, by rw [h]; rintro ⟨⟩⟩, if_neg (List.cons_ne_nil ch rest), h]

/-- At the end of the connection the parser is where it was, or the process is aborted. -/
theorem parseHttp_nil {p : Parser} (h : p.Sound) :
    parseHttp p [] = none ∨ ∃ event errno, parseHttp p [] = some ⟨p, 0, errno, event⟩ := by
  have herrno := h.errno
  have hquiet : httpParserExecute p [] = some ⟨p, 0, none⟩ →
      ∃ event errno, parseHttp p [] = some ⟨p, 0, errno, event⟩ := fun hrun =>
    ⟨none, .ok, parseHttp_silent h hrun⟩
  have hfailed : httpParserExecute p [] =
      some ⟨{ p with errno := .failed Hpe.invalidEofState.code }, 1, none⟩ →
      parseHttp p [] = none := by
    intro hrun
    rw [parseHttp, hrun, Option.bind_some, if_neg fun hfail => Nat.not_lt_zero 1 hfail.1]
    rfl
  have hrun : httpParserExecute p [] = executeEof p := by
    rw [httpParserExecute, if_neg fun hne => hne herrno, if_pos rfl]
  unfold executeEof at hrun
  split at hrun
  · rw [call_sound h] at hrun
    exact .inr ⟨_, _, parseHttp_called h hrun⟩
  · exact .inr (hquiet hrun)
  · exact .inr (hquiet hrun)
  · exact .inr (hquiet hrun)
  · exact .inr (hquiet hrun)
  · exact .inl (hfailed hrun)

/-- Calls on data are never aborted, and they take no more than there is. -/
theorem Parser.Valid.parseHttp {p : Parser} (h : p.Valid) {buf : Bytes} (hbuf : buf ≠ []) :
    ∃ x, parseHttp p buf = some x ∧ x.state.Valid ∧ x.nparsed ≤ buf.length := by
  obtain hsound | ⟨code, hcode⟩ := h
  · obtain ⟨x, es, ch, left, mv, hx, ⟨p₁, hfeeds, hmove⟩, -, hn, hreports⟩ :=
      parseHttp_reports hsound hbuf
    obtain ⟨mv', hmove', hfits⟩ := (hfeeds.sound hsound).step ch
    obtain rfl : mv = mv' := Option.some.inj (hmove.symm.trans hmove')
    have hle := mv.nparsed_le ch
    refine ⟨x, hx, ?_, by omega⟩
    cases hreports with
    | failed hmv => exact .inr ⟨_, rfl⟩
    | called hlive hmerge => exact .inl (hfits.sound hlive ch)
    | silent hlive hes hevent => exact .inl (hfits.sound hlive ch)
  · rw [parseHttp_failed_state hcode, if_neg hbuf]
    exact ⟨_, rfl, .inr ⟨code, hcode⟩, Nat.zero_le _⟩

theorem parseHttp_valid {p : Parser} (h : p.Valid) {buf : Bytes} {x : Execution Parser}
    (hx : parseHttp p buf = some x) : x.state.Valid ∧ x.nparsed ≤ buf.length := by
  by_cases hbuf : buf = []
  · subst hbuf
    obtain hsound | ⟨code, hcode⟩ := h
    · obtain hnone | ⟨event, errno, hsome⟩ := parseHttp_nil hsound
      · rw [hnone] at hx
        cases hx
      · rw [hsome] at hx
        cases hx
        exact ⟨.inl hsound, le_rfl⟩
    · rw [parseHttp_failed_state hcode] at hx
      cases hx
  · obtain ⟨x', hx', hvalid, hn⟩ := h.parseHttp hbuf
    obtain rfl : x = x' := Option.some.inj (hx.symm.trans hx')
    exact ⟨hvalid, hn⟩

/-- The parsers that can be built. -/
abbrev ValidParser := { p : Parser // p.Valid }

namespace ValidParser

def init (t : ParserType) : ValidParser := ⟨httpParserInit t, .inl (init_sound t)⟩

/-- A call of `parse_http`. When it is aborted, there is no next one. -/
def execute (p : ValidParser) (buf : Bytes) : Execution ValidParser :=
  match hx : parseHttp p.1 buf with
  | some x => ⟨⟨x.state, (parseHttp_valid p.2 hx).1⟩, x.nparsed, x.errno, x.event⟩
  | none => ⟨p, 0, .failed Hpe.invalidEofState.code, none⟩

theorem execute_eq {p : ValidParser} {buf : Bytes} {x : Execution Parser}
    (hx : parseHttp p.1 buf = some x) :
    (execute p buf).state.1 = x.state ∧ (execute p buf).nparsed = x.nparsed ∧
      (execute p buf).errno = x.errno ∧ (execute p buf).event = x.event := by
  unfold execute
  split
  · next x' hx' =>
    obtain rfl : x' = x := Option.some.inj (hx'.symm.trans hx)
    exact ⟨rfl, rfl, rfl, rfl⟩
  · next hnone =>
    rw [hnone] at hx
    cases hx

theorem execute_nparsed_le (p : ValidParser) (buf : Bytes) :
    (execute p buf).nparsed ≤ buf.length := by
  unfold execute
  split
  · next x hx => exact (parseHttp_valid p.2 hx).2
  · exact Nat.zero_le _

end ValidParser

/-- The parser that the Lua code calls, with the function that parses URLs. -/
def httpParser (t : ParserType) (platform : Platform)
    (parseURL : Bytes → Bool → Option ParsedURL) : HttpParser ValidParser where
  toPlatform := platform
  init := .init t
  execute := ValidParser.execute
  nparsed_le := ValidParser.execute_nparsed_le
  parseURL := parseURL

end Luaw.Parsing
