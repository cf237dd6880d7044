import Luaw.Parsing.Sound

/-!
# One byte at a time

`step` says what a byte does to the parser, whatever buffer it came in: the loop over a buffer
takes these steps until one of them calls back, and a call on a single byte is one of them.
-/

namespace Luaw.Parsing

open Http

/-- What a byte does. -/
inductive Move where
  /-- the loop goes on; `fresh` when the byte is the first one of a field -/
  | on (q : Parser) (fresh : Bool)
  /-- a field is at its end -/
  | field (f : Field) (q : Parser) (taken : Bool)
  /-- a field without bytes -/
  | empty (f : Field) (q : Parser)
  | notice (n : Notice) (q : Parser) (taken : Bool)
  /-- a byte of the body; the last one of a body of known length is not taken yet -/
  | body (q : Parser) (taken : Bool)
  | fail (e : Hpe) (q : Parser)

def Action.move (s : State) : Action → Option Move
  | .next q => some (.on q false)
  | .mark _ q => some (.on q true)
  | .data f q => some (if s.field = some f then .field f q true else .on q false)
  | .markData f q => some (.empty f q)
  | .dataStay f q _ => some (.field f q false)
  | .notify n q => some (.notice n q true)
  | .notifyStay n q => some (.notice n q false)
  | .take _ q => some (.body q true)
  | .takeLast _ q => some (.body q false)
  | .error e q => some (.fail e q)
  | .abort => none

def step (p : Parser) (ch : UInt8) : Option Move :=
  if p.Overflows then some (.fail .headerOverflow p.countByte)
  else (byte p.countByte ch 1).move p.state

namespace Move

/-- What a byte can do in the state `s`. -/
def Fits (s : State) : Move → Prop
  | .on q true => q.Sound ∧ s.field = none ∧ q.state.field ≠ none
  | .on q false => q.Sound ∧ q.state.field = s.field
  | .field f q _ => q.Sound ∧ s.field = some f ∧ q.state.field = none
  | .empty _ q => q.Sound ∧ s.field = none ∧ q.state.field = none
  | .notice n q taken => q.Sound ∧ s.field = none ∧ q.state.field = none ∧
      (taken = true ∨ n = .headersComplete)
  | .body q _ => q.Sound ∧ s.takesBody = true
  | .fail _ _ => True

end Move

@[simp] theorem countByte_state (p : Parser) : p.countByte.state = p.state := by
  rw [Parser.countByte]
  split <;> rfl

theorem Parser.Sound.countByte {p : Parser} (h : p.Sound) (hsize : ¬p.Overflows) :
    p.countByte.Ready 1 := by
  obtain ⟨⟨herrno, hindex, hnread, hrest⟩, hexpects⟩ := h
  have hle : p.countByte.nread ≤ httpMaxHeaderSize := by
    by_cases hheader : p.state.parsingHeader = true
    · exact Nat.le_of_not_lt fun hlt => hsize ⟨hheader, hlt⟩
    · rwa [Parser.countByte, if_neg hheader]
  rw [Parser.countByte] at hle ⊢
  split at hle
  · next hheader =>
    rw [if_pos hheader]
    refine ⟨⟨herrno, hindex, hle, hrest⟩, ?_⟩
    unfold Parser.Expects at hexpects ⊢
    cases hs : p.state <;> rw [hs] at hexpects <;> first | exact hexpects | skip
    exact ⟨hexpects.1, by rw [hexpects.2]⟩
  · next hheader =>
    rw [if_neg hheader]
    refine ⟨⟨herrno, hindex, hle, hrest⟩, ?_⟩
    unfold Parser.Expects at hexpects ⊢
    cases hs : p.state <;> rw [hs] at hexpects hheader <;> first | exact hexpects | skip
    exact absurd rfl hheader

/-- Each byte makes a move of a sound parser. -/
theorem Parser.Sound.step {p : Parser} (h : p.Sound) (ch : UInt8) :
    ∃ mv, step p ch = some mv ∧ mv.Fits p.state := by
  unfold Parsing.step
  split
  · exact ⟨_, rfl, trivial⟩
  · next hsize =>
    have hfits := byte_fits (h.countByte hsize) ch 1
    rw [countByte_state] at hfits
    cases haction : byte p.countByte ch 1 <;> rw [haction] at hfits
    case next q => exact ⟨_, rfl, hfits.1, hfits.2.1⟩
    case mark f q =>
      exact ⟨_, rfl, hfits.1, hfits.2.1, by rw [hfits.2.2.1]; exact Option.some_ne_none f⟩
    case data f q =>
      refine ⟨_, rfl, ?_⟩
      obtain ⟨hq, hnone, -, hf | ⟨hs, rfl⟩⟩ := hfits
      · rw [if_pos hf]
        exact ⟨hq, hf, hnone⟩
      · rw [hs, if_neg (by decide)]
        exact ⟨hq, hnone⟩
    case markData f q => exact ⟨_, rfl, hfits.1, hfits.2.1, hfits.2.2.1⟩
    case dataStay f q a =>
      exact ⟨_, rfl, hfits.1, hfits.2.1, by rw [hfits.2.2]; rfl⟩
    case notify n q => exact ⟨_, rfl, hfits.1, hfits.2.1, hfits.2.2.1, .inl rfl⟩
    case notifyStay n q =>
      exact ⟨_, rfl, hfits.1, hfits.2.1, by rw [hfits.2.2.1]; rfl, .inr hfits.2.2.2.2⟩
    case take n q => exact ⟨_, rfl, hfits⟩
    case takeLast n q => exact ⟨_, rfl, hfits.1, by rw [hfits.2]; rfl⟩
    case error e q => exact ⟨_, rfl, trivial⟩
    case abort => exact hfits.elim

/-- The parser after a callback. -/
def Parser.paused (p : Parser) : Parser := { p with errno := .paused }

theorem Parser.Sound.errno {p : Parser} (h : p.Sound) : p.errno = .ok := h.1.1

theorem call_sound {q : Parser} (h : q.Sound) (cb : Callback) (nparsed : Nat) :
    call q cb nparsed = .back ⟨q.paused, nparsed, some cb⟩ := by
  rw [call, if_pos h.errno, Parser.httpParserPause, h.errno]
  rfl

section Marks

variable {s s' : State} {f : Field} {pos m : Nat}

theorem marks_some (h : s.field = some f) : s.marks m f = some m := if_pos h

theorem marks_none (h : s.field = none) : s.marks m = fun _ => none := by
  funext f
  exact if_neg (by rw [h]; exact fun heq => Option.some_ne_none f heq.symm)

theorem marks_congr (h : s.field = s'.field) : s.marks m = s'.marks m := by
  funext f
  rw [State.marks, State.marks, h]

theorem marks_mark (h : s.field = none) (h' : s'.field = some f) :
    (s.marks m).mark f pos = s'.marks pos := by
  funext g
  rw [marks_none h, Marks.mark, State.marks, h']
  by_cases hg : g = f
  · rw [if_pos hg, if_pos (by rw [hg])]
    rfl
  · rw [if_neg hg, if_neg fun heq => hg (Option.some.inj heq).symm]

end Marks

/-- How the loop goes on after the byte at `pos`, with a field that has started at `m`. -/
def Move.loop (data : Bytes) (m pos : Nat) (rest : Bytes) : Move → Option Returned
  | .on q fresh => Parsing.loop data q (q.state.marks (if fresh then pos else m)) (pos + 1) 0 rest
  | .field f q taken =>
    some ⟨q.paused, if taken then pos + 1 else pos, some (.data f (slice data m pos))⟩
  | .empty f q => some ⟨q.paused, pos + 1, some (.data f [])⟩
  | .notice n q taken => some ⟨q.paused, if taken then pos + 1 else pos, some (.notice n)⟩
  | .body _ _ => none
  | .fail e q => some ⟨{ q with errno := .failed e.code }, pos, none⟩

/-- Only a body asks how much data is left. -/
theorem byte_remaining {p : Parser} (h : p.state.takesBody = false) (ch : UInt8) (n n' : Nat) :
    byte p ch n = byte p ch n' := by
  unfold byte
  cases hs : p.state <;> rw [hs] at h <;> first | rfl | cases h

theorem slice_self (data : Bytes) (pos : Nat) : slice data pos pos = [] := by
  rw [slice, Nat.sub_self, List.take_zero]

/-- The loop takes the step of its next byte. -/
theorem loop_move {p : Parser} (h : p.Sound) (hbody : p.state.takesBody = false) {ch : UInt8}
    {mv : Move} (hmove : step p ch = some mv) (data : Bytes) (m pos : Nat) (rest : Bytes) :
    loop data p (p.state.marks m) pos 0 (ch :: rest) = mv.loop data m pos rest := by
  unfold step at hmove
  rw [loop]
  split at hmove
  · next hsize =>
    cases hmove
    rw [if_pos hsize]
    rfl
  · next hsize =>
    have hfits := byte_fits (h.countByte hsize) ch 1
    rw [if_neg hsize, byte_remaining (by rwa [countByte_state]) ch _ 1]
    rw [countByte_state] at hfits
    cases haction : byte p.countByte ch 1 <;> rw [haction] at hfits hmove <;> cases hmove
    case next q => rw [marks_congr hfits.2.1.symm]; rfl
    case mark f q =>
      obtain ⟨hq, hnone, hfield, -⟩ := hfits
      rw [perform, marks_mark hnone hfield]
      rfl
    case data f q =>
      obtain ⟨hq, hnone, -, hf | ⟨hs, rfl⟩⟩ := hfits
      · rw [if_pos hf, perform, callData, marks_some hf]
        dsimp only
        rw [call_sound hq]
        rfl
      · have hnone' : p.state.field = none := by rw [hs]; rfl
        rw [if_neg (by rw [hnone']; exact fun heq => Option.some_ne_none _ heq.symm), perform,
          callData, marks_none hnone']
        dsimp only
        rw [if_pos hq.errno, ← marks_none (m := m) hnone]
        rfl
    case markData f q =>
      obtain ⟨hq, hnone, -, -⟩ := hfits
      have hmark : (p.state.marks m).mark f pos f = some pos := by
        rw [marks_none hnone, Marks.mark, if_pos rfl]
        rfl
      rw [perform, callData, hmark]
      dsimp only
      rw [call_sound hq, slice_self]
      rfl
    case dataStay f q a =>
      obtain ⟨hq, hf, -⟩ := hfits
      rw [perform, callData, marks_some hf]
      dsimp only
      rw [call_sound hq]
      rfl
    case notify n q => rw [perform, call_sound hfits.1]; rfl
    case notifyStay n q => rw [perform, call_sound hfits.1]; rfl
    case take n q => exact absurd hfits.2 (by rw [hbody]; exact Bool.false_ne_true)
    case takeLast n q => rw [hfits.2] at hbody; cases hbody
    case error e q => rfl

/-- Only the mark of one field is set. -/
def Marks.only (f : Field) (m : Nat) : Marks := fun g => if g = f then some m else none

theorem marks_only {s : State} {f : Field} (h : s.field = some f) (m : Nat) :
    s.marks m = Marks.only f m := by
  funext g
  rw [State.marks, h, Marks.only]
  by_cases hg : g = f
  · rw [if_pos hg, if_pos (by rw [hg])]
  · rw [if_neg hg, if_neg fun heq => hg (Option.some.inj heq).symm]

/-- The callback at the end of the data, for the field that is not at its end. -/
theorem loop_nil_only {q : Parser} (h : q.Sound) (data : Bytes) (f : Field) (m pos : Nat) :
    loop data q (Marks.only f m) pos 0 [] =
      some ⟨q.paused, data.length, some (.data f (slice data m data.length))⟩ := by
  have hset : [Field.headerField, .headerValue, .url, .body, .status].filter
      (fun g => (Marks.only f m g).isSome) = [f] := by cases f <;> rfl
  have hmark : Marks.only f m f = some m := if_pos rfl
  rw [loop, leftover, hset]
  simp only [List.length_singleton, Nat.lt_irrefl, if_false, callData, hmark, call_sound h]
  rfl

theorem loop_nil_none {q : Parser} (h : q.Sound) (hfield : q.state.field = none) (data : Bytes)
    (m pos : Nat) : loop data q (q.state.marks m) pos 0 [] = some ⟨q, data.length, none⟩ := by
  rw [loop, leftover, marks_none hfield]
  simp only [Option.isSome_none, Bool.false_eq_true, not_false_eq_true, List.filter_cons_of_neg,
    List.filter_nil, List.length_nil, Nat.not_lt_zero, if_false, if_pos h.errno]
  rfl

theorem loop_skip (data : Bytes) (q : Parser) (marks : Marks) (pos : Nat) {n : Nat} {rest : Bytes}
    (hn : n ≤ rest.length) :
    loop data q marks pos n rest = loop data q marks (pos + n) 0 (rest.drop n) := by
  induction n generalizing pos rest with
  | zero => rfl
  | succ n ih =>
    cases rest with
    | nil => cases hn
    | cons ch rest =>
      rw [loop, ih (pos + 1) (Nat.le_of_succ_le_succ hn), List.drop_succ_cons, Nat.add_right_comm,
        Nat.add_assoc]

/-- What `parse_http` makes of a single byte. -/
def Move.execution (ch : UInt8) : Move → Execution Parser
  | .on q _ =>
    match q.state.field with
    | some f => ⟨q, 1, .paused, some (f.event [ch])⟩
    | none => ⟨q, 1, .ok, none⟩
  | .field f q taken => ⟨q, if taken then 1 else 0, .paused, some (f.event [])⟩
  | .empty f q => ⟨q, 1, .paused, some (f.event [])⟩
  | .notice n q taken => ⟨q, if taken then 1 else 0, .paused, some (q.event (.notice n))⟩
  | .body q taken => ⟨q, if taken then 1 else 0, .paused, some (.body [ch])⟩
  | .fail e q => ⟨{ q with errno := .failed e.code }, 0, .failed e.code, none⟩

theorem event_paused (q : Parser) (cb : Callback) : q.paused.event cb = q.event cb := by
  cases cb with
  | notice n => cases n <;> rfl
  | data f chunk => rfl

theorem parseHttp_called {q : Parser} (h : q.Sound) {p : Parser} {buf : Bytes} {n : Nat}
    {cb : Callback} (hrun : httpParserExecute p buf = some ⟨q.paused, n, some cb⟩) :
    parseHttp p buf = some ⟨q, n, .paused, some (q.event cb)⟩ := by
  rw [parseHttp, hrun, Option.bind_some, if_neg fun hfail => hfail.2 rfl]
  have hback : q.paused.httpParserPause false = some q := by
    show some { q with errno := Errno.ok } = some q
    rw [← h.errno]
  rw [hback, Option.map_some, Option.map_some, event_paused]
  rfl

theorem parseHttp_silent {q : Parser} (h : q.Sound) {p : Parser} {buf : Bytes}
    (hrun : httpParserExecute p buf = some ⟨q, buf.length, none⟩) :
    parseHttp p buf = some ⟨q, buf.length, .ok, none⟩ := by
  rw [parseHttp, hrun, Option.bind_some, if_neg fun hfail => Nat.lt_irrefl _ hfail.1]
  have hback : q.httpParserPause false = some q := by
    rw [Parser.httpParserPause, h.errno]
    show some { q with errno := Errno.ok } = some q
    rw [← h.errno]
  rw [hback, Option.map_some, Option.map_none, h.errno]

theorem parseHttp_failed {q : Parser} {p : Parser} {buf : Bytes} {n code : Nat}
    (hn : n < buf.length)
    (hrun : httpParserExecute p buf = some ⟨{ q with errno := .failed code }, n, none⟩) :
    parseHttp p buf = some ⟨{ q with errno := .failed code }, n, .failed code, none⟩ := by
  rw [parseHttp, hrun, Option.bind_some, if_pos ⟨hn, fun heq => by cases heq⟩]

theorem httpParserExecute_cons {p : Parser} (h : p.Sound) (ch : UInt8) (rest : Bytes) :
    httpParserExecute p (ch :: rest) =
      loop (ch :: rest) p (p.state.marks 0) 0 0 (ch :: rest) := by
  rw [httpParserExecute, if_neg (by rw [h.errno]; exact fun hne => hne rfl),
    if_neg (List.cons_ne_nil ch rest)]

section Body

variable {p : Parser}

theorem State.parsingHeader_body {s : State} (h : s.takesBody = true) :
    s.parsingHeader = false := by
  revert h
  cases s <;> decide

theorem State.takesBody_cases {s : State} (h : s.takesBody = true) :
    s = .chunkData ∨ s = .bodyIdentity ∨ s = .bodyIdentityEof := by
  revert h
  cases s <;> decide

theorem State.field_body {s : State} (h : s.takesBody = true) : s.field = none := by
  revert h
  cases s <;> decide

/-- The bytes of a body are not counted. -/
theorem countByte_body (hbody : p.state.takesBody = true) : p.countByte = p := by
  rw [Parser.countByte, if_neg (by rw [State.parsingHeader_body hbody]; exact Bool.false_ne_true)]

theorem not_overflows_body (hbody : p.state.takesBody = true) : ¬p.Overflows := by
  rintro ⟨hheader, -⟩
  rw [State.parsingHeader_body hbody] at hheader
  cases hheader

/-- The parser with `n` more bytes of a body. -/
def Parser.ate (p : Parser) (n : Nat) : Parser :=
  match p.state with
  | .chunkData =>
    if p.contentLength = n then { p with contentLength := 0, state := .chunkDataAlmostDone }
    else { p with contentLength := p.contentLength - n }
  | .bodyIdentity =>
    if p.contentLength = n then { p with contentLength := 0, state := .messageDone }
    else { p with contentLength := p.contentLength - n }
  | _ => p

theorem byte_chunkData (h : p.Sound) (hs : p.state = .chunkData) (ch : UInt8) (remaining : Nat) :
    byte p ch remaining =
      .take (min p.contentLength remaining) (p.ate (min p.contentLength remaining)) := by
  have hexpects := h.2
  rw [Parser.Expects, hs] at hexpects
  obtain ⟨hchunked, hzero, hmax⟩ := hexpects
  unfold byte
  rw [hs]
  dsimp only
  rw [chunkData, if_neg (by simp [hchunked, hzero, hmax.ne]), Parser.ate, hs]
  dsimp only
  by_cases hall : p.contentLength ≤ remaining
  · rw [Nat.min_eq_left hall, Nat.sub_self, if_pos rfl, if_pos rfl]
  · rw [Nat.min_eq_right (Nat.le_of_not_le hall), if_neg (by omega), if_neg (by omega)]

theorem byte_bodyIdentity (h : p.Sound) (hs : p.state = .bodyIdentity) (ch : UInt8)
    (remaining : Nat) :
    byte p ch remaining =
      if p.contentLength ≤ remaining then .takeLast p.contentLength (p.ate p.contentLength)
      else .take remaining (p.ate remaining) := by
  have hexpects := h.2
  rw [Parser.Expects, hs] at hexpects
  obtain ⟨hzero, hmax⟩ := hexpects
  unfold byte
  rw [hs]
  dsimp only
  rw [bodyIdentity, if_neg (by simp [hzero, hmax.ne]), Parser.ate, Parser.ate, hs]
  dsimp only
  by_cases hall : p.contentLength ≤ remaining
  · rw [Nat.min_eq_left hall, Nat.sub_self, if_pos rfl, if_pos rfl, if_pos hall]
  · rw [Nat.min_eq_right (Nat.le_of_not_le hall), if_neg (by omega), if_neg hall, if_neg (by omega)]

/-- The next byte is the last one of a body of known length. -/
def Parser.atLast (p : Parser) : Bool := p.state = .bodyIdentity && p.contentLength = 1

/-- A byte of a body. -/
theorem step_body (h : p.Sound) (hbody : p.state.takesBody = true) (ch : UInt8) :
    step p ch = some (.body (p.ate 1) (!p.atLast)) := by
  have hexpects := h.2
  rw [step, if_neg (not_overflows_body hbody), countByte_body hbody, Parser.atLast]
  obtain hs | hs | hs := State.takesBody_cases hbody
  · rw [Parser.Expects, hs] at hexpects
    have hone : min p.contentLength 1 = 1 := by omega
    rw [byte_chunkData h hs, hone, hs]
    rfl
  · rw [Parser.Expects, hs] at hexpects
    rw [byte_bodyIdentity h hs, hs]
    by_cases hone : p.contentLength = 1
    · rw [hone, if_pos le_rfl]
      rfl
    · rw [if_neg (by omega), decide_eq_false hone]
      rfl
  · rw [byte, hs, Parser.ate, hs]
    rfl

/-- At least `n` bytes are left of the body. -/
def Parser.Holds (p : Parser) (n : Nat) : Prop :=
  p.state = .bodyIdentityEof ∨ n ≤ p.contentLength

theorem ate_sound (h : p.Sound) (hbody : p.state.takesBody = true) {n : Nat} (hn : p.Holds n) :
    (p.ate n).Sound := by
  have hready := h.countByte (not_overflows_body hbody)
  rw [countByte_body hbody] at hready
  have hfits := byte_fits hready 0 n
  obtain hs | hn := hn
  · rw [Parser.ate, hs]
    exact h
  · obtain hs | hs | hs := State.takesBody_cases hbody
    · rw [byte_chunkData h hs, Nat.min_eq_right hn] at hfits
      exact hfits.1
    · rw [byte_bodyIdentity h hs] at hfits
      split at hfits
      · next hle =>
        rw [Nat.le_antisymm hn hle]
        exact hfits.1
      · exact hfits.1
    · rw [Parser.ate, hs]
      exact h

theorem ate_more {n : Nat} (hs : p.state = .chunkData ∨ p.state = .bodyIdentity)
    (hn : n < p.contentLength) : p.ate n = { p with contentLength := p.contentLength - n } := by
  obtain hs | hs := hs
  all_goals
    rw [Parser.ate, hs]
    dsimp only
    rw [if_neg hn.ne']

theorem ate_eof {n : Nat} (hs : p.state = .bodyIdentityEof) : p.ate n = p := by rw [Parser.ate, hs]

theorem ate_ate {k n : Nat} (hs : p.state = .chunkData ∨ p.state = .bodyIdentity)
    (hk : k < p.contentLength) : (p.ate k).ate n = p.ate (k + n) := by
  rw [ate_more hs hk]
  obtain hs | hs := hs
  all_goals
    rw [Parser.ate, Parser.ate, hs]
    dsimp only
    by_cases hall : p.contentLength = k + n
    · rw [if_pos hall, if_pos (by omega)]
    · rw [if_neg hall, if_neg (by omega), Nat.sub_sub]

/-- A state that takes a body of known length has some of it left. -/
theorem length_pos (h : p.Sound) (hs : p.state = .chunkData ∨ p.state = .bodyIdentity) :
    0 < p.contentLength := by
  have hexpects := h.2
  unfold Parser.Expects at hexpects
  obtain hs | hs := hs <;> rw [hs] at hexpects <;> omega

theorem ate_zero (h : p.Sound) (hbody : p.state.takesBody = true) : p.ate 0 = p := by
  obtain hs | hs | hs := State.takesBody_cases hbody
  · rw [ate_more (.inl hs) (length_pos h (.inl hs))]
    rfl
  · rw [ate_more (.inr hs) (length_pos h (.inr hs))]
    rfl
  · exact ate_eof hs

/-- The next byte of a body. -/
theorem ate_next (h : p.Sound) (hbody : p.state.takesBody = true) {n : Nat} (hn : p.Holds (n + 1)) :
    (p.ate n).Sound ∧ (p.ate n).state = p.state ∧ (p.ate n).ate 1 = p.ate (n + 1) ∧
      (p.state ≠ .bodyIdentityEof → (p.ate n).contentLength = p.contentLength - n) := by
  have hbefore : p.Holds n := hn.imp_right fun hle => by omega
  refine ⟨ate_sound h hbody hbefore, ?_⟩
  by_cases heof : p.state = .bodyIdentityEof
  · rw [ate_eof heof, ate_eof heof, ate_eof heof]
    exact ⟨rfl, rfl, fun hne => absurd heof hne⟩
  · have hle : n < p.contentLength := hn.resolve_left heof
    have hknown : p.state = .chunkData ∨ p.state = .bodyIdentity := by
      obtain hs | hs | hs := State.takesBody_cases hbody
      · exact .inl hs
      · exact .inr hs
      · exact absurd hs heof
    rw [ate_ate hknown hle, ate_more hknown hle]
    exact ⟨rfl, rfl, fun _ => rfl⟩

theorem marks_none_mark {s : State} (h : s.field = none) (f : Field) (m pos : Nat) :
    (s.marks m).mark f pos = Marks.only f pos := by
  funext g
  rw [marks_none h, Marks.mark, Marks.only]
  rfl

/-- The rest of the data is of the body. -/
theorem loop_body_rest (h : p.Sound) (hbody : p.state.takesBody = true) (m : Nat) (pre : Bytes)
    {bs : Bytes} (hne : bs ≠ []) (hbs : p.Holds bs.length)
    (hlast : ¬(p.state = .bodyIdentity ∧ p.contentLength = bs.length)) :
    loop (pre ++ bs) p (p.state.marks m) pre.length 0 bs =
      some ⟨(p.ate bs.length).paused, (pre ++ bs).length, some (.data .body bs)⟩ := by
  have hq := ate_sound h hbody hbs
  cases bs with
  | nil => exact absurd rfl hne
  | cons ch rest =>
    have hbyte : byte p ch (rest.length + 1) = .take (rest.length + 1) (p.ate (rest.length + 1)) := by
      rw [List.length_cons] at hbs hlast
      obtain hs | hle := hbs
      · rw [byte, hs, Parser.ate, hs]
      · obtain hs | hs | hs := State.takesBody_cases hbody
        · rw [byte_chunkData h hs, Nat.min_eq_right hle]
        · rw [byte_bodyIdentity h hs, if_neg]
          exact fun hge => hlast ⟨hs, Nat.le_antisymm hge hle⟩
        · rw [byte, hs, Parser.ate, hs]
    have hslice : slice (pre ++ ch :: rest) pre.length (pre ++ ch :: rest).length = ch :: rest := by
      rw [slice, List.drop_left, List.length_append, Nat.add_sub_cancel_left, List.take_length]
    rw [loop, if_neg (not_overflows_body hbody), countByte_body hbody, hbyte, perform,
      marks_none_mark (State.field_body hbody)]
    dsimp only
    rw [Nat.add_sub_cancel, loop_skip _ _ _ _ le_rfl, List.drop_length]
    rw [List.length_cons] at hq
    rw [loop_nil_only hq, hslice, List.length_cons]

/-- A body of known length is at its end. -/
theorem loop_body_last (h : p.Sound) (hs : p.state = .bodyIdentity) (m : Nat) (pre bs rest : Bytes)
    (ch : UInt8) (hlength : p.contentLength = bs.length + 1) :
    loop (pre ++ (bs ++ ch :: rest)) p (p.state.marks m) pre.length 0 (bs ++ ch :: rest) =
      some ⟨(p.ate (bs.length + 1)).paused, pre.length + bs.length,
        some (.data .body (bs ++ [ch]))⟩ := by
  have hbody : p.state.takesBody = true := by rw [hs]; rfl
  have hq := ate_sound h hbody (.inr hlength.ge)
  have hbyte : ∀ c n, bs.length ≤ n → byte p c (n + 1) =
      .takeLast (bs.length + 1) (p.ate (bs.length + 1)) := by
    intro c n hn
    rw [byte_bodyIdentity h hs, hlength, if_pos (by omega)]
  have hslice : slice (pre ++ (bs ++ ch :: rest)) pre.length (pre.length + (bs.length + 1)) =
      bs ++ [ch] := by
    rw [slice, List.drop_left, Nat.add_sub_cancel_left, List.append_cons]
    exact List.take_left' (by simp)
  have hmark : (p.state.marks m).mark .body pre.length .body = some pre.length := by
    rw [marks_none_mark (State.field_body hbody)]
    rfl
  obtain ⟨c, cs, hcons, hlen⟩ : ∃ c cs, bs ++ ch :: rest = c :: cs ∧ bs.length ≤ cs.length := by
    cases bs with
    | nil => exact ⟨ch, rest, rfl, Nat.zero_le _⟩
    | cons b bs => exact ⟨b, bs ++ ch :: rest, rfl, by simp⟩
  rw [hcons, loop, if_neg (not_overflows_body hbody), countByte_body hbody, hbyte c _ hlen, perform,
    callData, hmark]
  dsimp only
  rw [call_sound hq, ← hcons, hslice]
  rfl

/-- A chunk is at its end, but not the data. -/
theorem loop_chunk_end (h : p.Sound) (hs : p.state = .chunkData) (m : Nat) (pre bs rest : Bytes)
    (hlength : p.contentLength = bs.length) :
    loop (pre ++ (bs ++ rest)) p (p.state.marks m) pre.length 0 (bs ++ rest) =
      loop (pre ++ (bs ++ rest)) (p.ate bs.length) (Marks.only .body pre.length)
        (pre.length + bs.length) 0 rest := by
  have hbody : p.state.takesBody = true := by rw [hs]; rfl
  have hpos : p.contentLength ≠ 0 := by
    have hexpects := h.2
    rw [Parser.Expects, hs] at hexpects
    exact hexpects.2.1
  cases bs with
  | nil => exact absurd hlength hpos
  | cons b bs =>
    have hbyte : byte p b ((bs ++ rest).length + 1) =
        .take (bs.length + 1) (p.ate (bs.length + 1)) := by
      have hmin : min (bs.length + 1) ((bs ++ rest).length + 1) = bs.length + 1 :=
        Nat.min_eq_left (by simp)
      rw [byte_chunkData h hs, hlength, List.length_cons, hmin]
    rw [List.cons_append, loop, if_neg (not_overflows_body hbody), countByte_body hbody, hbyte,
      perform, marks_none_mark (State.field_body hbody)]
    dsimp only
    rw [Nat.add_sub_cancel, loop_skip _ _ _ _ (by simp), List.drop_left, List.length_cons,
      Nat.add_assoc, Nat.add_comm 1]

theorem parseHttp_body (h : p.Sound) (hbody : p.state.takesBody = true) {ch : UInt8} {mv : Move}
    (hmove : step p ch = some mv) : parseHttp p [ch] = some (mv.execution ch) := by
  rw [step_body h hbody] at hmove
  cases hmove
  have hholds : p.Holds 1 := by
    have hexpects := h.2
    unfold Parser.Expects at hexpects
    obtain hs | hs | hs := State.takesBody_cases hbody <;> rw [hs] at hexpects
    · exact .inr (by omega)
    · exact .inr (by omega)
    · exact .inl hs
  have hq := ate_sound h hbody hholds
  have hrun := httpParserExecute_cons h ch []
  cases hlast : p.atLast with
  | false =>
    have hmore : ¬(p.state = .bodyIdentity ∧ p.contentLength = 0 + 1) := by
      rintro ⟨hs, hone⟩
      rw [Parser.atLast, hs, hone] at hlast
      cases hlast
    have hrest := loop_body_rest h hbody 0 [] (List.cons_ne_nil ch []) hholds hmore
    exact parseHttp_called hq (hrun.trans hrest)
  | true =>
    rw [Parser.atLast, Bool.and_eq_true, decide_eq_true_iff, decide_eq_true_iff] at hlast
    have hend := loop_body_last h hlast.1 0 [] [] [] ch hlast.2
    rw [List.nil_append, List.nil_append] at hend
    exact parseHttp_called hq (hrun.trans hend)

end Body

/-- A call on a single byte. -/
theorem parseHttp_step {p : Parser} (h : p.Sound) {ch : UInt8} {mv : Move}
    (hmove : step p ch = some mv) : parseHttp p [ch] = some (mv.execution ch) := by
  obtain ⟨mv', hmove', hfits⟩ := h.step ch
  obtain rfl : mv = mv' := Option.some.inj (hmove.symm.trans hmove')
  have hrun := httpParserExecute_cons h ch []
  by_cases hbody : p.state.takesBody = true
  · exact parseHttp_body h hbody hmove
  · rw [loop_move h (by simpa using hbody) hmove] at hrun
    cases mv with
    | on q fresh =>
      have hq : q.Sound := by cases fresh <;> exact hfits.1
      rw [Move.execution]
      cases hfield : q.state.field with
      | none =>
        rw [Move.loop, loop_nil_none hq hfield] at hrun
        exact parseHttp_silent hq hrun
      | some f =>
        rw [Move.loop, marks_only hfield, loop_nil_only hq] at hrun
        have hslice : slice [ch] (if fresh then 0 else 0) [ch].length = [ch] := by
          cases fresh <;> rfl
        rw [hslice] at hrun
        exact parseHttp_called hq hrun
    | field f q taken =>
      have hlast := parseHttp_called hfits.1 hrun
      rw [hlast, slice_self]
      rfl
    | empty f q => exact parseHttp_called hfits.1 hrun
    | notice n q taken => exact parseHttp_called hfits.1 hrun
    | body q taken => exact absurd hfits.2 hbody
    | fail e q => exact parseHttp_failed Nat.one_pos hrun

end Luaw.Parsing
