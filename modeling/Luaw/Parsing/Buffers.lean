import Luaw.Parsing.Feeding

/-!
# A call on a buffer

The loop over a buffer goes through the steps of its bytes until one of them calls back. What a
call reports is what the calls on the bytes report, glued together.
-/

namespace Luaw.Parsing

open Http

theorem slice_left {pre : Bytes} (rest : Bytes) {m : Nat} (hm : m ≤ pre.length) :
    slice (pre ++ rest) m pre.length = pre.drop m := by
  rw [slice, List.drop_append_of_le_length hm]
  exact List.take_left' List.length_drop

theorem slice_all {pre : Bytes} (ch : UInt8) {m : Nat} (hm : m ≤ pre.length) :
    slice (pre ++ [ch]) m (pre ++ [ch]).length = pre.drop m ++ [ch] := by
  rw [slice, ← List.length_drop, List.take_length, List.drop_append_of_le_length hm]

theorem takesBody_of_field {s : State} {f : Field} (h : s.field = some f) : s.takesBody = false := by
  cases hbody : s.takesBody with
  | false => rfl
  | true => rw [State.field_body hbody] at h; cases h

/-- The single bytes lead, with the events `es`, to a byte `ch` that makes the move `mv`. -/
def Reaches (p : Parser) (s : Bytes) (es : List Event) (ch : UInt8) (left : Bytes) (mv : Move) :
    Prop :=
  ∃ p₁, Feeds p s es p₁ (ch :: left) ∧ step p₁ ch = some mv

namespace Reaches

variable {p : Parser} {ch ch₁ : UInt8} {s left : Bytes} {es : List Event} {mv mv₁ : Move}

theorem here (h : step p ch = some mv) : Reaches p (ch :: s) [] ch s mv := ⟨p, .refl p _, h⟩

theorem after (hmove : step p ch = some mv) (hlive : mv.live = true)
    (h : Reaches (mv.execution ch).state ((ch :: s).drop (mv.execution ch).nparsed) es ch₁ left mv₁) :
    Reaches p (ch :: s) ((mv.execution ch).event.toList ++ es) ch₁ left mv₁ := by
  obtain ⟨p₁, hfeeds, hmove₁⟩ := h
  exact ⟨p₁, .byte hmove hlive hfeeds, hmove₁⟩

end Reaches

/-- The move that a call ends with, after `text` of a field. -/
inductive FieldEnds (f : Field) (text : Bytes) (ch : UInt8) (mv : Move) : Returned → Prop where
  | failed {e : Hpe} {q : Parser} {n : Nat} (hmv : mv = .fail e q) :
      FieldEnds f text ch mv ⟨{ q with errno := .failed e.code }, n, none⟩
  | called {c : Bytes} {n : Nat} (hlive : mv.live = true)
      (hevent : (mv.execution ch).event = some (f.event c)) :
      FieldEnds f text ch mv ⟨(mv.execution ch).state.paused, n, some (.data f (text ++ c))⟩

/-- In the middle of a field the loop goes on, or it is at the end of the field, or it fails. -/
theorem loop_field_step {f : Field} {p : Parser} (h : p.Sound) (hf : p.state.field = some f)
    (pre : Bytes) (ch : UInt8) (rest : Bytes) {m : Nat} (hm : m ≤ pre.length) :
    ∃ mv, step p ch = some mv ∧
      ((∃ q, mv = .on q false ∧ q.Sound ∧ q.state.field = some f ∧
          loop (pre ++ ch :: rest) p (p.state.marks m) pre.length 0 (ch :: rest) =
            loop (pre ++ ch :: rest) q (q.state.marks m) (pre.length + 1) 0 rest) ∨
        ∃ r, loop (pre ++ ch :: rest) p (p.state.marks m) pre.length 0 (ch :: rest) = some r ∧
          r.nparsed = pre.length + (mv.execution ch).nparsed ∧ FieldEnds f (pre.drop m) ch mv r) := by
  obtain ⟨mv, hmove, hfits⟩ := h.step ch
  have hloop := loop_move h (takesBody_of_field hf) hmove (pre ++ ch :: rest) m pre.length rest
  refine ⟨mv, hmove, ?_⟩
  cases mv with
  | on q fresh =>
    cases fresh with
    | true => exact absurd (hf.symm.trans hfits.2.1) (Option.some_ne_none f)
    | false => exact .inl ⟨q, rfl, hfits.1, hfits.2.trans hf, hloop⟩
  | field f' q taken =>
    obtain rfl : f = f' := Option.some.inj (hf.symm.trans hfits.2.1)
    have hends : FieldEnds f (pre.drop m) ch (.field f q taken)
        ⟨q.paused, if taken then pre.length + 1 else pre.length,
          some (.data f (pre.drop m ++ []))⟩ := .called rfl rfl
    rw [List.append_nil, ← slice_left (ch :: rest) hm] at hends
    rw [← slice_left (ch :: rest) hm]
    refine .inr ⟨_, hloop, ?_, hends⟩
    cases taken <;> rfl
  | empty f' q => exact absurd (hf.symm.trans hfits.2.1) (Option.some_ne_none f)
  | notice n q taken => exact absurd (hf.symm.trans hfits.2.1) (Option.some_ne_none f)
  | body q taken =>
    exact absurd hfits.2 (by rw [takesBody_of_field hf]; exact Bool.false_ne_true)
  | fail e q => exact .inr ⟨_, hloop, rfl, .failed rfl⟩

/-- The loop in the middle of a field that has started at `m`. -/
theorem loop_field {f : Field} (rest : Bytes) {p : Parser} (h : p.Sound)
    (hf : p.state.field = some f) (pre : Bytes) (ch : UInt8) {m : Nat} (hm : m ≤ pre.length) :
    ∃ (r : Returned) (cs : List Bytes) (ch₁ : UInt8) (left : Bytes) (mv : Move),
      loop (pre ++ ch :: rest) p (p.state.marks m) pre.length 0 (ch :: rest) = some r ∧
      Reaches p (ch :: rest) (cs.map f.event) ch₁ left mv ∧
      r.nparsed + (left.length + 1) = (pre ++ ch :: rest).length + (mv.execution ch₁).nparsed ∧
      FieldEnds f (pre.drop m ++ cs.flatten) ch₁ mv r := by
  induction rest generalizing p pre ch with
  | nil =>
    obtain ⟨mv, hmove, ⟨q, rfl, hq, hfield, hloop⟩ | ⟨r, hloop, hn, hends⟩⟩ :=
      loop_field_step h hf pre ch [] hm
    · -- the buffer ends in the field
      have hone : (Move.on q false).execution ch = ⟨q, 1, .paused, some (f.event [ch])⟩ := by
        rw [Move.execution, hfield]
      rw [marks_only hfield, loop_nil_only hq, slice_all ch hm] at hloop
      refine ⟨_, [], ch, [], .on q false, hloop, .here hmove, by rw [hone]; simp, ?_⟩
      have hends : FieldEnds f (pre.drop m) ch (.on q false)
          ⟨((Move.on q false).execution ch).state.paused, (pre ++ [ch]).length,
            some (.data f (pre.drop m ++ [ch]))⟩ := .called rfl (congrArg Execution.event hone)
      rw [hone] at hends
      simpa using hends
    · refine ⟨r, [], ch, [], mv, hloop, .here hmove, by simp [hn]; omega, ?_⟩
      simpa using hends
  | cons ch' rest ih =>
    obtain ⟨mv, hmove, ⟨q, rfl, hq, hfield, hloop⟩ | ⟨r, hloop, hn, hends⟩⟩ :=
      loop_field_step h hf pre ch (ch' :: rest) hm
    · have hone : (Move.on q false).execution ch = ⟨q, 1, .paused, some (f.event [ch])⟩ := by
        rw [Move.execution, hfield]
      obtain ⟨r, cs, ch₁, left, mv₁, hrun, hreaches, hn, hends⟩ :=
        ih hq hfield (pre ++ [ch]) ch' (by simp; omega)
      simp only [List.append_assoc, List.singleton_append, List.length_append,
        List.length_singleton] at hrun hn
      have hfirst : Reaches p (ch :: ch' :: rest)
          (((Move.on q false).execution ch).event.toList ++ cs.map f.event) ch₁ left mv₁ :=
        .after hmove rfl (by rw [hone]; exact hreaches)
      rw [hone] at hfirst
      refine ⟨r, [ch] :: cs, ch₁, left, mv₁, hloop.trans hrun, hfirst, by simpa using hn, ?_⟩
      rw [List.flatten_cons, ← List.append_assoc, ← List.drop_append_of_le_length hm]
      exact hends
    · refine ⟨r, [], ch, ch' :: rest, mv, hloop, .here hmove, by simp [hn]; omega, ?_⟩
      simpa using hends

/-- The move that a call on `total` bytes ends with, after the events `es` of single bytes. -/
inductive Ends (total : Nat) (es : List Event) (ch : UInt8) (mv : Move) : Returned → Prop where
  | failed {e : Hpe} {q : Parser} {n : Nat} (hmv : mv = .fail e q) :
      Ends total es ch mv ⟨{ q with errno := .failed e.code }, n, none⟩
  | called {cb : Callback} {n : Nat} (hlive : mv.live = true)
      (hmerge : events.merge (es ++ (mv.execution ch).event.toList) =
        [(mv.execution ch).state.event cb]) :
      Ends total es ch mv ⟨(mv.execution ch).state.paused, n, some cb⟩
  | silent (hlive : mv.live = true) (hes : es = []) (hevent : (mv.execution ch).event = none) :
      Ends total es ch mv ⟨(mv.execution ch).state, total, none⟩

theorem FieldEnds.ends {f : Field} {text : Bytes} {ch : UInt8} {mv : Move} {r : Returned}
    (h : FieldEnds f text ch mv r) {cs : List Bytes} (hcs : cs.flatten = text) (total : Nat) :
    Ends total (cs.map f.event) ch mv r := by
  cases h with
  | failed hmv => exact .failed hmv
  | @called c n hlive hevent =>
    refine .called hlive ?_
    rw [hevent, Option.toList_some, merge_pieces, hcs]
    rfl

/-- All of the events bring pieces of data. -/
def Pieced (es : List Event) : Prop := ∀ e ∈ es, (eventKind e).isSome = true

theorem pieced_map (f : Field) (cs : List Bytes) : Pieced (cs.map f.event) := by
  intro e he
  obtain ⟨c, -, rfl⟩ := List.mem_map.mp he
  rw [eventKind_event]
  rfl

/-- What the loop does on the rest of a buffer, in single bytes. -/
def Sums (p : Parser) (pre rest : Bytes) (m : Nat) : Prop :=
  ∃ (r : Returned) (es : List Event) (ch : UInt8) (left : Bytes) (mv : Move),
    loop (pre ++ rest) p (p.state.marks m) pre.length 0 rest = some r ∧
    Reaches p rest es ch left mv ∧ Pieced es ∧
    r.nparsed + (left.length + 1) = (pre ++ rest).length + (mv.execution ch).nparsed ∧
    Ends (pre ++ rest).length es ch mv r

section Body

variable {p : Parser} (h : p.Sound)

/-- The pieces of a body that has come byte by byte. -/
def bodyPieces (bs : Bytes) : List Event := (bs.map fun c => [c]).map Field.body.event

theorem flatten_singletons (bs : Bytes) : (bs.map fun c => [c]).flatten = bs := by
  induction bs with
  | nil => rfl
  | cons b bs ih => rw [List.map_cons, List.flatten_cons, ih, List.singleton_append]

theorem merge_body (bs : Bytes) (c : UInt8) :
    events.merge (bodyPieces bs ++ [Event.body [c]]) = [.body (bs ++ [c])] := by
  have h := merge_pieces .body (bs.map fun c => [c]) [c]
  rwa [flatten_singletons] at h

include h

theorem body_execution (hbody : p.state.takesBody = true)
    (hlast : ¬(p.state = .bodyIdentity ∧ p.contentLength = 1)) (ch : UInt8) :
    step p ch = some (.body (p.ate 1) true) := by
  have hmore : p.atLast = false := by
    rw [Parser.atLast, Bool.and_eq_false_iff, decide_eq_false_iff_not, decide_eq_false_iff_not]
    exact not_and_or.mp hlast
  rw [step_body h hbody, hmore]
  rfl

/-- All of these bytes are of the body, and not the last one of a body of known length. -/
theorem feeds_body (hbody : p.state.takesBody = true) {bs : Bytes} (hbs : p.Holds bs.length)
    (hlast : ¬(p.state = .bodyIdentity ∧ p.contentLength = bs.length)) (s : Bytes) :
    Feeds p (bs ++ s) (bodyPieces bs) (p.ate bs.length) s := by
  induction bs generalizing p with
  | nil =>
    rw [List.length_nil, ate_zero h hbody]
    exact .refl p s
  | cons c bs ih =>
    rw [List.length_cons] at hbs hlast ⊢
    obtain heof | hknown : p.state = .bodyIdentityEof ∨
        (p.state = .chunkData ∨ p.state = .bodyIdentity) := by
      obtain hs | hs | hs := State.takesBody_cases hbody
      · exact .inr (.inl hs)
      · exact .inr (.inr hs)
      · exact .inl hs
    · have hend : ∀ n : Nat, ¬(p.state = .bodyIdentity ∧ p.contentLength = n) := by
        rintro n ⟨hs, -⟩
        rw [heof] at hs
        cases hs
      have hrest := ih h hbody (.inl heof) (hend _)
      refine .byte (body_execution h hbody (hend 1) c) rfl ?_
      show Feeds (p.ate 1) (bs ++ s) (bodyPieces bs) (p.ate (bs.length + 1)) s
      rw [ate_eof heof] at hrest ⊢
      rwa [ate_eof heof]
    · have hle : bs.length + 1 ≤ p.contentLength := by
        obtain heof | hle := hbs
        · rw [heof] at hknown
          obtain ⟨⟨⟩⟩ | ⟨⟨⟩⟩ := hknown
        · exact hle
      have hmore : ¬(p.state = .bodyIdentity ∧ p.contentLength = 1) := fun hone =>
        hlast ⟨hone.1, by omega⟩
      refine .byte (body_execution h hbody hmore c) rfl ?_
      show Feeds (p.ate 1) (bs ++ s) (bodyPieces bs) (p.ate (bs.length + 1)) s
      by_cases hone : p.contentLength = 1
      · obtain rfl : bs = [] := List.length_eq_zero_iff.mp (by omega)
        exact .refl _ s
      · have hate := ate_more (n := 1) hknown (by omega)
        have hq := ate_sound h hbody (n := 1) (.inr (by omega))
        rw [hate] at hq
        have hrest := ih hq hbody (.inr (by dsimp only; omega)) fun hend =>
          hlast ⟨hend.1, by have := hend.2; dsimp only at this; omega⟩
        rwa [← hate, ate_ate hknown (by omega), Nat.add_comm] at hrest

/-- The rest of the buffer is of the body. -/
theorem sums_rest (hbody : p.state.takesBody = true) (m : Nat) (pre bs : Bytes) (ch : UInt8)
    (hbs : p.Holds (bs.length + 1))
    (hlast : ¬(p.state = .bodyIdentity ∧ p.contentLength = bs.length + 1)) :
    Sums p pre (bs ++ [ch]) m := by
  have hlen : (bs ++ [ch]).length = bs.length + 1 := by simp
  have hloop := loop_body_rest h hbody m pre (List.concat_ne_nil ch bs) (hlen ▸ hbs) (hlen ▸ hlast)
  obtain ⟨hq, hstate, hnext, hleft⟩ := ate_next h hbody hbs
  have hone : p.state = .bodyIdentity → bs.length + 1 < p.contentLength := by
    intro hs
    have hle := hbs.resolve_left (by rw [hs]; rintro ⟨⟩)
    exact Nat.lt_of_le_of_ne hle fun heq => hlast ⟨hs, heq.symm⟩
  have hfeeds := @feeds_body p h hbody bs (hbs.imp_right fun hle => by omega)
    (fun hend => absurd (hone hend.1) (by omega)) [ch]
  have hmove := body_execution hq (hstate ▸ hbody) (fun hend => by
    have hlength := hleft (by rw [← hstate, hend.1]; rintro ⟨⟩)
    have hlt := hone (hstate ▸ hend.1)
    omega) ch
  rw [hnext] at hmove
  refine ⟨_, bodyPieces bs, ch, [], _, hloop, ⟨_, hfeeds, hmove⟩, pieced_map _ _, rfl, ?_⟩
  rw [hlen]
  exact .called rfl (merge_body bs ch)

/-- The body of known length ends in the buffer. -/
theorem sums_last (hs : p.state = .bodyIdentity) (m : Nat) (pre bs rest : Bytes) (ch : UInt8)
    (hlength : p.contentLength = bs.length + 1) : Sums p pre (bs ++ ch :: rest) m := by
  have hbody : p.state.takesBody = true := by rw [hs]; rfl
  have hloop := loop_body_last h hs m pre bs rest ch hlength
  obtain ⟨hq, hstate, hnext, hleft⟩ := ate_next h hbody (n := bs.length) (.inr hlength.ge)
  have hfeeds := @feeds_body p h hbody bs (.inr (by omega)) (fun hend => by omega) (ch :: rest)
  have hlast : (p.ate bs.length).atLast = true := by
    rw [Parser.atLast, hstate, hs, hleft (by rw [hs]; rintro ⟨⟩), hlength, Nat.add_sub_cancel_left]
    rfl
  have hmove := step_body hq (hstate ▸ hbody) ch
  rw [hnext, hlast] at hmove
  refine ⟨_, bodyPieces bs, ch, rest, _, hloop, ⟨_, hfeeds, hmove⟩, pieced_map _ _, ?_,
    .called rfl (merge_body bs ch)⟩
  simp only [Move.execution, List.length_append, List.length_cons]
  exact Nat.add_assoc _ _ _

/-- A chunk ends in the buffer, with another byte behind it. -/
theorem sums_chunk (hs : p.state = .chunkData) (m : Nat) (pre bs rest : Bytes) (ch : UInt8)
    (hlength : p.contentLength = bs.length) : Sums p pre (bs ++ ch :: rest) m := by
  have hbody : p.state.takesBody = true := by rw [hs]; rfl
  have hloop := loop_chunk_end h hs m pre bs (ch :: rest) hlength
  have hq := ate_sound h hbody (n := bs.length) (.inr hlength.ge)
  have hfeeds := @feeds_body p h hbody bs (.inr hlength.ge) (by rw [hs]; rintro ⟨⟨⟩, -⟩)
    (ch :: rest)
  have hend : (p.ate bs.length).state = .chunkDataAlmostDone := by
    rw [Parser.ate, hs]
    dsimp only
    rw [if_pos hlength]
  revert hloop hq hfeeds hend
  generalize p.ate bs.length = q
  intro hloop hq hfeeds hend
  have hsize : ¬q.Overflows := by
    rintro ⟨hheader, -⟩
    rw [hend] at hheader
    cases hheader
  have hcount : q.countByte = q := by
    rw [Parser.countByte, if_neg (by rw [hend]; exact Bool.false_ne_true)]
  have hexpects := hq.2
  rw [Parser.Expects, hend] at hexpects
  obtain ⟨hchunked, hzero⟩ := hexpects
  have hbyte : ∀ n, byte q ch n =
      if ch ≠ CR then .error .strict q else .data .body { q with state := .chunkDataDone } := by
    intro n
    rw [byte, hend]
    dsimp only
    rw [chunkDataAlmostDone, if_neg (by simp [hchunked, hzero])]
  have hslice : slice (pre ++ (bs ++ ch :: rest)) pre.length (pre.length + bs.length) = bs := by
    rw [slice, List.drop_left, Nat.add_sub_cancel_left, List.take_left]
  rw [loop, if_neg hsize, hcount, hbyte] at hloop
  by_cases hch : ch = CR
  · have hdone : Parser.Sound { q with state := .chunkDataDone } := ⟨hq.1, hchunked⟩
    rw [if_neg (not_not.mpr hch), perform, callData] at hloop
    have hmark : Marks.only .body pre.length .body = some pre.length := if_pos rfl
    simp only [hmark, call_sound hdone, hslice] at hloop
    have hmove : step q ch = some (.on { q with state := .chunkDataDone } false) := by
      rw [step, if_neg hsize, hcount, hbyte, if_neg (not_not.mpr hch), Action.move, hend]
      rfl
    have hmerge : events.merge (bodyPieces bs ++ []) = [.body bs] := by
      obtain rfl | ⟨bs', c, rfl⟩ := List.eq_nil_or_concat bs
      · exact absurd hlength (length_pos h (.inl hs)).ne'
      · have hlast := merge_body bs' c
        rw [List.append_nil, bodyPieces, List.concat_eq_append, List.map_append, List.map_append]
        exact hlast
    refine ⟨_, bodyPieces bs, ch, rest, _, hloop, ⟨_, hfeeds, hmove⟩, pieced_map _ _, ?_,
      .called rfl hmerge⟩
    simp only [Move.execution, List.length_append, List.length_cons]
    show pre.length + bs.length + 1 + (rest.length + 1) = _ + 1
    omega
  · rw [if_pos hch, perform] at hloop
    have hmove : step q ch = some (.fail .strict q) := by
      rw [step, if_neg hsize, hcount, hbyte, if_pos hch, Action.move]
    refine ⟨_, bodyPieces bs, ch, rest, _, hloop, ⟨_, hfeeds, hmove⟩, pieced_map _ _, ?_,
      .failed rfl⟩
    simp only [Move.execution, List.length_append, List.length_cons]
    omega

theorem sums_body (hbody : p.state.takesBody = true) (m : Nat) (pre : Bytes) {rest : Bytes}
    (hrest : rest ≠ []) : Sums p pre rest m := by
  have hall : p.Holds rest.length →
      ¬(p.state = .bodyIdentity ∧ p.contentLength = rest.length) → Sums p pre rest m := by
    intro hholds hlast
    obtain rfl | ⟨bs, ch, rfl⟩ := List.eq_nil_or_concat rest
    · exact absurd rfl hrest
    · rw [List.concat_eq_append, List.length_append, List.length_singleton] at hholds hlast
      rw [List.concat_eq_append]
      exact sums_rest h hbody m pre bs ch hholds hlast
  have hsplit : ∀ n < rest.length, ∃ bs ch left, rest = bs ++ ch :: left ∧ bs.length = n := by
    intro n hn
    refine ⟨rest.take n, rest[n], rest.drop (n + 1), ?_, List.length_take_of_le hn.le⟩
    rw [List.getElem_cons_drop, List.take_append_drop]
  obtain hs | hs | hs := State.takesBody_cases hbody
  · by_cases hle : rest.length ≤ p.contentLength
    · exact hall (.inr hle) (by rw [hs]; rintro ⟨⟨⟩, -⟩)
    · obtain ⟨bs, ch, left, rfl, hlen⟩ := hsplit p.contentLength (by omega)
      exact sums_chunk h hs m pre bs left ch hlen.symm
  · by_cases hlt : rest.length < p.contentLength
    · exact hall (.inr hlt.le) fun hend => by omega
    · have hpos := length_pos h (.inr hs)
      obtain ⟨bs, ch, left, rfl, hlen⟩ := hsplit (p.contentLength - 1) (by omega)
      exact sums_last h hs m pre bs left ch (by omega)
  · exact hall (.inl hs) (by rw [hs]; rintro ⟨⟨⟩, -⟩)

end Body

section Outside

variable {p q : Parser} {ch : UInt8} {m : Nat} {pre rest : Bytes}

/-- In the middle of no field the loop goes on, possibly into one, or it ends. -/
theorem loop_none_step (h : p.Sound) (hnone : p.state.field = none)
    (hbody : p.state.takesBody = false) (ch : UInt8) (m : Nat) (pre rest : Bytes) :
    ∃ mv, step p ch = some mv ∧
      ((∃ q fresh, mv = .on q fresh ∧ mv.Fits p.state ∧
          loop (pre ++ ch :: rest) p (p.state.marks m) pre.length 0 (ch :: rest) =
            loop (pre ++ ch :: rest) q (q.state.marks (if fresh then pre.length else m))
              (pre.length + 1) 0 rest) ∨
        ∃ r, loop (pre ++ ch :: rest) p (p.state.marks m) pre.length 0 (ch :: rest) = some r ∧
          r.nparsed = pre.length + (mv.execution ch).nparsed ∧
          Ends (pre ++ ch :: rest).length [] ch mv r) := by
  obtain ⟨mv, hmove, hfits⟩ := h.step ch
  have hloop := loop_move h hbody hmove (pre ++ ch :: rest) m pre.length rest
  refine ⟨mv, hmove, ?_⟩
  cases mv with
  | on q fresh => exact .inl ⟨q, fresh, rfl, hfits, hloop⟩
  | field f q taken => exact absurd (hnone.symm.trans hfits.2.1) (Option.some_ne_none f).symm
  | empty f q => exact .inr ⟨_, hloop, rfl, .called rfl rfl⟩
  | notice n q taken =>
    refine .inr ⟨_, hloop, ?_, .called rfl rfl⟩
    cases taken <;> rfl
  | body q taken => exact absurd hfits.2 (by rw [hbody]; exact Bool.false_ne_true)
  | fail e q => exact .inr ⟨_, hloop, rfl, .failed rfl⟩

/-- A field starts. -/
theorem sums_fresh (hmove : step p ch = some (.on q true)) (hq : q.Sound) {f : Field}
    (hfield : q.state.field = some f)
    (hloop : loop (pre ++ ch :: rest) p (p.state.marks m) pre.length 0 (ch :: rest) =
      loop (pre ++ ch :: rest) q (q.state.marks pre.length) (pre.length + 1) 0 rest) :
    Sums p pre (ch :: rest) m := by
  have hone : (Move.on q true).execution ch = ⟨q, 1, .paused, some (f.event [ch])⟩ := by
    rw [Move.execution, hfield]
  cases rest with
  | nil =>
    rw [marks_only hfield, loop_nil_only hq, slice_all ch le_rfl, List.drop_length,
      List.nil_append] at hloop
    have hends : Ends (pre ++ [ch]).length [] ch (.on q true)
        ⟨((Move.on q true).execution ch).state.paused, (pre ++ [ch]).length,
          some (.data f [ch])⟩ := .called rfl (by rw [hone]; rfl)
    rw [hone] at hends
    exact ⟨_, [], ch, [], _, hloop, .here hmove, fun e he => (by cases he), by rw [hone]; rfl, hends⟩
  | cons ch' rest =>
    obtain ⟨r, cs, ch₁, left, mv, hrun, hreaches, hn, hends⟩ :=
      loop_field rest hq hfield (pre ++ [ch]) ch' (by simp : pre.length ≤ (pre ++ [ch]).length)
    rw [List.drop_left] at hends
    simp only [List.append_assoc, List.singleton_append, List.length_append,
      List.length_singleton] at hrun hn
    have hfirst : Reaches p (ch :: ch' :: rest)
        (((Move.on q true).execution ch).event.toList ++ cs.map f.event) ch₁ left mv :=
      .after hmove rfl (by rw [hone]; exact hreaches)
    rw [hone] at hfirst
    exact ⟨r, ([ch] :: cs).map f.event, ch₁, left, mv, hloop.trans hrun, hfirst, pieced_map _ _,
      by simpa using hn, hends.ends (by rw [List.flatten_cons]) _⟩

/-- The loop in a state that is in the middle of no field. -/
theorem sums_none (rest : Bytes) (h : p.Sound) (hnone : p.state.field = none) (pre : Bytes)
    (ch : UInt8) (m : Nat) : Sums p pre (ch :: rest) m := by
  induction rest generalizing p pre ch with
  | nil =>
    by_cases hbody : p.state.takesBody = true
    · exact sums_body h hbody m pre (List.cons_ne_nil ch [])
    obtain ⟨mv, hmove, ⟨q, fresh, rfl, hfits, hloop⟩ | ⟨r, hloop, hn, hends⟩⟩ :=
      loop_none_step h hnone (by simpa using hbody) ch m pre []
    · cases fresh with
      | true =>
        obtain ⟨f, hfield⟩ := Option.ne_none_iff_exists'.mp hfits.2.2
        exact sums_fresh hmove hfits.1 hfield hloop
      | false =>
        have hfield := hfits.2.trans hnone
        have hone : (Move.on q false).execution ch = ⟨q, 1, .ok, none⟩ := by
          rw [Move.execution, hfield]
        rw [loop_nil_none hfits.1 hfield] at hloop
        have hends : Ends (pre ++ [ch]).length [] ch (.on q false)
            ⟨((Move.on q false).execution ch).state, (pre ++ [ch]).length, none⟩ :=
          .silent rfl rfl (by rw [hone])
        rw [hone] at hends
        exact ⟨_, [], ch, [], _, hloop, .here hmove, fun e he => (by cases he),
          by rw [hone]; rfl, hends⟩
    · exact ⟨r, [], ch, [], mv, hloop, .here hmove, fun e he => (by cases he), by simp [hn]; omega,
        hends⟩
  | cons ch' rest ih =>
    by_cases hbody : p.state.takesBody = true
    · exact sums_body h hbody m pre (List.cons_ne_nil ch _)
    obtain ⟨mv, hmove, ⟨q, fresh, rfl, hfits, hloop⟩ | ⟨r, hloop, hn, hends⟩⟩ :=
      loop_none_step h hnone (by simpa using hbody) ch m pre (ch' :: rest)
    · cases fresh with
      | true =>
        obtain ⟨f, hfield⟩ := Option.ne_none_iff_exists'.mp hfits.2.2
        exact sums_fresh hmove hfits.1 hfield hloop
      | false =>
        have hfield := hfits.2.trans hnone
        have hone : (Move.on q false).execution ch = ⟨q, 1, .ok, none⟩ := by
          rw [Move.execution, hfield]
        obtain ⟨r, es, ch₁, left, mv, hrun, hreaches, hes, hn, hends⟩ :=
          ih hfits.1 hfield (pre ++ [ch]) ch'
        simp only [List.append_assoc, List.singleton_append, List.length_append,
          List.length_singleton] at hrun hn
        have hfirst : Reaches p (ch :: ch' :: rest)
            (((Move.on q false).execution ch).event.toList ++ es) ch₁ left mv :=
          .after hmove rfl (by rw [hone]; exact hreaches)
        rw [hone] at hfirst
        rw [← List.append_cons] at hends
        exact ⟨r, es, ch₁, left, mv, hloop.trans hrun, hfirst, hes, by simpa using hn, hends⟩
    · exact ⟨r, [], ch, ch' :: rest, mv, hloop, .here hmove, fun e he => (by cases he),
        by simp [hn]; omega, hends⟩

/-- The loop from the start of a buffer. -/
theorem sums_start (h : p.Sound) (ch : UInt8) (rest : Bytes) : Sums p [] (ch :: rest) 0 := by
  cases hfield : p.state.field with
  | none => exact sums_none rest h hfield [] ch 0
  | some f =>
    obtain ⟨r, cs, ch₁, left, mv, hrun, hreaches, hn, hends⟩ :=
      loop_field rest h hfield [] ch (Nat.le_refl 0)
    exact ⟨r, _, ch₁, left, mv, hrun, hreaches, pieced_map f cs, hn, hends.ends (by simp) _⟩

end Outside

/-- What a call of `parse_http` on `total` bytes reports, after the events `es` of single bytes. -/
inductive Reports (total : Nat) (es : List Event) (ch : UInt8) (mv : Move) :
    Execution Parser → Prop where
  | failed {e : Hpe} {q : Parser} {n : Nat} (hmv : mv = .fail e q) :
      Reports total es ch mv ⟨{ q with errno := .failed e.code }, n, .failed e.code, none⟩
  | called {e : Event} {n : Nat} (hlive : mv.live = true)
      (hmerge : events.merge (es ++ (mv.execution ch).event.toList) = [e]) :
      Reports total es ch mv ⟨(mv.execution ch).state, n, .paused, some e⟩
  | silent (hlive : mv.live = true) (hes : es = []) (hevent : (mv.execution ch).event = none) :
      Reports total es ch mv ⟨(mv.execution ch).state, total, .ok, none⟩

/-- A call on a buffer reports what the calls on its single bytes do, up to the one that ends it. -/
theorem parseHttp_reports {p : Parser} (h : p.Sound) {buf : Bytes} (hbuf : buf ≠ []) :
    ∃ (x : Execution Parser) (es : List Event) (ch : UInt8) (left : Bytes) (mv : Move),
      parseHttp p buf = some x ∧ Reaches p buf es ch left mv ∧ Pieced es ∧
      x.nparsed + (left.length + 1) = buf.length + (mv.execution ch).nparsed ∧
      Reports buf.length es ch mv x := by
  cases buf with
  | nil => exact absurd rfl hbuf
  | cons c rest =>
    obtain ⟨r, es, ch, left, mv, hrun, hreaches, hes, hn, hends⟩ := sums_start h c rest
    have hexecute := (httpParserExecute_cons h c rest).trans hrun
    have hq : mv.live = true → (mv.execution ch).state.Sound := by
      obtain ⟨p₁, hfeeds, hmove⟩ := hreaches
      obtain ⟨mv', hmove', hfits⟩ := (hfeeds.sound h).step ch
      obtain rfl : mv = mv' := Option.some.inj (hmove.symm.trans hmove')
      exact fun hlive => hfits.sound hlive ch
    cases hends with
    | failed hmv =>
      rw [hmv] at hn
      refine ⟨_, es, ch, left, mv, parseHttp_failed ?_ hexecute, hreaches, hes, by rw [hmv]; exact hn,
        .failed hmv⟩
      simp only [Move.execution, List.nil_append] at hn
      omega
    | called hlive hmerge =>
      exact ⟨_, es, ch, left, mv, parseHttp_called (hq hlive) hexecute, hreaches, hes, hn,
        .called hlive hmerge⟩
    | silent hlive hnil hevent =>
      exact ⟨_, es, ch, left, mv, parseHttp_silent (hq hlive) hexecute, hreaches, hes, hn,
        .silent hlive hnil hevent⟩

end Luaw.Parsing
