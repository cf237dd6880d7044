import Luaw.Http.Multipart

/-!
# Consuming the body of a multipart request

The body is a list of fields, each a text and the delimiter after it. `At` says where in it a
reader is: what it has consumed, and what of the last event it holds in its buffer. A field is
consumed as it was written wherever the events end, unless one of them ends one byte after the
delimiter: a single byte that is left in the buffer is lost.
-/

namespace Luaw.Http.Multipart

open Lua

/-- A text and the delimiter that ends it. -/
abbrev Field := Bytes × Bytes

def joinFields (fields : List Field) : Bytes := fields.flatMap fun (m, delim) => m ++ delim

/-- The delimiter is found at the end of the text, and there is enough to search in. -/
structure Field.Good (field : Field) : Prop where
  separates : Delimiter.Separates field.1 field.2
  length : 2 ≤ field.1.length + field.2.length

/-- A body event of two bytes or more ends one byte after a delimiter. -/
def Overhangs (events : List Bytes) (fields : List Field) : Prop :=
  ∃ done e post fs gs, events = done ++ e :: post ∧ 2 ≤ e.length ∧ fields = fs ++ gs ∧ fs ≠ [] ∧
    (done ++ [e]).flatten.length = (joinFields fs).length + 1

/-- The content, from its offset on. -/
inductive Buffered : Option (Bytes × Nat) → Bytes → Prop where
  | empty : Buffered none []
  | held {content : Bytes} {offset : Nat} (hpos : 1 ≤ offset) (hlt : offset ≤ content.length) :
      Buffered (some (content, offset)) (content.drop (offset - 1))

/-- No body chunk is waiting to be consumed. -/
structure Idle (req : Request) : Prop where
  body : req.body = none
  bodyParts : req.bodyParts = newBuffer

section Buffered

variable {content : Option (Bytes × Nat)} {buffer m search rest chunk : Bytes}

theorem Buffered.trim (h : Buffered content buffer) : Buffered (Multipart.trim content) buffer := by
  cases h with
  | empty => exact .empty
  | @held content offset hpos hlt =>
    rw [Multipart.trim]
    split
    · have hlen : 1 ≤ (content.drop (offset - 1)).length := by
        rw [List.length_drop]
        omega
      exact .held (le_refl 1) hlen
    · exact .held hpos hlt

theorem Buffered.extend (h : Buffered content buffer) (hchunk : chunk ≠ []) :
    Buffered (Multipart.extend content (some chunk)) (buffer ++ chunk) := by
  cases h with
  | empty => exact .held (le_refl 1) (List.length_pos_iff.mpr hchunk)
  | @held content offset hpos hlt =>
    have hdrop : (content ++ chunk).drop (offset - 1) = content.drop (offset - 1) ++ chunk :=
      List.drop_append_of_le_length (by omega)
    rw [← hdrop]
    refine .held hpos ?_
    rw [List.length_append]
    omega

theorem Buffered.matched_none (h : Buffered content buffer) (hsep : Delimiter.Separates m search)
    (hstarts : buffer <+: m ++ search ++ rest) (hlen : buffer.length < m.length + search.length) :
    matched search content = none := by
  cases h with
  | empty => rfl
  | @held content offset hpos hlt =>
    rw [matched, consumeTill, hsep.find_none hstarts hlen]
    split <;> rfl

/-- A match leaves the rest of the content, if it is longer than one byte. -/
theorem Buffered.matched_some (h : Buffered content (m ++ search ++ rest))
    (hsep : Delimiter.Separates m search) (hlen : 2 ≤ m.length + search.length) :
    ∃ content', matched search content = some (m, content') ∧
      if rest.length ≤ 1 then content' = none else Buffered content' rest := by
  generalize hbuffer : m ++ search ++ rest = buffer at h
  cases h with
  | empty =>
    have hzero := congrArg List.length hbuffer
    simp only [List.length_append, List.length_nil] at hzero
    omega
  | @held content offset hpos hlt =>
    have htotal := congrArg List.length hbuffer
    simp only [List.length_append, List.length_drop] at htotal
    have hmatched : matched search (some (content, offset)) =
        some (m, if offset + m.length + search.length < content.length then
          some (content, offset + m.length + search.length) else none) := by
      rw [matched, if_pos (by omega), consumeTill, ← hbuffer, hsep rest]
      simp only [Option.map_some, List.append_assoc, List.take_left']
    refine ⟨_, hmatched, ?_⟩
    split
    · rw [if_neg (by omega)]
    · rw [if_pos (by omega)]
      have hrest : rest = content.drop (offset + m.length + search.length - 1) := by
        have hdrop := congrArg (List.drop (m.length + search.length)) hbuffer
        rw [← List.length_append, List.drop_left, List.drop_drop, List.length_append] at hdrop
        rw [hdrop]
        congr 1
        omega
      rw [hrest]
      exact .held (by omega) (by omega)

end Buffered

theorem consumeBodyChunkParsed_idle {req : Request} (h : Idle req) {chunk : Bytes}
    (hchunk : chunk ≠ []) :
    consumeBodyChunkParsed { req with bodyParts := req.bodyParts.append (.str chunk) } =
      .ok (some chunk, req) := by
  have hpos : 0 < (newBuffer.append (.str chunk)).len := by
    show 0 < 0 + chunk.length
    rw [Nat.zero_add]
    exact List.length_pos_iff.mpr hchunk
  have hconcat : (newBuffer.append (.str chunk)).concat = .ok chunk :=
    congrArg Except.ok (List.append_nil chunk)
  obtain ⟨hbody, hparts⟩ := h
  have hreset : { req with bodyParts := newBuffer, body := none } = req := by
    rw [← hbody, ← hparts]
  rw [hparts, consumeBodyChunkParsed]
  simp only [hbody, hpos, if_true, hconcat]
  exact congrArg (fun req => Except.ok (some chunk, req)) hreset

/-- The loop reads as many events as it needs to have the whole delimiter; what remains is less
than the last one of them. -/
theorem bufferedConsume_spec {m search rest : Bytes} (hgood : Field.Good (m, search))
    {req : Request} (hreq : Idle req) {events : List Bytes} (hevents : ∀ e ∈ events, e ≠ [])
    {content : Option (Bytes × Nat)} {buffer : Bytes} (hbuffer : Buffered content buffer)
    (htotal : buffer ++ events.flatten = m ++ search ++ rest) :
    ∃ pre post left content', events = pre ++ post ∧ buffer ++ pre.flatten = m ++ search ++ left ∧
      (pre = [] ∨ ∃ pre' e, pre = pre' ++ [e] ∧ left.length < e.length) ∧
      bufferedConsume search req events content = .ok (m, ⟨req, post, content'⟩) ∧
      if left.length ≤ 1 then content' = none else Buffered content' left := by
  obtain ⟨hsep, hlen⟩ := hgood
  induction events generalizing content buffer with
  | nil =>
    rw [List.flatten_nil, List.append_nil] at htotal
    subst htotal
    obtain ⟨content', hmatched, hleft⟩ := hbuffer.matched_some hsep hlen
    refine ⟨[], [], rest, content', rfl, List.append_nil _, .inl rfl, ?_, hleft⟩
    rw [bufferedConsume, hmatched]
  | cons chunk events ih =>
    by_cases hshort : buffer.length < m.length + search.length
    · have hstarts : buffer <+: m ++ search ++ rest := ⟨_, htotal⟩
      have hchunk : chunk ≠ [] := hevents chunk List.mem_cons_self
      have htotal' : buffer ++ chunk ++ events.flatten = m ++ search ++ rest := by
        rw [← htotal, List.flatten_cons, List.append_assoc]
      obtain ⟨pre, post, left, content', hsplit, hread, hlast, hconsume, hleft⟩ :=
        ih (fun e he => hevents e (List.mem_cons_of_mem _ he)) (hbuffer.trim.extend hchunk) htotal'
      refine ⟨chunk :: pre, post, left, content', congrArg _ hsplit, ?_, .inr ?_, ?_, hleft⟩
      · rw [← hread, List.flatten_cons, List.append_assoc]
      · obtain rfl | ⟨pre', e, rfl, hlt⟩ := hlast
        · refine ⟨[], chunk, rfl, ?_⟩
          have hlength := congrArg List.length hread
          simp only [List.length_append, List.flatten_nil, List.length_nil] at hlength
          omega
        · exact ⟨chunk :: pre', e, rfl, hlt⟩
      · rw [bufferedConsume, hbuffer.matched_none hsep hstarts hshort]
        simp only [consumeBodyChunkParsed_idle hreq hchunk]
        exact hconsume
    · -- the delimiter is in the buffer
      obtain ⟨left, hbuf⟩ : m ++ search <+: buffer := by
        refine List.prefix_of_prefix_length_le ⟨rest, htotal.symm⟩ (List.prefix_append _ _) ?_
        rw [List.length_append]
        omega
      subst hbuf
      obtain ⟨content', hmatched, hleft⟩ := hbuffer.matched_some hsep hlen
      refine ⟨[], chunk :: events, left, content', rfl, List.append_nil _, .inl rfl, ?_, hleft⟩
      rw [bufferedConsume, hmatched]

/-- Events that bring the fields, and end nowhere one byte after a delimiter. -/
structure Brings (events : List Bytes) (fields : List Field) : Prop where
  nonempty : ∀ e ∈ events, e ≠ []
  body : events.flatten = joinFields fields
  good : ∀ field ∈ fields, field.Good
  cut : ¬Overhangs events fields

/-- The fields that are to be consumed are `gs`; the buffer holds a part of the last event. -/
structure At (events : List Bytes) (fields gs : List Field) (u : Upload) : Prop where
  idle : Idle u.req
  position : ∃ fs done buffer, fields = fs ++ gs ∧ events = done ++ u.events ∧
    done.flatten = joinFields fs ++ buffer ∧ Buffered u.content buffer ∧
    (buffer = [] ∨ ∃ done' e, done = done' ++ [e] ∧ buffer.length < e.length)

theorem At.start {events : List Bytes} {fields : List Field} {req : Request} (h : Idle req) :
    At events fields fields ⟨req, events, none⟩ :=
  ⟨h, [], [], [], rfl, rfl, rfl, .empty, .inl rfl⟩

theorem joinFields_append (fs gs : List Field) :
    joinFields (fs ++ gs) = joinFields fs ++ joinFields gs := List.flatMap_append

theorem joinFields_cons (m d : Bytes) (gs : List Field) :
    joinFields ((m, d) :: gs) = m ++ d ++ joinFields gs := List.flatMap_cons

/-- After a field the buffer does not hold a single byte. -/
theorem Brings.left_ne_one {events : List Bytes} {fields : List Field} (h : Brings events fields)
    {fs gs : List Field} {done' post : List Bytes} {e left : Bytes} (hfields : fields = fs ++ gs)
    (hfs : fs ≠ []) (hevents : events = done' ++ e :: post)
    (hread : (done' ++ [e]).flatten = joinFields fs ++ left) (hleft : left.length < e.length) :
    left.length ≠ 1 := by
  intro hone
  refine h.cut ⟨done', e, post, fs, gs, hevents, by omega, hfields, hfs, ?_⟩
  rw [hread, List.length_append, hone]

theorem At.consume {events : List Bytes} {fields gs : List Field} {m d : Bytes} {u : Upload}
    (hat : At events fields ((m, d) :: gs) u) (h : Brings events fields) :
    ∃ u', u.consume d = .ok (m, u') ∧ At events fields gs u' := by
  obtain ⟨hidle, fs, done, buffer, hfields, hevents, hdone, hbuffer, hlast⟩ := hat
  have hgood : Field.Good (m, d) := h.good _ (hfields ▸ List.mem_append_cons_self)
  have hnonempty : ∀ e ∈ u.events, e ≠ [] := by
    intro e he
    exact h.nonempty e (hevents ▸ List.mem_append_right _ he)
  have htotal : buffer ++ u.events.flatten = m ++ d ++ joinFields gs := by
    have hbody := h.body
    rw [hevents, hfields, List.flatten_append, hdone, joinFields_append, joinFields_cons,
      List.append_assoc] at hbody
    exact List.append_cancel_left hbody
  obtain ⟨pre, post, left, content', hsplit, hread, hpre, hconsume, hcontent⟩ :=
    bufferedConsume_spec hgood hidle hnonempty hbuffer htotal
  have hfields' : fields = (fs ++ [(m, d)]) ++ gs := by
    rw [hfields, List.append_assoc]
    rfl
  have hevents' : events = done ++ pre ++ post := by rw [hevents, hsplit, List.append_assoc]
  have hdone' : (done ++ pre).flatten = joinFields (fs ++ [(m, d)]) ++ left := by
    rw [List.flatten_append, hdone, List.append_assoc, hread, joinFields_append, joinFields_cons,
      List.append_assoc]
    simp only [joinFields, List.flatMap_nil, List.append_nil, List.append_assoc]
  -- what is left is less than the last event
  have hlast' : ∃ done' e, done ++ pre = done' ++ [e] ∧ left.length < e.length := by
    obtain rfl | ⟨pre', e, rfl, hlt⟩ := hpre
    · have hlength := congrArg List.length hread
      simp only [List.flatten_nil, List.append_nil, List.length_append] at hlength
      have htwo : 2 ≤ m.length + d.length := hgood.length
      obtain rfl | ⟨done', e, hdone', hlt⟩ := hlast
      · simp only [List.length_nil] at hlength
        omega
      · exact ⟨done', e, by rw [List.append_nil, hdone'], by omega⟩
    · exact ⟨done ++ pre', e, (List.append_assoc _ _ _).symm, hlt⟩
  obtain ⟨done', e, hend, hlt⟩ := hlast'
  have hone : left.length ≠ 1 := by
    have hlast : events = done' ++ e :: post := by
      rw [hevents', hend, List.append_assoc]
      rfl
    exact h.left_ne_one hfields' (by simp) hlast (hend ▸ hdone') hlt
  refine ⟨⟨u.req, post, content'⟩, hconsume, hidle, fs ++ [(m, d)], done ++ pre, left, hfields',
    hevents', hdone', ?_, .inr ⟨done', e, hend, hlt⟩⟩
  split at hcontent
  · have hzero : left = [] := List.length_eq_zero_iff.mp (by omega)
    rw [hcontent, hzero]
    exact .empty
  · exact hcontent

end Luaw.Http.Multipart
