import Luaw.Parsing.Messages

/-!
# Events that tell a message

A message has a normal form, in which each of its parts is one event. Events that can be glued
together to it tell the message, and so do the events of its single bytes.
-/

namespace Luaw.Parsing

open Http

theorem event_injective (f : Field) {a b : Bytes} (h : f.event a = f.event b) : a = b := by
  cases f <;> cases h <;> rfl

theorem kind_event (f : Field) (b : Bytes) : events.kind (f.event b) = some f := eventKind_event f b

/-- Pieces that can be glued together. -/
theorem pieces_of_merge {f : Field} {b : Bytes} {evs : List Event}
    (h : events.merge evs = [f.event b]) : Pieces f.event b evs := by
  induction evs generalizing b with
  | nil => cases h
  | cons e evs ih =>
    obtain heq | ⟨a, e', l', heq, hrest, ⟨hsome, hkind⟩, hglue⟩ := events.merge_eq_singleton h
    · rw [heq]
      exact .last b
    · cases heq
      have hglued := (events.kind_glue hkind).symm.trans (congrArg events.kind hglue)
      rw [kind_event] at hglued
      obtain ⟨x, rfl⟩ := eventKind_eq_some hglued
      obtain ⟨y, rfl⟩ := eventKind_eq_some (hkind.symm.trans hglued)
      have hb : x ++ y = b := event_injective f ((glueEvents_event f x y).symm.trans hglue)
      rw [← hb]
      exact .cons x (ih hrest)

/-- A part of a merged list, and what it has come from. -/
theorem pieces_cons {f : Field} {b : Bytes} {evs rest : List Event}
    (h : events.merge evs = f.event b :: rest) :
    ∃ pre post, evs = pre ++ post ∧ Pieces f.event b pre ∧ events.merge post = rest := by
  obtain ⟨pre, post, rfl, hpre, hpost⟩ := events.merge_eq_cons h
  exact ⟨pre, post, rfl, pieces_of_merge hpre, hpost⟩

theorem single_cons {e : Event} (he : events.kind e = none) {evs rest : List Event}
    (h : events.merge evs = e :: rest) : ∃ post, evs = e :: post ∧ events.merge post = rest := by
  obtain ⟨pre, post, rfl, hpre, hpost⟩ := events.merge_eq_cons h
  rw [events.merge_eq_single hpre he]
  exact ⟨post, rfl, hpost⟩

/-- The header fields, as one event for each name and each value. -/
def fieldsTold (fs : List (Bytes × Bytes)) : List Event :=
  fs.flatMap fun f => [.headerField f.1, .headerValue f.2]

def bodyTold (body : Bytes) : List Event := if body = [] then [] else [.body body]

theorem fields_of_merge {fs : List (Bytes × Bytes)} {evs rest : List Event}
    (h : events.merge evs = fieldsTold fs ++ rest) :
    ∃ pre post, evs = pre ++ post ∧ FieldPieces fs pre ∧ events.merge post = rest := by
  induction fs generalizing evs with
  | nil => exact ⟨[], evs, rfl, .nil, h⟩
  | cons f fs ih =>
    obtain ⟨names, evs₁, rfl, hnames, h₁⟩ := pieces_cons (f := .headerField) h
    obtain ⟨values, evs₂, rfl, hvalues, h₂⟩ := pieces_cons (f := .headerValue) h₁
    obtain ⟨pre, post, rfl, hpre, hpost⟩ := ih h₂
    exact ⟨names ++ values ++ pre, post, by simp, .cons hnames hvalues hpre, hpost⟩

theorem chunks_of_pieces {b : Bytes} {evs : List Event} (h : Pieces .body b evs) :
    ∃ chunks : List Bytes, evs = chunks.map .body ∧ chunks.flatten = b := by
  induction h with
  | last b => exact ⟨[b], rfl, by simp⟩
  | cons a hrest ih =>
    obtain ⟨chunks, rfl, rfl⟩ := ih
    exact ⟨a :: chunks, rfl, rfl⟩

theorem body_of_merge {body : Bytes} {evs rest : List Event}
    (h : events.merge evs = bodyTold body ++ rest) :
    ∃ (chunks : List Bytes) (post : List Event), evs = chunks.map .body ++ post ∧
      chunks.flatten = body ∧ events.merge post = rest := by
  unfold bodyTold at h
  split at h
  · next hnil => exact ⟨[], evs, rfl, hnil.symm, h⟩
  · obtain ⟨pre, post, rfl, hpre, hpost⟩ := pieces_cons (f := .body) h
    obtain ⟨chunks, rfl, hbody⟩ := chunks_of_pieces hpre
    exact ⟨chunks, post, rfl, hbody, hpost⟩

def startTold : StartLine → List Event
  | .url url => [.url url]
  | .status mesg => [.status mesg]
  | .statusOnly => []

theorem start_of_merge {start : StartLine} {evs rest : List Event}
    (h : events.merge evs = startTold start ++ rest) :
    ∃ pre post, evs = pre ++ post ∧ start.Tells pre ∧ events.merge post = rest := by
  cases start with
  | url url => exact pieces_cons (f := .url) h
  | status mesg => exact pieces_cons (f := .status) h
  | statusOnly => exact ⟨[], evs, rfl, rfl, h⟩

/-- The normal form of a message whose end has not been told. -/
def toldOpen (m : WireMessage) : List Event :=
  .messageBegin :: (startTold m.start ++ (fieldsTold m.fields ++
    (m.headersComplete :: (bodyTold m.body ++ fieldsTold m.trailers))))

def toldAll (m : WireMessage) : List Event :=
  .messageBegin :: (startTold m.start ++ (fieldsTold m.fields ++
    (m.headersComplete :: (bodyTold m.body ++ (fieldsTold m.trailers ++
      [.messageComplete m.keepAliveEnd])))))

theorem toldAll_eq (m : WireMessage) :
    toldAll m = toldOpen m ++ [.messageComplete m.keepAliveEnd] := by
  simp [toldAll, toldOpen]

theorem tellsOpen_of_merge {m : WireMessage} {evs : List Event}
    (h : events.merge evs = toldOpen m) : m.TellsOpen evs := by
  obtain ⟨evs₁, rfl, h₁⟩ := single_cons rfl h
  obtain ⟨starts, evs₂, rfl, hstarts, h₂⟩ := start_of_merge h₁
  obtain ⟨heads, evs₃, rfl, hheads, h₃⟩ := fields_of_merge h₂
  obtain ⟨evs₄, rfl, h₄⟩ := single_cons rfl h₃
  obtain ⟨chunks, evs₅, rfl, hchunks, h₅⟩ := body_of_merge h₄
  rw [← List.append_nil (fieldsTold m.trailers)] at h₅
  obtain ⟨tails, evs₆, rfl, htails, h₆⟩ := fields_of_merge h₅
  rw [events.merge_eq_nil.mp h₆]
  exact ⟨starts, heads, chunks, tails, hstarts, hheads, hchunks, htails, by simp⟩

theorem tells_of_merge {m : WireMessage} {evs : List Event} (h : events.merge evs = toldAll m) :
    m.Tells evs := by
  obtain ⟨evs₁, rfl, h₁⟩ := single_cons rfl h
  obtain ⟨starts, evs₂, rfl, hstarts, h₂⟩ := start_of_merge h₁
  obtain ⟨heads, evs₃, rfl, hheads, h₃⟩ := fields_of_merge h₂
  obtain ⟨evs₄, rfl, h₄⟩ := single_cons rfl h₃
  obtain ⟨chunks, evs₅, rfl, hchunks, h₅⟩ := body_of_merge h₄
  obtain ⟨tails, evs₆, rfl, htails, h₆⟩ := fields_of_merge h₅
  rw [events.merge_eq_single h₆ rfl]
  exact ⟨_, ⟨starts, heads, chunks, tails, hstarts, hheads, hchunks, htails, rfl⟩, by simp⟩

/-- What tells the message of a request reports its content. -/
theorem reports_of_tells {c : Content} {evs : List Event} (h : c.message.Tells evs) :
    c.Reports evs := by
  obtain ⟨told, ⟨starts, heads, chunks, tails, hstarts, hheads, hchunks, htails, rfl⟩, rfl⟩ := h
  refine ⟨_, _, ⟨starts, heads, hstarts, hheads, rfl⟩, ⟨chunks, tails, hchunks, htails, rfl⟩, ?_⟩
  simp [Content.message, Content.headersComplete, WireMessage.headersComplete]

section Bytes

/-- The events do not go on with the field. -/
def Apart (f : Field) (evs : List Event) : Prop := ∀ e ∈ evs.head?, eventKind e ≠ some f

theorem apart_cons {f : Field} {e : Event} (h : eventKind e ≠ some f) (evs : List Event) :
    Apart f (e :: evs) := fun e' he' => by cases he'; exact h

theorem merge_fieldEvents {f : Field} {evs : List Event} (h : Apart f (events.merge evs))
    (s : Bytes) :
    events.merge (fieldEvents f s ++ evs) = f.event s :: events.merge evs := by
  have hone : events.merge (fieldEvents f s) = events.merge [f.event s] := by
    have hpieces := merge_pieces f (s.map fun ch => [ch]) []
    rw [List.map_map, flatten_singletons, List.append_nil] at hpieces
    exact hpieces
  rw [events.merge_congr hone rfl, List.singleton_append, Gluing.merge_cons]
  cases hevs : events.merge evs with
  | nil => rfl
  | cons e evs' =>
    rw [hevs] at h
    refine events.cons_apart ?_ evs'
    rintro ⟨-, hkind⟩
    rw [kind_event] at hkind
    exact h e rfl hkind.symm

theorem merge_lineEvents {evs : List Event} (h : Apart .headerValue (events.merge evs))
    (f : Bytes × Bytes) :
    events.merge (lineEvents f ++ evs) = .headerField f.1 :: .headerValue f.2 :: events.merge evs := by
  have hvalue := merge_fieldEvents h f.2
  have happart : Apart .headerField (events.merge (fieldEvents .headerValue f.2 ++ evs)) := by
    rw [hvalue]
    exact apart_cons (by rintro ⟨⟩) _
  have hname := merge_fieldEvents happart f.1
  rw [lineEvents, List.append_assoc, hname, hvalue]
  rfl

theorem merge_lines (fs : List (Bytes × Bytes)) {evs : List Event}
    (h : Apart .headerValue (events.merge evs)) :
    events.merge (fs.flatMap lineEvents ++ evs) = fieldsTold fs ++ events.merge evs := by
  induction fs with
  | nil => rfl
  | cons f fs ih =>
    rw [List.flatMap_cons, List.append_assoc, merge_lineEvents, ih]
    · rfl
    · rw [ih]
      cases fs with
      | nil => exact h
      | cons f fs => exact apart_cons (by rintro ⟨⟩) _

theorem merge_bodyPieces (body : Bytes) {evs : List Event} (h : Apart .body (events.merge evs)) :
    events.merge (pieces .body body ++ evs) = bodyTold body ++ events.merge evs := by
  obtain rfl | ⟨bs, ch, rfl⟩ := List.eq_nil_or_concat body
  · rfl
  · rw [List.concat_eq_append]
    have hone : events.merge (pieces .body (bs ++ [ch])) = events.merge [.body (bs ++ [ch])] := by
      rw [pieces_append, ← bodyPieces_eq]
      exact merge_body bs ch
    have htold : bodyTold (bs ++ [ch]) = [.body (bs ++ [ch])] :=
      if_neg (List.append_ne_nil_of_right_ne_nil bs (List.cons_ne_nil ch []))
    rw [events.merge_congr hone rfl, htold, List.singleton_append, List.singleton_append,
      Gluing.merge_cons]
    cases hevs : events.merge evs with
    | nil => rfl
    | cons e evs' =>
      rw [hevs] at h
      refine events.cons_apart ?_ evs'
      rintro ⟨-, hkind⟩
      exact h e rfl hkind.symm

theorem apart_nil (f : Field) : Apart f [] := fun e he => by cases he

theorem apart_fields {f : Field} (hf : f ≠ .headerField) {evs : List Event} (h : Apart f evs)
    (fs : List (Bytes × Bytes)) : Apart f (fieldsTold fs ++ evs) := by
  cases fs with
  | nil => exact h
  | cons field fs => exact apart_cons (fun heq => hf (by cases heq; rfl)) _

variable {m : WireMessage} {tail : List Event}

/-- What single bytes report of a message behind its start line, up to its trailers. -/
def behind (m : WireMessage) (tail : List Event) : List Event :=
  m.fields.flatMap lineEvents ++ (m.headersComplete :: (pieces .body m.body ++ tail))

theorem merge_behind (h : Apart .body (events.merge tail)) : events.merge (behind m tail) =
    fieldsTold m.fields ++ (m.headersComplete :: (bodyTold m.body ++ events.merge tail)) := by
  have hmerge : events.merge (m.headersComplete :: (pieces .body m.body ++ tail)) =
      m.headersComplete :: (bodyTold m.body ++ events.merge tail) := by
    rw [events.merge_cons_none rfl, merge_bodyPieces m.body h]
  rw [behind, merge_lines m.fields, hmerge]
  rw [hmerge]
  exact apart_cons (by rintro ⟨⟩) _

/-- The start line is told apart from what follows it. -/
theorem merge_start (h : Apart .body (events.merge tail)) {f : Field} (hf : f ≠ .headerField)
    (s : Bytes) :
    events.merge (fieldEvents f s ++ behind m tail) = f.event s :: events.merge (behind m tail) := by
  refine merge_fieldEvents ?_ s
  rw [merge_behind h]
  exact apart_fields hf (apart_cons (by rintro ⟨⟩) _) m.fields

/-- The events of a message are told apart by what they are about. -/
theorem merge_told {starts : List Event} (h : Apart .body (events.merge tail))
    (hstart : events.merge (starts ++ behind m tail) =
      startTold m.start ++ events.merge (behind m tail)) :
    events.merge (.messageBegin :: (starts ++ behind m tail)) =
      .messageBegin :: (startTold m.start ++ (fieldsTold m.fields ++
        (m.headersComplete :: (bodyTold m.body ++ events.merge tail)))) := by
  rw [events.merge_cons_none rfl, hstart, merge_behind h]

/-- The end of a message, and its trailers before it. -/
def ending (m : WireMessage) : List Event :=
  m.trailers.flatMap lineEvents ++ [.messageComplete m.keepAliveEnd]

theorem merge_ending (m : WireMessage) :
    events.merge (ending m) = fieldsTold m.trailers ++ [.messageComplete m.keepAliveEnd] :=
  merge_lines m.trailers (apart_cons (by rintro ⟨⟩) [])

theorem apart_ending (m : WireMessage) : Apart .body (events.merge (ending m)) := by
  rw [merge_ending]
  exact apart_fields (by decide) (apart_cons (by rintro ⟨⟩) []) m.trailers

end Bytes

end Luaw.Parsing
