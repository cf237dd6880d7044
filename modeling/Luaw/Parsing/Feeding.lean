import Luaw.Foundations.Gluing
import Luaw.Parsing.Steps

/-!
# Parsing a buffer byte by byte

`Feeds p s es q r`: given the bytes of `s` one at a time, each as often as the parser asks for it,
it goes from `p` to `q`, calls back with `es` and leaves `r`. A call of `parse_http` on a buffer is
a run of such calls, with the pieces of a field put together.
-/

namespace Luaw.Parsing

open Http

/-- The kind of an event that brings a piece of data. -/
def eventKind : Event → Option Field
  | .status _ => some .status
  | .url _ => some .url
  | .headerField _ => some .headerField
  | .headerValue _ => some .headerValue
  | .body _ => some .body
  | .messageBegin | .headersComplete _ _ _ _ _ | .messageComplete _ => none

def glueEvents : Event → Event → Event
  | .status a, .status b => .status (a ++ b)
  | .url a, .url b => .url (a ++ b)
  | .headerField a, .headerField b => .headerField (a ++ b)
  | .headerValue a, .headerValue b => .headerValue (a ++ b)
  | .body a, .body b => .body (a ++ b)
  | e, _ => e

@[simp] theorem eventKind_event (f : Field) (b : Bytes) : eventKind (f.event b) = some f := by
  cases f <;> rfl

@[simp] theorem glueEvents_event (f : Field) (a b : Bytes) :
    glueEvents (f.event a) (f.event b) = f.event (a ++ b) := by
  cases f <;> rfl

theorem eventKind_eq_some {e : Event} {f : Field} (h : eventKind e = some f) :
    ∃ b, e = f.event b := by
  cases e <;> cases h <;> exact ⟨_, rfl⟩

/-- Pieces of data that follow each other are one. -/
def events : Gluing Event Field where
  kind := eventKind
  glue := glueEvents
  kind_glue := by
    intro a b h
    cases hf : eventKind a with
    | none =>
      cases a <;> cases hf <;> rfl
    | some f =>
      obtain ⟨x, rfl⟩ := eventKind_eq_some hf
      obtain ⟨y, rfl⟩ := eventKind_eq_some (h.symm.trans hf)
      rw [glueEvents_event, eventKind_event]
  glue_assoc := by
    intro a b c hab hbc
    cases hf : eventKind a with
    | none =>
      cases a <;> cases hf <;> rfl
    | some f =>
      obtain ⟨x, rfl⟩ := eventKind_eq_some hf
      obtain ⟨y, rfl⟩ := eventKind_eq_some (hab.symm.trans hf)
      obtain ⟨z, rfl⟩ := eventKind_eq_some (hbc.symm.trans (hab.symm.trans hf))
      simp only [glueEvents_event, List.append_assoc]

/-- The pieces of one field. -/
theorem merge_pieces (f : Field) (cs : List Bytes) (c : Bytes) :
    events.merge (cs.map f.event ++ [f.event c]) = [f.event (cs.flatten ++ c)] := by
  induction cs with
  | nil => rfl
  | cons b cs ih =>
    have hmeets : events.Meets (f.event b) (f.event (cs.flatten ++ c)) := by
      refine ⟨?_, ?_⟩
      · show (eventKind (f.event b)).isSome = true
        rw [eventKind_event]
        rfl
      · show eventKind (f.event b) = eventKind (f.event (cs.flatten ++ c))
        rw [eventKind_event, eventKind_event]
    rw [List.map_cons, List.cons_append, Gluing.merge_cons, ih, Gluing.cons_meets _ hmeets,
      List.flatten_cons, List.append_assoc]
    exact congrArg (· :: []) (glueEvents_event f b _)

def Move.live : Move → Bool
  | .fail _ _ => false
  | _ => true

theorem Move.nparsed_le (mv : Move) (ch : UInt8) : (mv.execution ch).nparsed ≤ 1 := by
  cases mv <;> rw [Move.execution] <;> try split
  all_goals first | exact le_rfl | exact Nat.zero_le 1

inductive Feeds : Parser → Bytes → List Event → Parser → Bytes → Prop where
  | refl (p : Parser) (s : Bytes) : Feeds p s [] p s
  | byte {p q : Parser} {ch : UInt8} {s r : Bytes} {es : List Event} {mv : Move}
      (hmove : step p ch = some mv) (hlive : mv.live = true)
      (hrest : Feeds (mv.execution ch).state ((ch :: s).drop (mv.execution ch).nparsed) es q r) :
      Feeds p (ch :: s) ((mv.execution ch).event.toList ++ es) q r

namespace Feeds

variable {p q q' : Parser} {s r r' : Bytes} {es es' : List Event}

theorem trans (h : Feeds p s es q r) (h' : Feeds q r es' q' r') : Feeds p s (es ++ es') q' r' := by
  induction h with
  | refl p s => exact h'
  | byte hmove hlive hrest ih =>
    rw [List.append_assoc]
    exact .byte hmove hlive (ih h')

/-- Bytes behind the ones that are read do not matter. -/
theorem append (h : Feeds p s es q r) (t : Bytes) : Feeds p (s ++ t) es q (r ++ t) := by
  induction h with
  | refl p s => exact .refl p _
  | @byte p q ch s r es mv hmove hlive hrest ih =>
    have hle := mv.nparsed_le ch
    have hdrop : (ch :: (s ++ t)).drop (mv.execution ch).nparsed =
        (ch :: s).drop (mv.execution ch).nparsed ++ t := by
      rw [← List.cons_append, List.drop_append_of_le_length (by rw [List.length_cons]; omega)]
    exact .byte hmove hlive (hdrop ▸ ih)

/-- One run goes further than the other. -/
theorem compare (h : Feeds p s es q r) (h' : Feeds p s es' q' r') :
    (∃ more, Feeds q r more q' r' ∧ es' = es ++ more) ∨
      ∃ more, Feeds q' r' more q r ∧ es = es' ++ more := by
  induction h generalizing es' with
  | refl p s => exact .inl ⟨es', h', rfl⟩
  | @byte p q ch s r es mv hmove hlive hrest ih =>
    cases h' with
    | refl => exact .inr ⟨_, .byte hmove hlive hrest, rfl⟩
    | @byte _ _ _ _ _ es' mv' hmove' hlive' hrest' =>
      obtain rfl : mv = mv' := Option.some.inj (hmove.symm.trans hmove')
      obtain ⟨more, hmore, rfl⟩ | ⟨more, hmore, rfl⟩ := ih hrest'
      · exact .inl ⟨more, hmore, (List.append_assoc _ _ _).symm⟩
      · exact .inr ⟨more, hmore, (List.append_assoc _ _ _).symm⟩

theorem suffix (h : Feeds p s es q r) : r <:+ s := by
  induction h with
  | refl p s => exact List.suffix_rfl
  | byte hmove hlive hrest ih => exact ih.trans (List.drop_suffix _ _)

end Feeds

theorem Move.Fits.sound {s : State} {mv : Move} (h : mv.Fits s) (hlive : mv.live = true)
    (ch : UInt8) : (mv.execution ch).state.Sound := by
  cases mv with
  | on q fresh =>
    have hq : q.Sound := by cases fresh <;> exact h.1
    rw [Move.execution]
    split <;> exact hq
  | fail e q => cases hlive
  | field | empty | notice | body => exact h.1

theorem Feeds.sound {p q : Parser} {s r : Bytes} {es : List Event} (h : Feeds p s es q r)
    (hp : p.Sound) : q.Sound := by
  induction h with
  | refl p s => exact hp
  | @byte p q ch s r es mv hmove hlive hrest ih =>
    obtain ⟨mv', hmove', hfits⟩ := hp.step ch
    obtain rfl : mv = mv' := Option.some.inj (hmove.symm.trans hmove')
    exact ih (hfits.sound hlive ch)

end Luaw.Parsing
