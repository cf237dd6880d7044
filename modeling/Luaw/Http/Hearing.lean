import Luaw.Http.ReadFull

/-!
# What is heard of a connection

`Hears P s events s'`: the parser has been called once for each element of `events`, on what the
connection brings, and has asked for the callbacks of those events. The calls do not depend on
what the callbacks make of them, and the loops of `readFull` go through them one by one.
-/

namespace Luaw.Http

open Lua Program

variable {σ : Type}

namespace Session

def withReq (s : Session σ) (req : Request) : Session σ := { s with req }

@[simp] theorem withReq_req (s : Session σ) (req : Request) : (s.withReq req).req = req := rfl

@[simp] theorem withReq_withReq (s : Session σ) (req req' : Request) :
    (s.withReq req).withReq req' = s.withReq req' := rfl

@[simp] theorem withReq_self (s : Session σ) : s.withReq s.req = s := rfl

/-- The session after a call of the parser on the content from the offset on. -/
def taken (P : HttpParser σ) (s : Session σ) (content : Bytes) (offset : Nat) : Session σ :=
  { s.parsed P (content.drop offset) s.req with
    unread := unreadFrom content (offset + (P.execute s.parser (content.drop offset)).nparsed) }

end Session

/-- Content can be had, and the parser does not fail on it. -/
structure Hearable (P : HttpParser σ) (s : Session σ) (content : Bytes) (offset : Nat)
    (s' : Session σ) : Prop where
  read : exec readContent s = (.ok (some (content, offset)), s')
  inside : offset ≤ content.length
  fine : (P.execute s'.parser (content.drop offset)).nparsed < (content.drop offset).length →
    (P.execute s'.parser (content.drop offset)).errno = .paused

inductive Hears (P : HttpParser σ) : Session σ → List (Option Event) → Session σ → Prop where
  | nil (s : Session σ) : Hears P s [] s
  | cons {s s₁ s' : Session σ} {content : Bytes} {offset : Nat} {events : List (Option Event)} :
      Hearable P s content offset s₁ → Hears P (s₁.taken P content offset) events s' →
      Hears P s ((P.execute s₁.parser (content.drop offset)).event :: events) s'

theorem readContent_some {s s' : Session σ} {content : Bytes} {offset : Nat}
    (h : exec readContent s = (.ok (some (content, offset)), s')) (req : Request) :
    exec readContent (s.withReq req) = (.ok (some (content, offset)), s'.withReq req) := by
  obtain ⟨content', offset', hunread, hcontent, heq, rfl⟩ |
    ⟨hspent, content', conn, hread, heq, rfl⟩ | ⟨-, _, -, heq, -⟩ := readContent_cases h
  · cases heq
    exact readContent_unread hunread hcontent
  · cases heq
    have hspent' : (s.withReq req).Spent := hspent
    exact hspent'.readContent_ok hread
  · cases heq

/-- A round of a loop of `readFull` runs the callback of the event that is heard. -/
theorem Hearable.readAndParse {P : HttpParser σ} {s s₁ : Session σ} {content : Bytes}
    {offset : Nat} (h : Hearable P s content offset s₁) (req : Request) :
    exec (readAndParse P) (s.withReq req) =
      match heard P (P.execute s₁.parser (content.drop offset)).event req with
      | .error e => (.error (.raised e), s₁.withReq req)
      | .ok req' => (.ok (), (s₁.taken P content offset).withReq req') := by
  have hread := readContent_some h.read req
  have hfragment := @exec_parseHttpFragment σ P content offset (s₁.withReq req) h.inside h.fine
  rw [Http.readAndParse, exec_bind_ok hread]
  show exec (parseHttpFragment P content offset >>= _) _ = _
  simp only [Session.withReq] at hfragment
  cases hheard : heard P (P.execute s₁.parser (content.drop offset)).event req with
  | error e =>
    simp only [hheard] at hfragment
    exact exec_bind_error hfragment
  | ok req' =>
    simp only [hheard] at hfragment
    exact exec_bind_ok hfragment

/-- The first `n` calls of the parser, if content can be had and the parser does not fail. -/
def hear (P : HttpParser σ) : Nat → Session σ → Option (List (Option Event) × Session σ)
  | 0, s => some ([], s)
  | n + 1, s =>
    match exec readContent s with
    | (.ok (some (content, offset)), s₁) =>
      if offset ≤ content.length ∧
          ((P.execute s₁.parser (content.drop offset)).nparsed < (content.drop offset).length →
            (P.execute s₁.parser (content.drop offset)).errno = .paused) then
        (hear P n (s₁.taken P content offset)).map fun (events, s') =>
          ((P.execute s₁.parser (content.drop offset)).event :: events, s')
      else none
    | _ => none

theorem hears_of_hear {P : HttpParser σ} {n : Nat} {s s' : Session σ}
    {events : List (Option Event)} (h : hear P n s = some (events, s')) :
    Hears P s events s' := by
  induction n generalizing s events with
  | zero =>
    cases h
    exact .nil _
  | succ n ih =>
    rw [hear] at h
    split at h
    · next content offset s₁ hread =>
      split at h
      · next hfine =>
        obtain ⟨⟨events', s''⟩, hrest, heq⟩ := Option.map_eq_some_iff.mp h
        cases heq
        exact .cons ⟨hread, hfine.1, hfine.2⟩ (ih hrest)
      · cases h
    · cases h

/-- The events among what the calls have asked for. -/
def told (events : List (Option Event)) : List Event := events.filterMap id

@[simp] theorem told_nil : told [] = [] := rfl

@[simp] theorem told_none (events : List (Option Event)) : told (none :: events) = told events := rfl

@[simp] theorem told_some (e : Event) (events : List (Option Event)) :
    told (some e :: events) = e :: told events := rfl

theorem callbacks_told (P : HttpParser σ) (event : Option Event) (events : List (Option Event))
    (req : Request) :
    callbacks P (told (event :: events)) req =
      (heard P event req).bind (callbacks P (told events)) := by
  cases event <;> rfl

/-- The calls up to one event, and that event's. -/
theorem told_append {events : List (Option Event)} {evs evs' : List Event} {e : Event}
    (h : told events = evs ++ e :: evs') :
    ∃ before after, events = before ++ some e :: after ∧ told before = evs ∧
      told after = evs' := by
  obtain ⟨before, rest, rfl, hbefore, hrest⟩ := List.filterMap_eq_append_iff.mp h
  obtain ⟨silent, event, after, rfl, hsilent, hevent, hafter⟩ :=
    List.filterMap_eq_cons_iff.mp hrest
  obtain rfl : event = some e := hevent
  have hnone : silent.filterMap id = [] := List.filterMap_eq_nil_iff.mpr hsilent
  refine ⟨before ++ silent, after, by simp, ?_, hafter⟩
  rw [told, List.filterMap_append, hnone, List.append_nil, hbefore]

namespace Hears

variable {P : HttpParser σ} {s s' : Session σ} {events events' : List (Option Event)}

theorem append_inv (h : Hears P s (events ++ events') s') :
    ∃ mid, Hears P s events mid ∧ Hears P mid events' s' := by
  induction events generalizing s with
  | nil => exact ⟨s, .nil s, h⟩
  | cons event events ih =>
    cases h with
    | cons hearable hrest =>
      obtain ⟨mid, hfirst, hsecond⟩ := ih hrest
      exact ⟨mid, .cons hearable hfirst, hsecond⟩

/-- One call: it runs the callback of its event. -/
theorem readAndParse {event : Option Event} (h : Hears P s [event] s') (req : Request) :
    (∀ req', heard P event req = .ok req' →
        exec (readAndParse P) (s.withReq req) = (.ok (), s'.withReq req')) ∧
      ∀ e, heard P event req = .error e →
        ∃ failed, exec (Http.readAndParse P) (s.withReq req) = (.error (.raised e), failed) := by
  cases h with
  | @cons _ s₁ _ content offset _ hearable hrest =>
    cases hrest
    have hstep := hearable.readAndParse req
    refine ⟨fun req' hheard => ?_, fun e hheard => ⟨s₁.withReq req, ?_⟩⟩
    · rw [hstep, hheard]
    · rw [hstep, hheard]

/-- A loop of `readFull` goes on as long as it does not hear what it waits for. -/
theorem readUntil {done : Request → Bool} {stop : Event → Bool} (htells : Tells P done stop)
    (h : Hears P s events s') (hplain : ∀ e ∈ told events, stop e = false) {req req' : Request}
    (hdone : done req = false) (hcalls : callbacks P (told events) req = .ok req') :
    done req' = false ∧ ∀ fuel, exec (readUntil P done (fuel + events.length)) (s.withReq req) =
      exec (Http.readUntil P done fuel) (s'.withReq req') := by
  induction h generalizing req with
  | nil s =>
    cases hcalls
    exact ⟨hdone, fun fuel => rfl⟩
  | @cons s s₁ s' content offset events hearable hrest ih =>
    rw [callbacks_told] at hcalls
    obtain ⟨req₁, hheard, hcalls⟩ := except_bind_ok hcalls
    have hround := hearable.readAndParse req
    rw [hheard] at hround
    have hplain' : ∀ e ∈ told events, stop e = false := fun e he => hplain e (by
      cases hevent : (P.execute s₁.parser (content.drop offset)).event <;> simp [he])
    have hdone₁ : done req₁ = false := by
      cases hevent : (P.execute s₁.parser (content.drop offset)).event with
      | none =>
        rw [hevent] at hheard
        cases hheard
        exact hdone
      | some e =>
        rw [hevent] at hheard
        exact htells.before hheard (hplain e (by simp [hevent])) hdone
    obtain ⟨hdone', hrun⟩ := ih hplain' hdone₁ hcalls
    refine ⟨hdone', fun fuel => ?_⟩
    rw [List.length_cons, ← Nat.add_assoc, exec_readUntil_step hdone, exec_bind_ok hround]
    exact hrun fuel

/-- At the event that it waits for, the loop ends. -/
theorem readUntil_stop {done : Request → Bool} {stop : Event → Bool} (htells : Tells P done stop)
    {e : Event} (h : Hears P s (events ++ [some e]) s')
    (hplain : ∀ e ∈ told events, stop e = false) (hstop : stop e = true) {req req₁ req' : Request}
    (hdone : done req = false) (hcalls : callbacks P (told events) req = .ok req₁)
    (hlast : callback P e req₁ = .ok req') (fuel : Nat) :
    exec (Http.readUntil P done (fuel + (events.length + 2))) (s.withReq req) =
      (.ok (), s'.withReq req') := by
  obtain ⟨mid, hfirst, hsecond⟩ := h.append_inv
  obtain ⟨hdone₁, hrun⟩ := hfirst.readUntil htells hplain hdone hcalls
  have hround := (hsecond.readAndParse req₁).1 req' hlast
  have hreached : done (s'.withReq req').req = true := htells.reached hlast hstop
  rw [Nat.add_comm events.length 2, ← Nat.add_assoc, hrun, exec_readUntil_step hdone₁,
    exec_bind_ok hround]
  exact exec_readUntil_done hreached fuel

/-- When the callback of that event raises, so does the loop. -/
theorem readUntil_raised {done : Request → Bool} {stop : Event → Bool}
    (htells : Tells P done stop) {e : Event} (h : Hears P s (events ++ [some e]) s')
    (hplain : ∀ e ∈ told events, stop e = false) {req req₁ : Request} {err : LuaError}
    (hdone : done req = false) (hcalls : callbacks P (told events) req = .ok req₁)
    (hlast : callback P e req₁ = .error err) :
    ∃ failed, ∀ fuel, exec (Http.readUntil P done (fuel + (events.length + 1))) (s.withReq req) =
      (.error (.raised err), failed) := by
  obtain ⟨mid, hfirst, hsecond⟩ := h.append_inv
  obtain ⟨hdone₁, hrun⟩ := hfirst.readUntil htells hplain hdone hcalls
  obtain ⟨failed, hround⟩ := (hsecond.readAndParse req₁).2 err hlast
  refine ⟨failed, fun fuel => ?_⟩
  rw [Nat.add_comm events.length 1, ← Nat.add_assoc, hrun, exec_readUntil_step hdone₁,
    exec_bind_error hround]

end Hears

end Luaw.Http
