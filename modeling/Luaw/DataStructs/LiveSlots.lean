import Luaw.Foundations.Transition
import Luaw.Scheduler.Registry

/-!
# The references of a registry

A history of a registry knows which references are live and which have been released and not
issued again. The released slots are exactly the chain from slot 0, so that the table has no
hole when its length is taken.
-/

namespace Luaw.Registry

/-- The length operator of a table with holes may return any of its borders. -/
def Border {α : Type} (reg : Registry α) (n : Nat) : Prop :=
  (n = 0 ∨ reg.get (.num n) ≠ none) ∧ reg.get (.num (n + 1 : Nat)) = none

inductive Operation (α : Type) where
  | ref (obj : α)
  | unref (ref : Value α)

/-- The registry, the live references with their objects, and the released references that have
not been issued again. -/
structure History (α : Type) where
  reg : Registry α
  live : List (Value α × α)
  released : List (Value α)

def History.start (α : Type) : History α := ⟨newRegistry α, [], []⟩

section Run

variable {α : Type} [DecidableEq α]

/-- Only a live reference is released. -/
def History.step (h : History α) : Operation α → Option (History α)
  | .ref obj =>
    let (ref, reg) := h.reg.ref obj
    some ⟨reg, (ref, obj) :: h.live, h.released.erase ref⟩
  | .unref ref =>
    if ref ∈ h.live.map Prod.fst then
      (h.reg.unref ref).map fun reg =>
        ⟨reg, h.live.filter fun entry => entry.1 ≠ ref, ref :: h.released⟩
    else none

theorem History.step_ref (h : History α) (obj : α) :
    h.step (.ref obj) = some ⟨(h.reg.ref obj).2, ((h.reg.ref obj).1, obj) :: h.live,
      h.released.erase (h.reg.ref obj).1⟩ := rfl

/-- No live slot is handed out, and the free list and the length are what they should be. -/
structure History.Sound (h : History α) : Prop where
  distinct : (h.live.map Prod.fst).Nodup
  fresh : ∀ obj, (h.reg.ref obj).1 ∉ h.live.map Prod.fst
  releasable : ∀ ref ∈ h.live.map Prod.fst, h.reg.unref ref ≠ none
  stored : ∀ ref obj, (ref, obj) ∈ h.live → h.reg.get ref = some (.obj obj)
  size : h.reg.size = h.live.length
  chain : ∃ frees, FreeChain h.reg.table (h.reg.get (.num 0)) frees ∧ frees.Nodup ∧
    ∀ ref, ref ∈ h.released ↔ ∃ f ∈ frees, ref = .num (f : Nat)
  full : h.reg.get (.num 0) = none → ∀ n, h.reg.Border n →
    n = h.reg.length ∧ ∀ r : Nat, 1 ≤ r → r ≤ n → Value.num r ∈ h.live.map Prod.fst

/-- The slots above `used` have never been assigned. -/
def Bounded (reg : Registry α) : Prop := ∀ n : Nat, reg.used < n → reg.table (.num n) = none

/-- The live and the released references are the two halves of the slots. -/
structure History.Tracked (h : History α) (live : List (Nat × α)) (frees : List Nat) : Prop where
  holds : h.reg.Holds live frees
  bounded : h.reg.Bounded
  live : h.live = live.map fun entry => (.num entry.1, entry.2)
  released : h.released = frees.map fun f : Nat => .num f

end Run

section Invariant

variable {α : Type}

theorem num_injective : Function.Injective fun r : Nat => (Value.num r : Value α) := by
  intro r r' h
  exact Int.ofNat.inj (Value.num.inj h)

theorem bounded_new : (newRegistry α).Bounded := fun _ _ => rfl

/-- Slot 0 is empty exactly when no slot is free. -/
theorem Holds.frees_nil {reg : Registry α} {live : List (Nat × α)} {frees : List Nat}
    (h : reg.Holds live frees) (hfree : reg.get (.num 0) = none) : frees = [] := by
  have hchain := h.chain
  change reg.table (.num 0) = none at hfree
  rw [hfree] at hchain
  cases hchain
  rfl

/-- A table without free slots has only one border. -/
theorem Holds.border {reg : Registry α} {live : List (Nat × α)} (h : reg.Holds live [])
    (hbounded : reg.Bounded) {n : Nat} (hn : reg.Border n) : n = reg.used := by
  obtain ⟨hlast, hnext⟩ := hn
  apply Nat.le_antisymm
  · by_contra hlt
    have hnone := hbounded n (by omega)
    obtain rfl | hlast := hlast
    · omega
    · exact hlast hnone
  · by_contra hlt
    obtain ⟨⟨r, obj⟩, hmem, hr⟩ := List.mem_map.mp ((h.slots (n + 1)).mp ⟨by omega, by omega⟩)
    have hstored := h.stored r obj hmem
    change r = n + 1 at hr
    rw [hr] at hstored
    exact absurd (hnext.symm.trans hstored) nofun

/-- A live reference can be put first, for it is live only once. -/
theorem perm_filter {live : List (Nat × α)} {r : Nat} {obj : α}
    (hnodup : (live.map Prod.fst).Nodup) (hmem : (r, obj) ∈ live) :
    live.Perm ((r, obj) :: live.filter fun entry => entry.1 ≠ r) := by
  induction live with
  | nil => cases hmem
  | cons entry live ih =>
    obtain ⟨hfresh, hnodup⟩ := List.nodup_cons.mp hnodup
    obtain rfl | hmem := List.mem_cons.mp hmem
    · have hothers : ∀ entry ∈ live, decide (entry.1 ≠ r) = true := by
        intro entry hentry
        apply decide_eq_true
        intro hr
        have hfst : entry.1 ∈ live.map Prod.fst := List.mem_map_of_mem hentry
        rw [hr] at hfst
        exact hfresh hfst
      rw [List.filter_cons_of_neg (by simp), List.filter_eq_self.mpr hothers]
    · have hne : entry.1 ≠ r := by
        intro hr
        rw [hr] at hfresh
        exact hfresh (List.mem_map_of_mem (f := Prod.fst) hmem)
      rw [List.filter_cons_of_pos (by simpa using hne)]
      exact ((ih hnodup hmem).cons entry).trans (List.Perm.swap _ _ _)

namespace History.Tracked

variable {h : History α} {live : List (Nat × α)} {frees : List Nat}

theorem start : (History.start α).Tracked [] [] := ⟨holds_new, bounded_new, rfl, rfl⟩

/-- The live references are the numbers of the live slots. -/
theorem mem_live (ht : h.Tracked live frees) {ref : Value α} :
    ref ∈ h.live.map Prod.fst ↔ ∃ entry ∈ live, ref = .num entry.1 := by
  rw [ht.live, List.map_map, List.mem_map]
  exact ⟨fun ⟨entry, hentry, h⟩ => ⟨entry, hentry, h.symm⟩,
    fun ⟨entry, hentry, h⟩ => ⟨entry, hentry, h.symm⟩⟩

theorem nodup (ht : h.Tracked live frees) : (live.map Prod.fst).Nodup :=
  (List.nodup_append.mp ht.holds.nodup).2.1

end History.Tracked

variable [DecidableEq α]

theorem Bounded.set {reg : Registry α} (h : reg.Bounded) (r : Nat) (value : Option (Value α)) :
    (reg.set (.num r) value).Bounded := by
  intro n hn
  change max reg.used r < n at hn
  have hne : n ≠ r := by omega
  exact (set_table_slot value hne).trans (h n (by omega))

theorem Bounded.ref {reg : Registry α} (h : reg.Bounded) {obj : α} {r : Nat}
    (href : (reg.ref obj).1 = .num r) : (reg.ref obj).2.Bounded := by
  rw [Registry.ref] at href ⊢
  cases hfree : reg.get (.num 0) with
  | none =>
    rw [hfree] at href
    exact h.set _ _
  | some ref =>
    rw [hfree] at href
    change ref = .num r at href
    subst href
    exact (h.set 0 _).set r _

theorem Bounded.unref {reg reg' : Registry α} (h : reg.Bounded) {r : Nat}
    (hunref : reg.unref (.num r) = some reg') : reg'.Bounded := by
  rw [Registry.unref, if_pos (Int.natCast_nonneg r)] at hunref
  cases hunref
  exact (h.set r _).set 0 _

namespace History.Tracked

variable {h h' : History α} {live : List (Nat × α)} {frees : List Nat}


theorem ref (ht : h.Tracked live frees) (obj : α) (hstep : h.step (.ref obj) = some h') :
    ∃ live' frees', h'.Tracked live' frees' := by
  obtain ⟨r, href, -, hholds⟩ := ht.holds.ref obj
  rw [step_ref, href] at hstep
  cases hstep
  refine ⟨(r, obj) :: live, frees.erase r, hholds, ht.bounded.ref href, ?_, ?_⟩
  · show _ :: h.live = _
    rw [ht.live, List.map_cons]
  · show h.released.erase _ = _
    rw [ht.released, List.map_erase num_injective]

/-- The slot of a live reference joins the free list. -/
theorem unref_holds (ht : h.Tracked live frees) {r : Nat} {obj : α} (hmem : (r, obj) ∈ live) :
    ∃ reg, h.reg.unref (.num r) = some reg ∧
      reg.Holds (live.filter fun entry => entry.1 ≠ r) (r :: frees) :=
  (ht.holds.perm (perm_filter ht.nodup hmem)).unref

theorem unref (ht : h.Tracked live frees) (ref : Value α)
    (hstep : h.step (.unref ref) = some h') : ∃ live' frees', h'.Tracked live' frees' := by
  by_cases hlive : ref ∈ h.live.map Prod.fst
  · obtain ⟨⟨r, obj⟩, hmem, rfl⟩ := ht.mem_live.mp hlive
    obtain ⟨reg, hunref, hholds⟩ := ht.unref_holds hmem
    rw [History.step, if_pos hlive, hunref] at hstep
    cases hstep
    refine ⟨_, _, hholds, ht.bounded.unref hunref, ?_, ?_⟩
    · show h.live.filter _ = _
      rw [ht.live, List.filter_map]
      congr 1
      apply List.filter_congr
      intro entry _
      have hne : (Value.num entry.1 : Value α) ≠ .num r ↔ entry.1 ≠ r := num_injective.ne_iff
      exact decide_eq_decide.mpr hne
    · show _ :: h.released = _
      rw [ht.released, List.map_cons]
  · rw [History.step, if_neg hlive] at hstep
    cases hstep

theorem step (ht : h.Tracked live frees) (op : Operation α) (hstep : h.step op = some h') :
    ∃ live' frees', h'.Tracked live' frees' := by
  cases op with
  | ref obj => exact ht.ref obj hstep
  | unref ref => exact ht.unref ref hstep

theorem sound (ht : h.Tracked live frees) : h.Sound where
  distinct := by
    rw [ht.live, List.map_map]
    have := ht.nodup.map (num_injective (α := α))
    rwa [List.map_map] at this
  fresh obj := by
    obtain ⟨r, href, hfresh, -⟩ := ht.holds.ref obj
    rw [href, ht.mem_live]
    rintro ⟨entry, hentry, heq⟩
    rw [num_injective heq] at hfresh
    exact hfresh (List.mem_map_of_mem hentry)
  releasable ref href := by
    obtain ⟨⟨r, obj⟩, hmem, rfl⟩ := ht.mem_live.mp href
    obtain ⟨reg, hunref, -⟩ := ht.unref_holds hmem
    rw [hunref]
    exact Option.some_ne_none _
  stored ref obj hmem := by
    rw [ht.live] at hmem
    obtain ⟨entry, hentry, heq⟩ := List.mem_map.mp hmem
    cases heq
    exact ht.holds.stored _ _ hentry
  size := by
    rw [ht.live, List.length_map]
    exact ht.holds.size
  chain := by
    refine ⟨frees, ht.holds.chain, (List.nodup_append.mp ht.holds.nodup).1, fun ref => ?_⟩
    rw [ht.released, List.mem_map]
    exact ⟨fun ⟨f, hf, h⟩ => ⟨f, hf, h.symm⟩, fun ⟨f, hf, h⟩ => ⟨f, hf, h.symm⟩⟩
  full hfree n hborder := by
    have hholds := ht.holds
    rw [hholds.frees_nil hfree] at hholds
    have hn := hholds.border ht.bounded hborder
    refine ⟨hn.trans hholds.length_eq.symm, fun r hpos hle => ?_⟩
    obtain ⟨entry, hentry, hr⟩ := List.mem_map.mp ((hholds.slots r).mp ⟨hpos, hn ▸ hle⟩)
    exact ht.mem_live.mpr ⟨entry, hentry, hr ▸ rfl⟩

end History.Tracked

/-- In every history the registry never hands out a live slot, stores every object under its
reference and keeps exactly the released slots in its free list. -/
theorem history_sound (ops : List (Operation α)) :
    Transition.Always History.step History.Sound (History.start α) ops := by
  have hrun : Transition.Always History.step (fun h => ∃ live frees, h.Tracked live frees)
      (History.start α) ops :=
    Transition.always_of_invariant ⟨[], [], .start⟩ fun _ op _ ⟨_, _, ht⟩ hstep =>
      ht.step op hstep
  exact hrun.mono fun _ ⟨_, _, ht⟩ => ht.sound

end Invariant

end Luaw.Registry
