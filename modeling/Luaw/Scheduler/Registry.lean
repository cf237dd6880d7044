import Mathlib.Data.List.Nodup
import Mathlib.Data.List.Perm.Basic
import Mathlib.Data.List.TakeWhile

/-!
# The registry of `luaw_data_structs_lib.lua`

Objects are stored in numbered slots. The released slots form a list through the table itself,
with its head in slot 0. `Holds` says which objects a registry stores under which references.
-/

namespace Luaw

/-- A key or a value of the table of a registry. -/
inductive Registry.Value (α : Type) where
  | num (n : Int)
  | obj (a : α)
  deriving DecidableEq

/-- `used` is the largest slot that has been assigned. -/
structure Registry (α : Type) where
  table : Registry.Value α → Option (Registry.Value α)
  size : Int
  used : Nat

def newRegistry (α : Type) : Registry α := ⟨fun _ => none, 0, 0⟩

namespace Registry

section Table

variable {α : Type}

def get (reg : Registry α) (key : Value α) : Option (Value α) := reg.table key

/-- `#reg`, the number of slots up to the first empty one. -/
def length (reg : Registry α) : Nat :=
  ((List.range reg.used).takeWhile fun i : Nat => (reg.get (.num (i + 1 : Nat))).isSome).length

variable [DecidableEq α]

def set (reg : Registry α) (key : Value α) (value : Option (Value α)) : Registry α :=
  { reg with
    table := Function.update reg.table key value
    used := match key with
      | .num n => max reg.used n.toNat
      | .obj _ => reg.used }

def ref (reg : Registry α) (a : α) : Value α × Registry α :=
  let (ref, reg) := match reg.get (.num 0) with
    | some ref => (ref, reg.set (.num 0) (reg.get ref))
    | none => (.num (reg.length + 1 : Nat), reg)
  let reg := reg.set ref (some (.obj a))
  (ref, { reg with size := reg.size + 1 })

/-- Comparing an object with a number is an error. -/
def unref (reg : Registry α) (ref : Value α) : Option (Registry α) :=
  match ref with
  | .obj _ => none
  | .num n =>
    if 0 ≤ n then
      let reg := reg.set ref (reg.get (.num 0))
      let reg := reg.set (.num 0) (some ref)
      some { reg with size := reg.size - 1 }
    else some reg

theorem set_table_ne {reg : Registry α} {key key' : Value α} (value : Option (Value α))
    (h : key' ≠ key) : (reg.set key value).table key' = reg.table key' := by
  show Function.update reg.table key value key' = _
  rw [Function.update_of_ne h]

theorem set_table_self (reg : Registry α) (key : Value α) (value : Option (Value α)) :
    (reg.set key value).table key = value := by
  show Function.update reg.table key value key = _
  rw [Function.update_self]

/-- An object of the table after an assignment was assigned or was there before. -/
theorem set_obj {reg : Registry α} {key key' : Value α} {value : Option (Value α)} {b : α}
    (h : (reg.set key value).table key' = some (.obj b)) :
    value = some (.obj b) ∨ reg.table key' = some (.obj b) := by
  by_cases hkey : key' = key
  · rw [hkey, set_table_self] at h
    exact .inl h
  · rw [set_table_ne value hkey] at h
    exact .inr h

theorem ref_obj {reg : Registry α} {a b : α} {key : Value α}
    (h : (reg.ref a).2.table key = some (.obj b)) :
    b = a ∨ ∃ key', reg.table key' = some (.obj b) := by
  rw [Registry.ref] at h
  cases hfree : reg.get (.num 0) with
  | none =>
    simp only [hfree] at h
    obtain h | h := set_obj h
    · cases h
      exact .inl rfl
    · exact .inr ⟨_, h⟩
  | some ref =>
    simp only [hfree] at h
    obtain h | h := set_obj h
    · cases h
      exact .inl rfl
    · obtain h | h := set_obj h
      · exact .inr ⟨_, h⟩
      · exact .inr ⟨_, h⟩

theorem unref_obj {reg reg' : Registry α} {ref key : Value α} {b : α}
    (hunref : reg.unref ref = some reg') (h : reg'.table key = some (.obj b)) :
    ∃ key', reg.table key' = some (.obj b) := by
  cases ref with
  | obj a => cases hunref
  | num n =>
    rw [unref] at hunref
    split at hunref
    · cases hunref
      obtain h | h := set_obj h
      · cases h
      · obtain h | h := set_obj h
        · exact ⟨_, h⟩
        · exact ⟨_, h⟩
    · cases hunref
      exact ⟨_, h⟩

end Table

section Holds

variable {α : Type}

theorem num_ne {m n : Nat} (h : m ≠ n) : (Value.num m : Value α) ≠ Value.num n := by
  intro heq
  exact h (Int.ofNat.inj (Value.num.inj heq))

/-- The list of released slots that starts with a value of the table. -/
inductive FreeChain (table : Value α → Option (Value α)) : Option (Value α) → List Nat → Prop where
  | nil : FreeChain table none []
  | cons {f : Nat} {fs : List Nat} :
      FreeChain table (table (.num f)) fs → FreeChain table (some (.num f)) (f :: fs)

theorem FreeChain.congr {table table' : Value α → Option (Value α)} {head : Option (Value α)}
    {fs : List Nat} (h : FreeChain table head fs) (heq : ∀ f ∈ fs, table' (.num f) = table (.num f)) :
    FreeChain table' head fs := by
  induction h with
  | nil => exact .nil
  | @cons f fs _ ih =>
    refine .cons ?_
    rw [heq f List.mem_cons_self]
    exact ih fun f' hf' => heq f' (List.mem_cons_of_mem _ hf')

/-- The registry stores exactly the objects of `live`, each under its reference. -/
structure Holds (reg : Registry α) (live : List (Nat × α)) (frees : List Nat) : Prop where
  nodup : (frees ++ live.map Prod.fst).Nodup
  chain : FreeChain reg.table (reg.table (.num 0)) frees
  slots : ∀ r, 1 ≤ r ∧ r ≤ reg.used ↔ r ∈ frees ++ live.map Prod.fst
  stored : ∀ r a, (r, a) ∈ live → reg.table (.num r) = some (.obj a)
  only : ∀ key a, reg.table key = some (.obj a) → ∃ r : Nat, key = .num r ∧ (r, a) ∈ live
  size : reg.size = live.length

theorem holds_new : (newRegistry α).Holds [] [] where
  nodup := .nil
  chain := .nil
  slots r := by
    show 1 ≤ r ∧ r ≤ 0 ↔ _
    simp
    omega
  stored r a h := nomatch h
  only key a h := nomatch h
  size := rfl

theorem Holds.perm {reg : Registry α} {live live' : List (Nat × α)} {frees : List Nat}
    (h : reg.Holds live frees) (hperm : live.Perm live') : reg.Holds live' frees where
  nodup := ((hperm.map Prod.fst).append_left frees).nodup_iff.mp h.nodup
  chain := h.chain
  slots r := (h.slots r).trans ((hperm.map Prod.fst).append_left frees).mem_iff
  stored r a hmem := h.stored r a (hperm.mem_iff.mpr hmem)
  only key a hkey := (h.only key a hkey).imp fun _ => .imp_right hperm.mem_iff.mp
  size := h.size.trans (congrArg _ hperm.length_eq)

/-- When no slot is free, the length of the table is the number of its slots. -/
theorem Holds.length_eq {reg : Registry α} {live : List (Nat × α)} (h : reg.Holds live []) :
    reg.length = reg.used := by
  have hall : ∀ i ∈ List.range reg.used, (reg.get (.num (i + 1 : Nat))).isSome = true := by
    intro i hi
    have hslot := (h.slots (i + 1)).mp ⟨by omega, List.mem_range.mp hi⟩
    obtain ⟨⟨r, a⟩, hmem, hr⟩ := List.mem_map.mp hslot
    change r = i + 1 at hr
    rw [get, ← hr, h.stored r a hmem]
    rfl
  rw [length, List.takeWhile_eq_self_iff.mpr hall, List.length_range]

variable [DecidableEq α]

/-- The new entry of a slot that is not a released or a live one. -/
theorem set_table_slot {reg : Registry α} {r r' : Nat} (value : Option (Value α)) (h : r' ≠ r) :
    (reg.set (.num r) value).table (.num r') = reg.table (.num r') :=
  set_table_ne value (num_ne h)

/-- Without a free slot the table grows by one. -/
theorem Holds.ref_grown {reg : Registry α} {live : List (Nat × α)} {frees : List Nat}
    (h : reg.Holds live frees) (a : α) (hfree : reg.table (.num 0) = none) :
    ∃ r : Nat, (reg.ref a).1 = .num r ∧ r ∉ live.map Prod.fst ∧
      (reg.ref a).2.Holds ((r, a) :: live) (frees.erase r) := by
  obtain ⟨hnodup, hchain, hslots, hstored, honly, hsize⟩ := h
  rw [hfree] at hchain
  cases hchain
  -- every slot is taken, so the length of the table is the number of objects
  have hlength := Holds.length_eq ⟨hnodup, hfree ▸ .nil, hslots, hstored, honly, hsize⟩
  have hget : reg.get (.num 0) = none := hfree
  have href : reg.ref a = (.num (reg.used + 1 : Nat),
      { reg.set (.num (reg.used + 1 : Nat)) (some (.obj a)) with size := reg.size + 1 }) := by
    rw [Registry.ref, hget]
    simp only [hlength]
    rfl
  have hfresh : reg.used + 1 ∉ live.map Prod.fst := by
    intro hmem
    have := (hslots (reg.used + 1)).mpr hmem
    omega
  refine ⟨reg.used + 1, by rw [href], hfresh, ?_⟩
  rw [href]
  refine ⟨List.nodup_cons.mpr ⟨hfresh, hnodup⟩, ?_, fun r => ?_, fun r b hmem => ?_,
    fun key b hkey => ?_, ?_⟩
  · have hzero : (reg.set (.num (reg.used + 1 : Nat)) (some (.obj a))).table (.num (0 : Nat)) =
        none := by
      rw [set_table_slot _ (by omega)]
      exact hfree
    show FreeChain _ ((reg.set (.num (reg.used + 1 : Nat)) (some (.obj a))).table
      (.num (0 : Nat))) []
    rw [hzero]
    exact .nil
  · show 1 ≤ r ∧ r ≤ max reg.used (reg.used + 1) ↔ r ∈ (reg.used + 1) :: live.map Prod.fst
    have := hslots r
    rw [List.nil_append] at this
    rw [List.mem_cons, ← this]
    omega
  · obtain heq | hmem := List.mem_cons.mp hmem
    · cases heq
      exact set_table_self _ _ _
    · have hlive : r ∈ live.map Prod.fst := List.mem_map_of_mem hmem
      have hne : r ≠ reg.used + 1 := ne_of_mem_of_not_mem hlive hfresh
      exact (set_table_slot _ hne).trans (hstored r b hmem)
  · change (reg.set (.num (reg.used + 1 : Nat)) (some (.obj a))).table key = _ at hkey
    by_cases hnew : key = .num (reg.used + 1 : Nat)
    · rw [hnew, set_table_self] at hkey
      cases hkey
      exact ⟨_, hnew, List.mem_cons_self⟩
    · rw [set_table_ne _ hnew] at hkey
      exact (honly key b hkey).imp fun _ => .imp_right (List.mem_cons_of_mem _)
  · show reg.size + 1 = _
    rw [hsize, List.length_cons]
    rfl

/-- The first free slot is used again. -/
theorem Holds.ref_reused {reg : Registry α} {live : List (Nat × α)} {frees : List Nat}
    (h : reg.Holds live frees) (a : α) {ref : Value α}
    (hfree : reg.table (.num 0) = some ref) :
    ∃ r : Nat, (reg.ref a).1 = .num r ∧ r ∉ live.map Prod.fst ∧
      (reg.ref a).2.Holds ((r, a) :: live) (frees.erase r) := by
  obtain ⟨hnodup, hchain, hslots, hstored, honly, hsize⟩ := h
  rw [hfree] at hchain
  cases hchain with
  | @cons f fs hchain =>
  obtain ⟨hfpos, hfused⟩ := (hslots f).mpr (by simp)
  have hget : reg.get (.num 0) = some (.num f) := hfree
  have href : reg.ref a = (.num f,
      { (reg.set (.num (0 : Nat)) (reg.get (.num f))).set (.num f) (some (.obj a)) with
        size := reg.size + 1 }) := by
    rw [Registry.ref, hget]
    rfl
  obtain ⟨hffresh, hnodup'⟩ := List.nodup_cons.mp hnodup
  have hfs : f ∉ fs := fun h => hffresh (List.mem_append_left _ h)
  have hflive : f ∉ live.map Prod.fst := fun h => hffresh (List.mem_append_right _ h)
  refine ⟨f, by rw [href], hflive, ?_⟩
  rw [href, List.erase_cons_head]
  refine ⟨List.nodup_middle.mpr hnodup, ?_, fun r => ?_, fun r b hmem => ?_,
    fun key b hkey => ?_, ?_⟩
  · have hzero : ((reg.set (.num (0 : Nat)) (reg.get (.num f))).set (.num f)
        (some (.obj a))).table (.num (0 : Nat)) = reg.table (.num f) := by
      rw [set_table_slot _ (by omega), set_table_self]
      rfl
    show FreeChain _ (((reg.set (.num (0 : Nat)) (reg.get (.num f))).set (.num f)
      (some (.obj a))).table (.num (0 : Nat))) fs
    rw [hzero]
    -- the first free slot now links to the one after it
    refine hchain.congr fun r hr => ?_
    obtain ⟨hrpos, -⟩ := (hslots r).mpr (by simp [hr])
    exact (set_table_slot _ (ne_of_mem_of_not_mem hr hfs)).trans (set_table_slot _ (by omega))
  · show 1 ≤ r ∧ r ≤ max (max reg.used 0) f ↔ r ∈ fs ++ f :: live.map Prod.fst
    have hmax : max (max reg.used 0) f = reg.used := by omega
    rw [hmax, hslots r]
    simp only [List.mem_append, List.mem_cons, List.cons_append]
    tauto
  · obtain heq | hmem := List.mem_cons.mp hmem
    · cases heq
      exact set_table_self _ _ _
    · have hlive : r ∈ live.map Prod.fst := List.mem_map_of_mem hmem
      obtain ⟨hrpos, -⟩ := (hslots r).mpr (List.mem_append_right _ hlive)
      exact ((set_table_slot _ (ne_of_mem_of_not_mem hlive hflive)).trans
        (set_table_slot _ (by omega))).trans (hstored r b hmem)
  · change ((reg.set (.num (0 : Nat)) (reg.get (.num f))).set (.num f)
      (some (.obj a))).table key = _ at hkey
    by_cases hnew : key = .num f
    · rw [hnew, set_table_self] at hkey
      cases hkey
      exact ⟨f, hnew, List.mem_cons_self⟩
    · rw [set_table_ne _ hnew] at hkey
      by_cases hzero : key = .num (0 : Nat)
      · -- the next free slot has no object
        rw [hzero, set_table_self] at hkey
        obtain ⟨r, hr, hmem⟩ := honly _ b hkey
        rw [← Int.ofNat.inj (Value.num.inj hr)] at hmem
        exact absurd (List.mem_map_of_mem (f := Prod.fst) hmem) hflive
      · rw [set_table_ne _ hzero] at hkey
        exact (honly key b hkey).imp fun _ => .imp_right (List.mem_cons_of_mem _)
  · show reg.size + 1 = _
    rw [hsize, List.length_cons]
    rfl

/-- A new reference is not in use, and a released one that is issued again leaves the chain. -/
theorem Holds.ref {reg : Registry α} {live : List (Nat × α)} {frees : List Nat}
    (h : reg.Holds live frees) (a : α) :
    ∃ r : Nat, (reg.ref a).1 = .num r ∧ r ∉ live.map Prod.fst ∧
      (reg.ref a).2.Holds ((r, a) :: live) (frees.erase r) := by
  cases hfree : reg.table (.num 0) with
  | none => exact h.ref_grown a hfree
  | some ref => exact h.ref_reused a hfree

/-- A released reference is free. -/
theorem Holds.unref {reg : Registry α} {live : List (Nat × α)} {frees : List Nat} {r : Nat} {a : α}
    (h : reg.Holds ((r, a) :: live) frees) :
    ∃ reg', reg.unref (.num r) = some reg' ∧ reg'.Holds live (r :: frees) := by
  obtain ⟨hnodup, hchain, hslots, hstored, honly, hsize⟩ := h
  obtain ⟨hrpos, hrused⟩ := (hslots r).mpr (by simp)
  obtain ⟨hrfresh, hnodup'⟩ := List.nodup_cons.mp (List.nodup_middle.mp hnodup)
  have hrfrees : r ∉ frees := fun h => hrfresh (List.mem_append_left _ h)
  have hrlive : r ∉ live.map Prod.fst := fun h => hrfresh (List.mem_append_right _ h)
  have hunref : reg.unref (.num r) = some
      { (reg.set (.num r) (reg.get (.num (0 : Nat)))).set (.num (0 : Nat)) (some (.num r)) with
        size := reg.size - 1 } := by
    rw [Registry.unref, if_pos (Int.natCast_nonneg r)]
    rfl
  refine ⟨_, hunref, List.nodup_cons.mpr ⟨hrfresh, hnodup'⟩, ?_, fun r' => ?_,
    fun r' b hmem => ?_, fun key b hkey => ?_, ?_⟩
  · have hzero : ((reg.set (.num r) (reg.get (.num (0 : Nat)))).set (.num (0 : Nat))
        (some (.num r))).table (.num (0 : Nat)) = some (.num r) := set_table_self _ _ _
    have hslot : ((reg.set (.num r) (reg.get (.num (0 : Nat)))).set (.num (0 : Nat))
        (some (.num r))).table (.num r) = reg.table (.num (0 : Nat)) := by
      rw [set_table_slot _ (by omega), set_table_self]
      rfl
    show FreeChain _ (((reg.set (.num r) (reg.get (.num (0 : Nat)))).set (.num (0 : Nat))
        (some (.num r))).table (.num (0 : Nat))) (r :: frees)
    rw [hzero]
    refine .cons ?_
    rw [hslot]
    -- slot zero points to the freed slot, which points to where zero pointed before
    refine hchain.congr fun r' hr' => ?_
    obtain ⟨hpos, -⟩ := (hslots r').mpr (List.mem_append_left _ hr')
    exact (set_table_slot _ (by omega)).trans
      (set_table_slot _ (ne_of_mem_of_not_mem hr' hrfrees))
  · show 1 ≤ r' ∧ r' ≤ max (max reg.used r) 0 ↔ r' ∈ r :: frees ++ live.map Prod.fst
    have hmax : max (max reg.used r) 0 = reg.used := by omega
    rw [hmax, hslots r']
    simp only [List.mem_append, List.mem_cons, List.cons_append, List.map_cons]
    tauto
  · have hlive : r' ∈ live.map Prod.fst := List.mem_map_of_mem hmem
    obtain ⟨hpos, -⟩ := (hslots r').mpr (by simp [hlive])
    exact ((set_table_slot _ (by omega)).trans
      (set_table_slot _ (ne_of_mem_of_not_mem hlive hrlive))).trans
        (hstored r' b (List.mem_cons_of_mem _ hmem))
  · change ((reg.set (.num r) (reg.get (.num (0 : Nat)))).set (.num (0 : Nat))
      (some (.num r))).table key = _ at hkey
    by_cases hzero : key = .num (0 : Nat)
    · rw [hzero, set_table_self] at hkey
      cases hkey
    · rw [set_table_ne _ hzero] at hkey
      by_cases hfreed : key = .num r
      · rw [hfreed, set_table_self] at hkey
        -- slot zero holds no object
        obtain ⟨r', hr', hmem⟩ := honly _ b hkey
        have hslot := (hslots r').mpr (List.mem_append_right _ (List.mem_map_of_mem hmem))
        have hzero := Int.ofNat.inj (Value.num.inj hr')
        omega
      · rw [set_table_ne _ hfreed] at hkey
        obtain ⟨r', hr', hmem⟩ := honly key b hkey
        refine ⟨r', hr', (List.mem_cons.mp hmem).resolve_left fun heq => hfreed ?_⟩
        rw [hr', (Prod.mk.inj heq).1]
  · show reg.size - 1 = _
    rw [hsize, List.length_cons]
    omega

end Holds

end Registry

end Luaw
