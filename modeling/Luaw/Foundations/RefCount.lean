import Mathlib.Data.Int.Basic

/-!
# Counted references

An object is counted by a number of its own, and it is freed by the release that finds nothing
left. `Holds` ties the number to the references that are really outstanding; the rules say how it
follows a reference that is taken, one that is dropped while others remain, and a release.
-/

namespace RefCount

/-- The count of an object, and whether the object has been freed. -/
structure Cell where
  count : Int
  freed : Bool
  deriving DecidableEq, Repr

namespace Cell

def incr (c : Cell) : Cell := { c with count := c.count + 1 }

/-- A reference is dropped without a look at the count. -/
def decr (c : Cell) : Cell := { c with count := c.count - 1 }

/-- A reference is dropped, and the object freed when the count is down to zero. -/
def release (c : Cell) : Cell := ⟨c.count - 1, c.freed || decide (c.count - 1 ≤ 0)⟩

/-- The count is that of `n` outstanding references, and the object is freed exactly when there
are none. -/
structure Holds (c : Cell) (n : Nat) : Prop where
  count : c.count = n
  freed : c.freed = true ↔ n = 0

variable {c : Cell} {n m : Nat}

theorem Holds.alive (h : c.Holds n) (hn : 0 < n) : c.freed = false :=
  Bool.eq_false_iff.mpr fun hfreed => Nat.ne_of_gt hn (h.freed.mp hfreed)

/-- The count tells how many references there are. -/
theorem Holds.unique (h : c.Holds n) (h' : c.Holds m) : n = m :=
  Int.ofNat.inj (h.count.symm.trans h'.count)

theorem Holds.incr (h : c.Holds n) (hn : 0 < n) : c.incr.Holds (n + 1) where
  count := congrArg (· + 1) h.count
  freed := iff_of_false (Bool.eq_false_iff.mp (h.alive hn)) (Nat.succ_ne_zero n)

/-- Dropping a reference that is not the last needs no look at the count. -/
theorem Holds.decr (h : c.Holds (n + 1)) (hn : 0 < n) : c.decr.Holds n where
  count := by
    have hcount := h.count
    show c.count - 1 = n
    omega
  freed := iff_of_false (Bool.eq_false_iff.mp (h.alive (Nat.succ_pos n))) (Nat.ne_of_gt hn)

theorem Holds.release (h : c.Holds (n + 1)) : c.release.Holds n where
  count := by
    have hcount := h.count
    show c.count - 1 = n
    omega
  freed := by
    have hcount := h.count
    show (c.freed || decide (c.count - 1 ≤ 0)) = true ↔ n = 0
    rw [h.alive (Nat.succ_pos n), Bool.false_or, decide_eq_true_iff]
    omega

end Cell

end RefCount
