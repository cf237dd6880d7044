import Mathlib.Data.List.Basic
import Mathlib.Algebra.Order.Group.Nat
import Luaw.Bytes

/-!
# Splitting a string

`splitter` of `luaw_utils.lua` makes the iterator under the paths of the web applications and the
names of the loggers. It is run by a generic `for` loop, which hands the position that it gets back
in again.
-/

namespace Luaw.Utils

section Runs

/-- The part of a list from `start` to before `stop`. -/
structure Run where
  start : Nat
  stop : Nat
  deriving DecidableEq, Repr

variable {α : Type} (separator : α) (str : List α)

def Run.segment (run : Run) : List α := (str.take run.stop).drop run.start

/-- A run that is not empty, has no separator, and has one or an end of the list on both sides. -/
structure Run.Maximal (run : Run) : Prop where
  start_lt : run.start < run.stop
  stop_le : run.stop ≤ str.length
  inside : ∀ i, run.start ≤ i → i < run.stop → str[i]? ≠ some separator
  before : run.start = 0 ∨ str[run.start - 1]? = some separator
  after : run.stop = str.length ∨ str[run.stop]? = some separator

variable {separator str}

/-- A maximal run that begins where no run can is another one's part. -/
theorem Run.Maximal.start_separated {run : Run} (h : run.Maximal separator str) {a : Nat}
    (hstart : a < run.start) : ∃ i, a ≤ i ∧ i < run.start ∧ str[i]? = some separator := by
  obtain hzero | hbefore := h.before
  · omega
  · exact ⟨run.start - 1, by omega, by omega, hbefore⟩

/-- Two maximal runs with the same beginning are the same. -/
theorem Run.Maximal.stop_le_of_start_eq {r r' : Run} (h : r.Maximal separator str)
    (h' : r'.Maximal separator str) (hstart : r.start = r'.start) : r.stop ≤ r'.stop := by
  by_contra hlt
  have hstop := h.stop_le
  have hlt' := h'.start_lt
  obtain hend | hafter := h'.after
  · omega
  · exact h.inside r'.stop (by omega) (by omega) hafter

theorem Run.Maximal.eq_of_start_eq {r r' : Run} (h : r.Maximal separator str)
    (h' : r'.Maximal separator str) (hstart : r.start = r'.start) : r = r' := by
  have hstop := Nat.le_antisymm (h.stop_le_of_start_eq h' hstart)
    (h'.stop_le_of_start_eq h hstart.symm)
  cases r
  cases r'
  simp_all

end Runs

section Iterator

/-- `string.byte(str, pos, pos)`, with positions from one on. -/
def byte (str : Bytes) (pos : Nat) : Option UInt8 := str[pos - 1]?

/-- `string.sub(str, start, pos)`, which takes what there is up to `pos`. -/
def sub (str : Bytes) (start pos : Nat) : Bytes := (str.take pos).drop (start - 1)

/-- The `while` loop of the iterator. -/
def scan (separator : UInt8) (str : Bytes) (start pos : Nat) : Option (Nat × Bytes) :=
  if pos ≤ str.length then
    if byte str pos = some separator then
      if start < pos then some (pos, sub str start (pos - 1))
      else scan separator str (pos + 1) (pos + 1)
    else scan separator str start (pos + 1)
  else if start < pos then some (pos, sub str start pos)
  else none
termination_by str.length + 1 - pos

/-- The iterator that `splitter(splitCh)` returns. -/
def splitter (separator : UInt8) (str : Bytes) (pos : Nat) : Option (Nat × Bytes) :=
  scan separator str (pos + 1) (pos + 1)

/-- `for pos, seg in next, str, pos do … end` goes through these values. -/
inductive Iterates (next : Nat → Option (Nat × Bytes)) : Nat → List (Nat × Bytes) → Prop where
  | done {pos : Nat} (h : next pos = none) : Iterates next pos []
  | step {pos pos' : Nat} {seg : Bytes} {rest : List (Nat × Bytes)}
      (h : next pos = some (pos', seg)) (hrest : Iterates next pos' rest) :
      Iterates next pos ((pos', seg) :: rest)

theorem Iterates.unique {next : Nat → Option (Nat × Bytes)} {pos : Nat}
    {ys zs : List (Nat × Bytes)} (h : Iterates next pos ys) (h' : Iterates next pos zs) :
    ys = zs := by
  induction h generalizing zs with
  | done hnone =>
    cases h' with
    | done => rfl
    | step hsome => cases hnone.symm.trans hsome
  | step hsome _ ih =>
    cases h' with
    | done hnone => cases hnone.symm.trans hsome
    | step hsome' hrest' =>
      cases hsome.symm.trans hsome'
      exact congrArg _ (ih hrest')

end Iterator

section Scan

variable {separator : UInt8} {str : Bytes}

/-- The loop stands at `pos`, and a run may have begun at `start`. -/
structure Scanning (separator : UInt8) (str : Bytes) (start pos : Nat) : Prop where
  start_pos : 1 ≤ start
  start_le : start ≤ pos
  pos_le : pos ≤ str.length + 1 ∨ start = pos
  inside : ∀ i, start - 1 ≤ i → i < pos - 1 → str[i]? ≠ some separator
  before : start - 1 = 0 ∨ str.length < start - 1 ∨ str[start - 1 - 1]? = some separator

/-- What the iterator finds from the index `a` on, which counts from zero. -/
def Found (separator : UInt8) (str : Bytes) (a : Nat) : Option (Nat × Bytes) → Prop
  | none => ∀ r : Run, r.Maximal separator str → r.start < a
  | some found => ∃ run : Run, run.Maximal separator str ∧ a ≤ run.start ∧
      (∀ r : Run, r.Maximal separator str → a ≤ r.start → run.start ≤ r.start) ∧
      found = (run.stop + 1, run.segment str)

/-- No run begins with a separator. -/
theorem Found.skip {a : Nat} {found : Option (Nat × Bytes)} (h : Found separator str (a + 1) found)
    (hsep : str[a]? = some separator) : Found separator str a found := by
  have hne : ∀ r : Run, r.Maximal separator str → r.start ≠ a := by
    rintro r hr rfl
    exact hr.inside r.start le_rfl hr.start_lt hsep
  cases found with
  | none =>
    intro r hr
    have hlt := h r hr
    have := hne r hr
    omega
  | some found =>
    obtain ⟨run, hrun, hle, hfirst, heq⟩ := h
    refine ⟨run, hrun, by omega, fun r hr har => hfirst r hr ?_, heq⟩
    have := hne r hr
    omega

/-- The run that has begun is found when it ends. -/
theorem Scanning.found {start pos : Nat} (h : Scanning separator str start pos)
    (hlt : start < pos) (hafter : pos - 1 = str.length ∨ str[pos - 1]? = some separator) :
    Found separator str (start - 1) (some (pos, (str.take (pos - 1)).drop (start - 1))) := by
  have hstart := h.start_pos
  have hpos : pos ≤ str.length + 1 := h.pos_le.resolve_right (by omega)
  refine ⟨⟨start - 1, pos - 1⟩, ⟨?_, ?_, h.inside, ?_, hafter⟩, le_rfl, fun r _ hr => hr, ?_⟩
  · show start - 1 < pos - 1
    omega
  · show pos - 1 ≤ str.length
    omega
  · obtain hzero | hpast | hbefore := h.before
    · exact .inl hzero
    · omega
    · exact .inr hbefore
  · rw [show pos - 1 + 1 = pos by omega]
    rfl

theorem scan_found {start pos : Nat} (h : Scanning separator str start pos) :
    Found separator str (start - 1) (scan separator str start pos) := by
  have hstart := h.start_pos
  have hle := h.start_le
  fun_induction scan separator str start pos with
  | case1 start pos hlen hsep hlt => exact h.found hlt (.inr hsep)
  | case2 start pos hlen hsep hlt ih =>
    -- the separator follows another one or the beginning of the string
    obtain rfl : start = pos := by omega
    refine Found.skip ?_ hsep
    rw [Nat.sub_add_cancel hstart]
    refine ih ⟨by omega, le_rfl, .inr rfl, fun i hi hi' => by omega, .inr (.inr hsep)⟩
      (by omega) le_rfl
  | case3 start pos hlen hsep ih =>
    refine ih ⟨hstart, by omega, .inl (by omega), fun i hi hi' => ?_, h.before⟩ hstart (by omega)
    obtain rfl | hlt := Nat.eq_or_lt_of_le (show i ≤ pos - 1 by omega)
    · exact hsep
    · exact h.inside i hi hlt
  | case4 start pos hlen hlt =>
    -- the string ends the run, and `string.sub` is asked for one byte too many
    have hpos : pos ≤ str.length + 1 := h.pos_le.resolve_right (by omega)
    have hend : pos - 1 = str.length := by omega
    have hsub : sub str start pos = (str.take (pos - 1)).drop (start - 1) := by
      rw [sub, List.take_of_length_le (by omega), List.take_of_length_le hend.ge]
    rw [hsub]
    exact h.found hlt (.inl hend)
  | case5 start pos hlen hlt =>
    intro r hr
    have hstop := hr.stop_le
    have hlt := hr.start_lt
    omega

/-- The loop may be entered behind the beginning, the end or a separator. -/
def Entry (separator : UInt8) (str : Bytes) (pos : Nat) : Prop :=
  pos = 0 ∨ str.length < pos ∨ str[pos - 1]? = some separator

theorem splitter_found {pos : Nat} (h : Entry separator str pos) :
    Found separator str pos (splitter separator str pos) := by
  have hscanning : Scanning separator str (pos + 1) (pos + 1) :=
    ⟨by omega, le_rfl, .inr rfl, fun i hi hi' => by omega, h⟩
  exact scan_found hscanning

theorem scan_le {start pos : Nat} {found : Nat × Bytes} (hle : start ≤ pos)
    (hpos : pos ≤ str.length + 1 ∨ start = pos) (h : scan separator str start pos = some found) :
    start ≤ found.1 ∧ start ≤ str.length := by
  fun_induction scan separator str start pos with
  | case1 start pos hlen hsep hlt =>
    cases h
    exact ⟨hle, by omega⟩
  | case2 start pos hlen hsep hlt ih =>
    have hrest := ih le_rfl (.inr rfl) h
    omega
  | case3 start pos hlen hsep ih => exact ih (by omega) (.inl (by omega)) h
  | case4 start pos hlen hlt =>
    cases h
    exact ⟨hle, by omega⟩
  | case5 start pos hlen hlt => cases h

/-- Each round of the loop gets further, and begins in the string. -/
theorem splitter_lt {pos : Nat} {found : Nat × Bytes}
    (h : splitter separator str pos = some found) : pos < found.1 ∧ pos < str.length :=
  scan_le le_rfl (.inr rfl) h

/-- The iterator stops behind the run that it finds, and is entered there again. -/
theorem Run.Maximal.entry {run : Run} (h : run.Maximal separator str) :
    Entry separator str (run.stop + 1) := by
  obtain hend | hafter := h.after
  · exact .inr (.inl (by omega))
  · exact .inr (.inr hafter)

/-- Between two runs there is a separator. -/
theorem Run.Maximal.stop_lt {run r : Run} (h : run.Maximal separator str)
    (hr : r.Maximal separator str) (hlt : run.start < r.start) : run.stop < r.start := by
  obtain ⟨i, hi, hi', hsep⟩ := hr.start_separated hlt
  by_contra hle
  exact h.inside i hi (by omega) hsep

end Scan

/-- What the loop yields for a run: the place behind it, and its bytes. -/
def Run.yield (str : Bytes) (run : Run) : Nat × Bytes := (run.stop + 1, run.segment str)

theorem iterates_from {separator : UInt8} {str : Bytes} {pos : Nat}
    (h : Entry separator str pos) : ∃ runs : List Run,
      Iterates (splitter separator str) pos (runs.map (Run.yield str)) ∧
      runs.Pairwise (fun r r' => r.stop < r'.start) ∧
      ∀ r, r ∈ runs ↔ r.Maximal separator str ∧ pos ≤ r.start := by
  -- each round gets behind the run that it finds, and no run begins past the end
  induction hn : str.length + 1 - pos using Nat.strongRecOn generalizing pos with
  | _ n ih =>
    have hfound := splitter_found h
    cases hnext : splitter separator str pos with
    | none =>
      rw [hnext] at hfound
      refine ⟨[], .done hnext, .nil, fun r => ⟨nofun, fun ⟨hr, hle⟩ => ?_⟩⟩
      exact absurd (hfound r hr) (Nat.not_lt.mpr hle)
    | some found =>
      rw [hnext] at hfound
      obtain ⟨run, hrun, hle, hfirst, rfl⟩ := hfound
      have hlt := hrun.start_lt
      have hstop := hrun.stop_le
      obtain ⟨runs, hiter, hordered, hmem⟩ :=
        ih (str.length + 1 - (run.stop + 1)) (by omega) hrun.entry rfl
      refine ⟨run :: runs, .step hnext hiter, .cons (fun r hr => ((hmem r).mp hr).2) hordered,
        fun r => ?_⟩
      rw [List.mem_cons, hmem]
      refine ⟨?_, fun ⟨hr, hpos⟩ => ?_⟩
      · rintro (rfl | ⟨hr, hle'⟩)
        · exact ⟨hrun, hle⟩
        · exact ⟨hr, by omega⟩
      · obtain heq | hlt' := (hfirst r hr hpos).eq_or_lt
        · exact .inl (hr.eq_of_start_eq hrun heq.symm)
        · exact .inr ⟨hr, hrun.stop_lt hr hlt'⟩

/-- The loop ends, and it yields the maximal runs without a separator from left to right. -/
theorem splitter_iterates (separator : UInt8) (str : Bytes) : ∃ runs : List Run,
    (∀ yields, Iterates (splitter separator str) 0 yields ↔
      yields = runs.map (Run.yield str)) ∧
    runs.Pairwise (fun r r' => r.stop < r'.start) ∧
    ∀ r, r ∈ runs ↔ r.Maximal separator str := by
  have hentry : Entry separator str 0 := .inl rfl
  obtain ⟨runs, hiter, hordered, hmem⟩ := iterates_from hentry
  refine ⟨runs, fun yields => ⟨fun h => h.unique hiter, fun h => h ▸ hiter⟩, hordered, fun r => ?_⟩
  rw [hmem]
  exact and_iff_left (Nat.zero_le _)

end Luaw.Utils
