import Mathlib.Data.List.Basic

/-!
# Looking for a delimiter in a buffer

`find` is the position of the first occurrence of a list in another one. `Separates` says that a
delimiter after a text is its first occurrence, whatever follows; the rules below are for
delimiters of one symbol, and of two different ones. `splitPair` cuts a text at each occurrence
of such a pair.
-/

namespace Delimiter

variable {α : Type*} [DecidableEq α]

def find (delim : List α) : List α → Option Nat
  | [] => if delim = [] then some 0 else none
  | a :: s => if delim.isPrefixOf (a :: s) then some 0 else (find delim s).map (· + 1)

def Separates (m delim : List α) : Prop := ∀ rest, find delim (m ++ delim ++ rest) = some m.length

section Find

variable {delim s t m : List α} {i : Nat}

theorem find_eq_zero (h : delim <+: s) : find delim s = some 0 := by
  cases s with
  | nil => rw [find, if_pos (List.prefix_nil.mp h)]
  | cons a s => rw [find, if_pos (List.isPrefixOf_iff_prefix.mpr h)]

theorem find_cons {a : α} (h : ¬delim <+: a :: s) :
    find delim (a :: s) = (find delim s).map (· + 1) := by
  rw [find, if_neg (List.isPrefixOf_iff_prefix.not.mpr h)]

theorem find_length (h : find delim s = some i) : i + delim.length ≤ s.length := by
  induction s generalizing i with
  | nil =>
    obtain ⟨hnil, heq⟩ := Option.ite_none_right_eq_some.mp h
    cases heq
    rw [hnil]
    exact Nat.le_refl _
  | cons a s ih =>
    by_cases hstarts : delim <+: a :: s
    · rw [find_eq_zero hstarts] at h
      cases h
      rw [Nat.zero_add]
      exact hstarts.length_le
    · rw [find_cons hstarts] at h
      obtain ⟨j, hj, rfl⟩ := Option.map_eq_some_iff.mp h
      have := ih hj
      rw [List.length_cons]
      omega

/-- What follows does not change the first occurrence. -/
theorem find_append (h : find delim s = some i) (t : List α) :
    find delim (s ++ t) = some i := by
  induction s generalizing i with
  | nil =>
    obtain ⟨hnil, heq⟩ := Option.ite_none_right_eq_some.mp h
    cases heq
    exact find_eq_zero (hnil ▸ List.nil_prefix)
  | cons a s ih =>
    by_cases hstarts : delim <+: a :: s
    · rw [find_eq_zero hstarts] at h
      cases h
      exact find_eq_zero (hstarts.trans (List.prefix_append _ _))
    · have hlen : find delim (a :: s) = some i := h
      rw [find_cons hstarts] at h
      obtain ⟨j, hj, rfl⟩ := Option.map_eq_some_iff.mp h
      have hroom := find_length hj
      have hstarts' : ¬delim <+: a :: (s ++ t) := by
        intro hlong
        refine hstarts (List.prefix_of_prefix_length_le hlong (List.prefix_append _ _) ?_)
        rw [List.length_cons]
        omega
      rw [List.cons_append, find_cons hstarts', ih hj]
      rfl

/-- A part of the text that does not reach the end of the delimiter has no occurrence. -/
theorem Separates.find_none (h : Separates m delim) {rest : List α} (hs : s <+: m ++ delim ++ rest)
    (hlen : s.length < m.length + delim.length) : find delim s = none := by
  obtain ⟨t, ht⟩ := hs
  rw [Option.eq_none_iff_forall_ne_some]
  intro i hi
  have hfound := find_append hi t
  rw [ht, h rest] at hfound
  have hroom := find_length hi
  rw [← Option.some.inj hfound] at hroom
  omega

theorem separates_singleton {q : α} (h : q ∉ m) : Separates m [q] := by
  intro rest
  induction m with
  | nil => exact find_eq_zero (List.prefix_append _ _)
  | cons a m ih =>
    have hstarts : ¬[q] <+: a :: (m ++ [q] ++ rest) := by
      intro hq
      exact List.ne_of_not_mem_cons h (List.cons_prefix_cons.mp hq).1
    rw [List.cons_append, List.cons_append, find_cons hstarts,
      ih (List.not_mem_of_not_mem_cons h)]
    rfl

theorem separates_pair {a b : α} (hab : a ≠ b) (h : find [a, b] m = none) :
    Separates m [a, b] := by
  intro rest
  induction m with
  | nil => exact find_eq_zero (List.prefix_append _ _)
  | cons c m ih =>
    have hstarts : ¬[a, b] <+: c :: m := by
      intro hstarts
      rw [find_eq_zero hstarts] at h
      cases h
    rw [find_cons hstarts, Option.map_eq_none_iff] at h
    have hstarts' : ¬[a, b] <+: c :: (m ++ [a, b] ++ rest) := by
      intro hlong
      cases m with
      | nil =>
        -- the first symbol of the delimiter is not its second one
        obtain ⟨-, hlong⟩ := List.cons_prefix_cons.mp hlong
        exact hab (List.cons_prefix_cons.mp hlong).1.symm
      | cons d m =>
        obtain ⟨hac, hlong⟩ := List.cons_prefix_cons.mp hlong
        obtain ⟨hbd, -⟩ := List.cons_prefix_cons.mp hlong
        rw [← hac, ← hbd] at hstarts
        exact hstarts (List.prefix_append [a, b] m)
    rw [List.cons_append, List.cons_append, find_cons hstarts', ih h]
    rfl

theorem find_pair_of_not_mem {a b : α} (h : a ∉ s) : find [a, b] s = none := by
  induction s with
  | nil => rfl
  | cons c s ih =>
    have hstarts : ¬[a, b] <+: c :: s := by
      intro hstarts
      exact List.ne_of_not_mem_cons h (List.cons_prefix_cons.mp hstarts).1
    rw [find_cons hstarts, ih (List.not_mem_of_not_mem_cons h)]
    rfl

end Find

section Split

variable {a b c : α} {s l : List α}

def splitPair (a b : α) : List α → List (List α)
  | [] => [[]]
  | [c] => [[c]]
  | c :: d :: s =>
    if c = a ∧ d = b then [] :: splitPair a b s else (splitPair a b (d :: s)).modifyHead (c :: ·)

theorem splitPair_ne_nil (s : List α) : splitPair a b s ≠ [] := by
  fun_induction splitPair a b s with
  | case1 => exact List.cons_ne_nil _ _
  | case2 => exact List.cons_ne_nil _ _
  | case3 => exact List.cons_ne_nil _ _
  | case4 c d s _ ih =>
    obtain ⟨l, ls, hls⟩ := List.exists_cons_of_ne_nil ih
    rw [hls]
    exact List.cons_ne_nil _ _

/-- Joined again with the delimiter, the pieces are the text. -/
theorem intercalate_splitPair (s : List α) : [a, b].intercalate (splitPair a b s) = s := by
  fun_induction splitPair a b s with
  | case1 => rfl
  | case2 => exact List.intercalate_singleton
  | case3 c d s hpair ih =>
    rw [List.intercalate_cons_of_ne_nil (splitPair_ne_nil s), ih, hpair.1, hpair.2]
    rfl
  | case4 c d s _ ih =>
    obtain ⟨l, ls, hls⟩ := List.exists_cons_of_ne_nil (splitPair_ne_nil (a := a) (b := b) (d :: s))
    rw [hls] at ih ⊢
    rw [List.modifyHead_cons, List.intercalate_cons_cons_left, ih]

omit [DecidableEq α] in
theorem intercalate_prefix {l : List α} {ls : List (List α)} :
    l <+: [a, b].intercalate (l :: ls) := by
  cases ls with
  | nil => exact ⟨[], by rw [List.append_nil, List.intercalate_singleton]⟩
  | cons l' ls =>
    rw [List.intercalate_cons_cons, List.append_assoc]
    exact List.prefix_append _ _

/-- No piece holds the delimiter. -/
theorem find_of_mem_splitPair (hl : l ∈ splitPair a b s) : find [a, b] l = none := by
  fun_induction splitPair a b s generalizing l with
  | case1 =>
    cases List.mem_singleton.mp hl
    rfl
  | case2 c =>
    cases List.mem_singleton.mp hl
    have hstarts : ¬[a, b] <+: [c] := by
      intro hstarts
      have := hstarts.length_le
      simp only [List.length_cons, List.length_nil] at this
      omega
    rw [find_cons hstarts]
    rfl
  | case3 c d s _ ih =>
    obtain rfl | hl := List.mem_cons.mp hl
    · rfl
    · exact ih hl
  | case4 c d s hpair ih =>
    obtain ⟨l₁, ls, hls⟩ := List.exists_cons_of_ne_nil (splitPair_ne_nil (a := a) (b := b) (d :: s))
    have hjoin := intercalate_splitPair (a := a) (b := b) (d :: s)
    rw [hls] at hl ih hjoin
    obtain rfl | hl := List.mem_cons.mp hl
    · have hstarts : ¬[a, b] <+: c :: l₁ := by
        intro hstarts
        obtain ⟨hc, hb⟩ := List.cons_prefix_cons.mp hstarts
        have hd : [b] <+: d :: s := hb.trans (hjoin ▸ intercalate_prefix)
        exact hpair ⟨hc.symm, (List.cons_prefix_cons.mp hd).1.symm⟩
      rw [find_cons hstarts, ih List.mem_cons_self]
      rfl
    · exact ih (List.mem_cons_of_mem _ hl)

end Split

end Delimiter
