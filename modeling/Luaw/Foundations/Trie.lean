import Mathlib.Data.List.Basic

/-!
# Tries

A value in each node and the children under keys. `alter` walks down a path, makes the nodes
that are missing, and changes the value at the end; `valAt_alter` says what is found afterwards
under every path.
-/

inductive Trie (κ ν : Type) where
  | node (val : ν) (children : List (κ × Trie κ ν))

namespace Trie

variable {κ ν : Type} [DecidableEq κ]

def val : Trie κ ν → ν
  | node v _ => v

def child (k : κ) : Trie κ ν → Option (Trie κ ν)
  | node _ children => children.lookup k

def setChild (k : κ) (t : Trie κ ν) : List (κ × Trie κ ν) → List (κ × Trie κ ν)
  | [] => [(k, t)]
  | (k', t') :: children =>
    if k = k' then (k, t) :: children else (k', t') :: setChild k t children

/-- The path has with each key the value of the node that is made for it if there is none. -/
def alter (f : ν → Option ν) : List (κ × ν) → Trie κ ν → Option (Trie κ ν)
  | [], node v children => (f v).map fun v => node v children
  | (k, fresh) :: path, node v children =>
    (alter f path ((children.lookup k).getD (node fresh []))).map fun t =>
      node v (setChild k t children)

def walk : List κ → Trie κ ν → Option (Trie κ ν)
  | [], t => some t
  | k :: ks, t => (t.child k).bind (walk ks)

def valAt (ks : List κ) (t : Trie κ ν) : Option ν := (t.walk ks).map val

/-- The value of the node that is made for the last of the keys. -/
def freshAt : List κ → List (κ × ν) → Option ν
  | [], _ => none
  | _ :: _, [] => none
  | k :: ks, (k', v) :: path =>
    if k = k' then
      match ks with
      | [] => some v
      | _ :: _ => freshAt ks path
    else none

/-- The value that is found under the keys when the path has been made. -/
def grown (path : List (κ × ν)) (ks : List κ) (t : Trie κ ν) : Option ν :=
  (t.valAt ks).or (freshAt ks path)

@[simp] theorem valAt_nil (t : Trie κ ν) : t.valAt [] = some t.val := rfl

theorem valAt_cons (k : κ) (ks : List κ) (t : Trie κ ν) :
    t.valAt (k :: ks) = (t.child k).bind (valAt ks) := by
  rw [valAt, walk]
  cases t.child k <;> rfl

theorem lookup_setChild_self (k : κ) (t : Trie κ ν) (children : List (κ × Trie κ ν)) :
    (setChild k t children).lookup k = some t := by
  induction children with
  | nil => simp [setChild]
  | cons c children ih =>
    obtain ⟨k', t'⟩ := c
    by_cases hk : k = k'
    · simp [setChild, hk]
    · rw [setChild, if_neg hk, List.lookup_cons, beq_false_of_ne hk]
      exact ih

theorem lookup_setChild_ne {k k' : κ} (hne : k' ≠ k) (t : Trie κ ν)
    (children : List (κ × Trie κ ν)) :
    (setChild k t children).lookup k' = children.lookup k' := by
  have hbeq : (k' == k) = false := beq_false_of_ne hne
  induction children with
  | nil => rw [setChild, List.lookup_cons, hbeq]
  | cons c children ih =>
    obtain ⟨k'', t'⟩ := c
    by_cases hk : k = k''
    · subst hk
      rw [setChild, if_pos rfl, List.lookup_cons, List.lookup_cons, hbeq]
    · rw [setChild, if_neg hk, List.lookup_cons, List.lookup_cons, ih]

/-- A node that is made has no children. -/
theorem grown_cons (k : κ) (fresh v : ν) (path : List (κ × ν)) (children : List (κ × Trie κ ν))
    (ks : List κ) :
    grown ((k, fresh) :: path) (k :: ks) (node v children) =
      grown path ks ((children.lookup k).getD (node fresh [])) := by
  rw [grown, grown, valAt_cons, child]
  cases children.lookup k with
  | some t =>
    cases ks with
    | nil => rfl
    | cons k' ks => simp [freshAt]
  | none =>
    cases ks with
    | nil => simp [freshAt, val]
    | cons k' ks => simp [freshAt, valAt_cons, child]

theorem grown_cons_ne {k k' : κ} (hne : k' ≠ k) (fresh : ν) (path : List (κ × ν)) (ks : List κ)
    (t : Trie κ ν) : grown ((k, fresh) :: path) (k' :: ks) t = t.valAt (k' :: ks) := by
  simp [grown, freshAt, hne]

theorem valAt_alter {f : ν → Option ν} {path : List (κ × ν)} {t t' : Trie κ ν}
    (h : alter f path t = some t') (ks : List κ) :
    t'.valAt ks = if ks = path.map Prod.fst then (grown path ks t).bind f else grown path ks t := by
  induction path generalizing t t' ks with
  | nil =>
    obtain ⟨v, children⟩ := t
    obtain ⟨v', hv', rfl⟩ := Option.map_eq_some_iff.mp h
    cases ks with
    | nil => exact hv'.symm
    | cons k ks =>
      rw [List.map_nil, if_neg (List.cons_ne_nil k ks), grown, freshAt, Option.or_none, valAt_cons,
        valAt_cons]
      rfl
  | cons step path ih =>
    obtain ⟨k, fresh⟩ := step
    obtain ⟨v, children⟩ := t
    obtain ⟨t₁, ht₁, rfl⟩ := Option.map_eq_some_iff.mp h
    cases ks with
    | nil => rfl
    | cons k' ks =>
      rw [valAt_cons, child]
      by_cases hk : k' = k
      · subst hk
        rw [lookup_setChild_self, Option.bind_some, ih ht₁ ks, grown_cons]
        simp only [List.map_cons, List.cons.injEq, true_and]
      · have hkeys : k' :: ks ≠ ((k, fresh) :: path).map Prod.fst :=
          fun heq => hk (List.cons.inj heq).1
        rw [lookup_setChild_ne hk, if_neg hkeys, grown_cons_ne hk, valAt_cons, child]

/-- The change has succeeded. -/
theorem grown_of_alter {f : ν → Option ν} {path : List (κ × ν)} {t t' : Trie κ ν}
    (h : alter f path t = some t') :
    ∃ v v', grown path (path.map Prod.fst) t = some v ∧ f v = some v' := by
  induction path generalizing t t' with
  | nil =>
    obtain ⟨v, children⟩ := t
    obtain ⟨v', hv', -⟩ := Option.map_eq_some_iff.mp h
    exact ⟨v, v', rfl, hv'⟩
  | cons step path ih =>
    obtain ⟨k, fresh⟩ := step
    obtain ⟨v, children⟩ := t
    obtain ⟨t₁, ht₁, -⟩ := Option.map_eq_some_iff.mp h
    rw [List.map_cons, grown_cons]
    exact ih ht₁

/-- A node is made exactly for the keys along the path. -/
theorem freshAt_isSome (ks : List κ) (path : List (κ × ν)) :
    (freshAt ks path).isSome ↔ ks ≠ [] ∧ ks <+: path.map Prod.fst := by
  induction path generalizing ks with
  | nil => cases ks <;> simp [freshAt]
  | cons step path ih =>
    obtain ⟨k', v⟩ := step
    cases ks with
    | nil => simp [freshAt]
    | cons k ks =>
      by_cases hk : k = k'
      · subst hk
        cases ks with
        | nil => simp [freshAt]
        | cons k₁ ks => simp [freshAt, ih]
      · simp [freshAt, hk, List.cons_prefix_cons]

/-- The value that is made is that of the last key. -/
theorem freshAt_of_keys {ks : List κ} {path : List (κ × ν)} (hne : ks ≠ [])
    (h : ks <+: path.map Prod.fst) : freshAt ks path = (path[ks.length - 1]?).map Prod.snd := by
  induction path generalizing ks with
  | nil => exact absurd (List.prefix_nil.mp h) hne
  | cons step path ih =>
    obtain ⟨k', v⟩ := step
    cases ks with
    | nil => exact absurd rfl hne
    | cons k ks =>
      obtain ⟨rfl, hrest⟩ := List.cons_prefix_cons.mp h
      cases ks with
      | nil => simp [freshAt]
      | cons k₁ ks =>
        rw [freshAt, if_pos rfl]
        exact ih (List.cons_ne_nil _ _) hrest

theorem walk_append (ks ks' : List κ) (t : Trie κ ν) :
    t.walk (ks ++ ks') = (t.walk ks).bind (walk ks') := by
  induction ks generalizing t with
  | nil => rfl
  | cons k ks ih =>
    rw [List.cons_append, walk, walk]
    cases t.child k with
    | none => rfl
    | some t' => exact ih t'

end Trie
