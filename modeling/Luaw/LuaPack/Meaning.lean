import Luaw.LuaPack.Grammar
import Luaw.LuaPack.RoundTrip

/-!
# What a derivation means

`Denotes c v` says that the Lua value `v` is what the content `c` stands for, `readAs c` is what
the reader makes of it. They differ where the empty string is read as nil and where NIL is left
out of an array that goes on.
-/

namespace Luaw.LuaPack

open Lua

namespace Content

def isNil : Content → Bool
  | nil => true
  | _ => false

/-- NIL and the empty string are read as nil. -/
def isBlank : Content → Bool
  | nil | str [] => true
  | _ => false

def sameKey : Content → Content → Bool
  | bool a, bool b => a = b
  | num a, num b => a = b
  | str a, str b => a = b
  | _, _ => false

/-- A table may have it as a key. -/
def isKey : Content → Bool
  | nil | num .nan => false
  | _ => true

end Content

/-- A later entry has the same key. -/
def overwritten (k : Content) (entries : List (Content × Content)) : Bool :=
  entries.any fun e => k.sameKey e.1

/-- The entry leaves nothing behind in the table. -/
def vanishes (k v : Content) (later : List (Content × Content)) : Bool :=
  v.isNil || overwritten k later

mutual

/-- The Lua value of a content. A Lua array has no holes: an array with NIL before another element
has no value. The entries of a map come in any order. -/
def Denotes : Content → LuaValue → Prop
  | .nil, v => v = .nil
  | .bool b, v => v = .bool b
  | .num x, v => v = .num x
  | .str s, v => v = .str s
  | .array items, v => ∃ xs n, v = .table xs [] ∧ (∀ x ∈ xs, x.isNil = false) ∧
      DenotesAll items (xs ++ List.replicate n .nil)
  | .map entries, v => ∃ es hash, v = .table [] hash ∧ hash.Perm es ∧ DenotesPairs entries es

def DenotesAll : List Content → List LuaValue → Prop
  | [], xs => xs = []
  | c :: cs, xs => ∃ x xs', xs = x :: xs' ∧ Denotes c x ∧ DenotesAll cs xs'

/-- The entries that are left in the table. -/
def DenotesPairs : List (Content × Content) → List (LuaValue × LuaValue) → Prop
  | [], es => es = []
  | (k, v) :: entries, es => k.isKey = true ∧
      if vanishes k v entries then DenotesPairs entries es
      else ∃ k' v' es', es = (k', v') :: es' ∧ Denotes k k' ∧ Denotes v v' ∧
        DenotesPairs entries es'

end

mutual

/-- No empty string and no hole is in what is left of the content. -/
def Intact : Content → Prop
  | .str s => s ≠ []
  | .array items => IntactAll items
  | .map entries => IntactPairs entries
  | _ => True

def IntactAll : List Content → Prop
  | [] => True
  | c :: cs => Intact c ∧ (c.isNil = true → ∀ c' ∈ cs, c'.isNil = true) ∧ IntactAll cs

def IntactPairs : List (Content × Content) → Prop
  | [] => True
  | (k, v) :: entries =>
    (vanishes k v entries = false → Intact k ∧ Intact v) ∧ IntactPairs entries

end

mutual

/-- The reader gets through: no map has a key that is read as nil, or NaN. -/
def Readable : Content → Prop
  | .array items => ReadableAll items
  | .map entries => ReadablePairs entries
  | _ => True

def ReadableAll : List Content → Prop
  | [] => True
  | c :: cs => Readable c ∧ ReadableAll cs

def ReadablePairs : List (Content × Content) → Prop
  | [] => True
  | (k, v) :: entries =>
    k.isBlank = false ∧ k.isKey = true ∧ Readable k ∧ Readable v ∧ ReadablePairs entries

end

mutual

/-- What the reader makes of a content. -/
def readAs : Content → LuaValue
  | .nil => .nil
  | .bool b => .bool b
  | .num x => .num x
  | .str s => if s = [] then .nil else .str s
  | .array items => .table ((readAllAs items).filter fun x => !x.isNil) []
  | .map entries => .table [] (assignAll (readPairsAs entries) [])

def readAllAs : List Content → List LuaValue
  | [] => []
  | c :: cs => readAs c :: readAllAs cs

def readPairsAs : List (Content × Content) → List (LuaValue × LuaValue)
  | [] => []
  | (k, v) :: entries => (readAs k, readAs v) :: readPairsAs entries

end

section Values

@[simp] theorem isNil_readAs (c : Content) : (readAs c).isNil = c.isBlank := by
  match c with
  | .nil | .bool _ | .num _ | .array _ | .map _ => simp [readAs, LuaValue.isNil, Content.isBlank]
  | .str [] | .str (_ :: _) => simp [readAs, LuaValue.isNil, Content.isBlank]

theorem isBlank_of_intact {c : Content} (h : Intact c) : c.isBlank = c.isNil := by
  match c with
  | .nil | .bool _ | .num _ | .array _ | .map _ | .str (_ :: _) => rfl
  | .str [] => exact absurd rfl h

/-- Keys that are not blank are told apart after reading as before. -/
theorem sameKey_readAs {k : Content} (hk : k.isBlank = false) (k' : Content) :
    (readAs k).sameKey (readAs k') = k.sameKey k' := by
  have hstr : ∀ s : Bytes, readAs (.str s) = .nil ∧ s = [] ∨ readAs (.str s) = .str s := by
    intro s
    by_cases hs : s = []
    · exact .inl ⟨by rw [readAs, if_pos hs], hs⟩
    · exact .inr (by rw [readAs, if_neg hs])
  cases k' with
  | str s' =>
    cases k with
    | str s =>
      obtain ⟨-, rfl⟩ | hs := hstr s
      · cases hk
      · obtain ⟨hs', rfl⟩ | hs' := hstr s'
        · rw [hs, hs']
          exact (decide_eq_false fun h => by rw [h] at hk; cases hk).symm
        · rw [hs, hs']
          rfl
    | _ => obtain ⟨hs', -⟩ | hs' := hstr s' <;> rw [hs'] <;> rfl
  | _ =>
    cases k with
    | str s =>
      obtain ⟨-, rfl⟩ | hs := hstr s
      · cases hk
      · rw [hs]
        rfl
    | _ => rfl

theorem assigned_readAs {k : Content} (hk : k.isBlank = false)
    (entries : List (Content × Content)) :
    assigned (readAs k) (readPairsAs entries) = overwritten k entries := by
  induction entries with
  | nil => rfl
  | cons e entries ih =>
    obtain ⟨k', v'⟩ := e
    have hrest : assigned (readAs k) (readPairsAs ((k', v') :: entries)) =
        ((readAs k).sameKey (readAs k') || assigned (readAs k) (readPairsAs entries)) := rfl
    rw [hrest, ih, sameKey_readAs hk]
    rfl

end Values

section Intact

/-- Behind a NIL an intact array has nothing else. -/
theorem readAllAs_nils {items : List Content} (h : ∀ c ∈ items, c.isNil = true) :
    readAllAs items = List.replicate items.length .nil := by
  induction items with
  | nil => rfl
  | cons c cs ih =>
    have hc := h c List.mem_cons_self
    have hcs := ih fun c' hc' => h c' (List.mem_cons_of_mem _ hc')
    match c with
    | .nil => rw [readAllAs, hcs, readAs, List.length_cons, List.replicate_succ]

/-- In an intact array what is not nil comes first. -/
theorem filter_readAllAs {items : List Content} (h : IntactAll items) :
    ∃ n, readAllAs items =
      (readAllAs items).filter (fun x => !x.isNil) ++ List.replicate n .nil := by
  induction items with
  | nil => exact ⟨0, rfl⟩
  | cons c cs ih =>
    obtain ⟨hc, hlast, hcs⟩ := h
    have hnil : (readAs c).isNil = c.isNil := by rw [isNil_readAs, isBlank_of_intact hc]
    cases hcnil : c.isNil with
    | false =>
      obtain ⟨n, hn⟩ := ih hcs
      refine ⟨n, ?_⟩
      rw [readAllAs, List.filter_cons_of_pos (by simp [hnil, hcnil]), List.cons_append, ← hn]
    | true =>
      have hall : readAllAs (c :: cs) = List.replicate (cs.length + 1) .nil := by
        refine readAllAs_nils fun c' hc' => ?_
        obtain rfl | hmem := List.mem_cons.mp hc'
        · exact hcnil
        · exact hlast hcnil c' hmem
      refine ⟨cs.length + 1, ?_⟩
      rw [hall, List.filter_eq_nil_iff.mpr (fun x hx => ?_), List.nil_append]
      rw [List.eq_of_mem_replicate hx]
      exact nofun

mutual

/-- An intact content is read as what it means. -/
theorem denotes_readAs (c : Content) (hread : Readable c) (h : Intact c) :
    Denotes c (readAs c) := by
  match c with
  | .nil | .bool _ | .num _ => rfl
  | .str s =>
    rw [readAs, if_neg h]
    rfl
  | .array items =>
    obtain ⟨n, hn⟩ := filter_readAllAs h
    refine ⟨_, n, rfl, fun x hx => ?_, ?_⟩
    · simpa using (List.mem_filter.mp hx).2
    · rw [← hn]
      exact denotesAll_readAs items hread h
  | .map entries =>
    refine ⟨_, _, rfl, ?_, denotesPairs_readAs entries hread h⟩
    exact assignAll_perm (readPairsAs entries) .nil

theorem denotesAll_readAs (items : List Content) (hread : ReadableAll items)
    (h : IntactAll items) : DenotesAll items (readAllAs items) := by
  match items with
  | [] => rfl
  | c :: cs =>
    exact ⟨_, _, rfl, denotes_readAs c hread.1 h.1, denotesAll_readAs cs hread.2 h.2.2⟩

theorem denotesPairs_readAs (entries : List (Content × Content)) (hread : ReadablePairs entries)
    (h : IntactPairs entries) : DenotesPairs entries (effective (readPairsAs entries)) := by
  match entries with
  | [] => rfl
  | (k, v) :: entries =>
    obtain ⟨hblank, hkey, hk, hv, hentries⟩ := hread
    obtain ⟨hvisible, hrest⟩ := h
    have ih := denotesPairs_readAs entries hentries hrest
    refine ⟨hkey, ?_⟩
    rw [readPairsAs, effective, assigned_readAs hblank, isNil_readAs]
    cases hvan : vanishes k v entries with
    | true =>
      have hgone : (v.isBlank || overwritten k entries) = true := by
        rw [vanishes, Bool.or_eq_true] at hvan
        obtain hnil | hover := hvan
        · match v with
          | .nil => rfl
        · rw [hover, Bool.or_true]
      rw [if_pos hgone, if_pos rfl]
      exact ih
    | false =>
      obtain ⟨hintactK, hintactV⟩ := hvisible hvan
      have hstays : ¬(v.isBlank || overwritten k entries) = true := by
        rw [isBlank_of_intact hintactV]
        exact Bool.eq_false_iff.mp hvan
      rw [if_neg hstays, if_neg nofun]
      exact ⟨_, _, _, rfl, denotes_readAs k hk hintactK, denotes_readAs v hv hintactV, ih⟩

end

theorem noEmptyStringAll_iff {xs : List LuaValue} :
    NoEmptyStringAll xs ↔ ∀ x ∈ xs, NoEmptyString x := by
  induction xs with
  | nil => exact iff_of_true trivial nofun
  | cons x xs ih => rw [NoEmptyStringAll, ih, List.forall_mem_cons]

theorem noEmptyStringPairs_iff {es : List (LuaValue × LuaValue)} :
    NoEmptyStringPairs es ↔ ∀ e ∈ es, NoEmptyString e.1 ∧ NoEmptyString e.2 := by
  induction es with
  | nil => exact iff_of_true trivial nofun
  | cons e es ih => rw [NoEmptyStringPairs, ih, List.forall_mem_cons, and_assoc]

mutual

/-- The reader returns no empty string. -/
theorem noEmptyString_readAs (c : Content) : NoEmptyString (readAs c) := by
  match c with
  | .nil | .bool _ | .num _ => trivial
  | .str s =>
    rw [readAs]
    split
    · trivial
    · assumption
  | .array items =>
    refine ⟨noEmptyStringAll_iff.mpr fun x hx => ?_, trivial⟩
    exact noEmptyString_readAllAs items x (List.mem_of_mem_filter hx)
  | .map entries =>
    refine ⟨trivial, noEmptyStringPairs_iff.mpr fun e he => ?_⟩
    have hmem := (assignAll_perm (readPairsAs entries) .nil).mem_iff.mp he
    exact noEmptyString_readPairsAs entries e (effective_subset _ hmem)

theorem noEmptyString_readAllAs (items : List Content) :
    ∀ x ∈ readAllAs items, NoEmptyString x := by
  match items with
  | [] => exact nofun
  | c :: cs =>
    exact List.forall_mem_cons.mpr ⟨noEmptyString_readAs c, noEmptyString_readAllAs cs⟩

theorem noEmptyString_readPairsAs (entries : List (Content × Content)) :
    ∀ e ∈ readPairsAs entries, NoEmptyString e.1 ∧ NoEmptyString e.2 := by
  match entries with
  | [] => exact nofun
  | (k, v) :: entries =>
    exact List.forall_mem_cons.mpr ⟨⟨noEmptyString_readAs k, noEmptyString_readAs v⟩,
      noEmptyString_readPairsAs entries⟩

end

/-- Only NIL stands for nil. -/
theorem Denotes.isNil {c : Content} {v : LuaValue} (h : Denotes c v) : v.isNil = c.isNil := by
  match c with
  | .nil =>
    obtain rfl : v = .nil := h
    rfl
  | .bool b =>
    obtain rfl : v = .bool b := h
    rfl
  | .num x =>
    obtain rfl : v = .num x := h
    rfl
  | .str s =>
    obtain rfl : v = .str s := h
    rfl
  | .array items =>
    obtain ⟨xs, n, rfl, -⟩ := h
    rfl
  | .map entries =>
    obtain ⟨es, hash, rfl, -⟩ := h
    rfl

/-- A list of NILs. -/
theorem DenotesAll.replicate {items : List Content} {n : Nat}
    (h : DenotesAll items (List.replicate n .nil)) : ∀ c ∈ items, c.isNil = true := by
  induction items generalizing n with
  | nil => exact nofun
  | cons c cs ih =>
    obtain ⟨x, xs', heq, hc, hcs⟩ := h
    cases n with
    | zero => cases heq
    | succ n =>
      injection heq with hx hxs
      subst hx hxs
      exact List.forall_mem_cons.mpr ⟨hc.isNil.symm, ih hcs⟩

mutual

/-- A content that means a value without empty string has none to be lost. -/
theorem intact_of_denotes (c : Content) {v : LuaValue} (h : Denotes c v)
    (hv : NoEmptyString v) : Intact c := by
  match c with
  | .nil | .bool _ | .num _ => trivial
  | .str s =>
    obtain rfl : v = .str s := h
    exact hv
  | .array items =>
    obtain ⟨xs, n, rfl, hxs, hall⟩ := h
    exact intactAll_of_denotes items hxs hall (noEmptyStringAll_iff.mp hv.1)
  | .map entries =>
    obtain ⟨es, hash, rfl, hperm, hpairs⟩ := h
    refine intactPairs_of_denotes entries hpairs fun e he => ?_
    exact noEmptyStringPairs_iff.mp hv.2 e (hperm.mem_iff.mpr he)

theorem intactAll_of_denotes (items : List Content) {xs : List LuaValue} {n : Nat}
    (hxs : ∀ x ∈ xs, x.isNil = false) (h : DenotesAll items (xs ++ List.replicate n .nil))
    (hv : ∀ x ∈ xs, NoEmptyString x) : IntactAll items := by
  match items, xs with
  | [], _ => trivial
  | c :: cs, [] =>
    have hnils := DenotesAll.replicate h
    obtain ⟨x, xs', heq, hc, hcs⟩ := h
    obtain ⟨n, rfl⟩ : ∃ k, n = k + 1 := by
      cases n with
      | zero => cases heq
      | succ n => exact ⟨n, rfl⟩
    injection heq with hx hxs'
    subst hx hxs'
    refine ⟨intact_of_denotes c hc trivial,
      fun _ c' hc' => hnils c' (List.mem_cons_of_mem _ hc'), ?_⟩
    exact @intactAll_of_denotes cs [] _ nofun hcs nofun
  | c :: cs, x :: xs =>
    obtain ⟨x', xs', heq, hc, hcs⟩ := h
    injection heq with hx hxs'
    subst hx hxs'
    obtain ⟨hnil, hnils⟩ := List.forall_mem_cons.mp hxs
    obtain ⟨hgood, hgoods⟩ := List.forall_mem_cons.mp hv
    refine ⟨intact_of_denotes c hc hgood, fun hcnil => ?_,
      intactAll_of_denotes cs hnils hcs hgoods⟩
    rw [hc.isNil, hcnil] at hnil
    cases hnil

theorem intactPairs_of_denotes (entries : List (Content × Content))
    {es : List (LuaValue × LuaValue)} (h : DenotesPairs entries es)
    (hv : ∀ e ∈ es, NoEmptyString e.1 ∧ NoEmptyString e.2) : IntactPairs entries := by
  match entries with
  | [] => trivial
  | (k, v) :: entries =>
    obtain ⟨-, h⟩ := h
    cases hvan : vanishes k v entries with
    | true =>
      rw [hvan, if_pos rfl] at h
      exact ⟨fun hvisible => absurd (hvan.symm.trans hvisible) nofun,
        intactPairs_of_denotes entries h hv⟩
    | false =>
      rw [hvan, if_neg nofun] at h
      obtain ⟨k', v', es', rfl, hk, hval, hrest⟩ := h
      obtain ⟨⟨hgoodK, hgoodV⟩, hgood⟩ := List.forall_mem_cons.mp hv
      exact ⟨fun _ => ⟨intact_of_denotes k hk hgoodK, intact_of_denotes v hval hgoodV⟩,
        intactPairs_of_denotes entries hrest hgood⟩

end

/-- The reader returns what the content means exactly if that has no empty string and no hole. -/
theorem denotes_readAs_iff {c : Content} (hread : Readable c) :
    Denotes c (readAs c) ↔ Intact c :=
  ⟨fun h => intact_of_denotes c h (noEmptyString_readAs c), denotes_readAs c hread⟩

end Intact

end Luaw.LuaPack
