import Luaw.LuaPack.Reader

/-!
# The LuaPack grammar

`Derives numbers words c bs` says that the bytes spell the content `c`, with the numeric markers
`numbers` and the dictionary `words`. A content is what a derivation says, before it becomes a
Lua value: an array may have NIL anywhere in it, a map may have a key twice. `Denotes` is the Lua
value that it stands for, `readAs` the one that the functions of the reader make of it.
-/

namespace Luaw.LuaPack

open Lua BigEndian

inductive Content where
  | nil
  | bool (b : Bool)
  | num (x : Number)
  | str (s : Bytes)
  | array (items : List Content)
  | map (entries : List (Content × Content))

section Derivations

/-- The payload of a number. -/
def NumberPayload (m : Marker) (payload : Bytes) (c : Content) : Prop :=
  ∃ format, m.numberFormat? = some format ∧ payload.length = format.width ∧
    c = .num (format.decode payload)

/-- The payload of a string. -/
def StringPayload (m : Marker) (payload : Bytes) (c : Content) : Prop :=
  ∃ len s, payload = len ++ s ∧ len.length = m.size ∧ ofBytes len = s.length ∧ c = .str s

/-- The payload of a dictionary entry. -/
def EntryPayload (words : List Bytes) (m : Marker) (payload : Bytes) (c : Content) : Prop :=
  payload.length = m.size ∧ 0 < ofBytes payload ∧
    ∃ word, words[ofBytes payload - 1]? = some word ∧ c = .str word

/-- The payload of a marker that is a value by itself. -/
def Spells (numbers : List Marker) (words : List Bytes) (m : Marker) (payload : Bytes)
    (c : Content) : Prop :=
  match m with
  | .nil => payload = [] ∧ c = .nil
  | .boolTrue => payload = [] ∧ c = .bool true
  | .boolFalse => payload = [] ∧ c = .bool false
  | .string | .bigString | .hugeString => StringPayload m payload c
  | .dictEntry | .bigDictEntry => EntryPayload words m payload c
  | .mapStart | .arrayStart | .dictStart | .recordEnd => False
  | m => m ∈ numbers ∧ NumberPayload m payload c

/-- The keys and the values of a map, in turn. -/
def flatten (entries : List (Content × Content)) : List Content :=
  entries.flatMap fun (k, v) => [k, v]

mutual

inductive Derives (numbers : List Marker) (words : List Bytes) : Content → Bytes → Prop
  | scalar {m : Marker} {payload : Bytes} {c : Content} (h : Spells numbers words m payload c) :
      Derives numbers words c (UInt8.ofNat m.tag :: payload)
  | array {items : List Content} {bs : Bytes} (h : DerivesAll numbers words items bs) :
      Derives numbers words (.array items)
        (UInt8.ofNat Marker.arrayStart.tag :: (bs ++ [UInt8.ofNat Marker.recordEnd.tag]))
  | map {entries : List (Content × Content)} {bs : Bytes}
      (h : DerivesAll numbers words (flatten entries) bs) :
      Derives numbers words (.map entries)
        (UInt8.ofNat Marker.mapStart.tag :: (bs ++ [UInt8.ofNat Marker.recordEnd.tag]))

inductive DerivesAll (numbers : List Marker) (words : List Bytes) : List Content → Bytes → Prop
  | nil : DerivesAll numbers words [] []
  | cons {c : Content} {cs : List Content} {bs bs' : Bytes} (h : Derives numbers words c bs)
      (hs : DerivesAll numbers words cs bs') : DerivesAll numbers words (c :: cs) (bs ++ bs')

end

/-- A value of the grammar, with a dictionary in front of it or without. TYPE_MARKER is not one
of its numbers. -/
def Message (c : Content) (bs : Bytes) : Prop :=
  Derives Marker.intRanges [] c bs ∨
    ∃ (words : List Bytes) (dictionary value : Bytes),
      bs = UInt8.ofNat Marker.dictStart.tag ::
        (dictionary ++ UInt8.ofNat Marker.recordEnd.tag :: value) ∧
      DerivesAll Marker.intRanges [] (words.map .str) dictionary ∧
      Derives Marker.intRanges words c value

/-- The numbers that the reader accepts: its last branch takes TYPE_MARKER for one. -/
def Marker.readNumbers : List Marker := .typeMarker :: Marker.intRanges

theorem Spells.not_structural {numbers : List Marker} {words : List Bytes} {m : Marker}
    {payload : Bytes} {c : Content} (h : Spells numbers words m payload c) :
    m ≠ .mapStart ∧ m ≠ .arrayStart ∧ m ≠ .dictStart ∧ m ≠ .recordEnd := by
  cases m <;> first | exact h.elim | decide

theorem NumberPayload.unique {m : Marker} {p p' r r' : Bytes} {c c' : Content}
    (h : NumberPayload m p c) (h' : NumberPayload m p' c') (heq : p ++ r = p' ++ r') :
    p = p' ∧ c = c' := by
  obtain ⟨format, hformat, hlen, rfl⟩ := h
  obtain ⟨format', hformat', hlen', rfl⟩ := h'
  obtain rfl := Option.some.inj (hformat.symm.trans hformat')
  obtain ⟨rfl, -⟩ := List.append_inj heq (hlen.trans hlen'.symm)
  exact ⟨rfl, rfl⟩

theorem StringPayload.unique {m : Marker} {p p' r r' : Bytes} {c c' : Content}
    (h : StringPayload m p c) (h' : StringPayload m p' c') (heq : p ++ r = p' ++ r') :
    p = p' ∧ c = c' := by
  obtain ⟨len, s, rfl, hlen, hs, rfl⟩ := h
  obtain ⟨len', s', rfl, hlen', hs', rfl⟩ := h'
  rw [List.append_assoc, List.append_assoc] at heq
  obtain ⟨rfl, hrest⟩ := List.append_inj heq (hlen.trans hlen'.symm)
  obtain ⟨rfl, -⟩ := List.append_inj hrest (hs.symm.trans hs')
  exact ⟨rfl, rfl⟩

theorem EntryPayload.unique {words : List Bytes} {m : Marker} {p p' r r' : Bytes}
    {c c' : Content} (h : EntryPayload words m p c) (h' : EntryPayload words m p' c')
    (heq : p ++ r = p' ++ r') : p = p' ∧ c = c' := by
  obtain ⟨hlen, -, word, hword, rfl⟩ := h
  obtain ⟨hlen', -, word', hword', rfl⟩ := h'
  obtain ⟨rfl, -⟩ := List.append_inj heq (hlen.trans hlen'.symm)
  rw [Option.some.inj (hword.symm.trans hword')]
  exact ⟨rfl, rfl⟩

/-- Two payloads of one marker at the same place are equal. -/
theorem Spells.unique {numbers numbers' : List Marker} {words : List Bytes} {m : Marker}
    {p p' r r' : Bytes} {c c' : Content} (h : Spells numbers words m p c)
    (h' : Spells numbers' words m p' c') (heq : p ++ r = p' ++ r') : p = p' ∧ c = c' := by
  cases m with
  | mapStart => exact h.elim
  | arrayStart => exact h.elim
  | dictStart => exact h.elim
  | recordEnd => exact h.elim
  | nil => exact ⟨h.1.trans h'.1.symm, h.2.trans h'.2.symm⟩
  | boolTrue => exact ⟨h.1.trans h'.1.symm, h.2.trans h'.2.symm⟩
  | boolFalse => exact ⟨h.1.trans h'.1.symm, h.2.trans h'.2.symm⟩
  | string => exact StringPayload.unique h h' heq
  | bigString => exact StringPayload.unique h h' heq
  | hugeString => exact StringPayload.unique h h' heq
  | dictEntry => exact EntryPayload.unique h h' heq
  | bigDictEntry => exact EntryPayload.unique h h' heq
  | _ => exact NumberPayload.unique h.2 h'.2 heq

theorem Derives.head {numbers : List Marker} {words : List Bytes} {c : Content} {bs : Bytes}
    (h : Derives numbers words c bs) :
    ∃ (m : Marker) (bs' : Bytes), bs = UInt8.ofNat m.tag :: bs' ∧ m ≠ .dictStart ∧
      m ≠ .recordEnd := by
  cases h with
  | scalar h => exact ⟨_, _, rfl, h.not_structural.2.2⟩
  | array h => exact ⟨_, _, rfl, nofun, nofun⟩
  | map h => exact ⟨_, _, rfl, nofun, nofun⟩

theorem flatten_injective {es es' : List (Content × Content)} (h : flatten es = flatten es') :
    es = es' := by
  induction es generalizing es' with
  | nil =>
    cases es' with
    | nil => rfl
    | cons e es' => cases h
  | cons e es ih =>
    cases es' with
    | nil => cases h
    | cons e' es' =>
      obtain ⟨k, v⟩ := e
      obtain ⟨k', v'⟩ := e'
      have hcons : k :: v :: flatten es = k' :: v' :: flatten es' := h
      injection hcons with hk hrest
      injection hrest with hv hrest
      rw [hk, hv, ih hrest]

variable {numbers : List Marker} {words : List Bytes}

/-- Whatever is derived at the same place is of the same bytes and says the same. -/
def Unique (words : List Bytes) (c : Content) (bs : Bytes) : Prop :=
  ∀ ⦃numbers' : List Marker⦄ ⦃c' : Content⦄ ⦃bs' r r' : Bytes⦄,
    Derives numbers' words c' bs' → bs ++ r = bs' ++ r' → bs = bs' ∧ c = c'

/-- The same for lists that are followed by the end of a record. -/
def UniqueAll (words : List Bytes) (cs : List Content) (bs : Bytes) : Prop :=
  ∀ ⦃numbers' : List Marker⦄ ⦃cs' : List Content⦄ ⦃bs' r r' : Bytes⦄,
    DerivesAll numbers' words cs' bs' →
    bs ++ UInt8.ofNat Marker.recordEnd.tag :: r =
      bs' ++ UInt8.ofNat Marker.recordEnd.tag :: r' → bs = bs' ∧ cs = cs'

theorem unique_scalar {m : Marker} {payload : Bytes} {c : Content}
    (h : Spells numbers words m payload c) : Unique words c (UInt8.ofNat m.tag :: payload) := by
  intro numbers' c' bs' r r' h' heq
  cases h' with
  | scalar h' =>
    rw [List.cons_append, List.cons_append, List.cons.injEq] at heq
    obtain rfl := tag_injective heq.1
    obtain ⟨rfl, rfl⟩ := h.unique h' heq.2
    exact ⟨rfl, rfl⟩
  | array h' =>
    rw [List.cons_append, List.cons_append, List.cons.injEq] at heq
    exact absurd (tag_injective heq.1) h.not_structural.2.1
  | map h' =>
    rw [List.cons_append, List.cons_append, List.cons.injEq] at heq
    exact absurd (tag_injective heq.1) h.not_structural.1

theorem UniqueAll.array {items : List Content} {bs : Bytes} (h : UniqueAll words items bs) :
    Unique words (.array items)
      (UInt8.ofNat Marker.arrayStart.tag :: (bs ++ [UInt8.ofNat Marker.recordEnd.tag])) := by
  intro numbers' c' bs' r r' h' heq
  cases h' with
  | scalar h' =>
    rw [List.cons_append, List.cons_append, List.cons.injEq] at heq
    exact absurd (tag_injective heq.1).symm h'.not_structural.2.1
  | array h' =>
    rw [List.cons_append, List.cons_append, List.cons.injEq, List.append_assoc,
      List.append_assoc] at heq
    obtain ⟨rfl, rfl⟩ := h h' heq.2
    exact ⟨rfl, rfl⟩
  | map h' =>
    rw [List.cons_append, List.cons_append, List.cons.injEq] at heq
    exact absurd (tag_injective heq.1) nofun

theorem UniqueAll.map {entries : List (Content × Content)} {bs : Bytes}
    (h : UniqueAll words (flatten entries) bs) :
    Unique words (.map entries)
      (UInt8.ofNat Marker.mapStart.tag :: (bs ++ [UInt8.ofNat Marker.recordEnd.tag])) := by
  intro numbers' c' bs' r r' h' heq
  cases h' with
  | scalar h' =>
    rw [List.cons_append, List.cons_append, List.cons.injEq] at heq
    exact absurd (tag_injective heq.1).symm h'.not_structural.1
  | array h' =>
    rw [List.cons_append, List.cons_append, List.cons.injEq] at heq
    exact absurd (tag_injective heq.1) nofun
  | map h' =>
    rw [List.cons_append, List.cons_append, List.cons.injEq, List.append_assoc,
      List.append_assoc] at heq
    obtain ⟨rfl, hsame⟩ := h h' heq.2
    rw [flatten_injective hsame]
    exact ⟨rfl, rfl⟩

theorem uniqueAll_nil : UniqueAll words [] [] := by
  intro numbers' cs' bs' r r' h' heq
  cases h' with
  | nil => exact ⟨rfl, rfl⟩
  | cons h' hs' =>
    obtain ⟨m, ms, rfl, -, hend⟩ := h'.head
    rw [List.nil_append, List.cons_append, List.cons_append, List.cons.injEq] at heq
    exact absurd (tag_injective heq.1).symm hend

theorem Unique.cons {c : Content} {cs : List Content} {bs bs' : Bytes}
    (hd : Derives numbers words c bs) (h : Unique words c bs) (hs : UniqueAll words cs bs') :
    UniqueAll words (c :: cs) (bs ++ bs') := by
  intro numbers' cs' bs'' r r' h' heq
  cases h' with
  | nil =>
    obtain ⟨m, ms, rfl, -, hend⟩ := hd.head
    rw [List.nil_append, List.cons_append, List.cons_append, List.cons.injEq] at heq
    exact absurd (tag_injective heq.1) hend
  | cons h' hs' =>
    rw [List.append_assoc, List.append_assoc] at heq
    obtain ⟨rfl, rfl⟩ := h h' heq
    obtain ⟨rfl, rfl⟩ := hs hs' (List.append_cancel_left heq)
    exact ⟨rfl, rfl⟩

mutual

theorem Derives.unique {c : Content} {bs : Bytes} (h : Derives numbers words c bs) :
    Unique words c bs := by
  match h with
  | .scalar h => exact unique_scalar h
  | .array h => exact (DerivesAll.unique h).array
  | .map h => exact (DerivesAll.unique h).map

theorem DerivesAll.unique {cs : List Content} {bs : Bytes}
    (h : DerivesAll numbers words cs bs) : UniqueAll words cs bs := by
  match h with
  | .nil => exact uniqueAll_nil
  | .cons h hs => exact Unique.cons h (Derives.unique h) (DerivesAll.unique hs)

end

end Derivations

end Luaw.LuaPack
