import Luaw.LuaPack.Traversal

/-!
# Is a write all or nothing?

An error in the middle of `serialize` leaves the tokens that were queued before it behind, and
so does a final flush that runs out of room. `Encodes` says, without regard to the writer, what
the encodings of a value are; the bytes that a whole traversal queues are one of them exactly
for the values in `Encodable`.
-/

namespace Luaw.LuaPack

open Lua BigEndian Program

section Encodings

/-- The payload of a number under a numeric marker: an integer stands for exactly this number,
a float is rounded to its format. -/
def EncodesNumber (x : Number) (m : Marker) (payload : Bytes) : Prop :=
  match m.numberFormat? with
  | some (.float format width) => payload = toBytes width (BinaryFloat.encode format x)
  | some format => payload.length = format.width ∧ format.decode payload = x
  | none => False

/-- All entries of a table, as `pairs` visits them: the elements under their indices first. -/
def tableEntries (xs : List LuaValue) (hash : List (LuaValue × LuaValue)) :
    List (LuaValue × LuaValue) :=
  (xs.zipIdx 1).map (fun (x, i) => (.int i, x)) ++ hash

mutual

/-- The bytes are a well-formed encoding of the value. A table without other entries than its
elements is an array or a map, every other table is a map, whatever `#` gives for it; functions
have no encoding. -/
inductive Encodes : LuaValue → Bytes → Prop
  | nil : Encodes .nil [UInt8.ofNat Marker.nil.tag]
  | true : Encodes (.bool true) [UInt8.ofNat Marker.boolTrue.tag]
  | false : Encodes (.bool false) [UInt8.ofNat Marker.boolFalse.tag]
  | num {x : Number} {m : Marker} {payload : Bytes} (hm : m ∈ Marker.intRanges)
      (h : EncodesNumber x m payload) : Encodes (.num x) (UInt8.ofNat m.tag :: payload)
  | str {s : Bytes} {m : Marker} (hm : m ∈ Marker.stringRanges) (h : s.length < 256 ^ m.size) :
      Encodes (.str s) (UInt8.ofNat m.tag :: (toBytes m.size s.length ++ s))
  | array {xs : List LuaValue} {bs : Bytes} (h : EncodesAll xs bs) :
      Encodes (.table xs [])
        (UInt8.ofNat Marker.arrayStart.tag :: (bs ++ [UInt8.ofNat Marker.recordEnd.tag]))
  | map {xs : List LuaValue} {hash : List (LuaValue × LuaValue)} {bs : Bytes}
      (h : EncodesPairs (tableEntries xs hash) bs) :
      Encodes (.table xs hash)
        (UInt8.ofNat Marker.mapStart.tag :: (bs ++ [UInt8.ofNat Marker.recordEnd.tag]))
  | sparse {n : Nat} {hash : List (LuaValue × LuaValue)} {bs : Bytes} (h : EncodesPairs hash bs) :
      Encodes (.sparse n hash)
        (UInt8.ofNat Marker.mapStart.tag :: (bs ++ [UInt8.ofNat Marker.recordEnd.tag]))

inductive EncodesAll : List LuaValue → Bytes → Prop
  | nil : EncodesAll [] []
  | cons {x : LuaValue} {xs : List LuaValue} {bs cs : Bytes} (h : Encodes x bs)
      (hs : EncodesAll xs cs) : EncodesAll (x :: xs) (bs ++ cs)

inductive EncodesPairs : List (LuaValue × LuaValue) → Bytes → Prop
  | nil : EncodesPairs [] []
  | cons {k v : LuaValue} {entries : List (LuaValue × LuaValue)} {bs cs ds : Bytes}
      (hk : Encodes k bs) (hv : Encodes v cs) (hs : EncodesPairs entries ds) :
      EncodesPairs ((k, v) :: entries) (bs ++ cs ++ ds)

end

end Encodings

section Unique

open Traversal

mutual

/-- The values that `serialize` writes whole: at any depth no function, no table with both
elements and other entries or with a length but no first element, and every number and string has
a marker whose bytes stand for it. -/
def Encodable : LuaValue → Prop
  | .nil | .bool _ => True
  | .num x => ∃ m, numberMarker x = .ok m ∧ EncodesNumber x m (Token.numberBytes m x)
  | .str s => ∃ m, stringMarker s = .ok m
  | .table xs hash => (xs = [] ∨ hash = []) ∧ EncodableAll xs ∧ EncodablePairs hash
  | .sparse _ _ | .other _ => False

def EncodableAll : List LuaValue → Prop
  | [] => True
  | x :: xs => Encodable x ∧ EncodableAll xs

def EncodablePairs : List (LuaValue × LuaValue) → Prop
  | [] => True
  | (k, v) :: entries => Encodable k ∧ Encodable v ∧ EncodablePairs entries

end

theorem EncodesNumber.length {x : Number} {m : Marker} {payload : Bytes}
    (h : EncodesNumber x m payload) : ∃ format, m.numberFormat? = some format ∧
      payload.length = format.width := by
  rw [EncodesNumber] at h
  split at h
  · next format width hformat => exact ⟨_, hformat, by rw [h, length_toBytes]; rfl⟩
  · next format hformat => exact ⟨_, hformat, h.1⟩
  · exact h.elim

theorem stringBytes_eq {m : Marker} (hm : m ∈ Marker.stringRanges) (s : Bytes) :
    Token.stringBytes m s = toBytes m.size s.length ++ s := by
  simp only [Marker.stringRanges, List.mem_cons, List.not_mem_nil, or_false] at hm
  obtain rfl | rfl | rfl := hm <;> rfl

/-- Of an encoding and the bytes that a traversal queued, each with something behind it, neither
goes on after the other has ended, and the value is one that is written whole. -/
def Agrees (tr : Traversal) (encodable : Prop) (bs : Bytes) : Prop :=
  tr.completes = true → ∀ r r', bs ++ r = bytesOf tr.queued ++ r' →
    encodable ∧ bs = bytesOf tr.queued

theorem agrees_mark (m : Marker) (h : m.isPlain = true) :
    Agrees (mark m h) True [UInt8.ofNat m.tag] :=
  fun _ _ _ _ => ⟨trivial, rfl⟩

theorem Agrees.bind {a b : Traversal} {p q : Prop} {bs cs : Bytes} (ha : Agrees a p bs)
    (hb : Agrees b q cs) : Agrees (a.andThen b) (p ∧ q) (bs ++ cs) := by
  intro hcompletes r r' heq
  by_cases hac : a.completes = true
  · have hand : a.andThen b = ⟨a.queued ++ b.queued, b.completes⟩ := by
      simp [Traversal.andThen, hac]
    rw [hand] at hcompletes heq ⊢
    simp only [bytesOf_append, List.append_assoc] at heq ⊢
    obtain ⟨hp, rfl⟩ := ha hac _ _ heq
    obtain ⟨hq, rfl⟩ := hb hcompletes _ _ (List.append_cancel_left heq)
    exact ⟨⟨hp, hq⟩, rfl⟩
  · have hand : a.andThen b = a := by simp [Traversal.andThen, hac]
    rw [hand] at hcompletes
    exact absurd hcompletes hac

/-- The bytes of a container, whose first byte says which of the two it is. -/
theorem Agrees.container {m : Marker} {hm : m.isPlain = true} {tr : Traversal} {p : Prop}
    {bs : Bytes} (h : Agrees tr p bs) :
    Agrees ((mark m hm).andThen (tr.andThen (mark .recordEnd rfl))) p
      (UInt8.ofNat m.tag :: (bs ++ [UInt8.ofNat Marker.recordEnd.tag])) := by
  have hall := (agrees_mark m hm).bind (h.bind (agrees_mark .recordEnd rfl))
  intro hcompletes r r' heq
  obtain ⟨⟨-, hp, -⟩, hbytes⟩ := hall hcompletes r r' heq
  exact ⟨hp, hbytes⟩

theorem head_mark_andThen (m : Marker) (hm : m.isPlain = true) (tr : Traversal) :
    ∃ ts, ((mark m hm).andThen tr).queued = .plain m hm :: ts := ⟨_, rfl⟩

/-- A container is not read as one of the other kind. -/
theorem agrees_otherKind {m m' : Marker} (hne : m ≠ m') {hm : m'.isPlain = true} {tr : Traversal}
    {p : Prop} {bs : Bytes} :
    Agrees ((mark m' hm).andThen tr) p (UInt8.ofNat m.tag :: bs) := by
  intro _ r r' heq
  obtain ⟨ts, hts⟩ := head_mark_andThen m' hm tr
  rw [hts, bytesOf_cons, List.cons_append, List.cons_append, List.cons.injEq] at heq
  exact absurd (tag_injective heq.1) hne

theorem agrees_num {x : Number} {m : Marker} {payload : Bytes}
    (h : EncodesNumber x m payload) :
    Agrees (traverse (.num x)) (Encodable (.num x)) (UInt8.ofNat m.tag :: payload) := by
  intro hcompletes r r' heq
  cases hmarker : numberMarker x with
  | error e =>
    have hnone : tokens (.num x) = none := by
      rw [tokens]
      split
      · next m' hm' => cases hmarker.symm.trans hm'
      · rfl
    rw [traverse, hnone] at hcompletes
    cases hcompletes
  | ok m' =>
    have hqueued : bytesOf (traverse (.num x)).queued =
        UInt8.ofNat m'.tag :: Token.numberBytes m' x := by
      rw [traverse, tokens_num hmarker]
      exact bytesOf_number hmarker
    rw [hqueued, List.cons_append, List.cons_append, List.cons.injEq] at heq
    obtain rfl := tag_injective heq.1
    obtain ⟨format, hformat, hlen⟩ := h.length
    obtain ⟨format', hformat', -, hlen'⟩ := numberFormat?_number hmarker
    obtain rfl := Option.some.inj (hformat.symm.trans hformat')
    obtain ⟨hpayload, -⟩ := List.append_inj heq.2 (hlen.trans hlen'.symm)
    rw [hqueued, hpayload]
    exact ⟨⟨m, hmarker, hpayload ▸ h⟩, rfl⟩

theorem agrees_str (s : Bytes) (m : Marker) :
    Agrees (traverse (.str s)) (Encodable (.str s))
      (UInt8.ofNat m.tag :: (toBytes m.size s.length ++ s)) := by
  intro hcompletes r r' heq
  cases hmarker : stringMarker s with
  | error e =>
    have hnone : tokens (.str s) = none := by
      rw [tokens]
      split
      · next m' hm' => cases hmarker.symm.trans hm'
      · rfl
    rw [traverse, hnone] at hcompletes
    cases hcompletes
  | ok m' =>
    have hqueued : bytesOf (traverse (.str s)).queued =
        UInt8.ofNat m'.tag :: (toBytes m'.size s.length ++ s) := by
      rw [traverse, tokens_str hmarker, ← stringBytes_eq (stringMarker_mem hmarker)]
      exact bytesOf_string hmarker
    rw [hqueued, List.cons_append, List.cons_append, List.cons.injEq] at heq
    obtain rfl := tag_injective heq.1
    rw [hqueued]
    exact ⟨⟨m, hmarker⟩, rfl⟩

mutual

/-- An encoding of a value whose traversal comes to its end can only be what was queued. -/
theorem Encodes.agrees {v : LuaValue} {bs : Bytes} (h : Encodes v bs) :
    Agrees (traverse v) (Encodable v) bs := by
  cases h with
  | nil => exact agrees_mark .nil rfl
  | true => exact agrees_mark .boolTrue rfl
  | false => exact agrees_mark .boolFalse rfl
  | num hm h => exact agrees_num h
  | @str s m hm h => exact agrees_str s m
  | @array xs bs h =>
    cases xs with
    | nil =>
      rw [traverse]
      exact @agrees_otherKind .arrayStart .mapStart nofun _ _ _ _
    | cons x xs =>
      rw [traverse_array]
      intro hcompletes r r' heq
      obtain ⟨hgood, hbytes⟩ := h.agrees.container hcompletes r r' heq
      exact ⟨⟨.inr rfl, hgood, trivial⟩, hbytes⟩
  | @map xs hash bs h =>
    cases xs with
    | nil =>
      have hpairs : EncodesPairs hash bs := h
      intro hcompletes r r' heq
      obtain ⟨hgood, hbytes⟩ := hpairs.agrees.container hcompletes r r' heq
      exact ⟨⟨.inl rfl, trivial, hgood⟩, hbytes⟩
    | cons x xs =>
      rw [traverse_array]
      exact @agrees_otherKind .mapStart .arrayStart nofun _ _ _ _
  | sparse _ =>
    rw [traverse]
    exact @agrees_otherKind .mapStart .arrayStart nofun _ _ _ _

theorem EncodesAll.agrees {xs : List LuaValue} {bs : Bytes} (h : EncodesAll xs bs) :
    Agrees (traverseAll xs) (EncodableAll xs) bs := by
  cases h with
  | nil => exact fun _ _ _ _ => ⟨trivial, rfl⟩
  | cons h hs => exact h.agrees.bind hs.agrees

theorem EncodesPairs.agrees {entries : List (LuaValue × LuaValue)} {bs : Bytes}
    (h : EncodesPairs entries bs) : Agrees (traversePairs entries) (EncodablePairs entries) bs := by
  cases h with
  | nil => exact fun _ _ _ _ => ⟨trivial, rfl⟩
  | cons hk hv hs =>
    rw [List.append_assoc]
    exact hk.agrees.bind (hv.agrees.bind hs.agrees)

end

/-- The traversal comes to its end with these bytes in the queue. -/
def QueuesBytes (tr : Traversal) (bs : Bytes) : Prop :=
  tr.completes = true ∧ bytesOf tr.queued = bs

theorem QueuesBytes.bind {a b : Traversal} {bs cs : Bytes} (ha : QueuesBytes a bs)
    (hb : QueuesBytes b cs) : QueuesBytes (a.andThen b) (bs ++ cs) := by
  obtain ⟨hac, rfl⟩ := ha
  obtain ⟨hbc, rfl⟩ := hb
  simp [QueuesBytes, Traversal.andThen, hac, hbc]

theorem QueuesBytes.container {m : Marker} {hm : m.isPlain = true} {tr : Traversal} {bs : Bytes}
    (h : QueuesBytes tr bs) :
    QueuesBytes ((mark m hm).andThen (tr.andThen (mark .recordEnd rfl)))
      (UInt8.ofNat m.tag :: (bs ++ [UInt8.ofNat Marker.recordEnd.tag])) := by
  have hm' : QueuesBytes (mark m hm) [UInt8.ofNat m.tag] := ⟨rfl, rfl⟩
  have hend : QueuesBytes (mark .recordEnd rfl) [UInt8.ofNat Marker.recordEnd.tag] := ⟨rfl, rfl⟩
  exact hm'.bind (h.bind hend)

mutual

/-- What is queued for a value that is written whole is an encoding of it. -/
theorem Encodable.encodes {v : LuaValue} (h : Encodable v) :
    ∃ bs, Encodes v bs ∧ QueuesBytes (traverse v) bs := by
  match v, h with
  | .nil, _ => exact ⟨_, .nil, rfl, rfl⟩
  | .bool true, _ => exact ⟨_, .true, rfl, rfl⟩
  | .bool false, _ => exact ⟨_, .false, rfl, rfl⟩
  | .num x, ⟨m, hm, hbytes⟩ =>
    refine ⟨_, .num (numberMarker_mem hm) hbytes, ?_⟩
    rw [traverse, tokens_num hm]
    exact ⟨rfl, bytesOf_number hm⟩
  | .str s, ⟨m, hm⟩ =>
    refine ⟨_, .str (stringMarker_mem hm) (stringMarker_length hm), ?_⟩
    rw [traverse, tokens_str hm, ← stringBytes_eq (stringMarker_mem hm)]
    exact ⟨rfl, bytesOf_string hm⟩
  | .table [] hash, ⟨_, _, hpairs⟩ =>
    obtain ⟨bs, henc, hqueues⟩ := EncodablePairs.encodes hpairs
    exact ⟨_, .map henc, hqueues.container⟩
  | .table (x :: xs) hash, ⟨hone, hall, _⟩ =>
    obtain rfl : hash = [] := hone.resolve_left nofun
    obtain ⟨bs, henc, hqueues⟩ := EncodableAll.encodes hall
    rw [traverse_array]
    exact ⟨_, .array henc, hqueues.container⟩

theorem EncodableAll.encodes {xs : List LuaValue} (h : EncodableAll xs) :
    ∃ bs, EncodesAll xs bs ∧ QueuesBytes (traverseAll xs) bs := by
  match xs, h with
  | [], _ => exact ⟨_, .nil, rfl, rfl⟩
  | x :: xs, ⟨hx, hxs⟩ =>
    obtain ⟨bs, henc, hqueues⟩ := Encodable.encodes hx
    obtain ⟨cs, hencs, hqueues'⟩ := EncodableAll.encodes hxs
    exact ⟨_, .cons henc hencs, hqueues.bind hqueues'⟩

theorem EncodablePairs.encodes {entries : List (LuaValue × LuaValue)} (h : EncodablePairs entries) :
    ∃ bs, EncodesPairs entries bs ∧ QueuesBytes (traversePairs entries) bs := by
  match entries, h with
  | [], _ => exact ⟨_, .nil, rfl, rfl⟩
  | (k, v) :: entries, ⟨hk, hv, hrest⟩ =>
    obtain ⟨bs, henck, hqueuesk⟩ := Encodable.encodes hk
    obtain ⟨cs, hencv, hqueuesv⟩ := Encodable.encodes hv
    obtain ⟨ds, hencs, hqueues⟩ := EncodablePairs.encodes hrest
    refine ⟨_, .cons henck hencv hencs, ?_⟩
    rw [List.append_assoc]
    exact hqueuesk.bind (hqueuesv.bind hqueues)

end

/-- The values that are refused before anything is queued. -/
def RefusedAtOnce : LuaValue → Prop
  | .num x => ∃ e, numberMarker x = .error e
  | .str s => ∃ e, stringMarker s = .error e
  | .other _ => True
  | _ => False

/-- Nothing is queued for the refused values only, and for the others the last token is one that
`flush_room` allows. -/
theorem traverse_last (v : LuaValue) :
    (RefusedAtOnce v ∧ (traverse v).queued = []) ∨
      (¬RefusedAtOnce v ∧ (traverse v).queued ≠ [] ∧ ((traverse v).completes = true →
        ∃ ts t, (traverse v).queued = ts ++ [t] ∧ (t.marker = .uint32 → ts = []))) := by
  have hcontainer : ∀ (m : Marker) (hm : m.isPlain = true) (tr : Traversal),
      ((mark m hm).andThen (tr.andThen (mark .recordEnd rfl))).completes = true →
      ∃ ts t, ((mark m hm).andThen (tr.andThen (mark .recordEnd rfl))).queued = ts ++ [t] ∧
        (t.marker = .uint32 → ts = []) := by
    intro m hm tr hcompletes
    by_cases htr : tr.completes = true
    · refine ⟨.plain m hm :: tr.queued, .plain .recordEnd rfl, ?_, by rintro ⟨⟩⟩
      simp [Traversal.andThen, mark, htr]
    · simp [Traversal.andThen, mark, htr] at hcompletes
  cases v with
  | nil => exact .inr ⟨not_false, List.cons_ne_nil _ _, fun _ => ⟨[], _, rfl, fun _ => rfl⟩⟩
  | bool b =>
    cases b <;>
      exact .inr ⟨not_false, List.cons_ne_nil _ _, fun _ => ⟨[], _, rfl, fun _ => rfl⟩⟩
  | num x =>
    rw [traverse, tokens]
    split
    · next m hm =>
      refine .inr ⟨?_, List.cons_ne_nil _ _, fun _ => ⟨[], _, rfl, fun _ => rfl⟩⟩
      rintro ⟨e, he⟩
      cases hm.symm.trans he
    · next e he => exact .inl ⟨⟨e, he⟩, rfl⟩
  | str s =>
    rw [traverse, tokens]
    split
    · next m hm =>
      refine .inr ⟨?_, List.cons_ne_nil _ _, fun _ => ⟨[], _, rfl, fun _ => rfl⟩⟩
      rintro ⟨e, he⟩
      cases hm.symm.trans he
    · next e he => exact .inl ⟨⟨e, he⟩, rfl⟩
  | table array hash =>
    cases array with
    | nil => exact .inr ⟨not_false, List.cons_ne_nil _ _, hcontainer .mapStart rfl _⟩
    | cons x xs =>
      rw [traverse_array]
      exact .inr ⟨not_false, List.cons_ne_nil _ _, hcontainer .arrayStart rfl _⟩
  | sparse _ _ =>
    exact .inr ⟨not_false, List.cons_ne_nil _ _, fun _ => ⟨[_], _, rfl, by rintro ⟨⟩⟩⟩
  | other _ => exact .inl ⟨trivial, rfl⟩

/-- An integer that is a double is stored as another number only if it is `2 ^ 63`, which the
range of `INT_64` takes in as the double nearest to `INT64_MAX`. -/
theorem encodable_int {n : Int} (hdouble : BinaryFloat.ofInt BinaryFloat.double n = .finite n) :
    Encodable (.num (.finite n)) ↔ (∃ m, numberMarker (.finite n) = .ok m) ∧ n ≠ 2 ^ 63 := by
  constructor
  · rintro ⟨m, hm, hbytes⟩
    refine ⟨⟨m, hm⟩, ?_⟩
    rintro rfl
    have hmarker : numberMarker (.finite ((2 ^ 63 : Int) : ℚ)) = .ok .int64 := by decide +kernel
    cases hm.symm.trans hmarker
    have hvalue : (NumberFormat.signed 8).decode
        (Token.numberBytes .int64 (.finite ((2 ^ 63 : Int) : ℚ))) ≠
          .finite ((2 ^ 63 : Int) : ℚ) := by decide +kernel
    exact hvalue hbytes.2
  · rintro ⟨⟨m, hm⟩, hne⟩
    refine ⟨m, hm, ?_⟩
    obtain ⟨format, hformat, -, hlen⟩ := numberFormat?_number hm
    have hsplit : m ∈ Marker.integers ∨ m = .float ∨ m = .double := by
      have hall : ∀ m ∈ Marker.intRanges, m ∈ Marker.integers ∨ m = .float ∨ m = .double := by
        decide
      exact hall m (numberMarker_mem hm)
    obtain hmem | rfl | rfl := hsplit
    · have hcovers := (findMinRange_ok hm).2
      have hbound : -2 ^ 63 ≤ n ∧ n < 2 ^ 63 := by
        have hranges : ∀ m ∈ Marker.integers,
            ((-2 ^ 63 : Int) : ℚ) ≤ m.range.1 ∧ m.range.2 ≤ ((2 ^ 63 : Int) : ℚ) := by
          decide +kernel
        obtain ⟨hlow, hhigh⟩ := hranges m hmem
        simp only [Marker.covers, Bool.and_eq_true, decide_eq_true_eq] at hcovers
        have hl : -2 ^ 63 ≤ n := by exact_mod_cast hlow.trans hcovers.1
        have hr : n ≤ 2 ^ 63 := by exact_mod_cast hcovers.2.trans hhigh
        omega
      have hdecoded := decoded_covers hbound.1 hbound.2 hdouble hmem hcovers
      rw [Token.decoded, hformat, Option.map_some, Option.getD_some] at hdecoded
      rw [EncodesNumber, hformat]
      cases format with
      | unsigned w => exact ⟨hlen, hdecoded⟩
      | signed w => exact ⟨hlen, hdecoded⟩
      | float f w =>
        exfalso
        simp only [Marker.integers, List.mem_cons, List.not_mem_nil, or_false] at hmem
        obtain rfl | rfl | rfl | rfl | rfl | rfl | rfl := hmem <;> cases hformat
    · rfl
    · rfl

end Unique

section Writes

/-- The call writes exactly one encoding of the value. -/
def WritesOne (w : Writer) (v : LuaValue) : Prop :=
  ∃ w' bs, exec (write v) w = (.ok (), w') ∧ Encodes v bs ∧
    w'.output.flatten = w.output.flatten ++ bs

/-- The next write has the same outcome and puts out the same as that of a fresh writer. -/
def WritesAsFresh (w : Writer) (x : LuaValue) : Prop :=
  (exec (write x) w).1 = (exec (write x) (newLPackBufferWriter w.flushLimit)).1 ∧
    (exec (write x) w).2.output =
      w.output ++ (exec (write x) (newLPackBufferWriter w.flushLimit)).2.output

/-- The call raises and nothing of the value is left, neither in the output nor in the queue. -/
def LeavesNothing (w : Writer) (v : LuaValue) : Prop :=
  ∃ e w', exec (write v) w = (.error (.raised e), w') ∧ w'.output = w.output ∧
    ∀ x, WritesAsFresh w' x

def AllOrNothing (w : Writer) (v : LuaValue) : Prop := WritesOne w v ∨ LeavesNothing w v

/-- A writer with more strings written before. -/
def Writer.after (strs : List Bytes) (w : Writer) : Writer :=
  { w with output := strs ++ w.output }

theorem commutes_flush (strs : List Bytes) : Commutes (Writer.after strs) flush := by
  intro w
  rw [flush, exec_bind_ok (exec_get _), exec_bind_ok (exec_get _), exec_bind, exec_bind]
  have hqueue : Native.serializeWriteQ (w.after strs).writeQ (w.after strs).writeQsize =
      Native.serializeWriteQ w.writeQ w.writeQsize := rfl
  rw [hqueue]
  cases Native.serializeWriteQ w.writeQ w.writeQsize with
  | ok str => simp [Writer.after]
  | error e => rfl

theorem commutes_qstore (strs : List Bytes) (val : LuaValue) (size : Nat) :
    Commutes (Writer.after strs) (qstore val size) := by
  refine .ite (.raise _) ?_
  exact .bind (.modify fun _ => rfl) fun _ =>
    .get_bind (fun _ => rfl) fun _ => .ite (commutes_flush strs) (.pure _)

theorem commutes_writeMarker (strs : List Bytes) (m : Marker) :
    Commutes (Writer.after strs) (writeMarker m) := commutes_qstore strs _ _

theorem commutes_writeString (strs : List Bytes) (s : Bytes) :
    Commutes (Writer.after strs) (writeString s) := by
  refine .get_bind (fun _ => rfl) fun lpack => ?_
  cases lpack.dictionary.bind (List.lookup s) with
  | some dw =>
    exact .bind (.ofExcept _) fun _ => .bind (commutes_qstore strs _ _) fun _ =>
      commutes_qstore strs _ _
  | none =>
    exact .bind (.ofExcept _) fun _ => .bind (commutes_qstore strs _ _) fun _ =>
      commutes_qstore strs _ _

mutual

theorem commutes_serialize (strs : List Bytes) (v : LuaValue) :
    Commutes (Writer.after strs) (serialize v) := by
  match v with
  | .nil => exact commutes_writeMarker strs .nil
  | .bool true => exact commutes_writeMarker strs .boolTrue
  | .bool false => exact commutes_writeMarker strs .boolFalse
  | .num x =>
    exact .bind (.ofExcept _) fun _ => .bind (commutes_qstore strs _ _) fun _ =>
      commutes_qstore strs _ _
  | .str s => exact commutes_writeString strs s
  | .table [] hash =>
    exact .bind (commutes_writeMarker strs _) fun _ =>
      .bind (commutes_serializePairs strs hash) fun _ => commutes_writeMarker strs _
  | .table (x :: xs) _ =>
    exact .bind (commutes_writeMarker strs _) fun _ => .bind (commutes_serialize strs x) fun _ =>
      .bind (commutes_serializeAll strs xs) fun _ => commutes_writeMarker strs _
  | .sparse _ _ =>
    exact .bind (commutes_writeMarker strs _) fun _ => commutes_writeMarker strs _
  | .other _ => exact .pure _

theorem commutes_serializeAll (strs : List Bytes) (xs : List LuaValue) :
    Commutes (Writer.after strs) (serializeAll xs) := by
  match xs with
  | [] => exact .pure _
  | x :: xs =>
    exact .bind (commutes_serialize strs x) fun _ => commutes_serializeAll strs xs

theorem commutes_serializePairs (strs : List Bytes) (entries : List (LuaValue × LuaValue)) :
    Commutes (Writer.after strs) (serializePairs entries) := by
  match entries with
  | [] => exact .pure _
  | (k, v) :: entries =>
    exact .bind (commutes_serialize strs k) fun _ => .bind (commutes_serialize strs v) fun _ =>
      commutes_serializePairs strs entries

end

/-- A writer between two writes: it has no dictionary and an empty queue. -/
structure Writer.Clean (w : Writer) : Prop where
  dictionary : w.dictionary = none
  queued : Queued w []

theorem Writer.Clean.writesAsFresh {w : Writer} (h : w.Clean) (x : LuaValue) :
    WritesAsFresh w x := by
  have hfresh : w = (newLPackBufferWriter w.flushLimit).after w.output := by
    obtain ⟨hdict, hqueue, hsize⟩ := h
    cases w
    simp_all [Writer.after, newLPackBufferWriter, entriesOf, queueSize]
  have hwrite : Commutes (Writer.after w.output) (write x) :=
    .bind (commutes_serialize _ x) fun _ => commutes_flush _
  have hrun := hwrite (newLPackBufferWriter w.flushLimit)
  rw [← hfresh] at hrun
  rw [WritesAsFresh, hrun]
  exact ⟨rfl, rfl⟩

/-- A writer with tokens left in its queue does not write nil as a fresh one does. -/
theorem not_writesAsFresh_nil {w : Writer} {q : List Token} (hw : w.dictionary = none)
    (hq : Queued w q) (hne : q ≠ []) (hlimit : 1 < w.flushLimit) : ¬WritesAsFresh w .nil := by
  rintro ⟨hresult, houtput⟩
  have hnil : tokens .nil = some [.plain .nil rfl] := rfl
  have hfresh := @exec_write_unlimited .nil _ hnil (newLPackBufferWriter w.flushLimit) rfl
    ⟨rfl, rfl⟩ nofun (by decide) hlimit
  rw [hfresh] at hresult houtput
  rw [exec_write hnil hw] at hresult houtput
  obtain ⟨-, hok⟩ | ⟨-, e, w', herror⟩ := writeTokens_cases [.plain .nil rfl] hq
  · rw [hok] at houtput
    have hbytes := congrArg List.flatten
      (List.append_cancel_left (show w.output ++ _ = w.output ++ _ from houtput))
    rw [flatten_map_bytesOf, flatten_flushes, bytesOf_append] at hbytes
    -- what was left comes out in front of the nil
    have hleft : bytesOf q ++ [UInt8.ofNat Marker.nil.tag] = [] ++ [UInt8.ofNat Marker.nil.tag] :=
      hbytes
    have hcounted := queueSize_le q
    rw [List.append_cancel_right hleft] at hcounted
    exact hne (queueSize_eq_zero.mp (Nat.le_zero.mp hcounted))
  · rw [herror] at hresult
    cases hresult

theorem Writer.Clean.pushAll {w : Writer} (h : w.Clean) (ts : List Token) :
    Queued (w.pushAll ts) ts := by
  refine ⟨?_, ?_⟩
  · show w.writeQ ++ entriesOf ts = _
    rw [h.queued.queue]
    rfl
  · show w.writeQsize + queueSize ts = _
    rw [h.queued.size]
    exact Nat.zero_add _

/-- The three ways in which a write below the flush limit ends: it refuses the value at once, it
puts out what was queued, or it raises with that still in the queue. -/
theorem exec_write_below {w : Writer} (hw : w.Clean) {v : LuaValue}
    (hlimit : queueSize (traverse v).queued < w.flushLimit) :
    (RefusedAtOnce v ∧ ∃ e, exec (write v) w = (.error (.raised e), w)) ∨
    (¬RefusedAtOnce v ∧ (traverse v).completes = true ∧
      EnoughRoom (queueSize (traverse v).queued) (bytesOf (traverse v).queued) ∧
      exec (write v) w = (.ok (), w.flushed [bytesOf (traverse v).queued])) ∨
    (¬RefusedAtOnce v ∧ (traverse v).queued ≠ [] ∧ ((traverse v).completes = true →
        ¬EnoughRoom (queueSize (traverse v).queued) (bytesOf (traverse v).queued)) ∧
      ∃ e, exec (write v) w = (.error (.raised e), w.pushAll (traverse v).queued)) := by
  have hzero : w.writeQsize = 0 := hw.queued.size
  have hqueued := hw.pushAll (traverse v).queued
  have hrun := queues_serialize v w hw.dictionary (by omega)
  obtain ⟨hrefused, hempty⟩ | ⟨hnot, hne, hlast⟩ := traverse_last v
  · refine .inl ⟨hrefused, ?_⟩
    rw [hempty, w.pushAll_nil] at hrun
    obtain ⟨-, hok⟩ | ⟨-, e, herror⟩ := hrun
    · -- nothing was queued, and the final flush raises
      obtain ⟨hnil, -⟩ | ⟨-, e, herror⟩ := flush_cases hw.queued
      · exact absurd rfl hnil
      · exact ⟨e, by rw [write, exec_bind_ok hok, herror]⟩
    · exact ⟨e, exec_bind_error herror⟩
  · obtain ⟨hcompletes, hok⟩ | ⟨hfalse, e, herror⟩ := hrun
    · obtain ⟨ts, t, hsplit, huint⟩ := hlast hcompletes
      rw [write, exec_bind_ok hok]
      rw [hsplit] at hqueued hne ⊢
      obtain ⟨hroom, hflush⟩ | ⟨hroom, e, herror⟩ := flush_room hqueued huint
      · refine .inr (.inl ⟨hnot, hcompletes, hroom, ?_⟩)
        have hflushed : (w.pushAll (ts ++ [t])).flushed [bytesOf (ts ++ [t])] =
            w.flushed [bytesOf (ts ++ [t])] := rfl
        rw [hflush, hflushed]
      · exact .inr (.inr ⟨hnot, hne, fun _ => hroom, e, herror⟩)
    · refine .inr (.inr ⟨hnot, hne, fun htrue => ?_, e, exec_bind_error herror⟩)
      cases hfalse.symm.trans htrue

/-- A write that raises with tokens still in the queue is neither all nor nothing. -/
theorem not_allOrNothing {w : Writer} (hw : w.Clean) {v : LuaValue} {ts : List Token}
    (hne : ts ≠ []) (hlimit : queueSize ts < w.flushLimit) {e : LuaError}
    (herror : exec (write v) w = (.error (.raised e), w.pushAll ts)) : ¬AllOrNothing w v := by
  have hpos : queueSize ts ≠ 0 := fun h0 => hne (queueSize_eq_zero.mp h0)
  have hleft := @not_writesAsFresh_nil (w.pushAll ts) ts hw.dictionary (hw.pushAll ts) hne
    (show 1 < w.flushLimit by omega)
  rintro (⟨w', bs, hok, -⟩ | ⟨e', w', herror', -, hfresh⟩)
  · cases herror.symm.trans hok
  · cases herror.symm.trans herror'
    exact hleft (hfresh .nil)

/-- Exactly when a write is all or nothing, below the flush limit: the value is refused at once,
or it is written whole and the final flush has room for it. -/
theorem allOrNothing_iff {w : Writer} (hw : w.Clean) {v : LuaValue}
    (hlimit : queueSize (traverse v).queued < w.flushLimit) :
    AllOrNothing w v ↔ RefusedAtOnce v ∨ (Encodable v ∧
      EnoughRoom (queueSize (traverse v).queued) (bytesOf (traverse v).queued)) := by
  obtain ⟨hrefused, e, herror⟩ | ⟨hnot, hcompletes, hroom, hok⟩ | ⟨hnot, hne, hroom, e, herror⟩ :=
    exec_write_below hw hlimit
  · exact iff_of_true (.inr ⟨e, w, herror, rfl, hw.writesAsFresh⟩) (.inl hrefused)
  · constructor
    · rintro (⟨w', bs, hok', hencodes, hbytes⟩ | ⟨e, w', herror, -⟩)
      · cases hok.symm.trans hok'
        have hsame : bs ++ [] = bytesOf (traverse v).queued ++ [] := by
          simpa [Writer.flushed] using hbytes.symm
        exact .inr ⟨(hencodes.agrees hcompletes [] [] hsame).1, hroom⟩
      · cases hok.symm.trans herror
    · rintro (hrefused | ⟨hencodable, -⟩)
      · exact absurd hrefused hnot
      · obtain ⟨bs, hencodes, -, rfl⟩ := hencodable.encodes
        exact .inl ⟨_, _, hok, hencodes, by simp [Writer.flushed]⟩
  · refine iff_of_false (not_allOrNothing hw hne hlimit herror) ?_
    · rintro (hrefused | ⟨hencodable, henough⟩)
      · exact hnot hrefused
      · obtain ⟨bs, -, hcompletes, -⟩ := hencodable.encodes
        exact hroom hcompletes henough

theorem clean_newLPackBufferWriter (limit : Nat) : (newLPackBufferWriter limit).Clean :=
  ⟨rfl, rfl, rfl⟩

/-- After a write that was all or nothing the writer is ready for the next one. -/
theorem AllOrNothing.clean {w : Writer} (hw : w.Clean) {v : LuaValue}
    (hlimit : queueSize (traverse v).queued < w.flushLimit) (h : AllOrNothing w v) :
    (exec (write v) w).2.Clean := by
  obtain ⟨-, e, herror⟩ | ⟨-, -, -, hok⟩ | ⟨-, hne, -, e, herror⟩ := exec_write_below hw hlimit
  · rw [herror]
    exact hw
  · rw [hok]
    exact ⟨hw.dictionary, Queued.flushed w _⟩
  · exact absurd h (not_allOrNothing hw hne hlimit herror)

/-- The table `{nil, 2}`, for which `#` gives 2, is written as an empty array. -/
example : (exec (write (.sparse 0 [(.int 2, .int 2)])) (newLPackBufferWriter 100)).2.output =
    [[2, 4]] := by decide +kernel

/-- An array with a number and a string. -/
theorem allOrNothing_pair :
    AllOrNothing (newLPackBufferWriter 100) (.table [.int 7, .str [104]] []) ↔
      RefusedAtOnce (.table [.int 7, .str [104]] []) ∨
      (Encodable (.table [.int 7, .str [104]] []) ∧
        EnoughRoom (queueSize (traverse (.table [.int 7, .str [104]] [])).queued)
          (bytesOf (traverse (.table [.int 7, .str [104]] [])).queued)) :=
  allOrNothing_iff (clean_newLPackBufferWriter 100) (by decide +kernel)

/-- An array with an infinite number: its start stays in the queue and comes out in front of the
next value. -/
theorem array_start_left_behind :
    ¬AllOrNothing (newLPackBufferWriter 100) (.table [.num (.infinite false)] []) ∧
      (exec (do
        let _ ← pcall (write (.table [.num (.infinite false)] []))
        write (.bool true)) (newLPackBufferWriter 100)).2.output = [[2, 6]] := by
  refine ⟨?_, by decide +kernel⟩
  have hclean := clean_newLPackBufferWriter 100
  have hcut : (traverse (.table [.num (.infinite false)] [])).completes = false := by
    decide +kernel
  have hlimit : queueSize (traverse (.table [.num (.infinite false)] [])).queued < 100 := by
    decide +kernel
  obtain ⟨hrefused, -⟩ | ⟨-, hcompletes, -⟩ | ⟨-, hne, -, e, herror⟩ :=
    exec_write_below hclean hlimit
  · exact hrefused.elim
  · cases hcut.symm.trans hcompletes
  · exact not_allOrNothing hclean hne hlimit herror

end Writes

end Luaw.LuaPack
