import Luaw.LuaPack.AllOrNothing
import Luaw.LuaPack.WriterScripts

/-!
# Is the serialisation buffer large enough?

`serialize_write_Q` allocates 64 bytes more than the writer has counted. The writer counts the
marker and the payload of an entry, but not the length that is stored before the bytes of a
string, so that the slack is used up by the strings of the queue.
-/

namespace Luaw.LuaPack

open Lua BigEndian Program

namespace Native

/-- The error of `CHECK_ROOM`. -/
def runOut : LuaError :=
  text "Run out of buffer in serialize_write_Q, wrong expected size supplied"

/-- The size of the buffer, a C `int`. -/
def bufferSize (len : Nat) : Int := ((len + 64 : Nat) : Int).bmod (2 ^ 32)

/-- What follows in the queue after an entry that is taken for a marker. -/
def payloadAfter (entry : LuaValue) : Option Payload :=
  match fetchNextAsInteger (some entry) "marker" with
  | .ok marker => if 0 ≤ marker then (Marker.ofTag? marker.toNat).bind payload? else none
  | .error _ => none

/-- The contents of the buffer after each store of the loop of `serialize_write_Q`; a store ends
where they end. The length of a string and its bytes are one store here. -/
def stages (buffsize : Nat) : List LuaValue → Bytes → List Bytes
  | [], _ => []
  | entry :: rest, buff =>
    match fetchNextAsInteger (some entry) "marker", checkRoom buff.length 1 buffsize with
    | .ok marker, .ok _ =>
      (buff ++ encodeInt 1 marker) ::
        match payloadAfter entry, rest with
        | none, _ => []
        | some .none, rest => stages buffsize rest (buff ++ encodeInt 1 marker)
        | some _, [] => []
        | some payload, value :: rest =>
          match storePayload buffsize payload (some value) (buff ++ encodeInt 1 marker) with
          | .ok buff => buff :: stages buffsize rest buff
          | .error _ => []
    | _, _ => []

/-- The contents of the buffer after each store of `serialize_write_Q`. -/
def writeQStages (writeQ : List LuaValue) (len : Nat) : List Bytes :=
  if len = 0 ∨ bufferSize len < 0 then [] else stages (bufferSize len).toNat writeQ []

/-- The bytes in which the length of a string is stored. -/
def Payload.lengthPrefix : Payload → Nat
  | .string width _ => width
  | _ => 0

end Native

/-- The bytes taken by the lengths of the strings in the queue, if it consists of markers with
their payloads. -/
def lengthPrefixes : List LuaValue → Option Nat
  | [] => some 0
  | entry :: rest =>
    match Native.payloadAfter entry, rest with
    | none, _ => none
    | some .none, rest => lengthPrefixes rest
    | some _, [] => none
    | some payload, _ :: rest => (lengthPrefixes rest).map fun n => payload.lengthPrefix + n

/-- A flush in this state emits no more bytes than were counted and 64, stores nothing outside
the buffer and does not run out of it. -/
structure InBounds (u : Writer) : Prop where
  emitted : ∀ bytes, Native.serializeWriteQ u.writeQ u.writeQsize = .ok bytes →
    bytes.length ≤ u.writeQsize + 64
  stored : ∀ buff ∈ Native.writeQStages u.writeQ u.writeQsize,
    (buff.length : Int) ≤ Native.bufferSize u.writeQsize
  room : Native.serializeWriteQ u.writeQ u.writeQsize ≠ .error Native.runOut

/-- The lengths of the strings in the queue take at most 64 bytes, and the size of the buffer
fits a C `int`; or `malloc` refuses the buffer. -/
def SlackSuffices (u : Writer) : Prop :=
  Native.bufferSize u.writeQsize < 0 ∨
    u.writeQsize + 64 < 2 ^ 31 ∧ ∃ n ≤ 64, lengthPrefixes u.writeQ = some n

section Items

namespace Item

def payloadBytes : Item → Bytes
  | token t => t.payloadBytes
  | word m dw _ => Token.numberBytes m (.finite dw)

/-- What `serialize_write_Q` makes of the item. -/
def bytes (i : Item) : Bytes := UInt8.ofNat i.marker.tag :: i.payloadBytes

/-- The item as it stands in the queue. -/
def queued (i : Item) : List LuaValue := i.entries.map Prod.fst

/-- What the writer counts for the item. -/
def size (i : Item) : Nat := (i.entries.map Prod.snd).sum

/-- The bytes in which the length of the payload is stored. -/
def lengthPrefix : Item → Nat
  | token (.string m _ _) => m.size
  | _ => 0

end Item

theorem dictEntryMarker_mem {dw : Nat} {m : Marker}
    (h : findMinRange (.finite dw) Marker.dictEntryRanges = .ok m) :
    m = .dictEntry ∨ m = .bigDictEntry := by
  simpa [Marker.dictEntryRanges] using (findMinRange_ok h).1

theorem Token.length_numberBytes {m : Marker} {x : Number} (h : numberMarker x = .ok m) :
    (numberBytes m x).length = m.size := by
  obtain ⟨format, hformat, -, hlen⟩ := numberFormat?_number h
  rw [hlen, numberFormat?_size (numberMarker_mem h) hformat]

theorem Token.length_stringBytes {m : Marker} {s : Bytes} (h : stringMarker s = .ok m) :
    (stringBytes m s).length = m.size + s.length := by
  rw [stringBytes_eq (stringMarker_mem h), List.length_append, length_toBytes]

/-- The writer counts everything but the length before a string. -/
theorem Item.length_bytes (i : Item) : i.bytes.length = i.size + i.lengthPrefix := by
  rw [bytes, List.length_cons]
  match i with
  | token (.plain m hm) => rfl
  | token (.number m x hx) =>
    show (Token.numberBytes m x).length + 1 = 1 + (m.size + 0) + 0
    have := Token.length_numberBytes hx
    omega
  | token (.string m s hs) =>
    show (Token.stringBytes m s).length + 1 = 1 + (s.length + 0) + m.size
    have := Token.length_stringBytes hs
    omega
  | word m dw h =>
    show (Token.numberBytes m (.finite dw)).length + 1 = 1 + (m.size + 0) + 0
    obtain rfl | rfl := dictEntryMarker_mem h
    · simp [Token.numberBytes, Native.payload?, length_encodeInt, Marker.size]
    · simp [Token.numberBytes, Native.payload?, length_encodeInt, Marker.size]

theorem checkRoom_error {pos need size : Nat} (h : size < pos + need) :
    Native.checkRoom pos need size = .error Native.runOut := by
  rw [Native.checkRoom, if_pos h]
  rfl

/-- With another size of the buffer the same is stored, or the buffer runs out. -/
theorem storePayload_resize {payload : Native.Payload} {entry : Option LuaValue}
    {n buffsize : Nat} {buff bytes : Bytes}
    (h : Native.storePayload n payload entry buff = .ok bytes) :
    Native.storePayload buffsize payload entry buff = .ok bytes ∨
      Native.storePayload buffsize payload entry buff = .error Native.runOut := by
  -- the size of the buffer only matters where the room is checked
  have hroom (need : Nat) : Native.checkRoom buff.length need buffsize = .ok () ∨
      Native.checkRoom buff.length need buffsize = .error Native.runOut := by
    obtain ⟨hok, -⟩ | ⟨hlt, -⟩ := checkRoom_cases buff.length need buffsize
    · exact .inl hok
    · exact .inr (checkRoom_error hlt)
  cases payload with
  | none => exact .inl h
  | integer width checked expected =>
    cases checked with
    | false => exact .inl h
    | true =>
      simp only [Native.storePayload, if_true] at h ⊢
      obtain ⟨_, -, h⟩ := except_bind_ok h
      obtain hok | herror := hroom width
      · exact .inl (by rw [hok]; exact h)
      · exact .inr (by rw [herror]; rfl)
  | int64 =>
    simp only [Native.storePayload] at h ⊢
    obtain ⟨_, -, h⟩ := except_bind_ok h
    obtain hok | herror := hroom 8
    · exact .inl (by rw [hok]; exact h)
    · exact .inr (by rw [herror]; rfl)
  | real format width expected =>
    simp only [Native.storePayload] at h ⊢
    obtain ⟨_, -, h⟩ := except_bind_ok h
    obtain hok | herror := hroom width
    · exact .inl (by rw [hok]; exact h)
    · exact .inr (by rw [herror]; rfl)
  | string width expected =>
    simp only [Native.storePayload] at h ⊢
    obtain ⟨sval, hsval, h⟩ := except_bind_ok h
    obtain ⟨_, -, h⟩ := except_bind_ok h
    rw [hsval, ok_bind]
    obtain hok | herror := hroom (width + sval.length)
    · exact .inl (by rw [hok]; exact h)
    · exact .inr (by rw [herror]; rfl)

/-- The case of `serialize_write_Q` for the payload of an item. -/
theorem Item.payload?_marker (i : Item) {val : LuaValue} {size : Nat}
    (h : i.payload = some (val, size)) :
    ∃ p, Native.payload? i.marker = some p ∧ p ≠ .none ∧ p.lengthPrefix = i.lengthPrefix ∧
      ∀ n buff, Stored n buff i.payloadBytes (Native.storePayload n p (some val) buff) := by
  have htoken (t : Token) (ht : t.payload = some (val, size)) : ∃ p,
      Native.payload? t.marker = some p ∧ p ≠ .none ∧
        ∀ n buff, Stored n buff t.payloadBytes (Native.storePayload n p (some val) buff) := by
    obtain ⟨p, hp, hne, -⟩ := storePayload_token t ht 0 []
    refine ⟨p, hp, hne, fun n buff => ?_⟩
    obtain ⟨p', hp', -, hstored⟩ := storePayload_token t ht n buff
    cases hp.symm.trans hp'
    exact hstored
  cases i with
  | token t =>
    obtain ⟨p, hp, hne, hstored⟩ := htoken t h
    refine ⟨p, hp, hne, ?_, hstored⟩
    cases t with
    | plain m hm => cases h
    | number m x hx =>
      have hmem := numberMarker_mem hx
      simp only [Marker.intRanges, List.mem_cons, List.not_mem_nil, or_false] at hmem
      obtain rfl | rfl | rfl | rfl | rfl | rfl | rfl | rfl | rfl := hmem <;> cases hp <;> rfl
    | string m s hs =>
      have hmem := stringMarker_mem hs
      simp only [Marker.stringRanges, List.mem_cons, List.not_mem_nil, or_false] at hmem
      obtain rfl | rfl | rfl := hmem <;> cases hp <;> rfl
  | word m dw hm =>
    cases h
    obtain rfl | rfl := dictEntryMarker_mem hm
    · exact ⟨_, rfl, by rintro ⟨⟩, rfl, fun n buff => stored_integer ..⟩
    · exact ⟨_, rfl, by rintro ⟨⟩, rfl, fun n buff => stored_integer ..⟩

/-- A payload is stored, or the buffer runs out because it does not fit. -/
theorem Item.storePayload (i : Item) {val : LuaValue} {size : Nat}
    (h : i.payload = some (val, size)) {p : Native.Payload}
    (hp : Native.payload? i.marker = some p) (buffsize : Nat) (buff : Bytes) :
    Native.storePayload buffsize p (some val) buff = .ok (buff ++ i.payloadBytes) ∨
      (buffsize < buff.length + i.payloadBytes.length ∧
        Native.storePayload buffsize p (some val) buff = .error Native.runOut) := by
  obtain ⟨p', hp', -, -, hstored⟩ := i.payload?_marker h
  cases hp.symm.trans hp'
  have hlarge : Native.storePayload (buff.length + i.payloadBytes.length) p (some val) buff =
      .ok (buff ++ i.payloadBytes) := by
    obtain hok | ⟨hlt, -⟩ := hstored (buff.length + i.payloadBytes.length) buff
    · exact hok
    · exact absurd hlt (lt_irrefl _)
  obtain hok | ⟨hlt, e, he⟩ := hstored buffsize buff
  · exact .inl hok
  · right
    refine ⟨hlt, ?_⟩
    obtain hok | herror := @storePayload_resize p (some val) _ buffsize buff _ hlarge
    · cases hok.symm.trans he
    · exact herror

end Items

section Loop

/-- The loop stores nothing outside the buffer and does not run out of it. -/
def Within (buffsize : Nat) (queue : List LuaValue) (buff : Bytes) : Prop :=
  (∀ buff' ∈ Native.stages buffsize queue buff, buff'.length ≤ buffsize) ∧
    Native.serializeEntries buffsize queue buff ≠ .error Native.runOut

theorem Item.payloadAfter (i : Item) :
    Native.payloadAfter (.int i.marker.tag) = Native.payload? i.marker := by
  rw [Native.payloadAfter, fetchNextAsInteger_tag]
  exact ofTag?_cast i.marker

/-- Only a marker that is a value by itself has no payload. -/
theorem Item.eq_plain {i : Item} (h : i.payload = none) :
    ∃ m hm, i = .token (.plain m hm) := by
  cases i with
  | word m dw hm => cases h
  | token t =>
    cases t with
    | plain m hm => exact ⟨m, hm, rfl⟩
    | number m x hx => cases h
    | string m s hs => cases h

theorem Item.payload?_none {i : Item} (h : i.payload = none) :
    Native.payload? i.marker = some .none := by
  obtain ⟨m, hm, rfl⟩ := Item.eq_plain h
  exact payload?_plain hm

/-- A marker that does not fit. -/
theorem serializeEntries_full (i : Item) (rest : List LuaValue) {buffsize : Nat} {buff : Bytes}
    (h : buffsize < buff.length + 1) :
    Native.serializeEntries buffsize (i.queued ++ rest) buff = .error Native.runOut := by
  simp only [Item.queued, Item.entries, List.map_cons, List.cons_append, Native.serializeEntries,
    fetchNextAsInteger_tag, ok_bind, checkRoom_error h, error_bind]

/-- A round over a marker without payload. -/
theorem round_plain {i : Item} (hi : i.payload = none) (rest : List LuaValue) {buffsize : Nat}
    {buff : Bytes} (hroom : Native.checkRoom buff.length 1 buffsize = .ok ()) :
    Native.serializeEntries buffsize (i.queued ++ rest) buff =
        Native.serializeEntries buffsize rest (buff ++ [UInt8.ofNat i.marker.tag]) ∧
      Native.stages buffsize (i.queued ++ rest) buff =
        (buff ++ [UInt8.ofNat i.marker.tag]) ::
          Native.stages buffsize rest (buff ++ [UInt8.ofNat i.marker.tag]) := by
  have hqueued : i.queued ++ rest = .int i.marker.tag :: rest := by
    simp [Item.queued, Item.entries, hi]
  rw [hqueued]
  constructor
  · simp only [Native.serializeEntries, fetchNextAsInteger_tag, ok_bind, hroom, ofTag?_cast,
      Item.payload?_none hi, encodeInt_tag]
  · simp only [Native.stages, fetchNextAsInteger_tag, hroom, i.payloadAfter,
      Item.payload?_none hi, encodeInt_tag]

/-- A round over a marker and its payload. -/
theorem round_payload {i : Item} {val : LuaValue} {size : Nat} (hi : i.payload = some (val, size))
    {p : Native.Payload} (hp : Native.payload? i.marker = some p) (hne : p ≠ .none)
    (rest : List LuaValue) {buffsize : Nat} {buff : Bytes}
    (hroom : Native.checkRoom buff.length 1 buffsize = .ok ()) :
    (Native.serializeEntries buffsize (i.queued ++ rest) buff = do
        let buff ← Native.storePayload buffsize p (some val) (buff ++ [UInt8.ofNat i.marker.tag])
        Native.serializeEntries buffsize rest buff) ∧
      Native.stages buffsize (i.queued ++ rest) buff =
        (buff ++ [UInt8.ofNat i.marker.tag]) ::
          match Native.storePayload buffsize p (some val)
              (buff ++ [UInt8.ofNat i.marker.tag]) with
          | .ok buff => buff :: Native.stages buffsize rest buff
          | .error _ => [] := by
  have hqueued : i.queued ++ rest = .int i.marker.tag :: val :: rest := by
    simp [Item.queued, Item.entries, hi]
  rw [hqueued]
  constructor
  · simp only [Native.serializeEntries, fetchNextAsInteger_tag, ok_bind, hroom, ofTag?_cast, hp,
      encodeInt_tag]
  · simp only [Native.stages, fetchNextAsInteger_tag, hroom, i.payloadAfter, hp, encodeInt_tag]

/-- A round of the loop over an item stays within the buffer exactly when the item fits. -/
theorem within_item (i : Item) (rest : List LuaValue) (buffsize : Nat) (buff : Bytes) :
    Within buffsize (i.queued ++ rest) buff ↔
      (buff ++ i.bytes).length ≤ buffsize ∧ Within buffsize rest (buff ++ i.bytes) := by
  have hlen : (buff ++ i.bytes).length = buff.length + 1 + i.payloadBytes.length := by
    simp [Item.bytes]
    omega
  by_cases hfull : buffsize < buff.length + 1
  · have herror := serializeEntries_full i rest hfull
    constructor
    · intro h
      exact absurd herror h.2
    · intro h
      omega
  · have hroom : Native.checkRoom buff.length 1 buffsize = .ok () := by
      rw [Native.checkRoom, if_neg hfull]
    rcases hi : i.payload with - | ⟨val, size⟩
    · obtain ⟨hloop, hstages⟩ := round_plain hi rest hroom
      have hbytes : i.bytes = [UInt8.ofNat i.marker.tag] := by
        obtain ⟨m, hm, rfl⟩ := Item.eq_plain hi
        rfl
      rw [hbytes, Within, hloop, hstages, List.forall_mem_cons, and_assoc]
      rfl
    · obtain ⟨p, hp, hne, -, -⟩ := i.payload?_marker hi
      obtain ⟨hloop, hstages⟩ := round_payload hi hp hne rest hroom
      have happ : buff ++ [UInt8.ofNat i.marker.tag] ++ i.payloadBytes = buff ++ i.bytes := by
        simp [Item.bytes]
      obtain hok | ⟨hlt, herror⟩ :=
        i.storePayload hi hp buffsize (buff ++ [UInt8.ofNat i.marker.tag])
      · rw [hok, happ] at hloop hstages
        rw [Within, hloop, hstages, ok_bind, List.forall_mem_cons, List.forall_mem_cons]
        have hmarker : (buff ++ [UInt8.ofNat i.marker.tag]).length ≤ buffsize := by
          simp
          omega
        constructor
        · rintro ⟨⟨-, hfits, hrest⟩, hok⟩
          exact ⟨hfits, hrest, hok⟩
        · rintro ⟨hfits, hrest, hok⟩
          exact ⟨⟨hmarker, hfits, hrest⟩, hok⟩
      · -- the payload does not fit
        rw [herror, error_bind] at hloop
        constructor
        · intro h
          exact absurd hloop h.2
        · intro h
          rw [List.length_append, List.length_singleton] at hlt
          omega

/-- The loop over the items of a queue stays within the buffer exactly when they fit. -/
theorem within_items (is : List Item) {buffsize : Nat} {buff : Bytes}
    (h : buff.length ≤ buffsize) :
    Within buffsize (is.flatMap Item.queued) buff ↔
      (buff ++ is.flatMap Item.bytes).length ≤ buffsize := by
  induction is generalizing buff with
  | nil => simp [Within, Native.stages, Native.serializeEntries, h]
  | cons i is ih =>
    rw [List.flatMap_cons, List.flatMap_cons, within_item, ← List.append_assoc]
    constructor
    · rintro ⟨hfits, hrest⟩
      exact (ih hfits).mp hrest
    · intro hall
      have hfits : (buff ++ i.bytes).length ≤ buffsize := by
        rw [List.length_append] at hall
        omega
      exact ⟨hfits, (ih hfits).mpr hall⟩

/-- What is returned is the contents of the buffer after the last store. -/
theorem serializeEntries_stages (buffsize : Nat) {queue : List LuaValue} {buff bytes : Bytes}
    (h : Native.serializeEntries buffsize queue buff = .ok bytes) :
    bytes ∈ buff :: Native.stages buffsize queue buff := by
  -- a round takes one or two entries off the queue
  induction hn : queue.length using Nat.strong_induction_on generalizing queue buff with
  | _ n ih =>
    cases queue with
    | nil =>
      cases h
      exact List.mem_cons_self
    | cons entry rest =>
      right
      rw [Native.serializeEntries] at h
      obtain ⟨marker, hmarker, h⟩ := except_bind_ok h
      obtain ⟨⟨⟩, hroom, h⟩ := except_bind_ok h
      have hafter : Native.payloadAfter entry =
          if 0 ≤ marker then (Marker.ofTag? marker.toNat).bind Native.payload? else none := by
        rw [Native.payloadAfter, hmarker]
      rw [Native.stages, hmarker, hroom]
      dsimp only at h ⊢
      rw [← hafter] at h
      split at h
      · cases h
      · next hnone =>
        rw [hnone]
        exact ih rest.length (by rw [← hn]; exact Nat.lt_succ_self _) h rfl
      · next p hne hpayload =>
        rw [hpayload]
        cases rest with
        | nil =>
          obtain ⟨e, he⟩ := storePayload_missing hne buffsize (buff ++ encodeInt 1 marker)
          cases h.symm.trans he
        | cons value rest =>
          obtain ⟨stored, hstored, h⟩ := except_bind_ok h
          simp only [hstored]
          right
          exact ih rest.length (by rw [← hn, List.length_cons, List.length_cons]; omega) h rfl

end Loop

section Runs

theorem lengthPrefixes_item (i : Item) (rest : List LuaValue) :
    lengthPrefixes (i.queued ++ rest) =
      (lengthPrefixes rest).map fun n => i.lengthPrefix + n := by
  rcases hi : i.payload with - | ⟨val, size⟩
  · have hprefix : i.lengthPrefix = 0 := by
      obtain ⟨m, hm, rfl⟩ := Item.eq_plain hi
      rfl
    have hqueued : i.queued ++ rest = .int i.marker.tag :: rest := by
      simp [Item.queued, Item.entries, hi]
    simp [hqueued, lengthPrefixes, i.payloadAfter, Item.payload?_none hi, hprefix]
  · obtain ⟨p, hp, hne, hprefix, -⟩ := i.payload?_marker hi
    have hqueued : i.queued ++ rest = .int i.marker.tag :: val :: rest := by
      simp [Item.queued, Item.entries, hi]
    simp only [hqueued, lengthPrefixes, i.payloadAfter, hp, hprefix]

theorem lengthPrefixes_items (is : List Item) (rest : List LuaValue) :
    lengthPrefixes (is.flatMap Item.queued ++ rest) =
      (lengthPrefixes rest).map fun n => (is.map Item.lengthPrefix).sum + n := by
  induction is with
  | nil => simp
  | cons i is ih =>
    rw [List.flatMap_cons, List.append_assoc, lengthPrefixes_item, ih, Option.map_map]
    congr 1
    funext n
    simp [Nat.add_assoc]

theorem lengthPrefixes_last {entry : LuaValue} {p : Native.Payload}
    (h : Native.payloadAfter entry = some p) (hne : p ≠ .none) : lengthPrefixes [entry] = none := by
  unfold lengthPrefixes
  simp only [h]

/-- A marker that waits for its payload. -/
theorem lengthPrefixes_cut (is : List Item) {i : Item} (h : i.payload ≠ none) :
    lengthPrefixes (is.flatMap Item.queued ++ [.int i.marker.tag]) = none := by
  obtain ⟨⟨val, size⟩, hi⟩ := Option.ne_none_iff_exists'.mp h
  obtain ⟨p, hp, hne, -, -⟩ := i.payload?_marker hi
  have hmarker := lengthPrefixes_last (i.payloadAfter.trans hp) hne
  rw [lengthPrefixes_items, hmarker, Option.map_none]

theorem length_items (is : List Item) : (is.flatMap Item.bytes).length =
    (is.map Item.size).sum + (is.map Item.lengthPrefix).sum := by
  induction is with
  | nil => rfl
  | cons i is ih =>
    simp only [List.flatMap_cons, List.length_append, ih, i.length_bytes, List.map_cons,
      List.sum_cons]
    omega

theorem Native.bufferSize_small {len : Nat} (h : len + 64 < 2 ^ 31) :
    bufferSize len = (len + 64 : Nat) :=
  Int.bmod_eq_of_le_mul_two (by omega) (by omega)

/-- A size that does not fit a C `int` is taken modulo `2 ^ 32`. -/
theorem Native.bufferSize_large {len : Nat} (h : 2 ^ 31 ≤ len + 64) : bufferSize len < len := by
  show ((len + 64 : Nat) : Int).bmod (2 ^ 32) < len
  rw [Int.bmod_def]
  split
  · omega
  · omega

/-- The queue consists of the given items, and their sizes are counted. -/
structure HoldsItems (w : Writer) (is : List Item) : Prop where
  queue : w.writeQ = is.flatMap Item.queued
  size : w.writeQsize = (is.map Item.size).sum

theorem HoldsItems.length {u : Writer} {is : List Item} (h : HoldsItems u is) :
    (is.flatMap Item.bytes).length = u.writeQsize + (is.map Item.lengthPrefix).sum := by
  rw [length_items, h.size]

theorem HoldsItems.lengthPrefixes {u : Writer} {is : List Item} (h : HoldsItems u is) :
    lengthPrefixes u.writeQ = some (is.map Item.lengthPrefix).sum := by
  have hitems := lengthPrefixes_items is []
  rw [List.append_nil] at hitems
  rw [h.queue, hitems]
  rfl

theorem HoldsItems.nil_of_size {u : Writer} {is : List Item} (h : HoldsItems u is)
    (hzero : u.writeQsize = 0) : is = [] := by
  cases is with
  | nil => rfl
  | cons i is =>
    have hsize := h.size
    have hone : i.size = 1 + (i.payload.toList.map Prod.snd).sum := rfl
    rw [List.map_cons, List.sum_cons] at hsize
    omega

/-- Nothing is stored when no buffer is allocated. -/
theorem inBounds_unallocated {u : Writer}
    (h : u.writeQsize = 0 ∨ Native.bufferSize u.writeQsize < 0) : InBounds u := by
  have hstages : Native.writeQStages u.writeQ u.writeQsize = [] := by
    rw [Native.writeQStages, if_pos h]
  obtain ⟨e, he, hne⟩ : ∃ e, Native.serializeWriteQ u.writeQ u.writeQsize = .error e ∧
      e ≠ Native.runOut := by
    rw [Native.serializeWriteQ]
    by_cases hzero : u.writeQsize = 0
    · exact ⟨_, if_pos hzero, by decide⟩
    · have hneg : ((u.writeQsize + 64 : Nat) : Int).bmod (2 ^ 32) < 0 := h.resolve_left hzero
      rw [if_neg hzero]
      exact ⟨_, if_pos hneg, by decide⟩
  refine ⟨?_, ?_, ?_⟩
  · intro bytes hbytes
    cases he.symm.trans hbytes
  · simp [hstages]
  · rw [he]
    exact fun h => hne (Except.error.inj h)

theorem inBounds_iff_within {u : Writer} (hzero : u.writeQsize ≠ 0)
    (hpos : ¬Native.bufferSize u.writeQsize < 0) :
    InBounds u ↔ Within (Native.bufferSize u.writeQsize).toNat u.writeQ [] := by
  have hloop : Native.serializeWriteQ u.writeQ u.writeQsize =
      Native.serializeEntries (Native.bufferSize u.writeQsize).toNat u.writeQ [] := by
    rw [Native.serializeWriteQ, if_neg hzero]
    exact if_neg hpos
  have hstages : Native.writeQStages u.writeQ u.writeQsize =
      Native.stages (Native.bufferSize u.writeQsize).toNat u.writeQ [] := by
    rw [Native.writeQStages, if_neg (not_or.mpr ⟨hzero, hpos⟩)]
  have hsize : Native.bufferSize u.writeQsize ≤ u.writeQsize + 64 := by
    by_cases hsmall : u.writeQsize + 64 < 2 ^ 31
    · rw [Native.bufferSize_small hsmall]
      omega
    · have := @Native.bufferSize_large u.writeQsize (by omega)
      omega
  constructor
  · rintro ⟨-, hstored, hroom⟩
    rw [hstages] at hstored
    rw [hloop] at hroom
    exact ⟨fun buff hbuff => by have := hstored buff hbuff; omega, hroom⟩
  · rintro ⟨hstored, hroom⟩
    refine ⟨?_, ?_, ?_⟩
    · -- what is emitted are the contents of the buffer after the last store
      intro bytes hbytes
      rw [hloop] at hbytes
      obtain rfl | hmem := List.mem_cons.mp (serializeEntries_stages _ hbytes)
      · exact Nat.zero_le _
      · have := hstored bytes hmem
        omega
    · rw [hstages]
      intro buff hbuff
      have := hstored buff hbuff
      omega
    · rw [hloop]
      exact hroom

/-- A flush of whole items stays in bounds exactly when the slack suffices for the lengths of
the strings. -/
theorem HoldsItems.inBounds_iff {u : Writer} {is : List Item} (h : HoldsItems u is) :
    InBounds u ↔ SlackSuffices u := by
  have hslack : SlackSuffices u ↔ Native.bufferSize u.writeQsize < 0 ∨
      u.writeQsize + 64 < 2 ^ 31 ∧ (is.map Item.lengthPrefix).sum ≤ 64 := by
    simp [SlackSuffices, h.lengthPrefixes]
  rw [hslack]
  by_cases hzero : u.writeQsize = 0
  · cases h.nil_of_size hzero
    have hfits : u.writeQsize + 64 < 2 ^ 31 := by
      rw [hzero]
      decide
    exact iff_of_true (inBounds_unallocated (.inl hzero)) (.inr ⟨hfits, Nat.zero_le _⟩)
  · by_cases hneg : Native.bufferSize u.writeQsize < 0
    · exact iff_of_true (inBounds_unallocated (.inr hneg)) (.inl hneg)
    · rw [inBounds_iff_within hzero hneg, h.queue, within_items is (Nat.zero_le _),
        List.nil_append, h.length]
      by_cases hsmall : u.writeQsize + 64 < 2 ^ 31
      · have := Native.bufferSize_small hsmall
        omega
      · have := @Native.bufferSize_large u.writeQsize (by omega)
        omega

/-- The queue consists of whole items. -/
def Aligned (w : Writer) : Prop := ∃ is, HoldsItems w is

theorem Aligned.flushed (w : Writer) (strs : List Bytes) : Aligned (w.flushed strs) :=
  ⟨[], rfl, rfl⟩

/-- After these calls of `qstore` the queue is whole again, and so it is in every flush, as long
as no flush finds a marker without its payload. -/
def StaysAligned (entries : List (LuaValue × Nat)) (w : Writer) : Prop :=
  (∀ u ∈ qstoreFlushes entries w, (lengthPrefixes u.writeQ).isSome) →
    (∀ u ∈ qstoreFlushes entries w, Aligned u) ∧ Aligned (exec (qstoreAll entries) w).2

theorem staysAligned_cons {val : LuaValue} (hval : val.isFalsy = false) {size : Nat}
    {rest : List (LuaValue × Nat)} {w : Writer} (h : Aligned (w.enqueue val size))
    (hrest : ∀ v, Aligned v → StaysAligned rest v) : StaysAligned ((val, size) :: rest) w := by
  rw [StaysAligned, exec_qstoreAll_cons hval, qstoreFlushes]
  by_cases hlimit : w.flushLimit ≤ (w.enqueue val size).writeQsize
  · rw [if_pos hlimit, if_pos hlimit]
    obtain ⟨str, -, hok⟩ | ⟨-, e, herror⟩ := flush_emitted (w.enqueue val size)
    · rw [exec_bind_ok hok, hok, List.forall_mem_cons, List.forall_mem_cons]
      rintro ⟨-, hwhole⟩
      obtain ⟨hflushes, hlast⟩ := hrest _ (Aligned.flushed _ _) hwhole
      exact ⟨⟨h, hflushes⟩, hlast⟩
    · rw [exec_bind_error herror, herror, List.forall_mem_cons, List.forall_mem_cons]
      exact fun _ => ⟨⟨h, List.forall_mem_nil _⟩, h⟩
  · rw [if_neg hlimit, if_neg hlimit]
    exact hrest _ h

theorem staysAligned_items (is : List Item) {w : Writer} (h : Aligned w) :
    StaysAligned (is.flatMap Item.entries) w := by
  induction is generalizing w with
  | nil => exact fun _ => ⟨nofun, h⟩
  | cons i is ih =>
    obtain ⟨p, hqueue, hsize⟩ := h
    rw [List.flatMap_cons, Item.entries, List.cons_append]
    rcases hi : i.payload with - | ⟨val, size⟩
    · refine staysAligned_cons rfl ⟨p ++ [i], ?_, ?_⟩ fun v hv => ih hv
      · simp [Writer.enqueue, hqueue, Item.queued, Item.entries, hi]
      · simp [Writer.enqueue, hsize, Item.size, Item.entries, hi]
    · intro hwhole
      rw [qstoreFlushes] at hwhole
      by_cases hlimit : w.flushLimit ≤ (w.enqueue (.int i.marker.tag) 1).writeQsize
      · -- a flush right after the marker is excluded
        rw [if_pos hlimit, List.forall_mem_cons] at hwhole
        have hcut := @lengthPrefixes_cut p i (by simp [hi])
        have hnone : lengthPrefixes (w.enqueue (.int i.marker.tag) 1).writeQ = none := by
          rw [← hcut]
          simp [Writer.enqueue, hqueue]
        rw [hnone] at hwhole
        exact absurd hwhole.1 (by simp)
      · rw [exec_qstoreAll_cons rfl, qstoreFlushes, if_neg hlimit, if_neg hlimit]
        rw [if_neg hlimit] at hwhole
        refine staysAligned_cons ?_ ⟨p ++ [i], ?_, ?_⟩ (fun v hv => ih hv) hwhole
        · exact @Item.isFalsy_entries i (val, size) (by simp [Item.entries, hi])
        · simp [Writer.enqueue, hqueue, Item.queued, Item.entries, hi]
        · simp [Writer.enqueue, hsize, Item.size, Item.entries, hi, Nat.add_assoc]

/-- One call of a writer. -/
theorem WriterCall.aligned_run (call : WriterCall) {w : Writer} (h : Aligned w)
    (hwhole : ∀ u ∈ call.flushes w, (lengthPrefixes u.writeQ).isSome) :
    (∀ u ∈ call.flushes w, Aligned u) ∧ Aligned (exec call.run w).2 := by
  have hscript := staysAligned_items (call.script w.dictionary).items h
  unfold flushes at hwhole ⊢
  rw [List.forall_mem_append] at hwhole ⊢
  obtain ⟨hflushes, hend⟩ := hscript hwhole.1
  have hstate : Aligned (exec (call.script w.dictionary).run w).2 := by
    rw [Script.exec_run_state]
    exact hend
  cases call with
  | write val =>
    rw [finishes_write w.dictionary val w rfl, exec_bind]
    rcases hrun : exec ((write val).script w.dictionary).run w with ⟨e | ⟨⟩, w'⟩
    · rw [hrun] at hstate
      exact ⟨⟨hflushes, by simp⟩, hstate⟩
    · rw [hrun] at hstate
      refine ⟨⟨hflushes, by simpa using hstate⟩, ?_⟩
      obtain ⟨str, -, hok⟩ | ⟨-, e, herror⟩ := flush_emitted w'
      · simp only [hok]
        exact Aligned.flushed _ _
      · simp only [herror]
        exact hstate
  | useDictionary ws =>
    obtain ⟨result, hfinish⟩ := finishes_useDictionary w.dictionary ws
    rw [hfinish w rfl, exec_bind]
    rcases hrun : exec ((useDictionary ws).script w.dictionary).run w with ⟨e | ⟨⟩, w'⟩
    · rw [hrun] at hstate
      exact ⟨⟨hflushes, by simp⟩, hstate⟩
    · rw [hrun] at hstate
      obtain ⟨is, hqueue, hsize⟩ := hstate
      exact ⟨⟨hflushes, by simp⟩, is, hqueue, hsize⟩

theorem flushCalls_aligned (calls : List WriterCall) {w : Writer} (h : Aligned w)
    (hwhole : ∀ u ∈ flushCalls calls w, (lengthPrefixes u.writeQ).isSome) :
    ∀ u ∈ flushCalls calls w, Aligned u := by
  induction calls generalizing w with
  | nil => exact nofun
  | cons call calls ih =>
    rw [flushCalls, List.forall_mem_append] at hwhole ⊢
    obtain ⟨hflushes, hend⟩ := call.aligned_run h hwhole.1
    exact ⟨hflushes, ih hend hwhole.2⟩

/-- Whatever is written through a writer, and however its limit cuts the queue between whole
entries: every flush stays within its buffer exactly when the lengths of the strings that are
flushed together take no more than the 64 bytes of slack. -/
theorem flushes_inBounds_iff (limit : Nat) (calls : List WriterCall)
    (hwhole : ∀ u ∈ flushCalls calls (newLPackBufferWriter limit),
      (lengthPrefixes u.writeQ).isSome) :
    (∀ u ∈ flushCalls calls (newLPackBufferWriter limit), InBounds u) ↔
      ∀ u ∈ flushCalls calls (newLPackBufferWriter limit), SlackSuffices u := by
  have hempty : Aligned (newLPackBufferWriter limit) := ⟨[], rfl, rfl⟩
  have hall := flushCalls_aligned calls hempty hwhole
  refine forall₂_congr fun u hu => ?_
  obtain ⟨is, his⟩ := hall u hu
  exact his.inBounds_iff

theorem flushes_inBounds_words :
    (∀ u ∈ flushCalls [.useDictionary [text "a"], .write (.str (text "ab"))]
        (newLPackBufferWriter 7), InBounds u) ↔
      ∀ u ∈ flushCalls [.useDictionary [text "a"], .write (.str (text "ab"))]
        (newLPackBufferWriter 7), SlackSuffices u :=
  flushes_inBounds_iff 7 _ (by decide +kernel)

/-- An array of 65 strings of one byte is counted as 132 bytes and takes 197, one more than the
buffer has: the value is never written. -/
theorem strings_run_out :
    ¬∀ u ∈ flushCalls [.write (.table (.replicate 65 (.str (text "a"))) [])]
      (newLPackBufferWriter 65536), InBounds u := by
  intro h
  have hflushes : (flushCalls [.write (.table (.replicate 65 (.str (text "a"))) [])]
      (newLPackBufferWriter 65536)).map
        (fun u => Native.serializeWriteQ u.writeQ u.writeQsize) = [.error Native.runOut] := by
    decide +kernel
  obtain ⟨u, hu, hrunOut⟩ := List.mem_map.mp (hflushes ▸ List.mem_singleton_self _)
  exact (h u hu).room hrunOut

end Runs

end Luaw.LuaPack
