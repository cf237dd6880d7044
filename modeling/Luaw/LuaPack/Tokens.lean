import Luaw.LuaPack.Writer

/-!
# The token stream of a value

A token is a marker with its payload. The tokens of a value are what `serialize` stores in the
queue when no dictionary is in use, and `bytes` is what `serialize_write_Q` makes of them.
-/

namespace Luaw.LuaPack

open Lua BigEndian Program

/-- The markers without payload. -/
def Marker.isPlain : Marker → Bool
  | mapStart | arrayStart | dictStart | recordEnd | nil | boolTrue | boolFalse => true
  | _ => false

theorem Marker.nil_isPlain : nil.isPlain = true := rfl

theorem Marker.mapStart_isPlain : mapStart.isPlain = true := rfl

theorem Marker.arrayStart_isPlain : arrayStart.isPlain = true := rfl

theorem Marker.dictStart_isPlain : dictStart.isPlain = true := rfl

theorem Marker.recordEnd_isPlain : recordEnd.isPlain = true := rfl

inductive Token where
  | plain (m : Marker) (h : m.isPlain = true)
  | number (m : Marker) (x : Number) (h : numberMarker x = .ok m)
  | string (m : Marker) (s : Bytes) (h : stringMarker s = .ok m)

namespace Token

def marker : Token → Marker
  | plain m _ | number m _ _ | string m _ _ => m

/-- The queue entry after the marker, with the size that `qstore` is told. -/
def payload : Token → Option (LuaValue × Nat)
  | plain _ _ => none
  | number m x _ => some (.num x, m.size)
  | string _ s _ => some (.str s, s.length)

def entries (t : Token) : List LuaValue :=
  .int t.marker.tag :: t.payload.toList.map Prod.fst

/-- The size that the token adds to `writeQsize`. -/
def size (t : Token) : Nat := 1 + (t.payload.map Prod.snd).getD 0

def numberBytes (m : Marker) (x : Number) : Bytes :=
  match Native.payload? m with
  | some (.integer width _ _) => encodeInt width ((Native.toInt64 x).bmod (2 ^ 32))
  | some .int64 => encodeInt 8 (Native.toInt64 x)
  | some (.real format width _) => toBytes width (BinaryFloat.encode format x)
  | _ => []

def stringBytes (m : Marker) (s : Bytes) : Bytes :=
  match Native.payload? m with
  | some (.string width _) => toBytes width s.length ++ s
  | _ => []

def payloadBytes : Token → Bytes
  | plain _ _ => []
  | number m x _ => numberBytes m x
  | string m s _ => stringBytes m s

def bytes (t : Token) : Bytes := UInt8.ofNat t.marker.tag :: t.payloadBytes

end Token

/-- The entries, the size and the bytes of a stretch of the queue. -/
def entriesOf (ts : List Token) : List LuaValue := ts.flatMap Token.entries

def queueSize (ts : List Token) : Nat := (ts.map Token.size).sum

def bytesOf (ts : List Token) : Bytes := ts.flatMap Token.bytes

mutual

/-- The tokens of a value, if it has a number or a string that no marker covers none. -/
def tokens : LuaValue → Option (List Token)
  | .nil => some [.plain .nil rfl]
  | .bool true => some [.plain .boolTrue rfl]
  | .bool false => some [.plain .boolFalse rfl]
  | .num x =>
    match h : numberMarker x with
    | .ok m => some [.number m x h]
    | .error _ => none
  | .str s =>
    match h : stringMarker s with
    | .ok m => some [.string m s h]
    | .error _ => none
  | .table [] hash => (tokensOfPairs hash).map fun ts =>
      .plain .mapStart rfl :: (ts ++ [.plain .recordEnd rfl])
  | .table (x :: xs) _ => (tokens x).bind fun t => (tokensOfAll xs).map fun ts =>
      .plain .arrayStart rfl :: (t ++ ts ++ [.plain .recordEnd rfl])
  | .sparse _ _ => some [.plain .arrayStart rfl, .plain .recordEnd rfl]
  | .other _ => some []

def tokensOfAll : List LuaValue → Option (List Token)
  | [] => some []
  | x :: xs => (tokens x).bind fun t => (tokensOfAll xs).map fun ts => t ++ ts

def tokensOfPairs : List (LuaValue × LuaValue) → Option (List Token)
  | [] => some []
  | (k, v) :: entries => (tokens k).bind fun tk => (tokens v).bind fun tv =>
      (tokensOfPairs entries).map fun ts => tk ++ tv ++ ts

end

theorem tokens_num {x : Number} {m : Marker} (h : numberMarker x = .ok m) :
    tokens (.num x) = some [.number m x h] := by
  rw [tokens]
  split
  · next m' h' =>
    cases h.symm.trans h'
    rfl
  · next e he => cases h.symm.trans he

theorem tokens_str {s : Bytes} {m : Marker} (h : stringMarker s = .ok m) :
    tokens (.str s) = some [.string m s h] := by
  rw [tokens]
  split
  · next m' h' =>
    cases h.symm.trans h'
    rfl
  · next e he => cases h.symm.trans he

theorem findMinRange_ok {num : Number} {ranges : List Marker} {m : Marker}
    (h : findMinRange num ranges = .ok m) : m ∈ ranges ∧ m.covers num = true := by
  rw [findMinRange] at h
  split at h
  · next range hfind =>
    cases h
    have hcovers := List.find?_some hfind
    exact ⟨List.mem_of_find?_eq_some hfind, hcovers⟩
  · cases h

theorem numberMarker_mem {x : Number} {m : Marker} (h : numberMarker x = .ok m) :
    m ∈ Marker.intRanges := by
  have hmem := (findMinRange_ok h).1
  split at hmem
  · exact hmem
  · have hsub : Marker.floatRanges ⊆ Marker.intRanges := by decide
    exact hsub hmem

theorem stringMarker_mem {s : Bytes} {m : Marker} (h : stringMarker s = .ok m) :
    m ∈ Marker.stringRanges := (findMinRange_ok h).1

theorem numberMarker_zero : numberMarker (.finite 0) = .ok .uint8 := by decide +kernel

/-- The markers that fetch a double are never chosen for zero. -/
theorem fetchNextAsDouble_number {x : Number} {m : Marker} (h : numberMarker x = .ok m)
    (hm : m ≠ .uint8) (expected : String) :
    Native.fetchNextAsDouble (some (.num x)) expected = .ok x := by
  have hx : x ≠ .finite 0 := by
    rintro rfl
    rw [numberMarker_zero] at h
    cases h
    exact hm rfl
  simp [Native.fetchNextAsDouble, Native.toNumber?, hx]

theorem checkRoom_cases (pos need size : Nat) :
    (Native.checkRoom pos need size = .ok () ∧ pos + need ≤ size) ∨
      (size < pos + need ∧ ∃ e, Native.checkRoom pos need size = .error e) := by
  rw [Native.checkRoom]
  split
  · next hlt => exact .inr ⟨hlt, _, rfl⟩
  · next hge => exact .inl ⟨rfl, by omega⟩

/-- The outcome of storing bytes in a buffer of a fixed size: success, or an error when they do
not fit. -/
def Stored (buffsize : Nat) (buff new : Bytes) (result : Except LuaError Bytes) : Prop :=
  result = .ok (buff ++ new) ∨ (buffsize < buff.length + new.length ∧ ∃ e, result = .error e)

theorem Stored.of_checkRoom {buffsize : Nat} {buff new : Bytes}
    {f : Except LuaError Bytes} (hf : f = .ok (buff ++ new)) :
    Stored buffsize buff new
      (do Native.checkRoom buff.length new.length buffsize; f) := by
  obtain ⟨hroom, -⟩ | ⟨hlt, e, he⟩ := checkRoom_cases buff.length new.length buffsize
  · exact .inl (by rw [hroom, hf]; rfl)
  · exact .inr ⟨hlt, e, by rw [he]; rfl⟩

theorem stored_integer (buffsize width : Nat) (checked : Bool) (expected : String) (x : Number)
    (buff : Bytes) :
    Stored buffsize buff (encodeInt width ((Native.toInt64 x).bmod (2 ^ 32)))
      (Native.storePayload buffsize (.integer width checked expected) (some (.num x)) buff) := by
  cases checked with
  | false => exact .inl rfl
  | true =>
    have h := @Stored.of_checkRoom buffsize buff
      (encodeInt width ((Native.toInt64 x).bmod (2 ^ 32))) _ rfl
    rwa [length_encodeInt] at h

theorem stored_int64 (buffsize : Nat) {x : Number} (buff : Bytes)
    (hx : Native.fetchNextAsDouble (some (.num x)) "INT_64" = .ok x) :
    Stored buffsize buff (encodeInt 8 (Native.toInt64 x))
      (Native.storePayload buffsize .int64 (some (.num x)) buff) := by
  have h := @Stored.of_checkRoom buffsize buff (encodeInt 8 (Native.toInt64 x)) _ rfl
  rw [length_encodeInt] at h
  rw [Native.storePayload, hx]
  exact h

theorem stored_real (buffsize width : Nat) (format : BinaryFloat.Format) (expected : String)
    {x : Number} (buff : Bytes)
    (hx : Native.fetchNextAsDouble (some (.num x)) expected = .ok x) :
    Stored buffsize buff (toBytes width (BinaryFloat.encode format x))
      (Native.storePayload buffsize (.real format width expected) (some (.num x)) buff) := by
  have h := @Stored.of_checkRoom buffsize buff (toBytes width (BinaryFloat.encode format x)) _ rfl
  rw [length_toBytes] at h
  rw [Native.storePayload, hx]
  exact h

theorem stored_string (buffsize width : Nat) (expected : String) (s buff : Bytes) :
    Stored buffsize buff (toBytes width s.length ++ s)
      (Native.storePayload buffsize (.string width expected) (some (.str s)) buff) := by
  have happ : (.ok (buff ++ toBytes width s.length ++ s) : Except LuaError Bytes) =
      .ok (buff ++ (toBytes width s.length ++ s)) := by
    rw [List.append_assoc]
  have h := @Stored.of_checkRoom buffsize _ _ _ happ
  rw [List.length_append, length_toBytes] at h
  exact h

/-- A payload finds its value in the queue and is stored where there is room. -/
theorem storePayload_token (t : Token) {val : LuaValue} {size : Nat}
    (h : t.payload = some (val, size)) (buffsize : Nat) (buff : Bytes) :
    ∃ p, Native.payload? t.marker = some p ∧ p ≠ .none ∧
      Stored buffsize buff t.payloadBytes (Native.storePayload buffsize p (some val) buff) := by
  cases t with
  | plain m hm => cases h
  | number m x hx =>
    cases h
    have hfetch := fetchNextAsDouble_number hx
    have hmem := numberMarker_mem hx
    simp only [Marker.intRanges, List.mem_cons, List.not_mem_nil, or_false] at hmem
    obtain rfl | rfl | rfl | rfl | rfl | rfl | rfl | rfl | rfl := hmem
    · exact ⟨_, rfl, nofun, stored_integer ..⟩
    · exact ⟨_, rfl, nofun, stored_integer ..⟩
    · exact ⟨_, rfl, nofun, stored_integer ..⟩
    · exact ⟨_, rfl, nofun, stored_integer ..⟩
    · exact ⟨_, rfl, nofun, stored_integer ..⟩
    · exact ⟨_, rfl, nofun, stored_integer ..⟩
    · exact ⟨_, rfl, nofun, stored_int64 _ _ (hfetch nofun _)⟩
    · exact ⟨_, rfl, nofun, stored_real _ _ _ _ _ (hfetch nofun _)⟩
    · exact ⟨_, rfl, nofun, stored_real _ _ _ _ _ (hfetch nofun _)⟩
  | string m s hs =>
    cases h
    have hmem := stringMarker_mem hs
    simp only [Marker.stringRanges, List.mem_cons, List.not_mem_nil, or_false] at hmem
    obtain rfl | rfl | rfl := hmem
    · exact ⟨_, rfl, nofun, stored_string ..⟩
    · exact ⟨_, rfl, nofun, stored_string ..⟩
    · exact ⟨_, rfl, nofun, stored_string ..⟩

theorem payload?_plain {m : Marker} (h : m.isPlain = true) : Native.payload? m = some .none := by
  cases m <;> first | rfl | cases h

theorem fetchNextAsInteger_tag (m : Marker) :
    Native.fetchNextAsInteger (some (.int m.tag)) "marker" = .ok m.tag := by
  cases m <;> decide +kernel

theorem encodeInt_tag (m : Marker) : encodeInt 1 (m.tag : Int) = [UInt8.ofNat m.tag] := by
  cases m <;> decide

theorem ofTag?_cast (m : Marker) :
    (if (0 : Int) ≤ m.tag then (Marker.ofTag? (m.tag : Int).toNat).bind Native.payload? else none) =
      Native.payload? m := by
  rw [if_pos (Int.natCast_nonneg _), Int.toNat_natCast, Marker.ofTag?_tag, Option.bind_some]

theorem ok_bind {ε α β : Type} (a : α) (f : α → Except ε β) : (Except.ok a >>= f) = f a := rfl

theorem error_bind {ε α β : Type} (e : ε) (f : α → Except ε β) :
    (Except.error e >>= f) = .error e := rfl

/-- The loop of `serialize_write_Q` over one token. -/
theorem serializeEntries_token (t : Token) (rest : List LuaValue) (buffsize : Nat) (buff : Bytes) :
    Native.serializeEntries buffsize (t.entries ++ rest) buff =
        Native.serializeEntries buffsize rest (buff ++ t.bytes) ∨
      (buffsize < buff.length + t.bytes.length ∧
        ∃ e, Native.serializeEntries buffsize (t.entries ++ rest) buff = .error e) := by
  have hlen : t.bytes.length = 1 + t.payloadBytes.length := by
    rw [Token.bytes, List.length_cons, Nat.add_comm]
  -- the room for the marker is checked first, and then that for its payload
  obtain ⟨hroom, -⟩ | ⟨hlt, e, he⟩ := checkRoom_cases buff.length 1 buffsize
  · rcases hp : t.payload with - | ⟨val, size⟩
    · left
      cases t with
      | plain m hm =>
        simp only [Token.entries, Token.marker, Token.payload, Option.toList_none, List.map_nil,
          List.cons_append, List.nil_append, Native.serializeEntries, fetchNextAsInteger_tag,
          hroom, ok_bind, ofTag?_cast, payload?_plain hm, encodeInt_tag, Token.bytes,
          Token.payloadBytes]
      | number m x hx => cases hp
      | string m s hs => cases hp
    · obtain ⟨p, hkind, hne, hstored⟩ :=
        storePayload_token t hp buffsize (buff ++ [UInt8.ofNat t.marker.tag])
      have hround : Native.serializeEntries buffsize (t.entries ++ rest) buff =
          (do
            let buff ← Native.storePayload buffsize p (some val)
              (buff ++ [UInt8.ofNat t.marker.tag])
            Native.serializeEntries buffsize rest buff) := by
        simp only [Token.entries, hp, Option.toList_some, List.map_cons, List.map_nil,
          List.cons_append, List.nil_append, Native.serializeEntries, fetchNextAsInteger_tag,
          hroom, ok_bind, ofTag?_cast, hkind, encodeInt_tag]
      obtain hok | ⟨hlt, e, he⟩ := hstored
      · left
        rw [hround, hok, ok_bind, List.append_assoc, List.singleton_append, Token.bytes]
      · right
        rw [List.length_append, List.length_singleton] at hlt
        exact ⟨by omega, e, by rw [hround, he, error_bind]⟩
  · right
    refine ⟨by omega, e, ?_⟩
    simp only [Token.entries, List.cons_append, Native.serializeEntries, fetchNextAsInteger_tag,
      ok_bind, he, error_bind]

/-- A payload that is not in the queue cannot be stored. -/
theorem storePayload_missing {p : Native.Payload} (h : p ≠ .none) (buffsize : Nat) (buff : Bytes) :
    ∃ e, Native.storePayload buffsize p none buff = .error e := by
  have hcheck : ∀ need, (∃ e, Native.checkRoom buff.length need buffsize = .error e) ∨
      Native.checkRoom buff.length need buffsize = .ok () := by
    intro need
    obtain ⟨hok, -⟩ | ⟨-, herror⟩ := checkRoom_cases buff.length need buffsize
    · exact .inr hok
    · exact .inl herror
  cases p with
  | none => exact absurd rfl h
  | integer width checked expected =>
    cases checked with
    | false => exact ⟨_, rfl⟩
    | true =>
      obtain ⟨e, he⟩ | hok := hcheck width
      · exact ⟨e, by simp only [Native.storePayload, if_true, he, error_bind]⟩
      · exact ⟨_, by simp only [Native.storePayload, if_true, hok, ok_bind]; rfl⟩
  | int64 =>
    obtain ⟨e, he⟩ | hok := hcheck 8
    · exact ⟨e, by simp only [Native.storePayload, he, error_bind]⟩
    · exact ⟨_, by simp only [Native.storePayload, hok, ok_bind]; rfl⟩
  | real format width expected =>
    obtain ⟨e, he⟩ | hok := hcheck width
    · exact ⟨e, by simp only [Native.storePayload, he, error_bind]⟩
    · exact ⟨_, by simp only [Native.storePayload, hok, ok_bind]; rfl⟩
  | string width expected => exact ⟨_, rfl⟩

/-- A marker whose payload is not in the queue makes `serialize_write_Q` raise. -/
theorem serializeEntries_cut (t : Token) (h : t.payload ≠ none) (buffsize : Nat) (buff : Bytes) :
    ∃ e, Native.serializeEntries buffsize [.int t.marker.tag] buff = .error e := by
  obtain ⟨⟨val, size⟩, hp⟩ := Option.ne_none_iff_exists'.mp h
  obtain ⟨p, hkind, hne, -⟩ := storePayload_token t hp buffsize buff
  obtain ⟨hroom, -⟩ | ⟨-, e, he⟩ := checkRoom_cases buff.length 1 buffsize
  · obtain ⟨e, he⟩ := storePayload_missing hne buffsize (buff ++ [UInt8.ofNat t.marker.tag])
    refine ⟨e, ?_⟩
    simp only [Native.serializeEntries, fetchNextAsInteger_tag, hroom, ok_bind, ofTag?_cast, hkind,
      encodeInt_tag, he]
  · refine ⟨e, ?_⟩
    simp only [Native.serializeEntries, fetchNextAsInteger_tag, ok_bind, he, error_bind]

/-- The loop of `serialize_write_Q` over the entries of whole tokens. -/
theorem serializeEntries_tokens (ts : List Token) (rest : List LuaValue) (buffsize : Nat)
    (buff : Bytes) :
    Native.serializeEntries buffsize (entriesOf ts ++ rest) buff =
        Native.serializeEntries buffsize rest (buff ++ bytesOf ts) ∨
      (buffsize < buff.length + (bytesOf ts).length ∧
        ∃ e, Native.serializeEntries buffsize (entriesOf ts ++ rest) buff = .error e) := by
  induction ts generalizing buff with
  | nil => exact .inl (by simp [entriesOf, bytesOf])
  | cons t ts ih =>
    have hentries : entriesOf (t :: ts) ++ rest = t.entries ++ (entriesOf ts ++ rest) := by
      simp [entriesOf]
    have hbytes : bytesOf (t :: ts) = t.bytes ++ bytesOf ts := rfl
    rw [hentries, hbytes, List.length_append]
    obtain hone | ⟨hlt, herror⟩ := serializeEntries_token t (entriesOf ts ++ rest) buffsize buff
    · rw [hone]
      obtain hall | ⟨hlt, herror⟩ := ih (buff ++ t.bytes)
      · left
        rw [hall, List.append_assoc]
      · right
        rw [List.length_append] at hlt
        exact ⟨by omega, herror⟩
    · exact .inr ⟨by omega, herror⟩

/-- The buffer that `serialize_write_Q` allocates for a queue of the given size holds the
bytes, and its size fits a C `int`. -/
def EnoughRoom (len : Nat) (bytes : Bytes) : Prop :=
  bytes.length ≤ len + 64 ∧ len + 64 < 2 ^ 31

instance (len : Nat) (bytes : Bytes) : Decidable (EnoughRoom len bytes) :=
  inferInstanceAs (Decidable (_ ∧ _))

/-- A queue of whole tokens is serialised to their bytes whenever there is room. -/
theorem serializeWriteQ_tokens (ts : List Token) {len : Nat} (hlen : len ≠ 0) :
    Native.serializeWriteQ (entriesOf ts) len = .ok (bytesOf ts) ∨
      (¬EnoughRoom len (bytesOf ts) ∧
        ∃ e, Native.serializeWriteQ (entriesOf ts) len = .error e) := by
  simp only [Native.serializeWriteQ, if_neg hlen]
  by_cases hneg : ((len + 64 : Nat) : Int).bmod (2 ^ 32) < 0
  · right
    rw [if_pos hneg]
    refine ⟨fun ⟨_, hsmall⟩ => ?_, _, rfl⟩
    rw [Int.bmod_eq_of_le_mul_two (by omega) (by omega)] at hneg
    omega
  · rw [if_neg hneg]
    obtain hok | ⟨hlt, herror⟩ :=
      serializeEntries_tokens ts [] (((len + 64 : Nat) : Int).bmod (2 ^ 32)).toNat []
    · left
      rw [List.append_nil, List.nil_append] at hok
      rw [hok]
      rfl
    · right
      rw [List.append_nil] at herror
      refine ⟨fun ⟨hfit, hsmall⟩ => ?_, herror⟩
      rw [Int.bmod_eq_of_le_mul_two (by omega) (by omega), Int.toNat_natCast, List.length_nil] at hlt
      omega

/-- A queue that ends in a marker without its payload is refused. -/
theorem serializeWriteQ_cut (ts : List Token) (t : Token) (h : t.payload ≠ none) (len : Nat) :
    ∃ e, Native.serializeWriteQ (entriesOf ts ++ [.int t.marker.tag]) len = .error e := by
  rw [Native.serializeWriteQ]
  split
  · exact ⟨_, rfl⟩
  · dsimp only
    split
    · exact ⟨_, rfl⟩
    · rcases serializeEntries_tokens ts [.int t.marker.tag]
        (((len + 64 : Nat) : Int).bmod (2 ^ 32)).toNat [] with hall | ⟨-, herror⟩
      · rw [hall]
        exact serializeEntries_cut t h _ _
      · exact herror

end Luaw.LuaPack
