import Luaw.LuaPack.FlushLimit
import Luaw.LuaPack.Integers

/-!
# What a traversal leaves in the queue

`traverse` is the list of the tokens that `serialize` queues before it returns or raises. A final
flush of what a whole traversal queued takes place exactly when there is room for it.
-/

namespace Luaw.LuaPack

open Lua BigEndian Program

section Traversals

/-- The tokens that a traversal puts into the queue, and whether it comes to its end. -/
structure Traversal where
  queued : List Token
  completes : Bool

namespace Traversal

def andThen (a b : Traversal) : Traversal :=
  if a.completes then ⟨a.queued ++ b.queued, b.completes⟩ else a

/-- A value that is queued at once or refused. -/
def ofTokens : Option (List Token) → Traversal
  | some ts => ⟨ts, true⟩
  | none => ⟨[], false⟩

def mark (m : Marker) (h : m.isPlain = true) : Traversal := ⟨[.plain m h], true⟩

theorem andThen_assoc (a b c : Traversal) :
    (a.andThen b).andThen c = a.andThen (b.andThen c) := by
  obtain ⟨ts, ca⟩ := a
  obtain ⟨us, cb⟩ := b
  cases ca <;> cases cb <;> simp [andThen]

end Traversal

open Traversal

mutual

/-- The tokens that `serialize` queues before it returns or raises. -/
def traverse : LuaValue → Traversal
  | .nil => mark .nil Marker.nil_isPlain
  | .bool b => ofTokens (tokens (.bool b))
  | .num x => ofTokens (tokens (.num x))
  | .str s => ofTokens (tokens (.str s))
  | .table [] hash =>
    (mark .mapStart Marker.mapStart_isPlain).andThen
      ((traversePairs hash).andThen (mark .recordEnd Marker.recordEnd_isPlain))
  | .table (x :: xs) _ =>
    (mark .arrayStart Marker.arrayStart_isPlain).andThen
      ((traverse x).andThen
        ((traverseAll xs).andThen (mark .recordEnd Marker.recordEnd_isPlain)))
  | .sparse _ _ =>
    (mark .arrayStart Marker.arrayStart_isPlain).andThen
      (mark .recordEnd Marker.recordEnd_isPlain)
  | .other _ => ⟨[], true⟩

def traverseAll : List LuaValue → Traversal
  | [] => ⟨[], true⟩
  | x :: xs => (traverse x).andThen (traverseAll xs)

def traversePairs : List (LuaValue × LuaValue) → Traversal
  | [] => ⟨[], true⟩
  | (k, v) :: entries => (traverse k).andThen ((traverse v).andThen (traversePairs entries))

end

/-- An array is traversed like the list of its elements. -/
theorem traverse_array (x : LuaValue) (xs : List LuaValue) (hash : List (LuaValue × LuaValue)) :
    traverse (.table (x :: xs) hash) =
      (mark .arrayStart rfl).andThen ((traverseAll (x :: xs)).andThen (mark .recordEnd rfl)) := by
  rw [traverse, traverseAll, andThen_assoc]

/-- The writer with more tokens in its queue. -/
def Writer.pushAll (w : Writer) (ts : List Token) : Writer :=
  { w with writeQ := w.writeQ ++ entriesOf ts, writeQsize := w.writeQsize + queueSize ts }

@[simp] theorem entriesOf_append (ts us : List Token) :
    entriesOf (ts ++ us) = entriesOf ts ++ entriesOf us := by
  simp [entriesOf]

@[simp] theorem queueSize_append (ts us : List Token) :
    queueSize (ts ++ us) = queueSize ts + queueSize us := by
  simp [queueSize]

@[simp] theorem bytesOf_append (ts us : List Token) :
    bytesOf (ts ++ us) = bytesOf ts ++ bytesOf us := by
  simp [bytesOf]

theorem Writer.pushAll_nil (w : Writer) : w.pushAll [] = w := by
  simp [Writer.pushAll, entriesOf, queueSize]

theorem Writer.pushAll_append (w : Writer) (ts us : List Token) :
    w.pushAll (ts ++ us) = (w.pushAll ts).pushAll us := by
  simp [Writer.pushAll, Nat.add_assoc]

/-- Below the flush limit the program queues what the traversal says, and raises when that does
not come to its end. -/
def Queues (m : WriterM Unit) (tr : Traversal) : Prop :=
  ∀ w : Writer, w.dictionary = none → w.writeQsize + queueSize tr.queued < w.flushLimit →
    (tr.completes = true ∧ exec m w = (.ok (), w.pushAll tr.queued)) ∨
    (tr.completes = false ∧ ∃ e, exec m w = (.error (.raised e), w.pushAll tr.queued))

theorem queues_pure : Queues (pure ()) ⟨[], true⟩ := by
  intro w _ _
  exact .inl ⟨rfl, by rw [exec_pure, w.pushAll_nil]⟩

theorem Queues.bind {m n : WriterM Unit} {a b : Traversal} (hm : Queues m a) (hn : Queues n b) :
    Queues (do m; n) (a.andThen b) := by
  intro w hw hlimit
  rcases hcompletes : a.completes with - | -
  · have hand : a.andThen b = a := by simp [Traversal.andThen, hcompletes]
    rw [hand] at hlimit ⊢
    obtain ⟨htrue, -⟩ | ⟨-, e, herror⟩ := hm w hw hlimit
    · cases hcompletes.symm.trans htrue
    · exact .inr ⟨hcompletes, e, exec_bind_error herror⟩
  · have hand : a.andThen b = ⟨a.queued ++ b.queued, b.completes⟩ := by
      simp [Traversal.andThen, hcompletes]
    rw [hand] at hlimit ⊢
    simp only [queueSize_append] at hlimit
    rcases hm w hw (by omega) with ⟨-, hok⟩ | ⟨hfalse, -⟩
    · have hrest : (w.pushAll a.queued).writeQsize + queueSize b.queued <
          (w.pushAll a.queued).flushLimit := by
        show w.writeQsize + queueSize a.queued + queueSize b.queued < w.flushLimit
        omega
      rw [exec_bind_ok hok, w.pushAll_append]
      exact hn (w.pushAll a.queued) hw hrest
    · cases hcompletes.symm.trans hfalse

theorem queues_store (t : Token) : Queues (store t) ⟨[t], true⟩ := by
  intro w _ hlimit
  left
  refine ⟨rfl, ?_⟩
  have hsize : queueSize [t] = t.size := by simp [queueSize]
  simp only [hsize] at hlimit
  have hmarker := @exec_qstore (.int t.marker.tag) rfl 1 w
  have hone : 1 ≤ t.size := Nat.le_add_right _ _
  rw [if_neg (by omega)] at hmarker
  rw [store, exec_bind_ok hmarker]
  rcases hp : t.payload with - | ⟨val, size⟩
  · simp [Writer.pushAll, entriesOf, Token.entries, queueSize, Token.size, hp]
  · have htotal : t.size = 1 + size := by simp [Token.size, hp]
    have hpay := exec_qstore (isFalsy_payload hp) size
      { w with writeQ := w.writeQ ++ [.int t.marker.tag], writeQsize := w.writeQsize + 1 }
    rw [if_neg (by show ¬w.flushLimit ≤ w.writeQsize + 1 + size; omega)] at hpay
    show exec (qstore val size) _ = _
    rw [hpay]
    simp [Writer.pushAll, entriesOf, Token.entries, queueSize, Token.size, hp, Nat.add_assoc]

theorem queues_storeAll (ts : List Token) : Queues (storeAll ts) ⟨ts, true⟩ := by
  induction ts with
  | nil => exact queues_pure
  | cons t ts ih => exact (queues_store t).bind ih

/-- A program that stores the tokens or refuses at once. -/
theorem queues_ofTokens {m : WriterM Unit} {ts : Option (List Token)} (h : Serializes m ts)
    (hnone : ts = none → ∀ w : Writer, w.dictionary = none →
      ∃ e, exec m w = (.error (.raised e), w)) : Queues m (ofTokens ts) := by
  cases ts with
  | some ts =>
    intro w hw hlimit
    rw [h w hw]
    exact queues_storeAll ts w hw hlimit
  | none =>
    intro w hw _
    obtain ⟨e, herror⟩ := hnone rfl w hw
    exact .inr ⟨rfl, e, by rw [herror]; simp [ofTokens, w.pushAll_nil]⟩

theorem queues_marker (m : Marker) (h : m.isPlain = true) : Queues (writeMarker m) (mark m h) :=
  queues_ofTokens (serializes_marker m h) nofun

theorem queues_number (x : Number) : Queues (writeNumber x) (ofTokens (tokens (.num x))) := by
  refine queues_ofTokens (serializes_number x) fun hnone w _ => ?_
  cases hm : numberMarker x with
  | ok m => cases (tokens_num hm).symm.trans hnone
  | error e => exact ⟨e, by rw [writeNumber, hm]; rfl⟩

theorem queues_string (s : Bytes) : Queues (writeString s) (ofTokens (tokens (.str s))) := by
  refine queues_ofTokens (serializes_string s) fun hnone w hw => ?_
  cases hm : stringMarker s with
  | ok m => cases (tokens_str hm).symm.trans hnone
  | error e =>
    refine ⟨e, ?_⟩
    rw [writeString, exec_bind_ok (exec_get w), hw, Option.bind_none, hm]
    rfl

mutual

theorem queues_serialize (v : LuaValue) : Queues (serialize v) (traverse v) := by
  match v with
  | .nil => exact queues_marker .nil rfl
  | .bool true => exact queues_marker .boolTrue rfl
  | .bool false => exact queues_marker .boolFalse rfl
  | .num x => exact queues_number x
  | .str s => exact queues_string s
  | .table [] hash =>
    exact (queues_marker .mapStart rfl).bind
      ((queues_serializePairs hash).bind (queues_marker .recordEnd rfl))
  | .table (x :: xs) _ =>
    exact (queues_marker .arrayStart rfl).bind
      ((queues_serialize x).bind
        ((queues_serializeAll xs).bind (queues_marker .recordEnd rfl)))
  | .sparse _ _ => exact (queues_marker .arrayStart rfl).bind (queues_marker .recordEnd rfl)
  | .other _ => exact queues_pure

theorem queues_serializeAll (xs : List LuaValue) : Queues (serializeAll xs) (traverseAll xs) := by
  match xs with
  | [] => exact queues_pure
  | x :: xs => exact (queues_serialize x).bind (queues_serializeAll xs)

theorem queues_serializePairs (entries : List (LuaValue × LuaValue)) :
    Queues (serializePairs entries) (traversePairs entries) := by
  match entries with
  | [] => exact queues_pure
  | (k, v) :: entries =>
    exact (queues_serialize k).bind
      ((queues_serialize v).bind (queues_serializePairs entries))

end

end Traversals

section Room

theorem numberFormat?_size {m : Marker} {format : NumberFormat} (hm : m ∈ Marker.intRanges)
    (h : m.numberFormat? = some format) : format.width = m.size := by
  simp only [Marker.intRanges, List.mem_cons, List.not_mem_nil, or_false] at hm
  obtain rfl | rfl | rfl | rfl | rfl | rfl | rfl | rfl | rfl := hm <;> cases h <;> rfl

/-- A token takes at least the bytes that it is counted for. -/
theorem Token.size_le (t : Token) : t.size ≤ t.bytes.length := by
  rw [Token.bytes, List.length_cons]
  cases t with
  | plain m hm => exact le_rfl
  | number m x hx =>
    obtain ⟨format, hformat, -, hlen⟩ := numberFormat?_number hx
    have hsize := numberFormat?_size (numberMarker_mem hx) hformat
    show 1 + m.size ≤ (Token.numberBytes m x).length + 1
    omega
  | string m s hs =>
    have hlen : s.length ≤ (Token.stringBytes m s).length := by
      have hmem := stringMarker_mem hs
      simp only [Marker.stringRanges, List.mem_cons, List.not_mem_nil, or_false] at hmem
      obtain rfl | rfl | rfl := hmem <;> simp [Token.stringBytes, Native.payload?]
    show 1 + s.length ≤ (Token.stringBytes m s).length + 1
    omega

theorem queueSize_le (ts : List Token) : queueSize ts ≤ (bytesOf ts).length := by
  induction ts with
  | nil => exact Nat.zero_le _
  | cons t ts ih =>
    have hsize : queueSize (t :: ts) = t.size + queueSize ts := by simp [queueSize]
    have hbytes : (bytesOf (t :: ts)).length = t.bytes.length + (bytesOf ts).length := by
      simp [bytesOf]
    have := t.size_le
    omega

theorem checkRoom_ok {pos need size : Nat} {u : Unit}
    (h : Native.checkRoom pos need size = .ok u) : pos + need ≤ size := by
  obtain ⟨-, hle⟩ | ⟨-, e, he⟩ := checkRoom_cases pos need size
  · exact hle
  · cases h.symm.trans he

/-- Every payload but the one of `UINT_32` is only stored where there is room. -/
theorem storePayload_room {payload : Native.Payload} (hsome : payload ≠ .none)
    (hchecked : ∀ width expected, payload ≠ .integer width false expected) {buffsize : Nat}
    {entry : Option LuaValue} {buff bytes : Bytes}
    (h : Native.storePayload buffsize payload entry buff = .ok bytes) :
    bytes.length ≤ buffsize := by
  cases payload with
  | none => exact absurd rfl hsome
  | integer width checked expected =>
    cases checked with
    | false => exact absurd rfl (hchecked width expected)
    | true =>
      simp only [Native.storePayload, if_true] at h
      obtain ⟨_, hroom, h⟩ := except_bind_ok h
      obtain ⟨ival, -, h⟩ := except_bind_ok h
      cases h
      rw [List.length_append, length_encodeInt]
      exact checkRoom_ok hroom
  | int64 =>
    obtain ⟨_, hroom, h⟩ := except_bind_ok h
    obtain ⟨dval, -, h⟩ := except_bind_ok h
    cases h
    rw [List.length_append, length_encodeInt]
    exact checkRoom_ok hroom
  | real format width expected =>
    obtain ⟨_, hroom, h⟩ := except_bind_ok h
    obtain ⟨dval, -, h⟩ := except_bind_ok h
    cases h
    rw [List.length_append, length_toBytes]
    exact checkRoom_ok hroom
  | string width expected =>
    obtain ⟨sval, -, h⟩ := except_bind_ok h
    obtain ⟨_, hroom, h⟩ := except_bind_ok h
    cases h
    rw [List.append_assoc, List.length_append, List.length_append, length_toBytes]
    exact checkRoom_ok hroom

theorem payload?_checked {m : Marker} (hm : m ≠ .uint32) {width : Nat} {expected : String} :
    Native.payload? m ≠ some (.integer width false expected) := by
  cases m <;> first | exact absurd rfl hm | nofun

/-- The last token of a queue is only stored where there is room for it. -/
theorem serializeEntries_last {t : Token} (ht : t.marker ≠ .uint32) {buffsize : Nat}
    {buff bytes : Bytes} (h : Native.serializeEntries buffsize t.entries buff = .ok bytes) :
    buff.length + t.bytes.length ≤ buffsize := by
  have hbytes : bytes = buff ++ t.bytes := by
    have htoken := serializeEntries_token t [] buffsize buff
    rw [List.append_nil, h] at htoken
    obtain hok | ⟨-, e, he⟩ := htoken
    · exact Except.ok.inj hok
    · cases he
  rcases hroom : Native.checkRoom buff.length 1 buffsize with e | u
  · have herror : Native.serializeEntries buffsize t.entries buff = .error e := by
      simp only [Token.entries, Native.serializeEntries, fetchNextAsInteger_tag, ok_bind, hroom,
        error_bind]
    cases h.symm.trans herror
  · rcases hp : t.payload with - | ⟨val, size⟩
    · cases t with
      | plain m hm => exact checkRoom_ok hroom
      | number m x hx => cases hp
      | string m s hs => cases hp
    · obtain ⟨p, hkind, hne, -⟩ := storePayload_token t hp buffsize buff
      have hround : Native.serializeEntries buffsize t.entries buff = (do
          let buff ← Native.storePayload buffsize p (some val)
            (buff ++ [UInt8.ofNat t.marker.tag])
          Native.serializeEntries buffsize [] buff) := by
        simp only [Token.entries, hp, Option.toList_some, List.map_cons, List.map_nil,
          Native.serializeEntries, fetchNextAsInteger_tag, hroom, ok_bind, ofTag?_cast, hkind,
          encodeInt_tag]
      rw [hround] at h
      obtain ⟨stored, hstored, h⟩ := except_bind_ok h
      cases h
      have hle := storePayload_room hne
        (fun _ _ he => payload?_checked ht (hkind.trans (congrArg some he))) hstored
      rwa [hbytes, List.length_append] at hle

/-- The buffer is large enough for a queue that was serialised. -/
theorem enoughRoom_of_ok {ts : List Token} {t : Token} (ht : t.marker ≠ .uint32) {bytes : Bytes}
    (h : Native.serializeWriteQ (entriesOf (ts ++ [t])) (queueSize (ts ++ [t])) = .ok bytes) :
    EnoughRoom (queueSize (ts ++ [t])) (bytesOf (ts ++ [t])) := by
  have hcounted := queueSize_le (ts ++ [t])
  have hbytes : (bytesOf (ts ++ [t])).length = (bytesOf ts).length + t.bytes.length := by
    simp [bytesOf]
  have hentries : entriesOf (ts ++ [t]) = entriesOf ts ++ t.entries := by simp [entriesOf]
  rw [Native.serializeWriteQ, hentries] at h
  generalize queueSize (ts ++ [t]) = len at h hcounted ⊢
  split at h
  · cases h
  · dsimp only at h
    split at h
    · cases h
    · next hneg =>
      have hlast : (bytesOf ts).length + t.bytes.length ≤
          (((len + 64 : Nat) : Int).bmod (2 ^ 32)).toNat := by
        obtain hall | ⟨-, e, he⟩ :=
          serializeEntries_tokens ts t.entries (((len + 64 : Nat) : Int).bmod (2 ^ 32)).toNat []
        · rw [hall, List.nil_append] at h
          exact serializeEntries_last ht h
        · cases h.symm.trans he
      rw [EnoughRoom, hbytes]
      rw [hbytes] at hcounted
      rw [Int.bmod_def] at hneg hlast
      split at hlast
      · next hlt =>
        rw [if_pos hlt] at hneg
        omega
      · next hge =>
        rw [if_neg hge] at hneg
        omega

theorem enoughRoom_number {m : Marker} {x : Number} (hx : numberMarker x = .ok m) :
    EnoughRoom (queueSize [.number m x hx]) (bytesOf [.number m x hx]) := by
  obtain ⟨format, hformat, -, hlen⟩ := numberFormat?_number hx
  have hsize := numberFormat?_size (numberMarker_mem hx) hformat
  have hsmall : m.size ≤ 8 := by cases m <;> decide
  have hqueue : queueSize [.number m x hx] = 1 + m.size := by
    simp [queueSize, Token.size, Token.payload]
  have hbytes : (bytesOf [.number m x hx]).length = format.width + 1 := by
    rw [bytesOf_number, List.length_cons, hlen]
  rw [EnoughRoom, hqueue, hbytes]
  omega

/-- A flush of a queue that does not end in a `UINT_32` behind other tokens takes place exactly
when there is room. -/
theorem flush_room {w : Writer} {ts : List Token} {t : Token} (h : Queued w (ts ++ [t]))
    (hlast : t.marker = .uint32 → ts = []) :
    (EnoughRoom (queueSize (ts ++ [t])) (bytesOf (ts ++ [t])) ∧
      exec flush w = (.ok (), w.flushed [bytesOf (ts ++ [t])])) ∨
    (¬EnoughRoom (queueSize (ts ++ [t])) (bytesOf (ts ++ [t])) ∧
      ∃ e, exec flush w = (.error (.raised e), w)) := by
  obtain ⟨-, hok⟩ | ⟨hbad, herror⟩ := flush_cases h
  · refine .inl ⟨?_, hok⟩
    by_cases ht : t.marker = .uint32
    · rw [hlast ht]
      cases t with
      | plain m hm =>
        cases ht
        cases hm
      | number m x hx => exact enoughRoom_number hx
      | string m s hs =>
        cases ht
        exact absurd (stringMarker_mem hs) (by decide)
    · rw [exec_flush h] at hok
      cases hser : Native.serializeWriteQ (entriesOf (ts ++ [t])) (queueSize (ts ++ [t])) with
      | ok bytes => exact enoughRoom_of_ok ht hser
      | error e =>
        rw [hser] at hok
        cases hok
  · refine .inr ⟨?_, herror⟩
    obtain hnil | hroom := hbad
    · simp at hnil
    · exact hroom

end Room

end Luaw.LuaPack
