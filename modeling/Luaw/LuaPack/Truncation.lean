import Luaw.LuaPack.AllOrNothing
import Luaw.LuaPack.RoundTrip
import Luaw.LuaPack.Soundness

/-!
# A message that is cut off

`done` only becomes true after `readFn` has returned nil, so the loop of `deserialize` looks for
one marker more in a container that is cut off, and returns the nil that it finds instead. What
remains is that no value is encoded at the beginning of the encoding of another.
-/

namespace Luaw.LuaPack

open Lua BigEndian Program

section Delimited

/-- What is derived at the place of these bytes neither ends before they do nor goes on. -/
def SelfDelimiting (bs : Bytes) : Prop :=
  ∀ ⦃c : Content⦄ ⦃bs' r r' : Bytes⦄, Derives Marker.readNumbers [] c bs' →
    bs ++ r = bs' ++ r' → bs = bs'

/-- The same for the contents of a container, up to the end of the record. -/
def SelfDelimitingAll (bs : Bytes) : Prop :=
  ∀ ⦃cs : List Content⦄ ⦃bs' r r' : Bytes⦄, DerivesAll Marker.readNumbers [] cs bs' →
    bs ++ UInt8.ofNat Marker.recordEnd.tag :: r =
      bs' ++ UInt8.ofNat Marker.recordEnd.tag :: r' → bs = bs'

/-- Bytes that begin with the marker of a value and delimit themselves. -/
def Delimited (bs : Bytes) : Prop :=
  (∃ (m : Marker) (ms : Bytes), bs = UInt8.ofNat m.tag :: ms ∧ m ≠ .recordEnd) ∧
    SelfDelimiting bs

theorem Derives.delimited {c : Content} {bs : Bytes} (h : Derives Marker.readNumbers [] c bs) :
    Delimited bs := by
  obtain ⟨m, ms, hbs, -, hend⟩ := h.head
  exact ⟨⟨m, ms, hbs, hend⟩, fun _ _ _ _ h' heq => (h.unique h' heq).1⟩

theorem selfDelimitingAll_nil : SelfDelimitingAll [] :=
  fun _ _ _ _ h' heq => (uniqueAll_nil h' heq).1

/-- A function is passed over without a byte, every other value delimits itself. -/
theorem SelfDelimitingAll.append {bs bs' : Bytes} (h : bs = [] ∨ Delimited bs)
    (hs : SelfDelimitingAll bs') : SelfDelimitingAll (bs ++ bs') := by
  obtain rfl | ⟨⟨m, ms, hbs, hend⟩, hself⟩ := h
  · exact hs
  intro cs bs'' r r' h' heq
  cases h' with
  | nil =>
    rw [hbs, List.nil_append, List.cons_append, List.cons_append, List.cons.injEq] at heq
    exact absurd (tag_injective heq.1) hend
  | cons h' hs' =>
    rw [List.append_assoc, List.append_assoc] at heq
    obtain rfl := hself h' heq
    obtain rfl := hs hs' (List.append_cancel_left heq)
    rfl

/-- A container ends with the record that its contents are followed by. -/
theorem SelfDelimitingAll.container {m : Marker} (hm : m = .arrayStart ∨ m = .mapStart)
    {bs : Bytes} (h : SelfDelimitingAll bs) :
    Delimited (UInt8.ofNat m.tag :: (bs ++ [UInt8.ofNat Marker.recordEnd.tag])) := by
  refine ⟨⟨m, _, rfl, by obtain rfl | rfl := hm <;> rintro ⟨⟩⟩, ?_⟩
  have hinner : ∀ {cs : List Content} {bs' r r' : Bytes},
      DerivesAll Marker.readNumbers [] cs bs' →
      (bs ++ [UInt8.ofNat Marker.recordEnd.tag]) ++ r =
        (bs' ++ [UInt8.ofNat Marker.recordEnd.tag]) ++ r' → bs = bs' := by
    intro cs bs' r r' h' heq
    rw [List.append_assoc, List.append_assoc] at heq
    exact h h' heq
  intro c bs' r r' h' heq
  cases h' with
  | scalar h' =>
    -- the marker of a container is not one of a value by itself
    rw [List.cons_append, List.cons_append, List.cons.injEq] at heq
    obtain rfl := tag_injective heq.1
    obtain rfl | rfl := hm
    · exact absurd rfl h'.not_structural.2.1
    · exact absurd rfl h'.not_structural.1
  | array h' =>
    rw [List.cons_append, List.cons_append, List.cons.injEq] at heq
    rw [heq.1, hinner h' heq.2]
  | map h' =>
    rw [List.cons_append, List.cons_append, List.cons.injEq] at heq
    rw [heq.1, hinner h' heq.2]

end Delimited

section Values

theorem delimited_plain {m : Marker} {c : Content} (h : Spells Marker.readNumbers [] m [] c)
    (hm : m.isPlain = true) : Delimited (bytesOf [.plain m hm]) :=
  (Derives.scalar h).delimited

theorem delimited_number {x : Number} {m : Marker} (hx : numberMarker x = .ok m) :
    Delimited (bytesOf [.number m x hx]) := by
  obtain ⟨format, hformat, -, hlen⟩ := numberFormat?_number hx
  have hpayload : NumberPayload m (Token.numberBytes m x)
      (.num (format.decode (Token.numberBytes m x))) := ⟨format, hformat, hlen, rfl⟩
  have hspells : Spells Marker.readNumbers [] m (Token.numberBytes m x)
      (.num (format.decode (Token.numberBytes m x))) := by
    have hm := numberMarker_mem hx
    simp only [Marker.intRanges, List.mem_cons, List.not_mem_nil, or_false] at hm
    obtain rfl | rfl | rfl | rfl | rfl | rfl | rfl | rfl | rfl := hm
    all_goals exact ⟨by decide, hpayload⟩
  rw [bytesOf_number]
  exact (Derives.scalar hspells).delimited

theorem delimited_string {s : Bytes} {m : Marker} (hs : stringMarker s = .ok m) :
    Delimited (bytesOf [.string m s hs]) := by
  have hm := stringMarker_mem hs
  have hlen : ofBytes (toBytes m.size s.length) = s.length := by
    rw [ofBytes_toBytes, Nat.mod_eq_of_lt (stringMarker_length hs)]
  have hpayload : StringPayload m (toBytes m.size s.length ++ s) (.str s) :=
    ⟨_, s, rfl, length_toBytes _ _, hlen, rfl⟩
  have hspells : Spells Marker.readNumbers [] m (toBytes m.size s.length ++ s) (.str s) := by
    simp only [Marker.stringRanges, List.mem_cons, List.not_mem_nil, or_false] at hm
    obtain rfl | rfl | rfl := hm <;> exact hpayload
  rw [bytesOf_string, stringBytes_eq hm]
  exact (Derives.scalar hspells).delimited

theorem delimited_container {m : Marker} (hm : m = .arrayStart ∨ m = .mapStart)
    {ts : List Token} (h : SelfDelimitingAll (bytesOf ts)) (hplain : m.isPlain = true) :
    Delimited (bytesOf (.plain m hplain :: (ts ++ [.plain .recordEnd rfl]))) := by
  have hbytes : bytesOf (.plain m hplain :: (ts ++ [.plain .recordEnd rfl])) =
      UInt8.ofNat m.tag :: (bytesOf ts ++ [UInt8.ofNat Marker.recordEnd.tag]) := by
    rw [bytesOf_cons, bytesOf_append]
    rfl
  rw [hbytes]
  exact h.container hm

mutual

/-- What is queued for a value is nothing, or delimits itself. -/
theorem tokens_delimited {v : LuaValue} {ts : List Token} (h : tokens v = some ts) :
    bytesOf ts = [] ∨ Delimited (bytesOf ts) := by
  match v with
  | .nil =>
    cases h
    exact .inr (@delimited_plain .nil .nil ⟨rfl, rfl⟩ rfl)
  | .bool true =>
    cases h
    exact .inr (@delimited_plain .boolTrue (.bool true) ⟨rfl, rfl⟩ rfl)
  | .bool false =>
    cases h
    exact .inr (@delimited_plain .boolFalse (.bool false) ⟨rfl, rfl⟩ rfl)
  | .num x =>
    rw [tokens] at h
    split at h
    · next hx =>
      cases h
      exact .inr (delimited_number hx)
    · cases h
  | .str s =>
    rw [tokens] at h
    split at h
    · next hs =>
      cases h
      exact .inr (delimited_string hs)
    · cases h
  | .table [] hash =>
    rw [tokens] at h
    obtain ⟨us, hus, rfl⟩ := Option.map_eq_some_iff.mp h
    exact .inr (delimited_container (.inr rfl) (tokensOfPairs_delimited hus) rfl)
  | .table (x :: xs) hash =>
    rw [tokens] at h
    obtain ⟨tx, htx, hrest⟩ := Option.bind_eq_some_iff.mp h
    obtain ⟨us, hus, rfl⟩ := Option.map_eq_some_iff.mp hrest
    have hall := (tokensOfAll_delimited hus).append (tokens_delimited htx)
    rw [← bytesOf_append] at hall
    exact .inr (delimited_container (.inl rfl) hall rfl)
  | .sparse _ _ =>
    cases h
    exact .inr (@delimited_container _ (.inl rfl) [] selfDelimitingAll_nil rfl)
  | .other _ =>
    cases h
    exact .inl rfl

theorem tokensOfAll_delimited {xs : List LuaValue} {ts : List Token}
    (h : tokensOfAll xs = some ts) : SelfDelimitingAll (bytesOf ts) := by
  match xs with
  | [] =>
    cases h
    exact selfDelimitingAll_nil
  | x :: xs =>
    rw [tokensOfAll] at h
    obtain ⟨tx, htx, hrest⟩ := Option.bind_eq_some_iff.mp h
    obtain ⟨us, hus, rfl⟩ := Option.map_eq_some_iff.mp hrest
    rw [bytesOf_append]
    exact (tokensOfAll_delimited hus).append (tokens_delimited htx)

theorem tokensOfPairs_delimited {entries : List (LuaValue × LuaValue)} {ts : List Token}
    (h : tokensOfPairs entries = some ts) : SelfDelimitingAll (bytesOf ts) := by
  match entries with
  | [] =>
    cases h
    exact selfDelimitingAll_nil
  | (k, v) :: entries =>
    rw [tokensOfPairs] at h
    obtain ⟨tk, htk, hvalues⟩ := Option.bind_eq_some_iff.mp h
    obtain ⟨tv, htv, hrest⟩ := Option.bind_eq_some_iff.mp hvalues
    obtain ⟨us, hus, rfl⟩ := Option.map_eq_some_iff.mp hrest
    rw [bytesOf_append, bytesOf_append, List.append_assoc]
    have hafter := (tokensOfPairs_delimited hus).append (tokens_delimited htv)
    exact hafter.append (tokens_delimited htk)

end

end Values

section Truncated

/-- The bytes that a writer without dictionary makes of the value: those it put out in the
flushes of one `write`, or those that its whole queue is turned into, given the room. -/
def EncodedAs (v : LuaValue) (s : Bytes) : Prop :=
  Written v s ∨ ∃ limit w size, QueuedWhole v limit w ∧
    Native.serializeWriteQ w.writeQ size = .ok s

theorem EncodedAs.tokens {v : LuaValue} {s : Bytes} (h : EncodedAs v s) :
    ∃ ts, tokens v = some ts ∧ s = bytesOf ts := by
  obtain hwritten | ⟨limit, w, size, hqueued, hserialize⟩ := h
  · exact hwritten.tokens
  cases hts : LuaPack.tokens v with
  | none =>
    have hser : Serializes (serialize v) none := hts ▸ serializes v
    obtain ⟨e, w', herror⟩ := hser (newLPackBufferWriter limit) rfl
    cases herror.symm.trans hqueued.1
  | some ts =>
    refine ⟨ts, rfl, ?_⟩
    rw [hqueued.queue hts] at hserialize
    have hsize : size ≠ 0 := by
      rintro rfl
      cases hserialize
    obtain hok | ⟨-, e, herror⟩ := serializeWriteQ_tokens ts hsize
    · exact Except.ok.inj (hserialize.symm.trans hok)
    · cases hserialize.symm.trans herror

/-- No value of the grammar is a proper part of an encoding, from its beginning on. -/
theorem EncodedAs.no_proper_prefix {v : LuaValue} {s p bs : Bytes} (h : EncodedAs v s)
    (hp : p <+: s) (hne : p ≠ s) {c : Content} (hderives : Derives Marker.readNumbers [] c bs) :
    ¬bs <+: p := by
  intro hfront
  obtain ⟨ts, hts, rfl⟩ := h.tokens
  obtain ⟨q, hq⟩ := hfront.trans hp
  obtain hnil | ⟨-, hself⟩ := tokens_delimited hts
  · have hpos := hderives.length_pos
    have hlen := (hfront.trans hp).length_le
    rw [hnil, List.length_nil] at hlen
    omega
  · obtain rfl : bytesOf ts = bs := @hself c bs [] q hderives (by rw [List.append_nil, hq])
    exact hne (hp.eq_of_length_le hfront.length_le)

/-- A reader at the end of its input has nothing more to return. -/
theorem exec_read_done {r : Reader} (hdone : r.done = true) (fuel : Nat) :
    exec (read (fuel + 1)) r = (.ok .nil, r) := by
  have heof : r.EOF = true := by
    rw [Reader.done, Bool.and_eq_true] at hdone
    exact hdone.1
  rw [exec_read, Reader.readNextBuffer_eof heof, deserializeLoop, exec_bind_ok (exec_get r), hdone]
  rfl

/-- A message that is cut off is read as nil by every `read` that returns, and so is whatever is
read after it. -/
theorem truncated_read_nil {v : LuaValue} {s p : Bytes} (h : EncodedAs v s) (hp : p <+: s)
    (hne : p ≠ s) {fuel : Nat} {val : LuaValue} {r : Reader}
    (hrun : exec (read fuel) (newLPackStringReader p) = (.ok val, r)) :
    val = .nil ∧ ∀ fuel, exec (read (fuel + 1)) r = (.ok .nil, r) := by
  have hseen : seen p <+: p := List.take_prefix _ _
  obtain ⟨hnil, hdone⟩ | ⟨-, q, hq⟩ | ⟨c, bs, hfront, hderives, -, -⟩ := read_cases hrun
  · exact ⟨hnil, exec_read_done hdone⟩
  · -- no value begins with the end of a record
    obtain ⟨ts, hts, rfl⟩ := h.tokens
    obtain ⟨q', hq'⟩ := hseen.trans hp
    rw [hq, List.cons_append] at hq'
    obtain hempty | ⟨⟨m, ms, hhead, hend⟩, -⟩ := tokens_delimited hts
    · rw [hempty] at hq'
      cases hq'
    · rw [hhead, List.cons.injEq] at hq'
      exact absurd (tag_injective hq'.1).symm hend
  · exact absurd (hfront.trans hseen) (h.no_proper_prefix hp hne hderives)

theorem encodedAs_pair : EncodedAs (.table [.int 7, .bool true] []) [2, 8, 7, 6, 4] := by
  have htokens : tokens (.table [.int 7, .bool true] []) =
      some [.plain .arrayStart rfl, .number .uint8 (.finite 7) numberMarker_seven,
        .plain .boolTrue rfl, .plain .recordEnd rfl] := by
    simp [tokens, tokensOfAll, LuaValue.int, tokens_num numberMarker_seven]
  exact .inl (written_of_tokens htokens (by rintro ⟨⟩) (by decide +kernel +revert))

/-- Of an array only the end of the record is missing. -/
theorem unfinished_pair_read_nil :
    ∃ val r, exec (read 20) (newLPackStringReader [2, 8, 7, 6]) = (.ok val, r) ∧
      val = .nil ∧ ∀ fuel, exec (read (fuel + 1)) r = (.ok .nil, r) := by
  have hcut : ([2, 8, 7, 6] : Bytes) <+: [2, 8, 7, 6, 4] := ⟨[4], rfl⟩
  have hrun : exec (read 20) (newLPackStringReader [2, 8, 7, 6]) =
      (.ok .nil, { newLPackReader [] with buffer := [2, 8, 7, 6], offset := 4, EOF := true }) := by
    rfl
  exact ⟨_, _, hrun, truncated_read_nil encodedAs_pair hcut (by decide) hrun⟩

end Truncated

end Luaw.LuaPack
