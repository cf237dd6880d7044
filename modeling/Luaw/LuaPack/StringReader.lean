import Luaw.LuaPack.Meaning
import Luaw.LuaPack.Termination

/-!
# Reading from one string

The functions of the reader on a string that `readFn` has handed out: they take their bytes off
the front of what is seen, or the input is exhausted and they return nil.
-/

namespace Luaw.LuaPack

open Lua Program BigEndian

/-- The bytes of a string that a C `int` counts, all of them below `2 ^ 31`. -/
def seen (s : Bytes) : Bytes := s.take (Native.remaining s 0).toNat

/-- The reader sees these bytes, and no chunk is to come. -/
structure Sees (r : Reader) (p : Bytes) : Prop where
  chunks : r.chunks = []
  EOF : r.EOF = false
  dictionary : r.dictionary = none
  bytes : p <+: r.buffer.drop r.offset
  count : Native.remaining r.buffer r.offset = p.length

theorem Sees.not_done {r : Reader} {p : Bytes} (h : Sees r p) : r.done = false := by
  rw [Reader.done, h.EOF]
  rfl

theorem Sees.advance {r : Reader} {bs q : Bytes} (h : Sees r (bs ++ q)) :
    (r.buffer.drop r.offset).take bs.length = bs ∧ Sees (r.advance bs.length) q := by
  obtain ⟨rest, hrest⟩ := h.bytes
  rw [List.append_assoc] at hrest
  refine ⟨?_, h.chunks, h.EOF, h.dictionary, ⟨rest, ?_⟩, ?_⟩
  · rw [← hrest, List.take_left]
  · show q ++ rest = r.buffer.drop (r.offset + bs.length)
    rw [← List.drop_drop, ← hrest, List.drop_left]
  · show Native.remaining r.buffer (r.offset + bs.length) = q.length
    have hcount := h.count
    rw [List.length_append, Native.remaining, Int.bmod_def] at hcount
    rw [Native.remaining, Int.bmod_def]
    split at hcount <;> split <;> omega

theorem Sees.small {r : Reader} {p : Bytes} (h : Sees r p) : p.length < 2 ^ 31 := by
  have hcount := h.count
  rw [Native.remaining, Int.bmod_def] at hcount
  split at hcount <;> omega

/-- The bytes that are long enough for a field. -/
theorem split_field {p : Bytes} {n : Nat} (h : n ≤ p.length) :
    ∃ bs q, p = bs ++ q ∧ bs.length = n :=
  ⟨p.take n, p.drop n, (List.take_append_drop n p).symm, List.length_take_of_le h⟩

section Numbers

/-- After EOF too few bytes stay too few. -/
theorem readNumber_starved {t : Nat} {format : NumberFormat}
    (ht : (Marker.ofTag? t).bind Marker.numberFormat? = some format) {r : Reader} {k : Nat}
    (hk : Native.remaining r.buffer r.offset = k) (hshort : k < format.width)
    (heof : r.EOF = true) {fuel : Nat} {v : Option Number} {r' : Reader}
    (hrun : exec (readNumber fuel (some t)) r = (.ok v, r')) : v = none ∧ r'.done = true := by
  induction fuel with
  | zero => cases hrun
  | succ fuel ih =>
    cases hdone : r.done with
    | true =>
      rw [exec_readNumber_done fuel _ hdone] at hrun
      cases hrun
      exact ⟨rfl, hdone⟩
    | false =>
      rw [exec_readNumber ht (by omega) hdone hk, if_neg (by omega),
        Reader.readNextBuffer_eof heof] at hrun
      exact ih hrun

/-- A number that is there. -/
theorem exec_readNumber_sees {t : Nat} {format : NumberFormat}
    (ht : (Marker.ofTag? t).bind Marker.numberFormat? = some format) {r : Reader}
    {payload q : Bytes} (h : Sees r (payload ++ q)) (hlen : payload.length = format.width)
    (fuel : Nat) :
    exec (readNumber (fuel + 1) (some t)) r =
      (.ok (some (format.decode payload)), r.advance payload.length) := by
  have hcount := h.count
  rw [List.length_append] at hcount
  obtain ⟨m, -, hformat⟩ := Option.bind_eq_some_iff.mp ht
  have hpos := (numberFormat?_width hformat).1
  rw [exec_readNumber ht hpos h.not_done hcount, if_pos (by omega), ← hlen, h.advance.1]
  rfl

/-- `readNumber` returns the number in front, or nil at the end. -/
theorem Sees.readNumber {r r' : Reader} {p : Bytes} (h : Sees r p) {fuel : Nat} {t : Option Nat}
    {v : Option Number} (hrun : exec (readNumber fuel t) r = (.ok v, r')) :
    (v = none ∧ r'.done = true) ∨ ∃ t' format payload q, t = some t' ∧
      (Marker.ofTag? t').bind Marker.numberFormat? = some format ∧ p = payload ++ q ∧
      payload.length = format.width ∧ v = some (format.decode payload) ∧ Sees r' q := by
  cases fuel with
  | zero => cases hrun
  | succ fuel =>
    obtain ⟨e, herror⟩ | ⟨t, format, k, rfl, hformat, hk⟩ := readNumber_cases t h.not_done
    · rw [herror] at hrun
      cases hrun
    obtain ⟨m, -, hm⟩ := Option.bind_eq_some_iff.mp hformat
    have hpos := (numberFormat?_width hm).1
    have hcount := h.count
    by_cases hfit : format.width ≤ p.length
    · obtain ⟨payload, q, rfl, hlen⟩ := split_field hfit
      rw [exec_readNumber_sees hformat h hlen] at hrun
      cases hrun
      exact .inr ⟨t, format, payload, q, rfl, hformat, rfl, hlen, rfl, h.advance.2⟩
    · rw [exec_readNumber hformat hpos h.not_done hk, if_neg (by omega),
        Reader.readNextBuffer_end h.EOF h.chunks] at hrun
      exact .inl (@readNumber_starved _ _ hformat { r with EOF := true } _ hk (by omega) rfl _ _ _
        hrun)

/-- The byte of a marker. -/
theorem ofTag?_eq_some {tag : Nat} {m : Marker} (h : Marker.ofTag? tag = some m) :
    tag = m.tag := by
  have hlt : tag < Marker.all.length := (List.getElem?_eq_some_iff.mp h).1
  have hall : ∀ tag < Marker.all.length, ∀ m, Marker.ofTag? tag = some m → tag = m.tag := by
    decide
  exact hall tag hlt m h

theorem wireNat_byte (b : UInt8) : wireNat ((NumberFormat.unsigned 1).decode [b]) = b.toNat := by
  have hbyte : ofBytes [b] = b.toNat := by simp [ofBytes]
  have hlt := b.toNat_lt
  rw [decode_unsigned (by omega), wireNat_cast, hbyte]

theorem exec_readMarker_sees {r : Reader} {m : Marker} {q : Bytes}
    (h : Sees r (UInt8.ofNat m.tag :: q)) (fuel : Nat) :
    exec (readMarker (fuel + 1)) r = (.ok (some m.tag), r.advance 1) := by
  have hread := @exec_readNumber_sees Marker.typeMarker.tag (.unsigned 1) rfl r
    [UInt8.ofNat m.tag] q h rfl fuel
  rw [readMarker, exec_bind_ok hread, Option.map_some, wireNat_byte, UInt8.toNat_ofNat',
    Nat.mod_eq_of_lt m.tag_lt]
  rfl

theorem Sees.readMarker {r r' : Reader} {p : Bytes} (h : Sees r p) {fuel : Nat} {t : Option Nat}
    (hrun : exec (readMarker fuel) r = (.ok t, r')) :
    (t = none ∧ r'.done = true) ∨ ∃ b q, p = b :: q ∧ t = some b.toNat ∧ Sees r' q := by
  obtain ⟨v, r₁, hnumber, hvalue⟩ := exec_bind_returns hrun
  cases hvalue
  obtain ⟨rfl, hdone⟩ | ⟨t, format, payload, q, ht, hformat, rfl, hlen, rfl, hsees⟩ :=
    h.readNumber hnumber
  · exact .inl ⟨rfl, hdone⟩
  · cases ht
    cases hformat
    obtain ⟨b, rfl⟩ := List.length_eq_one_iff.mp hlen
    exact .inr ⟨b, q, rfl, by rw [Option.map_some, wireNat_byte], hsees⟩

end Numbers

section Strings

/-- After EOF nothing more of a string is found. -/
theorem readPieces_starved {desiredLen : Nat} (hpos : 0 < desiredLen)
    (hsmall : desiredLen < 2 ^ 31) {accm : List Bytes} {r : Reader}
    (hk : Native.remaining r.buffer r.offset = (0 : Nat)) (heof : r.EOF = true) {fuel : Nat}
    {v : LuaValue} {r' : Reader} (hrun : exec (readPieces fuel desiredLen accm) r = (.ok v, r')) :
    v = .nil ∧ r'.done = true := by
  induction fuel with
  | zero => cases hrun
  | succ fuel ih =>
    cases hdone : r.done with
    | true =>
      have hcond : ¬(0 < desiredLen ∧ r.done = false) := by simp [hdone]
      rw [readPieces, exec_bind_ok (exec_get r), if_neg hcond] at hrun
      cases hrun
      exact ⟨rfl, hdone⟩
    | false =>
      rw [exec_readPieces hpos hsmall hdone hk, if_neg (Nat.not_le_of_lt hpos),
        if_neg (Nat.lt_irrefl 0), Reader.readNextBuffer_eof heof] at hrun
      exact ih hrun

theorem exec_readPieces_sees {r : Reader} {s q : Bytes} (h : Sees r (s ++ q)) (fuel : Nat) :
    exec (readPieces (fuel + 1) s.length []) r = (.ok (readAs (.str s)), r.advance s.length) := by
  by_cases hs : s = []
  · subst hs
    exact exec_readPieces_zero fuel [] r
  · have hcount := h.count
    have hsmall := h.small
    rw [List.length_append] at hcount hsmall
    rw [exec_readPieces (List.length_pos_of_ne_nil hs) (by omega) h.not_done hcount,
      if_pos (by omega), h.advance.1, readAs, if_neg hs]
    rfl

/-- `readString` returns the bytes in front, or nil at the end or for no bytes. -/
theorem Sees.readPieces {r r' : Reader} {p : Bytes} (h : Sees r p) {fuel desiredLen : Nat}
    (hlt : desiredLen < 2 ^ 32) {v : LuaValue}
    (hrun : exec (readPieces fuel desiredLen []) r = (.ok v, r')) :
    (v = .nil ∧ r'.done = true) ∨ ∃ s q, p = s ++ q ∧ s.length = desiredLen ∧
      v = readAs (.str s) ∧ Sees r' q := by
  cases fuel with
  | zero => cases hrun
  | succ fuel =>
    by_cases hfit : desiredLen ≤ p.length
    · obtain ⟨s, q, rfl, rfl⟩ := split_field hfit
      rw [exec_readPieces_sees h] at hrun
      cases hrun
      exact .inr ⟨s, q, rfl, rfl, rfl, h.advance.2⟩
    · left
      by_cases hsmall : desiredLen < 2 ^ 31
      · have hrest : ∀ {k : Nat}, Native.remaining r.buffer (r.offset + k) = (0 : Nat) →
            Native.remaining (r.advance k).readNextBuffer.buffer
              (r.advance k).readNextBuffer.offset = (0 : Nat) ∧
            (r.advance k).readNextBuffer.EOF = true := by
          intro k hk
          rw [Reader.readNextBuffer_end (r := r.advance k) h.EOF h.chunks]
          exact ⟨hk, rfl⟩
        rw [exec_readPieces (by omega) hsmall h.not_done h.count, if_neg hfit] at hrun
        have hnone := remaining_advance h.count
        split at hrun
        · exact readPieces_starved (by omega) (by omega) (hrest hnone).1 (hrest hnone).2 hrun
        · next hzero =>
          have hlen : p.length = 0 := by omega
          rw [hlen] at hnone
          exact readPieces_starved (by omega) hsmall (hrest hnone).1 (hrest hnone).2 hrun
      · obtain ⟨e, he⟩ := readPieces_long (Nat.le_of_not_lt hsmall) hlt [] h.not_done
        rw [he] at hrun
        cases hrun

end Strings

end Luaw.LuaPack
