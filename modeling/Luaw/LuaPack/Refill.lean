import Luaw.LuaPack.Reader

/-!
# Refilling the buffer of the reader

`Holds` says which bytes a reader has still to deliver. A refill keeps them unless the chunk
arrives while the buffer is partly consumed: the code then keeps one byte too many. `Reads` is
the resulting rule for programs, with the torn runs set aside.
-/

namespace Luaw.LuaPack

open Lua Program

/-- The reader has the given bytes still to deliver, from the buffer and from at most `chunks`
calls of `readFn`, and they are few enough for a C `int`. -/
structure Holds (r : Reader) (pending : Bytes) (chunks : Nat) : Prop where
  bytes : r.buffer.drop r.offset ++ r.chunks.flatten = pending
  bound : r.offset ≤ r.buffer.length
  eof : r.EOF = true → r.chunks = []
  small : r.buffer.length + r.chunks.flatten.length < 2 ^ 31
  count : r.chunks.length ≤ chunks
  nonempty : ∀ chunk ∈ r.chunks, chunk ≠ []
  dictionary : r.dictionary = none

theorem Holds.not_done {r : Reader} {p : Bytes} {c : Nat} (h : Holds r p c) (hp : p ≠ []) :
    r.done = false := by
  rw [Reader.done, Bool.and_eq_false_iff]
  by_cases heof : r.EOF = true
  · right
    have hbytes := h.bytes
    rw [h.eof heof, List.flatten_nil, List.append_nil] at hbytes
    have hlen : (r.buffer.drop r.offset).length ≠ 0 := by
      rw [hbytes]
      exact fun h0 => hp (List.length_eq_zero_iff.mp h0)
    rw [List.length_drop] at hlen
    simp only [decide_eq_false_iff_not]
    omega
  · exact .inl (Bool.eq_false_iff.mpr heof)

theorem Holds.remaining {r : Reader} {p : Bytes} {c : Nat} (h : Holds r p c) :
    Native.remaining r.buffer r.offset = (r.buffer.length - r.offset : Nat) := by
  have := h.bound
  have := h.small
  rw [Native.remaining, Int.bmod_eq_of_le_mul_two (by omega) (by omega)]
  omega

theorem Holds.length {r : Reader} {p : Bytes} {c : Nat} (h : Holds r p c) :
    p.length = r.buffer.length - r.offset + r.chunks.flatten.length := by
  rw [← h.bytes, List.length_append, List.length_drop]

/-- Bytes taken from the buffer. -/
theorem Holds.advance {r : Reader} {bs p : Bytes} {c : Nat} (h : Holds r (bs ++ p) c)
    (hfit : bs.length ≤ r.buffer.length - r.offset) :
    (r.buffer.drop r.offset).take bs.length = bs ∧
      Holds { r with offset := r.offset + bs.length } p c := by
  have hbound := h.bound
  have hlen : bs.length ≤ (r.buffer.drop r.offset).length := by
    rw [List.length_drop]
    exact hfit
  have htake : (r.buffer.drop r.offset).take bs.length = bs := by
    have := congrArg (List.take bs.length) h.bytes
    rwa [List.take_append_of_le_length hlen, List.take_left'] at this
    rfl
  refine ⟨htake, ?_, ?_, h.eof, h.small, h.count, h.nonempty, h.dictionary⟩
  · have := congrArg (List.drop bs.length) h.bytes
    rwa [List.drop_append_of_le_length hlen, List.drop_drop, List.drop_left'] at this
    rfl
  · show r.offset + bs.length ≤ r.buffer.length
    omega

/-- A refill keeps exactly the unread bytes of the buffer, unless the buffer is partly consumed:
then the last byte read comes back. -/
theorem refill_exact_iff (r : Reader) (chunk : Bytes) :
    (r.refill chunk).buffer = r.buffer.drop r.offset ++ chunk ↔
      ¬(0 < r.offset ∧ r.offset < r.buffer.length) := by
  simp only [Reader.refill, Reader.luaSub]
  by_cases hlt : r.offset < r.buffer.length
  · rw [if_pos hlt, List.append_left_inj]
    constructor
    · rintro hdrop ⟨hpos, -⟩
      have hlen := congrArg List.length hdrop
      rw [List.length_drop, List.length_drop] at hlen
      omega
    · intro htear
      have h0 : r.offset = 0 := by omega
      rw [h0]
  · rw [if_neg hlt, List.drop_eq_nil_of_le (Nat.le_of_not_lt hlt), List.nil_append]
    simp [hlt]

/-- A new chunk: it tears the buffer, or nothing is lost and there is one chunk less to come. -/
theorem Holds.readNextBuffer {r : Reader} {p : Bytes} {c : Nat} (h : Holds r p c)
    (hmore : r.chunks ≠ []) :
    r.readNextBuffer.torn = true ∨
      (Holds r.readNextBuffer p c ∧ r.readNextBuffer.chunks.length + 1 = r.chunks.length) := by
  obtain ⟨hbytes, hbound, heof, hsmall, hcount, hne, hdict⟩ := h
  have hopen : r.EOF = false := Bool.eq_false_iff.mpr fun he => hmore (heof he)
  obtain ⟨chunks, EOF, buffer, offset, dictionary, torn⟩ := r
  cases chunks with
  | nil => exact absurd rfl hmore
  | cons chunk chunks =>
    simp only at hopen hbytes hbound hsmall hcount hne hdict
    subst hopen
    simp only [Reader.readNextBuffer, Bool.false_eq_true, if_false, Reader.refill, Reader.luaSub]
    by_cases htear : 0 < offset ∧ offset < buffer.length
    · left
      simp [htear]
    · right
      have hkeep := (refill_exact_iff ⟨chunks, false, buffer, offset, dictionary, torn⟩ chunk).mpr
        htear
      simp only [Reader.refill, Reader.luaSub] at hkeep
      rw [hkeep]
      rw [List.flatten_cons] at hbytes hsmall
      refine ⟨⟨?_, Nat.zero_le _, fun he => absurd he nofun, ?_, ?_,
        fun chunk hmem => hne chunk (List.mem_cons_of_mem _ hmem), hdict⟩, rfl⟩
      · rw [← hbytes, List.drop_zero, List.append_assoc]
      · simp only [List.length_append, List.length_drop] at hsmall ⊢
        omega
      · simp only [List.length_cons] at hcount
        simp only
        omega

/-- A property of the reader that the basic changes of the code preserve. -/
structure Stable (I : Reader → Prop) : Prop where
  next : ∀ r, I r → I r.readNextBuffer
  offset : ∀ r n, I r → I { r with offset := n }
  dictionary : ∀ r words, I r → I { r with dictionary := words }

namespace Stable

variable {I : Reader → Prop} (hI : Stable I)
include hI

theorem readNextBuffer : Keeps I readNextBuffer := hI.next

theorem readNumber (fuel : Nat) (t : Option Nat) : Keeps I (readNumber fuel t) := by
  induction fuel with
  | zero => exact .outOfFuel
  | succ fuel ih =>
    refine .bind .get fun lpack => .ite (.pure _) ?_
    cases t with
    | none => exact .raise _
    | some t =>
      refine .bind (.ofExcept _) fun read => .ite ?_ ?_
      · exact .bind (.modify fun r hr => hI.offset r _ hr) fun _ => .pure _
      · exact .bind hI.readNextBuffer fun _ => ih

theorem readPieces (fuel desiredLen : Nat) (accm : List Bytes) :
    Keeps I (readPieces fuel desiredLen accm) := by
  induction fuel generalizing desiredLen accm with
  | zero => exact .outOfFuel
  | succ fuel ih =>
    refine .bind .get fun lpack => .ite ?_ (.pure _)
    refine .bind (.ofExcept _) fun read => .ite ?_ ?_
    · refine .bind (.modify fun r hr => hI.offset r _ hr) fun _ => .ite (.pure _) ?_
      exact .bind hI.readNextBuffer fun _ => ih _ _
    · exact .bind hI.readNextBuffer fun _ => ih _ _

theorem readString (fuel : Nat) (len : Option Number) : Keeps I (readString fuel len) := by
  cases len with
  | none => exact .raise _
  | some len => exact hI.readPieces _ _ _

theorem readMarker (fuel : Nat) : Keeps I (readMarker fuel) :=
  .bind (hI.readNumber _ _) fun _ => .pure _

theorem readSizedString (fuel : Nat) (m : Marker) : Keeps I (readSizedString fuel m) :=
  .bind (hI.readNumber _ _) fun _ => hI.readString _ _

theorem readDictEntry (fuel : Nat) (dictionary : Option (List LuaValue)) (m len : Marker) :
    Keeps I (readDictEntry fuel dictionary m len) := by
  refine .bind (hI.readNumber _ _) fun dw => ?_
  cases dictionary with
  | none => exact .raise _
  | some words => exact .ite (.raise _) (.pure _)

theorem readValue (fuel : Nat) {inner : Container → ReaderM LuaValue}
    (hinner : ∀ container, Keeps I (inner container)) (dictionary : Option (List LuaValue))
    (t : Option Nat) : Keeps I (readValue fuel inner dictionary t) := by
  rw [LuaPack.readValue]
  split
  · exact .pure _
  · exact .pure _
  · exact .pure _
  · exact hI.readSizedString _ _
  · exact hI.readSizedString _ _
  · exact hI.readSizedString _ _
  · exact hinner _
  · exact hinner _
  · exact hI.readDictEntry _ _ _ _
  · exact hI.readDictEntry _ _ _ _
  · exact .bind (hI.readNumber _ _) fun _ => .pure _

omit hI in
theorem storeValue {next : Frame → ReaderM LuaValue} (hnext : ∀ fr, Keeps I (next fr))
    (fr : Frame) (val : LuaValue) : Keeps I (storeValue next fr val) := by
  rw [LuaPack.storeValue]
  split
  · exact .pure _
  · exact .bind (.ofExcept _) hnext

theorem deserializeMarked (fuel : Nat) {inner : Container → ReaderM LuaValue}
    {next : Frame → ReaderM LuaValue} (hinner : ∀ container, Keeps I (inner container))
    (hnext : ∀ fr, Keeps I (next fr)) (fr : Frame) (t : Option Nat) :
    Keeps I (deserializeMarked fuel inner next fr t) := by
  rw [LuaPack.deserializeMarked]
  split
  · split
    · exact .raise _
    · exact .pure _
  · exact .bind (hinner _) fun _ => .bind (.modify fun r hr => hI.dictionary r _ hr) fun _ => .raise _
  · exact .bind (hI.readValue fuel hinner _ _) fun _ => storeValue hnext _ _

theorem deserializeLoop (fuel : Nat) (fr : Frame) : Keeps I (deserializeLoop fuel fr) := by
  induction fuel generalizing fr with
  | zero => exact .outOfFuel
  | succ fuel ih =>
    refine .bind .get fun r => .ite (.pure _) ?_
    refine .bind (hI.readMarker fuel) fun t => ?_
    exact hI.deserializeMarked fuel (fun _ => .bind .get fun _ => ih _) ih fr t

theorem read (fuel : Nat) : Keeps I (read fuel) :=
  .bind hI.readNextBuffer fun _ => .bind .get fun _ => hI.deserializeLoop fuel _

end Stable

theorem torn_readNextBuffer {r : Reader} (h : r.torn = true) : r.readNextBuffer.torn = true := by
  rw [Reader.readNextBuffer]
  split
  · exact h
  · split
    · exact h
    · simp [Reader.refill, h]

/-- The flag is never cleared. -/
theorem stable_torn : Stable fun r => r.torn = true :=
  ⟨fun _ => torn_readNextBuffer, fun _ _ h => h, fun _ _ h => h⟩

abbrev KeepsTorn {α : Type} (m : ReaderM α) : Prop := Keeps (fun r => r.torn = true) m

/-- Starting with the bytes `p` to come, the program ends torn, or it ends with the given
result and the bytes `q` to come. -/
def Reads {α : Type} (c : Nat) (m : ReaderM α) (p : Bytes) (result : Except LuaError α)
    (q : Bytes) : Prop :=
  ∀ r, Holds r p c → (exec m r).2.torn = true ∨
    ∃ r', exec m r = (result.mapError .raised, r') ∧ Holds r' q c

namespace Reads

variable {α β : Type} {c : Nat} {p q : Bytes}

theorem pure (a : α) : Reads c (Pure.pure a) p (.ok a) p := fun r h => .inr ⟨r, rfl, h⟩

theorem raise (e : LuaError) : Reads c (Program.raise e : ReaderM α) p (.error e) p :=
  fun r h => .inr ⟨r, rfl, h⟩

/-- What follows a torn read keeps it torn. -/
theorem torn_bind {m : ReaderM α} {f : α → ReaderM β} {r : Reader}
    (htorn : (exec m r).2.torn = true) (hkeep : ∀ a, KeepsTorn (f a)) :
    (exec (m >>= f) r).2.torn = true := by
  rw [exec_bind]
  rcases hrun : exec m r with ⟨outcome, r'⟩
  rw [hrun] at htorn
  cases outcome with
  | ok a => exact hkeep a r' htorn
  | error e => exact htorn

theorem bind {m : ReaderM α} {f : α → ReaderM β} {a : α} {result : Except LuaError β} {q' : Bytes}
    (hm : Reads c m p (.ok a) q) (hf : Reads c (f a) q result q') (hkeep : ∀ a, KeepsTorn (f a)) :
    Reads c (m >>= f) p result q' := by
  intro r h
  obtain htorn | ⟨r', hrun, h'⟩ := hm r h
  · exact .inl (torn_bind htorn hkeep)
  · have hrun' : exec m r = (.ok a, r') := hrun
    rw [exec_bind_ok hrun']
    exact hf r' h'

theorem bind_error {m : ReaderM α} {f : α → ReaderM β} {e : LuaError}
    (hm : Reads c m p (.error e) q) (hkeep : ∀ a, KeepsTorn (f a)) :
    Reads c (m >>= f) p (.error e) q := by
  intro r h
  obtain htorn | ⟨r', hrun, h'⟩ := hm r h
  · exact .inl (torn_bind htorn hkeep)
  · have hrun' : exec m r = (.error (.raised e), r') := hrun
    exact .inr ⟨r', exec_bind_error hrun', h'⟩

end Reads

/-- One round of the loop of `readNumber`. -/
theorem exec_readNumber {r : Reader} {t k : Nat} {format : NumberFormat}
    (ht : (Marker.ofTag? t).bind Marker.numberFormat? = some format) (hpos : 0 < format.width)
    (hdone : r.done = false) (hk : Native.remaining r.buffer r.offset = (k : Nat)) (fuel : Nat) :
    exec (readNumber (fuel + 1) (some t)) r =
      if format.width ≤ k then
        (.ok (some (format.decode ((r.buffer.drop r.offset).take format.width))),
          { r with offset := r.offset + format.width })
      else exec (readNumber fuel (some t)) r.readNextBuffer := by
  have hnonneg : ¬Native.remaining r.buffer r.offset < 0 := by omega
  have hlt : Native.remaining r.buffer r.offset < format.width ↔ k < format.width := by
    rw [hk]
    omega
  simp only [readNumber, exec_bind_ok (exec_get r), hdone, Bool.false_eq_true, if_false,
    Native.readNumber, if_neg hnonneg, ht, hlt]
  by_cases hfit : format.width ≤ k
  · rw [if_neg (by omega), if_pos hfit, exec_bind_ok (exec_ofExcept_ok _ r), exec_ite, if_pos hpos]
    rfl
  · rw [if_pos (by omega), if_neg hfit, exec_bind_ok (exec_ofExcept_ok _ r), exec_ite,
      if_neg (Nat.lt_irrefl 0)]
    rfl

/-- A number is read wherever its bytes were cut. -/
theorem readNumber_reads {t : Nat} {format : NumberFormat}
    (ht : (Marker.ofTag? t).bind Marker.numberFormat? = some format) (hpos : 0 < format.width)
    {bs q : Bytes} (hbs : bs.length = format.width) {c fuel : Nat} (hfuel : c < fuel) :
    Reads c (readNumber fuel (some t)) (bs ++ q) (.ok (some (format.decode bs))) q := by
  intro r h
  have hcount : r.chunks.length < fuel := by
    have := h.count
    omega
  clear hfuel
  induction fuel generalizing r with
  | zero => exact absurd hcount (Nat.not_lt_zero _)
  | succ fuel ih =>
    have hne : bs ++ q ≠ [] := by
      intro h0
      have hlen := congrArg List.length h0
      rw [List.length_append, List.length_nil] at hlen
      omega
    rw [exec_readNumber ht hpos (h.not_done hne) h.remaining]
    -- either the buffer holds the number, or there is one more chunk to read
    by_cases hfit : format.width ≤ r.buffer.length - r.offset
    · obtain ⟨htake, hrest⟩ := h.advance (hbs ▸ hfit)
      rw [hbs] at htake hrest
      rw [if_pos hfit, htake]
      exact .inr ⟨_, rfl, hrest⟩
    · have hmore : r.chunks ≠ [] := by
        intro h0
        have hlen := h.length
        rw [h0, List.flatten_nil, List.length_nil, List.length_append] at hlen
        omega
      rw [if_neg hfit]
      obtain htorn | ⟨h', hless⟩ := h.readNextBuffer hmore
      · exact .inl (stable_torn.readNumber _ _ _ htorn)
      · exact ih _ h' (by omega)

/-- One round of the loop of `readString` when bytes are still wanted. -/
theorem exec_readPieces {r : Reader} {desiredLen k : Nat} (hpos : 0 < desiredLen)
    (hsmall : desiredLen < 2 ^ 31) (hdone : r.done = false)
    (hk : Native.remaining r.buffer r.offset = (k : Nat)) (fuel : Nat) (accm : List Bytes) :
    exec (readPieces (fuel + 1) desiredLen accm) r =
      if desiredLen ≤ k then
        (.ok (.str (accm.flatten ++ (r.buffer.drop r.offset).take desiredLen)),
          { r with offset := r.offset + desiredLen })
      else if 0 < k then
        exec (readPieces fuel (desiredLen - k) (accm ++ [(r.buffer.drop r.offset).take k]))
          ({ r with offset := r.offset + k } : Reader).readNextBuffer
      else exec (readPieces fuel desiredLen accm) r.readNextBuffer := by
  have hnonneg : ¬((k : Nat) : Int) < 0 := by omega
  have hdesired : (desiredLen : Int).bmod (2 ^ 32) = desiredLen := by
    rw [Int.bmod_eq_of_le_mul_two (by omega) (by omega)]
  have hcond : 0 < desiredLen ∧ r.done = false := ⟨hpos, hdone⟩
  simp only [readPieces, exec_bind_ok (exec_get r), if_pos hcond, Native.readString,
    if_neg hnonneg, hdesired, hk, Nat.cast_le, Int.toNat_natCast]
  by_cases hfit : desiredLen ≤ k
  · have hneg : ¬(desiredLen : Int) < 0 := by omega
    rw [if_pos hfit, if_pos hfit, if_neg hneg, exec_bind_ok (exec_ofExcept_ok _ r), exec_ite,
      if_pos hpos, exec_bind_ok (exec_modify _ r), exec_ite, if_pos (Nat.sub_self _)]
    rfl
  · rw [if_neg hfit, if_neg hfit, exec_bind_ok (exec_ofExcept_ok _ r), exec_ite]
    by_cases hk0 : 0 < k
    · rw [if_pos hk0, if_pos hk0, exec_bind_ok (exec_modify _ r), exec_ite, if_neg (by omega)]
      rfl
    · rw [if_neg hk0, if_neg hk0]
      rfl

/-- A non-empty string is read wherever its bytes were cut. -/
theorem readPieces_reads {s q : Bytes} (hs : s ≠ []) {c fuel : Nat} (hfuel : c < fuel)
    (accm : List Bytes) :
    Reads c (readPieces fuel s.length accm) (s ++ q) (.ok (.str (accm.flatten ++ s))) q := by
  intro r h
  have hcount : r.chunks.length < fuel := by
    have := h.count
    omega
  clear hfuel
  induction fuel generalizing r s accm with
  | zero => exact absurd hcount (Nat.not_lt_zero _)
  | succ fuel ih =>
    have hpos : 0 < s.length := List.length_pos_of_ne_nil hs
    have hlen := h.length
    have hsmall : s.length < 2 ^ 31 := by
      have := h.small
      rw [List.length_append] at hlen
      omega
    rw [exec_readPieces hpos hsmall (h.not_done (by simp [hs])) h.remaining]
    -- the buffer holds the string, a first part of it, or nothing
    by_cases hfit : s.length ≤ r.buffer.length - r.offset
    · obtain ⟨htake, hrest⟩ := h.advance hfit
      rw [if_pos hfit, htake]
      exact .inr ⟨_, rfl, hrest⟩
    · have hmore : r.chunks ≠ [] := by
        intro h0
        rw [h0, List.flatten_nil, List.length_nil, List.length_append] at hlen
        omega
      rw [if_neg hfit]
      by_cases hk : 0 < r.buffer.length - r.offset
      · -- the buffer holds the first part of the string
        rw [if_pos hk]
        obtain ⟨first, second, rfl, hfirst⟩ :
            ∃ first second, s = first ++ second ∧ first.length = r.buffer.length - r.offset :=
          ⟨s.take (r.buffer.length - r.offset), s.drop (r.buffer.length - r.offset),
            (List.take_append_drop _ s).symm, by rw [List.length_take]; omega⟩
        rw [List.append_assoc] at h
        obtain ⟨htake, hrest⟩ := h.advance hfirst.le
        rw [hfirst] at htake hrest
        have hsecond : (first ++ second).length - (r.buffer.length - r.offset) = second.length := by
          rw [List.length_append, hfirst, Nat.add_sub_cancel_left]
        have hne : second ≠ [] := by
          rintro rfl
          rw [List.append_nil] at hfit
          omega
        rw [htake, hsecond]
        obtain htorn | ⟨h', hless⟩ := hrest.readNextBuffer hmore
        · exact .inl (stable_torn.readPieces _ _ _ _ htorn)
        · have hih := ih hne (accm ++ [first]) _ h' (by simp only at hless; omega)
          simpa only [List.flatten_append, List.flatten_singleton, List.append_assoc] using hih
      · rw [if_neg hk]
        obtain htorn | ⟨h', hless⟩ := h.readNextBuffer hmore
        · exact .inl (stable_torn.readPieces _ _ _ _ htorn)
        · exact ih hs accm _ h' (by omega)

end Luaw.LuaPack
