import Luaw.Foundations.Fuel
import Luaw.LuaPack.TokenReader

/-!
# Does the reader terminate?

Every round of the loops consumes bytes, takes a chunk or sets EOF, except one: a number of which
only a part is left when `readFn` has returned nil is tried again for ever. The measure is the
number of bytes to come, one more for each chunk, since a chunk may bring back a byte.
-/

namespace Luaw.LuaPack

open Lua Program

namespace Reader

/-- The input has ended with bytes left over. -/
def Starved (r : Reader) : Prop := r.EOF = true ∧ r.offset < r.buffer.length

instance (r : Reader) : Decidable r.Starved := inferInstanceAs (Decidable (_ ∧ _))

/-- The reader between two steps of `deserialize`. -/
structure Ready (r : Reader) : Prop where
  bound : r.offset ≤ r.buffer.length
  eof : r.EOF = true → r.offset = r.buffer.length

theorem Ready.not_starved {r : Reader} (h : r.Ready) : ¬r.Starved := by
  rintro ⟨heof, hlt⟩
  have := h.eof heof
  omega

theorem Ready.open_of_not_done {r : Reader} (h : r.Ready) (hdone : r.done = false) :
    r.EOF = false := by
  rw [done, Bool.and_eq_false_iff, decide_eq_false_iff_not] at hdone
  obtain hopen | hmore := hdone
  · exact hopen
  · refine Bool.eq_false_iff.mpr fun heof => hmore ?_
    have := h.eof heof
    omega

/-- The bytes that are still to come, one more for each chunk. -/
def backlog (r : Reader) : Nat :=
  (r.buffer.length - r.offset) + (r.chunks.map fun chunk => chunk.length + 1).sum

/-- Some bytes of the buffer are consumed. -/
def advance (r : Reader) (n : Nat) : Reader := { r with offset := r.offset + n }

theorem Ready.advance {r : Reader} (h : r.Ready) {n : Nat} (hopen : r.EOF = false)
    (hn : n ≤ r.buffer.length - r.offset) : (r.advance n).Ready := by
  refine ⟨?_, fun heof => ?_⟩
  · show r.offset + n ≤ r.buffer.length
    have := h.bound
    omega
  · cases hopen.symm.trans heof

theorem backlog_advance {r : Reader} {n : Nat} (hn : n ≤ r.buffer.length - r.offset) :
    (r.advance n).backlog + n = r.backlog := by
  have hchunks : (r.advance n).chunks = r.chunks := rfl
  show r.buffer.length - (r.offset + n) + _ + n = r.buffer.length - r.offset + _
  rw [hchunks]
  omega

/-- The next chunk: bytes that it brings back are made up for by the chunk itself. -/
theorem readNextBuffer_chunk {r : Reader} (hopen : r.EOF = false) {chunk : Bytes}
    {chunks : List Bytes} (hchunks : r.chunks = chunk :: chunks) :
    r.readNextBuffer.Ready ∧ r.readNextBuffer.backlog ≤ r.backlog ∧
      r.readNextBuffer.chunks = chunks := by
  obtain ⟨chunks', EOF, buffer, offset, dictionary, torn⟩ := r
  simp only at hopen hchunks
  subst hopen hchunks
  refine ⟨⟨Nat.zero_le _, nofun⟩, ?_, rfl⟩
  simp only [readNextBuffer, refill, luaSub, backlog, Bool.false_eq_true, if_false,
    List.map_cons, List.sum_cons]
  split
  · rw [List.length_append, List.length_drop]
    omega
  · omega

/-- No chunk is left: EOF is set. -/
theorem readNextBuffer_end {r : Reader} (hopen : r.EOF = false) (hchunks : r.chunks = []) :
    r.readNextBuffer = { r with EOF := true } := by
  simp [readNextBuffer, hopen, hchunks]

theorem readNextBuffer_eof {r : Reader} (heof : r.EOF = true) : r.readNextBuffer = r := by
  simp [readNextBuffer, heof]

end Reader

section Numbers

/-- What is left of the buffer fits an `int` or is taken for less. -/
theorem remaining_le {buff : Bytes} {offset : Nat} (h : offset ≤ buff.length) :
    Native.remaining buff offset ≤ (buff.length - offset : Nat) := by
  rw [Native.remaining, Int.bmod_def]
  split <;> omega

/-- `readNumber` on a reader that is not done: it raises, or there is a number of the type and
the bytes left are counted right or for less. -/
theorem readNumber_cases (t : Option Nat) {r : Reader} (hdone : r.done = false) :
    (∃ e, ∀ fuel, exec (readNumber (fuel + 1) t) r = (.error (.raised e), r)) ∨
      ∃ t' format, ∃ k : Nat, t = some t' ∧
        (Marker.ofTag? t').bind Marker.numberFormat? = some format ∧
        Native.remaining r.buffer r.offset = k := by
  cases t with
  | none =>
    refine .inl ⟨text "bad argument #1 to 'read_number' (number expected, got nil)",
      fun fuel => ?_⟩
    rw [readNumber, exec_bind_ok (exec_get r), hdone]
    rfl
  | some t =>
    by_cases hneg : Native.remaining r.buffer r.offset < 0
    · refine .inl ⟨text "Buffer underflow while reading number", fun fuel => ?_⟩
      rw [readNumber, exec_bind_ok (exec_get r), hdone]
      simp only [Native.readNumber, if_pos hneg]
      rfl
    · cases hformat : (Marker.ofTag? t).bind Marker.numberFormat? with
      | none =>
        refine .inl ⟨text "Invalid marker " ++ decimal t ++ text " specified", fun fuel => ?_⟩
        rw [readNumber, exec_bind_ok (exec_get r), hdone]
        simp only [Native.readNumber, if_neg hneg, hformat]
        rfl
      | some format =>
        refine .inr ⟨t, format, (Native.remaining r.buffer r.offset).toNat, rfl, hformat, ?_⟩
        omega

theorem exec_readNumber_done (fuel : Nat) (t : Option Nat) {r : Reader} (hdone : r.done = true) :
    exec (readNumber (fuel + 1) t) r = (.ok none, r) := by
  rw [readNumber, exec_bind_ok (exec_get r), hdone]
  rfl

/-- The value of a number of the given type. -/
def IsNumber (t : Option Nat) (value : Number) : Prop :=
  ∃ format bs, (t.bind Marker.ofTag?).bind Marker.numberFormat? = some format ∧
    bs.length = format.width ∧ value = format.decode bs

theorem numberFormat?_width {m : Marker} {format : NumberFormat}
    (h : m.numberFormat? = some format) : 0 < format.width ∧ format.width ≤ 8 := by
  cases m <;> cases h <;> decide

/-- What the reader has done when a call returns: it is ready, and not further from the end. -/
def Progress (r r' : Reader) : Prop := r'.Ready ∧ r'.backlog ≤ r.backlog

/-- `readNumber` returns a number and consumes its bytes, or nil when nothing is left. -/
def NumberRead (t : Option Nat) (r : Reader) (value : Option Number) (r' : Reader) : Prop :=
  Progress r r' ∧ (∀ x, value = some x → IsNumber t x ∧ r'.backlog < r.backlog) ∧
    (value = none → r'.done = true)

/-- The end of the input: either nothing is left, or the reader starves. -/
theorem Reader.Ready.atEnd {r : Reader} (hr : r.Ready) (hopen : r.EOF = false)
    (hchunks : r.chunks = []) :
    (r.readNextBuffer.Ready ∧ r.readNextBuffer.done = true ∧
        r.readNextBuffer.backlog = r.backlog) ∨
      (r.readNextBuffer.Starved ∧ r.readNextBuffer.done = false ∧
        r.readNextBuffer.buffer = r.buffer ∧ r.readNextBuffer.offset = r.offset ∧
        r.readNextBuffer.readNextBuffer = r.readNextBuffer) := by
  have hbound := hr.bound
  rw [Reader.readNextBuffer_end hopen hchunks]
  by_cases hlt : r.offset < r.buffer.length
  · refine .inr ⟨⟨rfl, hlt⟩, ?_, rfl, rfl, Reader.readNextBuffer_eof rfl⟩
    simp [Reader.done, hlt]
  · refine .inl ⟨⟨hbound, fun _ => ?_⟩, ?_, rfl⟩
    · show r.offset = r.buffer.length
      omega
    · simp [Reader.done, Nat.le_of_not_lt hlt]

theorem decides_readNumber_done (t : Option Nat) {r : Reader} (hr : r.Ready)
    (hdone : r.done = true) :
    Decides Reader.Starved (NumberRead t r) (fun fuel => readNumber fuel t) r := by
  have hround := exec_readNumber_done
  refine .succ rfl (n := fun _ => pure none) (fun fuel => hround fuel t hdone) hr.not_starved ?_
  exact .of_ok (fun _ => rfl) ⟨⟨hr, le_rfl⟩, nofun, fun _ => hdone⟩

theorem NumberRead.mono {t : Option Nat} {r₁ r : Reader} (h : r₁.backlog ≤ r.backlog)
    {value : Option Number} {r' : Reader} (hread : NumberRead t r₁ value r') :
    NumberRead t r value r' := by
  obtain ⟨⟨hready, hle⟩, hsome, hnone⟩ := hread
  exact ⟨⟨hready, hle.trans h⟩, fun x hx => ⟨(hsome x hx).1, (hsome x hx).2.trans_le h⟩, hnone⟩

/-- A round of `readNumber`: it ends the call, or it only asks for more, and then so does every
round with the same bytes. -/
theorem readNumber_round (t : Option Nat) {r : Reader} (hr : r.Ready) (hdone : r.done = false) :
    Decides Reader.Starved (NumberRead t r) (fun fuel => readNumber fuel t) r ∨
      ∀ r₁ : Reader, r₁.done = false → r₁.buffer = r.buffer → r₁.offset = r.offset → ∀ fuel,
        exec (readNumber (fuel + 1) t) r₁ = exec (readNumber fuel t) r₁.readNextBuffer := by
  have hopen := hr.open_of_not_done hdone
  obtain ⟨e, herror⟩ | ⟨t, format, k, rfl, hformat, hk⟩ := readNumber_cases t hdone
  · exact .inl (.succ rfl (n := fun _ => Program.raise e) herror hr.not_starved
      (.of_raised fun _ => rfl))
  obtain ⟨m, hm, hformat'⟩ := Option.bind_eq_some_iff.mp hformat
  have hpos := (numberFormat?_width hformat').1
  by_cases hfit : format.width ≤ k
  · left
    have hle := remaining_le hr.bound
    have hleft : format.width ≤ r.buffer.length - r.offset := by omega
    refine .succ rfl (n := fun _ =>
        pure (some (format.decode ((r.buffer.drop r.offset).take format.width))))
      (u := r.advance format.width) (fun fuel => ?_) hr.not_starved (.of_ok (fun _ => rfl) ?_)
    · rw [exec_readNumber hformat hpos hdone hk, if_pos hfit]
      rfl
    · have hback := Reader.backlog_advance hleft
      refine ⟨⟨hr.advance hopen hleft, by omega⟩, ?_, nofun⟩
      rintro x ⟨⟩
      refine ⟨⟨format, _, hformat, ?_, rfl⟩, by omega⟩
      rw [List.length_take, List.length_drop]
      omega
  · right
    intro r₁ hdone₁ hbuffer hoffset fuel
    have hk₁ : Native.remaining r₁.buffer r₁.offset = k := by rw [hbuffer, hoffset, hk]
    rw [exec_readNumber hformat hpos hdone₁ hk₁, if_neg hfit]

theorem decides_readNumber (t : Option Nat) {r : Reader} (hr : r.Ready) :
    Decides Reader.Starved (NumberRead t r) (fun fuel => readNumber fuel t) r := by
  by_cases hdone : r.done = true
  · exact decides_readNumber_done t hr hdone
  rw [Bool.not_eq_true] at hdone
  have hopen := hr.open_of_not_done hdone
  obtain hdecides | hround := readNumber_round t hr hdone
  · exact hdecides
  refine .succ rfl (hround r hdone rfl rfl) hr.not_starved ?_
  match hchunks : r.chunks with
  | [] =>
    obtain ⟨hready, hend, hsame⟩ | ⟨hstarved, hmore, hbuffer, hoffset, hstays⟩ :=
      hr.atEnd hopen hchunks
    · exact (decides_readNumber_done t hready hend).mono fun _ _ => .mono hsame.le
    · -- the bytes left are too few, and no more are coming
      refine .of_loop rfl (fun fuel => ?_) hstarved
      rw [hround _ hmore hbuffer hoffset, hstays]
  | chunk :: chunks =>
    obtain ⟨hready, hle, hrest⟩ := Reader.readNextBuffer_chunk hopen hchunks
    exact (decides_readNumber t hready).mono fun _ _ => .mono hle
termination_by r.chunks.length
decreasing_by
  rw [hrest, hchunks]
  exact Nat.lt_succ_self _

end Numbers

section Strings

/-- A length on the wire is taken for a C `int`. -/
theorem wireNat_lt {t : Marker} {w : Nat} (hw : w ≤ 4) (ht : t.numberFormat? = some (.unsigned w))
    {x : Number} (h : IsNumber (some t.tag) x) : wireNat x < 2 ^ 32 := by
  obtain ⟨format, bs, hformat, hlen, rfl⟩ := h
  rw [Option.bind_some, Marker.ofTag?_tag, Option.bind_some, ht] at hformat
  cases hformat
  have hlt := BigEndian.ofBytes_lt bs
  have hpow : 256 ^ w ≤ 256 ^ 4 := Nat.pow_le_pow_right (by omega) hw
  rw [show bs.length = w from hlen] at hlt
  rw [decode_unsigned (by omega), wireNat_cast]
  omega

theorem decides_readPieces_done (desiredLen : Nat) (accm : List Bytes) {r : Reader} (hr : r.Ready)
    (hdone : r.done = true) :
    Decides Reader.Starved (fun _ r' => Progress r r')
      (fun fuel => readPieces fuel desiredLen accm) r := by
  refine .succ rfl (n := fun _ => pure .nil) (u := r) (fun fuel => ?_) hr.not_starved
    (.of_ok (fun _ => rfl) ⟨hr, le_rfl⟩)
  have hcond : ¬(0 < desiredLen ∧ r.done = false) := fun h => by simp [hdone] at h
  rw [readPieces, exec_bind_ok (exec_get r), if_neg hcond]

/-- When all that `read_string` saw has been taken, it sees nothing more in this buffer. -/
theorem remaining_advance {r : Reader} {k : Nat}
    (hk : Native.remaining r.buffer r.offset = k) :
    Native.remaining r.buffer (r.offset + k) = (0 : Nat) := by
  rw [Native.remaining, Int.bmod_def] at hk ⊢
  split at hk <;> split <;> omega

/-- A round of `readPieces`: it ends the call, or it takes what the buffer has and asks for
more. -/
theorem readPieces_round {desiredLen : Nat} (hpos : 0 < desiredLen)
    (hsmall : desiredLen < 2 ^ 31) (accm : List Bytes) {r : Reader} (hr : r.Ready)
    (hdone : r.done = false) :
    Decides Reader.Starved (fun _ r' => Progress r r')
        (fun fuel => readPieces fuel desiredLen accm) r ∨
      ∃ (k : Nat) (accm' : List Bytes), k < desiredLen ∧ k ≤ r.buffer.length - r.offset ∧
        Native.remaining r.buffer r.offset = k ∧ ∀ fuel,
        exec (readPieces (fuel + 1) desiredLen accm) r =
          exec (readPieces fuel (desiredLen - k) accm') (r.advance k).readNextBuffer := by
  have hopen := hr.open_of_not_done hdone
  -- more bytes are left than an `int` counts
  by_cases hneg : Native.remaining r.buffer r.offset < 0
  · refine .inl (.succ rfl (n := fun _ => Program.raise
      (text "Buffer underflow while reading string")) (u := r) (fun fuel => ?_) hr.not_starved
      (.of_raised fun _ => rfl))
    rw [readPieces, exec_bind_ok (exec_get r), if_pos ⟨hpos, hdone⟩]
    simp only [Native.readString, if_pos hneg]
    rfl
  obtain ⟨k, hk⟩ : ∃ k : Nat, Native.remaining r.buffer r.offset = k :=
    ⟨(Native.remaining r.buffer r.offset).toNat, by omega⟩
  have hle := remaining_le hr.bound
  by_cases hfit : desiredLen ≤ k
  · have hleft : desiredLen ≤ r.buffer.length - r.offset := by omega
    have hback := Reader.backlog_advance hleft
    refine .inl (.succ rfl (n := fun _ =>
        pure (.str (accm.flatten ++ (r.buffer.drop r.offset).take desiredLen)))
      (u := r.advance desiredLen) (fun fuel => ?_) hr.not_starved
      (.of_ok (fun _ => rfl) ⟨hr.advance hopen hleft, by omega⟩))
    rw [exec_readPieces hpos hsmall hdone hk, if_pos hfit]
    rfl
  · right
    -- too few bytes: they are kept, if there are any
    by_cases hzero : 0 < k
    · refine ⟨k, accm ++ [(r.buffer.drop r.offset).take k], by omega, by omega, hk, fun fuel => ?_⟩
      rw [exec_readPieces hpos hsmall hdone hk, if_neg hfit, if_pos hzero]
      rfl
    · obtain rfl : k = 0 := by omega
      refine ⟨0, accm, by omega, by omega, hk, fun fuel => ?_⟩
      rw [exec_readPieces hpos hsmall hdone hk, if_neg hfit, if_neg hzero]
      rfl

theorem decides_readPieces {desiredLen : Nat} (hsmall : desiredLen < 2 ^ 31) (accm : List Bytes)
    {r : Reader} (hr : r.Ready) :
    Decides Reader.Starved (fun _ r' => Progress r r')
      (fun fuel => readPieces fuel desiredLen accm) r := by
  by_cases hdone : r.done = true
  · exact decides_readPieces_done desiredLen accm hr hdone
  rw [Bool.not_eq_true] at hdone
  obtain rfl | hpos := Nat.eq_zero_or_pos desiredLen
  · exact .succ rfl (n := fun _ => pure .nil) (fun fuel => exec_readPieces_zero fuel accm r)
      hr.not_starved (.of_ok (fun _ => rfl) ⟨hr, le_rfl⟩)
  have hopen := hr.open_of_not_done hdone
  obtain hdecides | ⟨k, accm', hlt, hle, hk, hround⟩ := readPieces_round hpos hsmall accm hr hdone
  · exact hdecides
  refine .succ rfl hround hr.not_starved ?_
  have hready := hr.advance hopen hle
  have hback := Reader.backlog_advance hle
  match hchunks : r.chunks with
  | [] =>
    obtain ⟨hready', hend, hsame⟩ | ⟨hstarved, hmore, hbuffer, hoffset, hstays⟩ :=
      hready.atEnd hopen hchunks
    · refine (decides_readPieces_done _ accm' hready' hend).mono fun _ r' hr' => ?_
      have := hr'.2
      exact ⟨hr'.1, by omega⟩
    · -- more than an `int` counts is left: nothing is read for ever
      refine .of_loop rfl (fun fuel => ?_) hstarved
      have hk' : Native.remaining (r.advance k).readNextBuffer.buffer
          (r.advance k).readNextBuffer.offset = (0 : Nat) := by
        rw [hbuffer, hoffset]
        exact @remaining_advance r k hk
      have hpos' : 0 < desiredLen - k := by omega
      have hagain := exec_readPieces hpos' (by omega) hmore hk' fuel accm'
      rw [if_neg (Nat.not_le_of_lt hpos'), if_neg (Nat.lt_irrefl 0), hstays] at hagain
      exact hagain
  | chunk :: chunks =>
    obtain ⟨hready', hle', hrest⟩ := Reader.readNextBuffer_chunk (r := r.advance k) hopen hchunks
    refine (decides_readPieces (by omega) accm' hready').mono fun _ r' hr' => ?_
    have := hr'.2
    exact ⟨hr'.1, by omega⟩
termination_by r.chunks.length
decreasing_by
  rw [hrest, hchunks]
  exact Nat.lt_succ_self _

/-- A length that does not fit an `int` is refused. -/
theorem readPieces_long {desiredLen : Nat} (hlong : 2 ^ 31 ≤ desiredLen)
    (hlt : desiredLen < 2 ^ 32) (accm : List Bytes) {r : Reader} (hdone : r.done = false) :
    ∃ e, ∀ fuel, exec (readPieces (fuel + 1) desiredLen accm) r = (.error (.raised e), r) := by
  have hneg : (desiredLen : Int).bmod (2 ^ 32) < 0 := by
    rw [Int.bmod_def]
    split <;> omega
  have hraises : ∃ e, Native.readString desiredLen r.buffer r.offset = .error e := by
    rw [Native.readString]
    split
    · exact ⟨_, rfl⟩
    · next hnonneg =>
      have hle : (desiredLen : Int).bmod (2 ^ 32) ≤ Native.remaining r.buffer r.offset := by omega
      simp only [if_pos hle]
      exact ⟨_, rfl⟩
  obtain ⟨e, he⟩ := hraises
  refine ⟨e, fun fuel => ?_⟩
  rw [readPieces, exec_bind_ok (exec_get r), if_pos ⟨by omega, hdone⟩, he]
  rfl

theorem decides_readString {len : Option Number}
    (hlen : ∀ x, len = some x → wireNat x < 2 ^ 32) {r : Reader} (hr : r.Ready) :
    Decides Reader.Starved (fun _ r' => Progress r r') (fun fuel => readString fuel len) r := by
  cases len with
  | none => exact .of_raised fun _ => rfl
  | some x =>
    show Decides _ _ (fun fuel => readPieces fuel (wireNat x) []) r
    by_cases hsmall : wireNat x < 2 ^ 31
    · exact decides_readPieces hsmall [] hr
    by_cases hdone : r.done = true
    · exact decides_readPieces_done (wireNat x) [] hr hdone
    rw [Bool.not_eq_true] at hdone
    obtain ⟨e, he⟩ := readPieces_long (Nat.le_of_not_lt hsmall) (hlen x rfl) [] hdone
    exact .succ rfl (n := fun _ => Program.raise e) (u := r) he hr.not_starved
      (.of_raised fun _ => rfl)

end Strings

section Loop

theorem Progress.refl {r : Reader} (hr : r.Ready) : Progress r r := ⟨hr, le_rfl⟩

theorem Progress.trans {r₁ r₂ r₃ : Reader} (h : Progress r₁ r₂) (h' : Progress r₂ r₃) :
    Progress r₁ r₃ := ⟨h'.1, h'.2.trans h.2⟩

/-- The call returns with progress, raises or starves. -/
def Advances (m : Nat → ReaderM LuaValue) (r : Reader) : Prop :=
  Decides Reader.Starved (fun _ r' => Progress r r') m r

theorem Advances.pure {r : Reader} (hr : r.Ready) (val : LuaValue) :
    Advances (fun _ => Pure.pure val) r := .of_ok (fun _ => rfl) (.refl hr)

/-- Reading a number and something after it. -/
theorem Advances.number {t : Option Nat} {k : Nat → Option Number → ReaderM LuaValue} {r : Reader}
    (hr : r.Ready)
    (hk : ∀ value r', NumberRead t r value r' → Advances (fun fuel => k fuel value) r') :
    Advances (fun fuel => readNumber fuel t >>= k fuel) r :=
  .bind (decides_readNumber t hr) fun value r' h =>
    (hk value r' h).mono fun _ _ => .trans h.1

theorem advances_readSizedString {lenType : Marker} {w : Nat} (hw : w ≤ 4)
    (ht : lenType.numberFormat? = some (.unsigned w)) {r : Reader} (hr : r.Ready) :
    Advances (fun fuel => readSizedString fuel lenType) r := by
  refine .number hr fun len r' h => decides_readString (fun x hx => ?_) h.1.1
  exact wireNat_lt hw ht (h.2.1 x hx).1

theorem advances_readDictEntry (dictionary : Option (List LuaValue)) (entryType lenType : Marker)
    {r : Reader} (hr : r.Ready) :
    Advances (fun fuel => readDictEntry fuel dictionary entryType lenType) r := by
  refine .number hr fun dw r' h => ?_
  cases dictionary with
  | none => exact .of_raised fun _ => rfl
  | some words =>
    dsimp only
    split
    · exact .of_raised fun _ => rfl
    · exact .pure h.1.1 _

/-- A family of recursive calls that advance wherever the reader has come to. -/
def AdvancesFrom (inner : Nat → Container → ReaderM LuaValue) (n : Nat) : Prop :=
  ∀ container (r : Reader), r.Ready → r.backlog ≤ n → Advances (fun fuel => inner fuel container) r

theorem advances_readValue {inner : Nat → Container → ReaderM LuaValue} {n : Nat}
    (hinner : AdvancesFrom inner n) (dictionary : Option (List LuaValue)) (t : Option Nat)
    {r : Reader} (hr : r.Ready) (hn : r.backlog ≤ n) :
    Advances (fun fuel => readValue fuel (inner fuel) dictionary t) r := by
  simp only [readValue]
  split
  · exact .pure hr _
  · exact .pure hr _
  · exact .pure hr _
  · exact advances_readSizedString (by decide) rfl hr
  · exact advances_readSizedString (by decide) rfl hr
  · exact advances_readSizedString (by decide) rfl hr
  · exact hinner _ r hr hn
  · exact hinner _ r hr hn
  · exact advances_readDictEntry _ _ _ hr
  · exact advances_readDictEntry _ _ _ hr
  · exact .number hr fun value r' h => .pure h.1.1 _

theorem advances_storeValue {next : Nat → Frame → ReaderM LuaValue} (fr : Frame) (val : LuaValue)
    {r : Reader} (hr : r.Ready)
    (hnext : ∀ fr', Advances (fun fuel => next fuel fr') r) :
    Advances (fun fuel => storeValue (next fuel) fr val) r := by
  simp only [storeValue]
  split
  · exact .pure hr _
  · have haccept : Decides Reader.Starved (fun _ r' => r' = r)
        (fun _ => (ofExcept (fr.accept val) : ReaderM Frame)) r := .of_ofExcept fun _ _ => rfl
    refine .bind haccept fun fr' r' h => ?_
    subst h
    exact hnext fr'

theorem advances_done (fr : Frame) {r : Reader} (hr : r.Ready) (hdone : r.done = true) :
    Advances (fun fuel => deserializeLoop fuel fr) r := by
  refine .succ rfl (n := fun _ => Pure.pure fr.val) (u := r) (fun fuel => ?_) hr.not_starved
    (Advances.pure hr fr.val)
  rw [deserializeLoop, exec_bind_ok (exec_get r), hdone]
  rfl

theorem exec_deserializeLoop (fuel : Nat) (fr : Frame) {r : Reader} (hdone : r.done = false) :
    exec (deserializeLoop (fuel + 1) fr) r = exec (do
      let t ← readMarker fuel
      deserializeMarked fuel (innerCall fuel) (deserializeLoop fuel) fr t) r := by
  rw [deserializeLoop, exec_bind_ok (exec_get r), hdone]
  rfl

/-- What follows the marker: it advances when the loop does from wherever the marker has left
the reader. -/
theorem advances_deserializeMarked {n : Nat}
    (ih : ∀ (fr : Frame) (r : Reader), r.Ready → r.backlog ≤ n →
      Advances (fun fuel => deserializeLoop fuel fr) r)
    (fr : Frame) (tag : Nat) {r : Reader} (hr : r.Ready) (hn : r.backlog ≤ n) :
    Advances (fun fuel =>
      deserializeMarked fuel (innerCall fuel) (deserializeLoop fuel) fr (some tag)) r := by
  have hinner : AdvancesFrom innerCall n := by
    intro container r hr hn
    refine .congr (fun fuel => ?_) (ih (.enter container r.dictionary) r hr hn)
    rw [innerCall, exec_bind_ok (exec_get r)]
  simp only [deserializeMarked]
  split
  · split
    · exact .of_raised fun _ => rfl
    · exact .pure hr _
  · refine .bind (hinner (.array []) r hr hn) fun dictionary r' h => ?_
    exact .of_raised fun _ => rfl
  · refine .bind (advances_readValue hinner fr.dictionary (some tag) hr hn) fun val r' h => ?_
    have hn' : r'.backlog ≤ n := h.2.trans hn
    exact (advances_storeValue fr val h.1 fun fr' => ih fr' r' h.1 hn').mono fun _ _ => .trans h

/-- The loop of `deserialize`: after a marker there is less to come. -/
theorem advances_deserializeLoop (n : Nat) (fr : Frame) (r : Reader) (hr : r.Ready)
    (hn : r.backlog ≤ n) : Advances (fun fuel => deserializeLoop fuel fr) r := by
  induction n using Nat.strong_induction_on generalizing fr r with
  | _ n ih =>
    by_cases hdone : r.done = true
    · exact advances_done fr hr hdone
    rw [Bool.not_eq_true] at hdone
    refine .succ rfl (fun fuel => exec_deserializeLoop fuel fr hdone) hr.not_starved ?_
    have hmarker : Decides Reader.Starved (fun value r' => ∃ x,
        value = x.map wireNat ∧ NumberRead (some Marker.typeMarker.tag) r x r')
        (fun fuel => readMarker fuel) r :=
      .bind (decides_readNumber _ hr) fun x r' h => .of_ok (fun _ => rfl) ⟨x, rfl, h⟩
    refine .bind hmarker ?_
    rintro t r' ⟨x, rfl, hprogress, hsome, hnone⟩
    refine Decides.mono ?_ fun _ _ => .trans hprogress
    cases x with
    | none =>
      -- the input has ended: the rest of the round finds nothing either
      have hend := hnone rfl
      have hvalue : ∀ fuel, exec (deserializeMarked fuel (innerCall fuel) (deserializeLoop fuel) fr
          none) r' = exec (do
            let value ← readNumber fuel none
            storeValue (deserializeLoop fuel) fr (value.elim .nil .num)) r' := by
        intro fuel
        show exec ((do
          let value ← readNumber fuel none
          pure (value.elim LuaValue.nil LuaValue.num)) >>= fun val =>
            storeValue (deserializeLoop fuel) fr val) r' = _
        simp only [bind_assoc, pure_bind]
      refine .congr hvalue (Advances.number hprogress.1 fun value r'' h => ?_)
      have hend' : r''.done = true := by
        cases value with
        | none => exact h.2.2 rfl
        | some y =>
          obtain ⟨⟨format, bs, hformat, -⟩, -⟩ := h.2.1 y rfl
          cases hformat
      exact advances_storeValue fr _ h.1.1 fun fr' => advances_done fr' h.1.1 hend'
    | some x =>
      obtain ⟨-, hless⟩ := hsome x rfl
      exact advances_deserializeMarked (n := r'.backlog)
        (fun fr r hr hle => ih r'.backlog (by omega) fr r hr hle) fr (wireNat x) hprogress.1 le_rfl

end Loop

/-- The states in which a run of `read` with too little fuel stops: one for each round of each of
its loops. -/
def Visits (chunks : List Bytes) (r : Reader) : Prop :=
  ∃ fuel, exec (read fuel) (newLPackReader chunks) = (.error .outOfFuel, r)

theorem decides_read (chunks : List Bytes) :
    Decides Reader.Starved (fun _ r' => Progress (newLPackReader chunks).readNextBuffer r') read
      (newLPackReader chunks) := by
  have hnext : (newLPackReader chunks).readNextBuffer.Ready := by
    cases chunks with
    | nil => exact ⟨le_rfl, fun _ => rfl⟩
    | cons chunk chunks => exact (Reader.readNextBuffer_chunk rfl rfl).1
  have hloop : Advances (fun fuel => deserializeLoop fuel
      (.enter .none (newLPackReader chunks).readNextBuffer.dictionary))
      (newLPackReader chunks).readNextBuffer :=
    advances_deserializeLoop _ _ _ hnext le_rfl
  refine .congr (fun fuel => ?_) hloop
  rfl

/-- `read` terminates exactly when its run never comes to a state in which `readFn` has returned
nil and bytes are left in the buffer. -/
theorem read_terminates_iff (chunks : List Bytes) :
    Terminates read (newLPackReader chunks) ↔ ∀ r, Visits chunks r → ¬r.Starved := by
  rw [(decides_read chunks).terminates_iff]
  constructor
  · rintro hgood r ⟨fuel, hrun⟩
    exact hgood fuel r hrun
  · exact fun hgood fuel r hrun => hgood r ⟨fuel, hrun⟩

/-- The marker of a 16-bit number and the first of its two bytes: the reader never returns. -/
theorem cut_number_never_ends :
    ¬Terminates read (newLPackReader [[10, 1]]) ∧ ∃ r, Visits [[10, 1]] r ∧ r.Starved := by
  have hrun : exec (read 4) (newLPackReader [[10, 1]]) =
      (.error .outOfFuel, ⟨[], true, [10, 1], 1, none, false⟩) := by rfl
  refine ⟨fun hends => ?_, _, ⟨4, hrun⟩, by decide⟩
  exact (decides_read [[10, 1]]).terminates_iff.mp hends 4 _ hrun (by decide)

end Luaw.LuaPack
