import Mathlib.Data.Nat.Digits.Defs

/-!
# The chunked transfer coding

Chunks with a hexadecimal size, CRLF, data and CRLF, ended by a chunk of size zero. The decoder
takes no chunk extensions and no trailers, and says what follows the last chunk.
-/

namespace ChunkedCoding

/-- The lower-case hexadecimal digit. -/
def digit (d : Nat) : UInt8 := if d < 10 then (48 + d).toUInt8 else (87 + d).toUInt8

def digitValue? (c : UInt8) : Option Nat :=
  if 48 ≤ c ∧ c ≤ 57 then some (c.toNat - 48)
  else if 97 ≤ c ∧ c ≤ 102 then some (c.toNat - 87)
  else if 65 ≤ c ∧ c ≤ 70 then some (c.toNat - 55)
  else none

/-- The digits of `%x`. -/
def hex (n : Nat) : List UInt8 :=
  if n = 0 then [48] else ((Nat.digits 16 n).map digit).reverse

def ofHex (cs : List UInt8) : Nat :=
  cs.foldl (fun acc c => acc * 16 + (digitValue? c).getD 0) 0

def chunk (data : List UInt8) : List UInt8 :=
  hex data.length ++ [13, 10] ++ data ++ [13, 10]

def lastChunk : List UInt8 := [48, 13, 10, 13, 10]

/-- The size in front of a chunk, and what comes after its line. -/
def sizeLine? (s : List UInt8) : Option (Nat × List UInt8) :=
  let isDigit := fun c => (digitValue? c).isSome
  match s.takeWhile isDigit, s.dropWhile isDigit with
  | c :: cs, 13 :: 10 :: rest => some (ofHex (c :: cs), rest)
  | _, _ => none

/-- The data up to the first chunk of size zero, and what comes after that chunk. -/
def decode : Nat → List UInt8 → Option (List UInt8 × List UInt8)
  | 0, _ => none
  | fuel + 1, s =>
    match sizeLine? s with
    | none => none
    | some (0, s) =>
      match s with
      | 13 :: 10 :: rest => some ([], rest)
      | _ => none
    | some (size + 1, s) =>
      match s.drop (size + 1) with
      | 13 :: 10 :: s' => (decode fuel s').map fun (data, rest) => (s.take (size + 1) ++ data, rest)
      | _ => none

def decodeBody (s : List UInt8) : Option (List UInt8 × List UInt8) := decode (s.length + 1) s

theorem digitValue?_digit {d : Nat} (h : d < 16) : digitValue? (digit d) = some d := by
  have hall : ∀ d : Fin 16, digitValue? (digit d) = some d.val := by decide
  exact hall ⟨d, h⟩

theorem foldr_digits {ds : List Nat} (h : ∀ d ∈ ds, d < 16) :
    (ds.map digit).foldr (fun c acc => acc * 16 + (digitValue? c).getD 0) 0 =
      Nat.ofDigits 16 ds := by
  induction ds with
  | nil => rfl
  | cons d ds ih =>
    have hd := digitValue?_digit (h d List.mem_cons_self)
    rw [List.map_cons, List.foldr_cons, ih fun x hx => h x (List.mem_cons_of_mem _ hx), hd,
      Nat.ofDigits_cons, Option.getD_some]
    exact (Nat.add_comm _ _).trans (congrArg (d + ·) (Nat.mul_comm _ _))

theorem digit_of_mem_hex {n : Nat} {c : UInt8} (h : c ∈ hex n) : ∃ d, d < 16 ∧ c = digit d := by
  rw [hex] at h
  split at h
  · exact ⟨0, by decide, List.mem_singleton.mp h⟩
  · rw [List.mem_reverse, List.mem_map] at h
    obtain ⟨d, hd, rfl⟩ := h
    exact ⟨d, Nat.digits_lt_base (by decide) hd, rfl⟩

theorem hex_ne_nil (n : Nat) : hex n ≠ [] := by
  rw [hex]
  split
  · exact List.cons_ne_nil _ _
  · next hn => simpa [Nat.digits_eq_nil_iff_eq_zero] using hn

theorem ofHex_hex (n : Nat) : ofHex (hex n) = n := by
  rw [hex]
  split
  · next hn =>
    subst hn
    decide
  · rw [ofHex, List.foldl_reverse, foldr_digits fun d hd => Nat.digits_lt_base (by decide) hd,
      Nat.ofDigits_digits]

theorem sizeLine?_hex (n : Nat) (s : List UInt8) :
    sizeLine? (hex n ++ [13, 10] ++ s) = some (n, s) := by
  have hdigits : ∀ c ∈ hex n, (digitValue? c).isSome = true := by
    intro c hc
    obtain ⟨d, hd, rfl⟩ := digit_of_mem_hex hc
    rw [digitValue?_digit hd]
    rfl
  obtain ⟨c, cs, hcs⟩ := List.exists_cons_of_ne_nil (hex_ne_nil n)
  have htake : (hex n ++ [13, 10] ++ s).takeWhile (fun c => (digitValue? c).isSome) = hex n := by
    rw [List.append_assoc, List.takeWhile_append_of_pos hdigits]
    have hstop : ([13, 10] ++ s).takeWhile (fun c => (digitValue? c).isSome) = [] := rfl
    rw [hstop, List.append_nil]
  have hdrop : (hex n ++ [13, 10] ++ s).dropWhile (fun c => (digitValue? c).isSome) =
      13 :: 10 :: s := by
    rw [List.append_assoc, List.dropWhile_append_of_pos hdigits]
    rfl
  have hvalue := ofHex_hex n
  rw [hcs] at hvalue
  simp only [sizeLine?, htake, hdrop]
  simp only [hcs, hvalue]

/-- An empty chunk is the last one. -/
theorem chunk_nil : chunk [] = lastChunk := rfl

theorem decode_lastChunk (fuel : Nat) (rest : List UInt8) :
    decode (fuel + 1) (lastChunk ++ rest) = some ([], rest) := by
  have hsize := sizeLine?_hex 0 (13 :: 10 :: rest)
  have hlast : lastChunk ++ rest = hex 0 ++ [13, 10] ++ 13 :: 10 :: rest := rfl
  rw [hlast, decode, hsize]
  rfl

theorem decode_chunk {data : List UInt8} (hdata : data ≠ []) (fuel : Nat) (s : List UInt8) :
    decode (fuel + 1) (chunk data ++ s) =
      (decode fuel s).map fun (more, rest) => (data ++ more, rest) := by
  obtain ⟨size, hsize⟩ : ∃ size, data.length = size + 1 :=
    Nat.exists_eq_succ_of_ne_zero fun h => hdata (List.length_eq_zero_iff.mp h)
  have hsplit : chunk data ++ s = hex (size + 1) ++ [13, 10] ++ (data ++ 13 :: 10 :: s) := by
    simp [chunk, hsize]
  rw [hsplit, decode, sizeLine?_hex]
  simp only [← hsize, List.drop_left, List.take_left]

/-- Non-empty chunks and the last chunk decode to the data of the chunks. -/
theorem decode_chunks {datas : List (List UInt8)} (h : ∀ data ∈ datas, data ≠ []) {fuel : Nat}
    (hfuel : datas.length < fuel) (rest : List UInt8) :
    decode fuel (datas.flatMap chunk ++ (lastChunk ++ rest)) = some (datas.flatten, rest) := by
  induction datas generalizing fuel with
  | nil =>
    obtain ⟨fuel, rfl⟩ : ∃ f, fuel = f + 1 := ⟨fuel - 1, by omega⟩
    exact decode_lastChunk fuel rest
  | cons data datas ih =>
    rw [List.length_cons] at hfuel
    obtain ⟨fuel, rfl⟩ : ∃ f, fuel = f + 1 := ⟨fuel - 1, by omega⟩
    rw [List.flatMap_cons, List.append_assoc, decode_chunk (h data List.mem_cons_self),
      ih (fun d hd => h d (List.mem_cons_of_mem _ hd)) (by omega)]
    rfl

theorem length_le_flatMap_chunk (datas : List (List UInt8)) :
    datas.length ≤ (datas.flatMap chunk).length := by
  induction datas with
  | nil => exact le_rfl
  | cons data datas ih =>
    simp only [List.flatMap_cons, List.length_append, List.length_cons, chunk]
    omega

theorem decodeBody_chunks {datas : List (List UInt8)} (h : ∀ data ∈ datas, data ≠ [])
    (rest : List UInt8) :
    decodeBody (datas.flatMap chunk ++ (lastChunk ++ rest)) = some (datas.flatten, rest) := by
  have hlen := length_le_flatMap_chunk datas
  refine decode_chunks h ?_ rest
  rw [List.length_append]
  omega

end ChunkedCoding
