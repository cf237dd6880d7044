import Luaw.Foundations.BigEndian
import Luaw.Lua.Value

/-!
# The LuaPack format

The markers of `lua_lpack.h` with their tags, sizes and ranges, how the bytes of each numeric
marker are read, and the choice of a marker for a number or a length (`findMinRange`).
-/

namespace Luaw.LuaPack

open Lua BigEndian BinaryFloat

inductive Marker where
  | typeMarker
  | mapStart
  | arrayStart
  | dictStart
  | recordEnd
  | nil
  | boolTrue
  | boolFalse
  | uint8
  | dictEntry
  | uint16
  | bigDictEntry
  | uint32
  | int8
  | int16
  | int32
  | int64
  | float
  | double
  | string
  | bigString
  | hugeString
  deriving DecidableEq, Repr

namespace Marker

/-- The enumeration `type_tag`. -/
def tag : Marker → Nat
  | typeMarker => 0
  | mapStart => 1
  | arrayStart => 2
  | dictStart => 3
  | recordEnd => 4
  | nil => 5
  | boolTrue => 6
  | boolFalse => 7
  | uint8 => 8
  | dictEntry => 9
  | uint16 => 10
  | bigDictEntry => 11
  | uint32 => 12
  | int8 => 13
  | int16 => 14
  | int32 => 15
  | int64 => 16
  | float => 17
  | double => 18
  | string => 19
  | bigString => 20
  | hugeString => 21

def all : List Marker :=
  [typeMarker, mapStart, arrayStart, dictStart, recordEnd, nil, boolTrue, boolFalse, uint8,
    dictEntry, uint16, bigDictEntry, uint32, int8, int16, int32, int64, float, double, string,
    bigString, hugeString]

def ofTag? (tag : Nat) : Option Marker := all[tag]?

/-- The size of `define_lapck_types`. -/
def size : Marker → Nat
  | typeMarker => 0
  | uint16 | bigDictEntry | int16 | bigString => 2
  | uint32 | int32 | float | hugeString => 4
  | int64 | double => 8
  | _ => 1

def maxFloat : ℚ := (2 ^ 24 - 1) * 2 ^ 104

def maxDouble : ℚ := (2 ^ 53 - 1) * 2 ^ 971

/-- The range of `define_lapck_types`; `INT64_MAX` becomes `2 ^ 63` as a double. -/
def range : Marker → ℚ × ℚ
  | typeMarker => (-1, -1)
  | uint8 | dictEntry | string => (0, 2 ^ 8 - 1)
  | uint16 | bigDictEntry | bigString => (0, 2 ^ 16 - 1)
  | uint32 | hugeString => (0, 2 ^ 32 - 1)
  | int8 => (-2 ^ 7, 2 ^ 7 - 1)
  | int16 => (-2 ^ 15, 2 ^ 15 - 1)
  | int32 => (-2 ^ 31, 2 ^ 31 - 1)
  | int64 => (-2 ^ 63, 2 ^ 63)
  | float => (-maxFloat, maxFloat)
  | double => (-maxDouble, maxDouble)
  | m => (m.tag, m.tag)

/-- `num >= range[4] and num <= range[5]`, false for NaN. -/
def covers (m : Marker) : Number → Bool
  | .finite q => m.range.1 ≤ q && q ≤ m.range.2
  | _ => false

def intRanges : List Marker := [uint8, uint16, uint32, int8, int16, int32, int64, float, double]

def floatRanges : List Marker := [float, double]

def stringRanges : List Marker := [string, bigString, hugeString]

def dictEntryRanges : List Marker := [dictEntry, bigDictEntry]

@[simp] theorem ofTag?_tag (m : Marker) : ofTag? m.tag = some m := by
  cases m <;> rfl

theorem tag_lt (m : Marker) : m.tag < 256 := by
  cases m <;> decide

end Marker

theorem tag_injective {m m' : Marker} (h : UInt8.ofNat m.tag = UInt8.ofNat m'.tag) : m = m' := by
  have htag : m.tag = m'.tag := by
    have := congrArg UInt8.toNat h
    simpa [Nat.mod_eq_of_lt m.tag_lt, Nat.mod_eq_of_lt m'.tag_lt] using this
  have hofTag := congrArg Marker.ofTag? htag
  rwa [Marker.ofTag?_tag, Marker.ofTag?_tag, Option.some.injEq] at hofTag

/-- `findMinRange`: the first range that covers the number. -/
def findMinRange (num : Number) (ranges : List Marker) : Except LuaError Marker :=
  match ranges.find? fun range => range.covers num with
  | some range => .ok range
  | none => .error (text "Number " ++ numberToString num ++ text " outside supported max range")

/-- `num % 1 == 0`, false for the infinities and NaN. -/
def isIntegral : Number → Bool
  | .finite q => q.den = 1
  | _ => false

/-- The range that `writeNumber` chooses. -/
def numberMarker (num : Number) : Except LuaError Marker :=
  findMinRange num (if isIntegral num then Marker.intRanges else Marker.floatRanges)

/-- The range that `writeString` chooses for a string without dictionary entry. -/
def stringMarker (str : Bytes) : Except LuaError Marker :=
  findMinRange (.finite str.length) Marker.stringRanges

/-- How the bytes of a number are to be read. -/
inductive NumberFormat where
  | unsigned (width : Nat)
  | signed (width : Nat)
  | float (format : BinaryFloat.Format) (width : Nat)

namespace NumberFormat

def width : NumberFormat → Nat
  | unsigned w | signed w | float _ w => w

/-- The number, converted to a double. -/
def decode : NumberFormat → Bytes → Number
  | unsigned _, bytes => ofInt BinaryFloat.double (ofBytes bytes)
  | signed _, bytes => ofInt BinaryFloat.double (decodeInt bytes)
  | float format _, bytes => BinaryFloat.decode format (ofBytes bytes)

end NumberFormat

/-- The cases of `read_number`. -/
def Marker.numberFormat? : Marker → Option NumberFormat
  | typeMarker | uint8 | string | dictEntry => some (.unsigned 1)
  | uint16 | bigString | bigDictEntry => some (.unsigned 2)
  | uint32 | hugeString => some (.unsigned 4)
  | int8 => some (.signed 1)
  | int16 => some (.signed 2)
  | int32 => some (.signed 4)
  | int64 => some (.signed 8)
  | float => some (.float BinaryFloat.single 4)
  | double => some (.float BinaryFloat.double 8)
  | _ => none

end Luaw.LuaPack
