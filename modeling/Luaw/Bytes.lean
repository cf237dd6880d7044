import Mathlib.Data.List.Basic

/-!
# Byte strings

A Lua string and a C buffer are both lists of bytes here. `text` writes a literal of the
source as its bytes; the literals of the source are ASCII.
-/

namespace Luaw

/-- A Lua string, or the contents of a C buffer. -/
abbrev Bytes := List UInt8

instance : LawfulBEq Bytes := inferInstance

/-- The bytes of an ASCII literal of the source. -/
def text (s : String) : Bytes := s.toList.map fun c => c.toNat.toUInt8

/-- `constants.CRLF`. -/
def CRLF : Bytes := [13, 10]

end Luaw
