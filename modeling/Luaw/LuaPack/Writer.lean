import Luaw.Foundations.Program
import Luaw.LuaPack.Format

/-!
# The LuaPack writer

`serialize_write_Q` of `lua_lpack.c` and the write functions of `luapack.lua`. The output is
the list of the strings that were passed to `writeFn`.
-/

namespace Luaw.LuaPack

open Lua BigEndian Program

namespace Native

/-- The conversion of a double to `int64_t`; out of range it is what the hardware answers. -/
def toInt64 : Number → Int
  | .finite q =>
    let n := q.num.tdiv q.den
    if -2 ^ 63 ≤ n ∧ n < 2 ^ 63 then n else -2 ^ 63
  | _ => -2 ^ 63

/-- `lua_tonumber` and `lua_isnumber`: a string that is a numeral counts as a number. -/
def toNumber? : LuaValue → Option Number
  | .num x => some x
  | .str s => stringToNumber s
  | _ => none

/-- What `lua_tostring` shows in a message. -/
def debugValue : Option LuaValue → Bytes
  | some (.str s) => s
  | some (.num x) => numberToString x
  | _ => text "(null)"

def invalidValue (entry : Option LuaValue) (expected : String) : LuaError :=
  text "Invalid value " ++ debugValue entry ++ text " found where " ++ text expected ++
    text " was expected"

/-- `fetch_next_as_integer`: the number goes through a C `int`. -/
def fetchNextAsInteger (entry : Option LuaValue) (expected : String) : Except LuaError Int :=
  match entry.bind toNumber? with
  | some x => .ok ((toInt64 x).bmod (2 ^ 32))
  | none => .error (invalidValue entry expected)

/-- `fetch_next_as_double`: zero is taken for a missing number. -/
def fetchNextAsDouble (entry : Option LuaValue) (expected : String) : Except LuaError Number :=
  match entry.bind toNumber? with
  | some x => if x = .finite 0 then .error (invalidValue entry expected) else .ok x
  | none => .error (invalidValue entry expected)

/-- `fetch_next_as_string`. -/
def fetchNextAsString (entry : Option LuaValue) (expected : String) : Except LuaError Bytes :=
  match entry with
  | some (.str s) => .ok s
  | some (.num x) => .ok (numberToString x)
  | _ => .error (text "Invalid value found where " ++ text expected ++ text " was expected")

/-- `CHECK_ROOM`. -/
def checkRoom (pos need size : Nat) : Except LuaError Unit :=
  if size < pos + need then
    .error (text "Run out of buffer in serialize_write_Q, wrong expected size supplied")
  else .ok ()

/-- What `serialize_write_Q` fetches and stores after a marker. -/
inductive Payload where
  | none
  | integer (width : Nat) (checked : Bool) (expected : String)
  | int64
  | real (format : BinaryFloat.Format) (width : Nat) (expected : String)
  | string (width : Nat) (expected : String)

/-- The cases of `serialize_write_Q`. -/
def payload? : Marker → Option Payload
  | .mapStart | .arrayStart | .dictStart | .recordEnd | .nil | .boolTrue | .boolFalse => some .none
  | .uint8 | .dictEntry => some (.integer 1 true "UINT_8")
  | .uint16 | .bigDictEntry => some (.integer 2 true "UINT_16 or BIG_DICT_ENTRY")
  -- the only case without CHECK_ROOM
  | .uint32 => some (.integer 4 false "UINT_32")
  | .int8 => some (.integer 1 true "INT_8")
  | .int16 => some (.integer 2 true "INT_16")
  | .int32 => some (.integer 4 true "INT_32")
  | .int64 => some .int64
  | .float => some (.real BinaryFloat.single 4 "FLOAT")
  | .double => some (.real BinaryFloat.double 8 "DOUBLE")
  | .string => some (.string 1 "STRING")
  | .bigString => some (.string 2 "BIG_STRING")
  | .hugeString => some (.string 4 "HUGE_STRING")
  | .typeMarker => Option.none

/-- One payload stored at the end of the buffer. -/
def storePayload (buffsize : Nat) (payload : Payload) (entry : Option LuaValue) (buff : Bytes) :
    Except LuaError Bytes :=
  match payload with
  | .none => .ok buff
  | .integer width checked expected => do
    if checked then checkRoom buff.length width buffsize
    let ival ← fetchNextAsInteger entry expected
    pure (buff ++ encodeInt width ival)
  | .int64 => do
    checkRoom buff.length 8 buffsize
    let dval ← fetchNextAsDouble entry "INT_64"
    pure (buff ++ encodeInt 8 (toInt64 dval))
  | .real format width expected => do
    checkRoom buff.length width buffsize
    let dval ← fetchNextAsDouble entry expected
    pure (buff ++ toBytes width (BinaryFloat.encode format dval))
  | .string width expected => do
    let sval ← fetchNextAsString entry expected
    checkRoom buff.length (width + sval.length) buffsize
    pure (buff ++ toBytes width sval.length ++ sval)

/-- The loop of `serialize_write_Q` over the entries of the queue. -/
def serializeEntries (buffsize : Nat) : List LuaValue → Bytes → Except LuaError Bytes
  | [], buff => .ok buff
  | entry :: rest, buff => do
    let marker ← fetchNextAsInteger (some entry) "marker"
    checkRoom buff.length 1 buffsize
    let buff := buff ++ encodeInt 1 marker
    match if 0 ≤ marker then (Marker.ofTag? marker.toNat).bind payload? else none with
    | none => .error (text "Invalid marker " ++ numberToString (.finite marker) ++
        text " encountered")
    | some .none => serializeEntries buffsize rest buff
    | some payload =>
      match rest with
      | [] => storePayload buffsize payload none buff
      | value :: rest => do
        let buff ← storePayload buffsize payload (some value) buff
        serializeEntries buffsize rest buff

/-- `serialize_write_Q`. The size of the buffer is a C `int`; a request for a negative one is
refused by `malloc`. -/
def serializeWriteQ (writeQ : List LuaValue) (len : Nat) : Except LuaError Bytes :=
  if len = 0 then .error (text "Invalid write buffer length specified")
  else
    let buffsize := ((len + 64 : Nat) : Int).bmod (2 ^ 32)
    if buffsize < 0 then .error (text "Could not allocate memory for serialize_write_Q")
    else serializeEntries buffsize.toNat writeQ []

end Native

structure Writer where
  writeQ : List LuaValue
  writeQsize : Nat
  flushLimit : Nat
  dictionary : Option (List (Bytes × Nat))
  output : List Bytes

abbrev WriterM := Program LuaError Writer

/-- `newLPackBufferWriter`. -/
def newLPackBufferWriter (limit : Nat) : Writer where
  writeQ := []
  writeQsize := 0
  flushLimit := limit
  dictionary := none
  output := []

def flush : WriterM Unit := do
  let lpack ← get
  let str ← ofExcept (Native.serializeWriteQ lpack.writeQ lpack.writeQsize)
  set { lpack with writeQ := [], writeQsize := 0, output := lpack.output ++ [str] }

def qstore (val : LuaValue) (size : Nat) : WriterM Unit :=
  if val.isFalsy then raise (text "nil string passed to write(), use writeNil() instead")
  else do
    modify fun lpack =>
      { lpack with writeQ := lpack.writeQ ++ [val], writeQsize := lpack.writeQsize + size }
    let lpack ← get
    if lpack.flushLimit ≤ lpack.writeQsize then flush

/-- `writeMarker`; the type leaves out the invalid markers that the source rejects. -/
def writeMarker (marker : Marker) : WriterM Unit := qstore (.int marker.tag) 1

def writeBoolean (value : Bool) : WriterM Unit :=
  if value then writeMarker .boolTrue else writeMarker .boolFalse

def writeNil : WriterM Unit := writeMarker .nil

def writeNumber (num : Number) : WriterM Unit := do
  let range ← ofExcept (numberMarker num)
  qstore (.int range.tag) 1
  qstore (.num num) range.size

def writeString (str : Bytes) : WriterM Unit := do
  let lpack ← get
  match lpack.dictionary.bind (List.lookup str) with
  | some dw =>
    let range ← ofExcept (findMinRange (.finite dw) Marker.dictEntryRanges)
    qstore (.int range.tag) 1
    qstore (.int dw) range.size
  | none =>
    let range ← ofExcept (stringMarker str)
    qstore (.int range.tag) 1
    qstore (.str str) str.length

mutual

/-- `serialize`. A function, a userdata or a thread is passed over. -/
def serialize : LuaValue → WriterM Unit
  | .nil => writeNil
  | .bool b => writeBoolean b
  | .num x => writeNumber x
  | .str s => writeString s
  | .table [] hash => do
    writeMarker .mapStart
    serializePairs hash
    writeMarker .recordEnd
  | .table (x :: xs) _ => do
    writeMarker .arrayStart
    serialize x
    serializeAll xs
    writeMarker .recordEnd
  -- `#val` is positive, and `ipairs` stops at `val[1]`
  | .sparse _ _ => do
    writeMarker .arrayStart
    writeMarker .recordEnd
  | .other _ => pure ()

/-- The loop over `ipairs`. -/
def serializeAll : List LuaValue → WriterM Unit
  | [] => pure ()
  | x :: xs => do
    serialize x
    serializeAll xs

/-- The loop over `pairs`. -/
def serializePairs : List (LuaValue × LuaValue) → WriterM Unit
  | [] => pure ()
  | (k, v) :: entries => do
    serialize k
    serialize v
    serializePairs entries

end

def write (val : LuaValue) : WriterM Unit := do
  serialize val
  flush

/-- The loop of `setDictionaryForWrite` from the word with index `i` on; a repeated word is
found under its last index. -/
def writeWords : List Bytes → Nat → List (Bytes × Nat) → WriterM (List (Bytes × Nat))
  | [], _, dictionary => pure dictionary
  | dw :: words, i, dictionary => do
    writeString dw
    writeWords words (i + 1) ((dw, i) :: dictionary)

/-- `setDictionaryForWrite`, the method `useDictionary` of a writer. -/
def setDictionaryForWrite (words : List Bytes) : WriterM Unit := do
  writeMarker .dictStart
  let dictionary ← writeWords words 1 []
  writeMarker .recordEnd
  modify fun lpack => { lpack with dictionary := some dictionary }

end Luaw.LuaPack
