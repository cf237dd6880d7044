import Luaw.Foundations.Program
import Luaw.LuaPack.Format

/-!
# The LuaPack reader

`read_number` and `read_string` of `lua_lpack.c` and the read functions of `luapack.lua`.
`chunks` is what the calls of `readFn` are going to return before nil. The flag `torn` is not in
the source: it records that a chunk arrived while the buffer was partly consumed.
-/

namespace Luaw.LuaPack

open Lua Program

namespace Native

/-- `int remaining = len - offset`. -/
def remaining (buff : Bytes) (offset : Nat) : Int := ((buff.length : Int) - offset).bmod (2 ^ 32)

/-- `read_number`: the number of bytes read, zero when there are too few, and the number. -/
def readNumber (numType : Nat) (buff : Bytes) (offset : Nat) : Except LuaError (Nat × Number) :=
  if remaining buff offset < 0 then .error (text "Buffer underflow while reading number")
  else
    match (Marker.ofTag? numType).bind Marker.numberFormat? with
    | none => .error (text "Invalid marker " ++ decimal numType ++ text " specified")
    | some format =>
      if remaining buff offset < format.width then .ok (0, .finite 0)
      else .ok (format.width, format.decode ((buff.drop offset).take format.width))

/-- `read_string`. A length from `2 ^ 31` on becomes a negative `int`, which `lua_pushlstring`
takes for a huge one. -/
def readString (desiredLen : Nat) (buff : Bytes) (offset : Nat) : Except LuaError (Nat × Bytes) :=
  let desired := (desiredLen : Int).bmod (2 ^ 32)
  if remaining buff offset < 0 then .error (text "Buffer underflow while reading string")
  else if desired ≤ remaining buff offset then
    if desired < 0 then .error (text "memory allocation error: block too big")
    else .ok (desired.toNat, (buff.drop offset).take desired.toNat)
  else
    .ok ((remaining buff offset).toNat, (buff.drop offset).take (remaining buff offset).toNat)

end Native

structure Reader where
  chunks : List Bytes
  EOF : Bool
  buffer : Bytes
  offset : Nat
  dictionary : Option (List LuaValue)
  torn : Bool

abbrev ReaderM := Program LuaError Reader

/-- `newLPackReader` with a `readFn` that returns the chunks one after the other. -/
def newLPackReader (chunks : List Bytes) : Reader where
  chunks := chunks
  EOF := false
  buffer := []
  offset := 0
  dictionary := none
  torn := false

def newLPackStringReader (str : Bytes) : Reader := newLPackReader [str]

namespace Reader

def done (lpack : Reader) : Bool := lpack.EOF && lpack.buffer.length ≤ lpack.offset

/-- `string.sub(buffer, offset)`: the first byte has the index one, which zero stands for too. -/
def luaSub (buffer : Bytes) (offset : Nat) : Bytes := buffer.drop (offset - 1)

/-- The part of `readNextBuffer` for a new buffer. -/
def refill (lpack : Reader) (newBuffer : Bytes) : Reader :=
  { lpack with
    buffer :=
      if lpack.offset < lpack.buffer.length then luaSub lpack.buffer lpack.offset ++ newBuffer
      else newBuffer
    offset := 0
    torn := lpack.torn || (0 < lpack.offset && lpack.offset < lpack.buffer.length) }

def readNextBuffer (lpack : Reader) : Reader :=
  if lpack.EOF then lpack
  else
    match lpack.chunks with
    | [] => { lpack with EOF := true }
    | newBuffer :: chunks => { lpack with chunks }.refill newBuffer

end Reader

def readNextBuffer : ReaderM Unit := modify Reader.readNextBuffer

/-- `readNumber`; nil when the input is exhausted. The test for a negative length is left out,
`read_number` never returns one. -/
def readNumber : Nat → Option Nat → ReaderM (Option Number)
  | 0, _ => outOfFuel
  | fuel + 1, numType => do
    let lpack ← get
    if lpack.done then pure none
    else
      match numType with
      | none => raise (text "bad argument #1 to 'read_number' (number expected, got nil)")
      | some t =>
        let (readLen, value) ← ofExcept (Native.readNumber t lpack.buffer lpack.offset)
        if 0 < readLen then
          modify fun r => { r with offset := lpack.offset + readLen }
          pure (some value)
        else
          readNextBuffer
          readNumber fuel numType

/-- The natural number that an unsigned number on the wire stands for. -/
def wireNat : Number → Nat
  | .finite q => q.num.toNat
  | _ => 0

def readMarker (fuel : Nat) : ReaderM (Option Nat) := do
  let value ← readNumber fuel (some Marker.typeMarker.tag)
  pure (value.map wireNat)

/-- The loop of `readString`; `accm` holds the pieces read so far. -/
def readPieces : Nat → Nat → List Bytes → ReaderM LuaValue
  | 0, _, _ => outOfFuel
  | fuel + 1, desiredLen, accm => do
    let lpack ← get
    if 0 < desiredLen ∧ lpack.done = false then
      let (readLen, value) ← ofExcept (Native.readString desiredLen lpack.buffer lpack.offset)
      if 0 < readLen then
        modify fun r => { r with offset := lpack.offset + readLen }
        if desiredLen - readLen = 0 then pure (.str (accm.flatten ++ value))
        else
          readNextBuffer
          readPieces fuel (desiredLen - readLen) (accm ++ [value])
      else
        readNextBuffer
        readPieces fuel desiredLen accm
    else pure .nil

def readString (fuel : Nat) (desiredLen : Option Number) : ReaderM LuaValue :=
  match desiredLen with
  | none => raise (text "attempt to compare number with nil")
  | some len => readPieces fuel (wireNat len) []

/-- A string after one of the string markers. -/
def readSizedString (fuel : Nat) (lenType : Marker) : ReaderM LuaValue := do
  let len ← readNumber fuel (some lenType.tag)
  readString fuel len

/-- The message for an index without entry. The one for a short index is put together before
`assert` looks at the entry. -/
def missingEntry (entryType : Marker) (dw : Option Number) : LuaError :=
  match entryType, dw with
  | .dictEntry, some dw => text "Entry missing in dictionary: " ++ numberToString dw
  | .dictEntry, none => text "attempt to concatenate local 'dw' (a nil value)"
  | _, _ => text "Entry missing in dictionary"

/-- The word that a dictionary entry stands for, which has to be there. -/
def readDictEntry (fuel : Nat) (dictionary : Option (List LuaValue)) (entryType lenType : Marker) :
    ReaderM LuaValue := do
  let dw ← readNumber fuel (some lenType.tag)
  match dictionary with
  | none => raise (text "Missing dictionary")
  | some words =>
    let word := dw.bind fun dw => if wireNat dw = 0 then none else words[wireNat dw - 1]?
    if (word.getD .nil).isFalsy then raise (missingEntry entryType dw)
    else pure (word.getD .nil)

/-- The table that a call of `deserialize` fills. -/
inductive Container where
  | none
  | array (xs : List LuaValue)
  | map (entries : List (LuaValue × LuaValue))

def Container.value : Container → LuaValue
  | none => .nil
  | array xs => .table xs []
  | map entries => .table [] entries

/-- The local variables of `deserialize`. -/
structure Frame where
  container : Container
  key : LuaValue
  val : LuaValue
  isKey : Bool
  dictionary : Option (List LuaValue)

namespace Frame

def enter (container : Container) (dictionary : Option (List LuaValue)) : Frame where
  container := container
  key := .nil
  val := .nil
  isKey := true
  dictionary := dictionary

/-- The value goes into the container, as a key, as the value of the last key or as the next
element. Inserting nil into an array does nothing. -/
def accept (fr : Frame) (val : LuaValue) : Except LuaError Frame :=
  match fr.container with
  | .none => .ok { fr with val }
  | .array xs => .ok { fr with val, container := .array (if val.isNil then xs else xs ++ [val]) }
  | .map entries =>
    if fr.isKey then .ok { fr with val, key := val, isKey := false }
    else
      match rawset fr.key val entries with
      | .ok entries => .ok { fr with val, container := .map entries, isKey := true }
      | .error e => .error e

end Frame

/-- The cases of `deserialize` that produce a value; `inner` is the recursive call. -/
def readValue (fuel : Nat) (inner : Container → ReaderM LuaValue)
    (dictionary : Option (List LuaValue)) (t : Option Nat) : ReaderM LuaValue :=
  match t.bind Marker.ofTag? with
  | some .nil => pure .nil
  | some .boolTrue => pure (.bool true)
  | some .boolFalse => pure (.bool false)
  | some .string => readSizedString fuel .uint8
  | some .bigString => readSizedString fuel .uint16
  | some .hugeString => readSizedString fuel .uint32
  | some .mapStart => inner (.map [])
  | some .arrayStart => inner (.array [])
  | some .dictEntry => readDictEntry fuel dictionary .dictEntry .uint8
  | some .bigDictEntry => readDictEntry fuel dictionary .bigDictEntry .uint16
  | _ => do
    -- everything else is a number
    let value ← readNumber fuel t
    pure (value.elim .nil .num)

/-- A value has been read: a call without container returns it, a loop stores it and goes on. -/
def storeValue (next : Frame → ReaderM LuaValue) (fr : Frame) (val : LuaValue) :
    ReaderM LuaValue :=
  match fr.container with
  | .none => pure val
  | _ => do
    let fr ← ofExcept (fr.accept val)
    next fr

/-- A round of the loop of `deserialize` after `readMarker`; `inner` is the recursive call,
`next` goes on with the loop. -/
def deserializeMarked (fuel : Nat) (inner : Container → ReaderM LuaValue)
    (next : Frame → ReaderM LuaValue) (fr : Frame) (t : Option Nat) : ReaderM LuaValue :=
  match t.bind Marker.ofTag? with
  | some .recordEnd =>
    match fr.container, fr.isKey with
    | .map _, false => raise (text "Unbalanced table, key without corresponding value found")
    | container, _ => pure container.value
  | some .dictStart => do
    let dictionary ← inner (.array [])
    let words := match dictionary with
      | .table words _ => some words
      | _ => none
    modify fun lpack => { lpack with dictionary := words }
    -- luapack.lua has no such name in scope
    raise (text "attempt to call global 'debugDump' (a nil value)")
  | _ => do
    let val ← readValue fuel inner fr.dictionary t
    storeValue next fr val

/-- The loop of `deserialize`. -/
def deserializeLoop : Nat → Frame → ReaderM LuaValue
  | 0, _ => outOfFuel
  | fuel + 1, fr => do
    let lpack ← get
    if lpack.done then pure fr.val
    else
      let inner : Container → ReaderM LuaValue := fun container => do
        let lpack ← get
        deserializeLoop fuel (.enter container lpack.dictionary)
      let t ← readMarker fuel
      deserializeMarked fuel inner (deserializeLoop fuel) fr t

def deserialize (fuel : Nat) (container : Container) : ReaderM LuaValue := do
  let lpack ← get
  deserializeLoop fuel (.enter container lpack.dictionary)

def read (fuel : Nat) : ReaderM LuaValue := do
  readNextBuffer
  deserialize fuel .none

end Luaw.LuaPack
