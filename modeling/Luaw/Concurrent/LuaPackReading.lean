import Luaw.Concurrent.Reading
import Luaw.LuaPack.Reader

/-!
# Reading LuaPack in a coroutine

The read functions of `luapack.lua` over a reader whose `readFn` may suspend, as that of
`newLPackReqReader` does. Only `read` uses a global.
-/

namespace Luaw.Concurrent.LPack

open Lua Http Routine LuaPack

/-- A reader with the request that its `readFn` reads from. The `readFn` of a string reader
returns the chunks of the reader instead. -/
structure Reading (τ : Type) where
  lpack : Reader
  fromReq : Bool
  incoming : Incoming τ

instance {τ : Type} : Retains Bytes (Reading τ) :=
  .fields (fun s => (s.lpack, s.incoming))
    (fun (lpack, incoming) s => { s with lpack, incoming }) fun _ => rfl

abbrev ReadingM (τ : Type) := LuaM (Reading τ)

section Functions

variable {τ : Type} (P : HttpParser τ)

def modifyReader (f : Reader → Reader) : ReadingM τ Unit :=
  modify fun s => { s with lpack := f s.lpack }

/-- The `readFn` of `newLPackReqReader`. -/
def readReq : LuaM (Incoming τ) (Option Bytes) := do
  let s ← get
  if s.session.req.EOF = false ∧ s.session.req.mesgDone = false then
    readAndParse P
    let s ← get
    let (str, req) ← ofExcept (Multipart.consumeBodyChunkParsed s.session.req)
    modifySession fun session => { session with req }
    match str with
    | none => raise (text "attempt to call global 'debugDump' (a nil value)")
    | some str => pure (some str)
  else pure none

/-- The `readFn` of `newLPackStringReader`. -/
def readChunk : ReadingM τ (Option Bytes) := do
  let s ← get
  match s.lpack.chunks with
  | [] => pure none
  | newBuffer :: chunks =>
    modifyReader fun lpack => { lpack with chunks }
    pure (some newBuffer)

def readFn : ReadingM τ (Option Bytes) := do
  let s ← get
  if s.fromReq then
    zoom Reading.incoming Reading.lpack (fun incoming lpack => ⟨lpack, true, incoming⟩) (readReq P)
  else readChunk

def readNextBuffer : ReadingM τ Unit := do
  let s ← get
  if s.lpack.EOF then pure ()
  else
    let newBuffer ← readFn P
    match newBuffer with
    | none => modifyReader fun lpack => { lpack with EOF := true }
    | some newBuffer => modifyReader fun lpack => lpack.refill newBuffer

def readNumber : Nat → Option Nat → ReadingM τ (Option Number)
  | 0, _ => outOfFuel
  | fuel + 1, numType => do
    let s ← get
    if s.lpack.done then pure none
    else
      match numType with
      | none => raise (text "bad argument #1 to 'read_number' (number expected, got nil)")
      | some t =>
        let (readLen, value) ← ofExcept (Native.readNumber t s.lpack.buffer s.lpack.offset)
        if 0 < readLen then
          modifyReader fun r => { r with offset := s.lpack.offset + readLen }
          pure (some value)
        else
          readNextBuffer P
          readNumber fuel numType

def readMarker (fuel : Nat) : ReadingM τ (Option Nat) := do
  let value ← readNumber P fuel (some Marker.typeMarker.tag)
  pure (value.map wireNat)

def readPieces : Nat → Nat → List Bytes → ReadingM τ LuaValue
  | 0, _, _ => outOfFuel
  | fuel + 1, desiredLen, accm => do
    let s ← get
    if 0 < desiredLen ∧ s.lpack.done = false then
      let (readLen, value) ← ofExcept (Native.readString desiredLen s.lpack.buffer s.lpack.offset)
      if 0 < readLen then
        modifyReader fun r => { r with offset := s.lpack.offset + readLen }
        if desiredLen - readLen = 0 then pure (.str (accm.flatten ++ value))
        else
          let (accm, _) ← keep (accm ++ [value]) (readNextBuffer P)
          readPieces fuel (desiredLen - readLen) accm
      else
        let (accm, _) ← keep accm (readNextBuffer P)
        readPieces fuel desiredLen accm
    else pure .nil

def readString (fuel : Nat) (desiredLen : Option Number) : ReadingM τ LuaValue :=
  match desiredLen with
  | none => raise (text "attempt to compare number with nil")
  | some len => readPieces P fuel (wireNat len) []

def readSizedString (fuel : Nat) (lenType : Marker) : ReadingM τ LuaValue := do
  let len ← readNumber P fuel (some lenType.tag)
  readString P fuel len

def readDictEntry (fuel : Nat) (dictionary : Option (List LuaValue)) (entryType lenType : Marker) :
    ReadingM τ LuaValue := do
  let (dictionary, dw) ← keep dictionary (readNumber P fuel (some lenType.tag))
  match dictionary with
  | none => raise (text "Missing dictionary")
  | some words =>
    let word := dw.bind fun dw => if wireNat dw = 0 then none else words[wireNat dw - 1]?
    if (word.getD .nil).isFalsy then raise (missingEntry entryType dw)
    else pure (word.getD .nil)

def readValue (fuel : Nat) (inner : Container → ReadingM τ LuaValue)
    (dictionary : Option (List LuaValue)) (t : Option Nat) : ReadingM τ LuaValue :=
  match t.bind Marker.ofTag? with
  | some .nil => pure .nil
  | some .boolTrue => pure (.bool true)
  | some .boolFalse => pure (.bool false)
  | some .string => readSizedString P fuel .uint8
  | some .bigString => readSizedString P fuel .uint16
  | some .hugeString => readSizedString P fuel .uint32
  | some .mapStart => inner (.map [])
  | some .arrayStart => inner (.array [])
  | some .dictEntry => readDictEntry P fuel dictionary .dictEntry .uint8
  | some .bigDictEntry => readDictEntry P fuel dictionary .bigDictEntry .uint16
  | _ => do
    -- everything else is a number
    let value ← readNumber P fuel t
    pure (value.elim .nil .num)

def storeValue (next : Frame → ReadingM τ LuaValue) (fr : Frame) (val : LuaValue) :
    ReadingM τ LuaValue :=
  match fr.container with
  | .none => pure val
  | _ => do
    let fr ← ofExcept (fr.accept val)
    next fr

def deserializeMarked (fuel : Nat) (inner : Container → ReadingM τ LuaValue)
    (next : Frame → ReadingM τ LuaValue) (fr : Frame) (t : Option Nat) : ReadingM τ LuaValue :=
  match t.bind Marker.ofTag? with
  | some .recordEnd =>
    match fr.container, fr.isKey with
    | .map _, false => raise (text "Unbalanced table, key without corresponding value found")
    | container, _ => pure container.value
  | some .dictStart => do
    let (_, dictionary) ← keep fr (inner (.array []))
    let words := match dictionary with
      | .table words _ => some words
      | _ => none
    modifyReader fun lpack => { lpack with dictionary := words }
    -- luapack.lua has no such name in scope
    raise (text "attempt to call global 'debugDump' (a nil value)")
  | _ => do
    let (fr, val) ← keep fr (readValue P fuel inner fr.dictionary t)
    storeValue next fr val

def deserializeLoop : Nat → Frame → ReadingM τ LuaValue
  | 0, _ => outOfFuel
  | fuel + 1, fr => do
    let s ← get
    if s.lpack.done then pure fr.val
    else
      let inner : Container → ReadingM τ LuaValue := fun container => do
        let s ← get
        deserializeLoop fuel (.enter container s.lpack.dictionary)
      let (fr, t) ← keep fr (readMarker P fuel)
      deserializeMarked P fuel inner (deserializeLoop fuel) fr t

def deserialize (fuel : Nat) (container : Container) : ReadingM τ LuaValue := do
  let s ← get
  deserializeLoop P fuel (.enter container s.lpack.dictionary)

/-- `read` assigns the global `val` and returns it. -/
def read (fuel : Nat) : ReadingM τ LuaValue := do
  readNextBuffer P
  let result ← deserialize P fuel .none
  assign Global.val result
  readGlobal .val

end Functions

section Owning

variable {τ : Type} (P : HttpParser τ)

theorem readReq_owns : Owns ∅ (readReq P) ∅ := by
  apply Owns.bind .get
  intro s
  apply Owns.ite _ (.pure _)
  apply Owns.bind (readAndParse_owns P)
  intro _
  apply Owns.bind .get
  intro s
  apply Owns.bind (.ofExcept _)
  intro consumed
  apply Owns.bind (.modify _)
  intro _
  split
  · exact .raise _
  · exact .pure _

theorem readChunk_owns : Owns ∅ (readChunk : ReadingM τ (Option Bytes)) ∅ := by
  apply Owns.bind .get
  intro s
  split
  · exact .pure _
  · exact .bind (.modify _) fun _ => .pure _

theorem readNextBuffer_owns : Owns ∅ (readNextBuffer P) ∅ := by
  have hreadFn : Owns ∅ (readFn P) ∅ :=
    .bind .get fun _ => .ite (.zoom (readReq_owns P)) readChunk_owns
  apply Owns.bind .get
  intro s
  apply Owns.ite (.pure _)
  apply Owns.bind hreadFn
  intro newBuffer
  cases newBuffer with
  | none => exact .modify _
  | some newBuffer => exact .modify _

theorem readNumber_owns (fuel : Nat) (numType : Option Nat) :
    Owns ∅ (readNumber P fuel numType) ∅ := by
  induction fuel with
  | zero => exact .outOfFuel
  | succ fuel ih =>
    apply Owns.bind .get
    intro s
    apply Owns.ite (.pure _)
    cases numType with
    | none => exact .raise _
    | some t =>
      apply Owns.bind (.ofExcept _)
      intro read
      exact .ite (.bind (.modify _) fun _ => .pure _) (.bind (readNextBuffer_owns P) fun _ => ih)

theorem readPieces_owns (fuel desiredLen : Nat) (accm : List Bytes) :
    Owns ∅ (readPieces P fuel desiredLen accm) ∅ := by
  induction fuel generalizing desiredLen accm with
  | zero => exact .outOfFuel
  | succ fuel ih =>
    apply Owns.bind .get
    intro s
    apply Owns.ite _ (.pure _)
    apply Owns.bind (.ofExcept _)
    intro read
    apply Owns.ite _ (.bind (.keep (readNextBuffer_owns P)) fun _ => ih _ _)
    apply Owns.bind (.modify _)
    intro _
    exact .ite (.pure _) (.bind (.keep (readNextBuffer_owns P)) fun _ => ih _ _)

theorem readSizedString_owns (fuel : Nat) (lenType : Marker) :
    Owns ∅ (readSizedString P fuel lenType) ∅ := by
  apply Owns.bind (readNumber_owns P _ _)
  intro len
  cases len with
  | none => exact .raise _
  | some len => exact readPieces_owns P _ _ _

theorem readDictEntry_owns (fuel : Nat) (dictionary : Option (List LuaValue))
    (entryType lenType : Marker) : Owns ∅ (readDictEntry P fuel dictionary entryType lenType) ∅ := by
  apply Owns.bind (.keep (readNumber_owns P _ _))
  rintro ⟨dictionary, dw⟩
  cases dictionary with
  | none => exact .raise _
  | some words => exact .ite (.raise _) (.pure _)

theorem readValue_owns (fuel : Nat) {inner : Container → ReadingM τ LuaValue}
    (hinner : ∀ container, Owns ∅ (inner container) ∅) (dictionary : Option (List LuaValue))
    (t : Option Nat) : Owns ∅ (readValue P fuel inner dictionary t) ∅ := by
  rw [readValue]
  split
  · exact .pure _
  · exact .pure _
  · exact .pure _
  · exact readSizedString_owns P _ _
  · exact readSizedString_owns P _ _
  · exact readSizedString_owns P _ _
  · exact hinner _
  · exact hinner _
  · exact readDictEntry_owns P _ _ _ _
  · exact readDictEntry_owns P _ _ _ _
  · exact .bind (readNumber_owns P _ _) fun _ => .pure _

theorem deserializeMarked_owns (fuel : Nat) {inner : Container → ReadingM τ LuaValue}
    {next : Frame → ReadingM τ LuaValue} (hinner : ∀ container, Owns ∅ (inner container) ∅)
    (hnext : ∀ fr, Owns ∅ (next fr) ∅) (fr : Frame) (t : Option Nat) :
    Owns ∅ (deserializeMarked P fuel inner next fr t) ∅ := by
  have hstore (fr : Frame) (val : LuaValue) : Owns ∅ (storeValue next fr val) ∅ := by
    rw [storeValue]
    split
    · exact .pure _
    · exact .bind (.ofExcept _) hnext
  rw [deserializeMarked]
  split
  · split
    · exact .raise _
    · exact .pure _
  · exact .bind (.keep (hinner _)) fun _ => .bind (.modify _) fun _ => .raise _
  · exact .bind (.keep (readValue_owns P fuel hinner _ _)) fun _ => hstore _ _

theorem deserializeLoop_owns (fuel : Nat) (fr : Frame) :
    Owns ∅ (deserializeLoop P fuel fr) ∅ := by
  induction fuel generalizing fr with
  | zero => exact .outOfFuel
  | succ fuel ih =>
    have hmarker : Owns ∅ (readMarker P fuel) ∅ :=
      .bind (readNumber_owns P _ _) fun _ => .pure _
    apply Owns.bind .get
    intro s
    apply Owns.ite (.pure _)
    apply Owns.bind (.keep hmarker)
    rintro ⟨fr, t⟩
    exact deserializeMarked_owns P fuel (fun _ => .bind .get fun _ => ih _) ih fr t

/-- Nothing suspends between the assignment to `val` and the return. -/
theorem read_owns (fuel : Nat) : Owns ∅ (read P fuel) ∅ := by
  apply Owns.bind (readNextBuffer_owns P)
  intro _
  apply Owns.bind (.bind .get fun _ => deserializeLoop_owns P fuel _)
  intro result
  apply Owns.bind (.assign _ _)
  intro _
  exact (readGlobal_owns (Set.mem_insert _ _)).weaken (Set.empty_subset _)

end Owning

end Luaw.Concurrent.LPack
