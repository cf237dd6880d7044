import Luaw.LuaPack.WriteQueue

/-!
# What the calls of a writer store

A call of a writer stores items one after the other, each a marker with its payload or a plain
marker, and then returns or raises. The script of a call is the list of these items; with it the
states of the writer in which `flush` is called can be listed.
-/

namespace Luaw.LuaPack

open Lua BigEndian Program

/-- What the write functions put into the queue together: the marker and the payload of a
value, or a word of the dictionary under its index. -/
inductive Item where
  | token (t : Token)
  | word (m : Marker) (dw : Nat) (h : findMinRange (.finite dw) Marker.dictEntryRanges = .ok m)

namespace Item

def marker : Item → Marker
  | token t => t.marker
  | word m _ _ => m

def payload : Item → Option (LuaValue × Nat)
  | token t => t.payload
  | word m dw _ => some (.int dw, m.size)

/-- The arguments of the calls of `qstore`. -/
def entries (i : Item) : List (LuaValue × Nat) := (.int i.marker.tag, 1) :: i.payload.toList

end Item

/-- The items that a call stores before it returns or raises an error. -/
structure Script where
  items : List Item
  error : Option LuaError

namespace Script

def andThen (a b : Script) : Script :=
  match a.error with
  | none => ⟨a.items ++ b.items, b.error⟩
  | some _ => a

def mark (m : Marker) (h : m.isPlain = true) : Script := ⟨[.token (.plain m h)], none⟩

/-- The script of `writeNumber`. -/
def number (x : Number) : Script :=
  match h : numberMarker x with
  | .ok m => ⟨[.token (.number m x h)], none⟩
  | .error e => ⟨[], some e⟩

/-- The script of `writeString`. -/
def string (dict : Option (List (Bytes × Nat))) (s : Bytes) : Script :=
  match dict.bind (List.lookup s) with
  | some dw =>
    match h : findMinRange (.finite dw) Marker.dictEntryRanges with
    | .ok m => ⟨[.word m dw h], none⟩
    | .error e => ⟨[], some e⟩
  | none =>
    match h : stringMarker s with
    | .ok m => ⟨[.token (.string m s h)], none⟩
    | .error e => ⟨[], some e⟩

mutual

/-- The script of `serialize`. -/
def value (dict : Option (List (Bytes × Nat))) : LuaValue → Script
  | .nil => mark .nil rfl
  | .bool true => mark .boolTrue rfl
  | .bool false => mark .boolFalse rfl
  | .num x => number x
  | .str s => string dict s
  | .table [] hash => (mark .mapStart rfl).andThen ((pairs dict hash).andThen (mark .recordEnd rfl))
  | .table (x :: xs) _ => (mark .arrayStart rfl).andThen
      ((value dict x).andThen ((all dict xs).andThen (mark .recordEnd rfl)))
  | .sparse _ _ => (mark .arrayStart rfl).andThen (mark .recordEnd rfl)
  | .other _ => ⟨[], none⟩

def all (dict : Option (List (Bytes × Nat))) : List LuaValue → Script
  | [] => ⟨[], none⟩
  | x :: xs => (value dict x).andThen (all dict xs)

def pairs (dict : Option (List (Bytes × Nat))) : List (LuaValue × LuaValue) → Script
  | [] => ⟨[], none⟩
  | (k, v) :: entries => (value dict k).andThen ((value dict v).andThen (pairs dict entries))

end

/-- The script of the loop of `setDictionaryForWrite`. -/
def words (dict : Option (List (Bytes × Nat))) : List Bytes → Script
  | [] => ⟨[], none⟩
  | dw :: ws => (string dict dw).andThen (words dict ws)

/-- The arguments of all calls of `qstore`. -/
def entries (s : Script) : List (LuaValue × Nat) := s.items.flatMap Item.entries

end Script

/-- The methods of a writer. -/
inductive WriterCall where
  | write (val : LuaValue)
  | useDictionary (dict : List Bytes)

namespace WriterCall

def run : WriterCall → WriterM Unit
  | write val => LuaPack.write val
  | useDictionary dict => setDictionaryForWrite dict

def script (dict : Option (List (Bytes × Nat))) : WriterCall → Script
  | write val => .value dict val
  | useDictionary ws => (Script.mark .dictStart Marker.dictStart_isPlain).andThen
      ((Script.words dict ws).andThen (.mark .recordEnd Marker.recordEnd_isPlain))

end WriterCall

/-- Successive calls of `qstore`. -/
def qstoreAll : List (LuaValue × Nat) → WriterM Unit
  | [] => pure ()
  | (val, size) :: rest => do
    qstore val size
    qstoreAll rest

def Script.run (s : Script) : WriterM Unit := do
  qstoreAll s.entries
  match s.error with
  | none => pure ()
  | some e => raise e

/-- The writer at the point of `qstore` where the limit is checked. -/
def Writer.enqueue (w : Writer) (val : LuaValue) (size : Nat) : Writer :=
  { w with writeQ := w.writeQ ++ [val], writeQsize := w.writeQsize + size }

/-- The states in which successive calls of `qstore` call `flush`. -/
def qstoreFlushes : List (LuaValue × Nat) → Writer → List Writer
  | [], _ => []
  | (val, size) :: rest, w =>
    if w.flushLimit ≤ (w.enqueue val size).writeQsize then
      w.enqueue val size ::
        match exec flush (w.enqueue val size) with
        | (.ok _, w') => qstoreFlushes rest w'
        | (.error _, _) => []
    else qstoreFlushes rest (w.enqueue val size)

/-- The states in which a call of the writer calls `flush`: `write` does it once more at its
end. -/
def WriterCall.flushes (call : WriterCall) (w : Writer) : List Writer :=
  qstoreFlushes (call.script w.dictionary).entries w ++
    match call, exec (call.script w.dictionary).run w with
    | write _, (.ok _, w') => [w']
    | _, _ => []

/-- The states in which `flush` is called by successive calls of the writer, each made whether
or not the one before it raised an error. -/
def flushCalls : List WriterCall → Writer → List Writer
  | [], _ => []
  | call :: calls, w => call.flushes w ++ flushCalls calls (exec call.run w).2

theorem keeps_qstoreAll {dict : Option (List (Bytes × Nat))} (entries : List (LuaValue × Nat)) :
    Keeps (fun w : Writer => w.dictionary = dict) (qstoreAll entries) := by
  induction entries with
  | nil => exact .pure _
  | cons entry rest ih => exact .bind (keeps_qstore entry.1 entry.2) fun _ => ih

theorem keeps_run {dict : Option (List (Bytes × Nat))} (s : Script) :
    Keeps (fun w : Writer => w.dictionary = dict) s.run := by
  refine .bind (keeps_qstoreAll s.entries) fun _ => ?_
  cases s.error with
  | none => exact .pure _
  | some e => exact .raise _

theorem qstoreAll_append (xs ys : List (LuaValue × Nat)) :
    qstoreAll (xs ++ ys) = (do qstoreAll xs; qstoreAll ys) := by
  induction xs with
  | nil => simp [qstoreAll]
  | cons x xs ih => simp [qstoreAll, ih]

theorem Script.run_andThen (a b : Script) : (a.andThen b).run = (do a.run; b.run) := by
  cases ha : a.error with
  | none =>
    have hand : a.andThen b = ⟨a.items ++ b.items, b.error⟩ := by simp [andThen, ha]
    have hentries : (a.andThen b).entries = a.entries ++ b.entries := by
      simp [entries, hand]
    rw [run, hentries, qstoreAll_append, run, run, ha, hand]
    simp
  | some e =>
    have hand : a.andThen b = a := by simp [andThen, ha]
    rw [hand]
    funext w
    show exec a.run w = exec (do a.run; b.run) w
    have hraise : ∃ e w', exec a.run w = (.error e, w') := by
      rw [run, ha, exec_bind]
      obtain ⟨e | u, w'⟩ := exec (qstoreAll a.entries) w
      · exact ⟨e, w', rfl⟩
      · exact ⟨_, w', rfl⟩
    obtain ⟨e, w', hraise⟩ := hraise
    rw [hraise, exec_bind_error hraise]

/-- The program does what the script says while the dictionary is in use. -/
def Follows (dict : Option (List (Bytes × Nat))) (m : WriterM Unit) (s : Script) : Prop :=
  ∀ w : Writer, w.dictionary = dict → exec m w = exec s.run w

section Follows

variable {dict : Option (List (Bytes × Nat))}

theorem Follows.bind {m n : WriterM Unit} {a b : Script} (hm : Follows dict m a)
    (hn : Follows dict n b) : Follows dict (do m; n) (a.andThen b) := by
  intro w hw
  have hkeep : (exec a.run w).2.dictionary = dict := keeps_run a w hw
  rw [Script.run_andThen, exec_bind, exec_bind, hm w hw]
  rcases hrun : exec a.run w with ⟨result, w'⟩
  rw [hrun] at hkeep
  cases result with
  | error e => rfl
  | ok u => exact hn w' hkeep

theorem follows_marker (m : Marker) (h : m.isPlain = true) :
    Follows dict (writeMarker m) (.mark m h) := by
  intro w _
  simp [writeMarker, Script.run, Script.mark, Script.entries, Item.entries, Item.marker,
    Item.payload, Token.marker, Token.payload, qstoreAll]

theorem follows_number (x : Number) : Follows dict (writeNumber x) (.number x) := by
  intro w _
  rw [Script.number]
  split
  · next m hm =>
    simp [writeNumber, hm, Script.run, Script.entries, Item.entries, Item.marker, Item.payload,
      Token.marker, Token.payload, qstoreAll, exec_bind]
  · next e he => simp [writeNumber, he, Script.run, Script.entries, qstoreAll, exec_bind]

theorem follows_string (s : Bytes) : Follows dict (writeString s) (.string dict s) := by
  intro w hw
  rw [writeString, exec_bind_ok (exec_get w), hw, Script.string]
  cases dict.bind (List.lookup s) with
  | some dw =>
    dsimp only
    split
    · next m hm =>
      simp [hm, Script.run, Script.entries, Item.entries, Item.marker, Item.payload, qstoreAll,
        exec_bind]
    · next e he => simp [he, Script.run, Script.entries, qstoreAll, exec_bind]
  | none =>
    dsimp only
    split
    · next m hm =>
      simp [hm, Script.run, Script.entries, Item.entries, Item.marker, Item.payload,
        Token.marker, Token.payload, qstoreAll, exec_bind]
    · next e he => simp [he, Script.run, Script.entries, qstoreAll, exec_bind]

mutual

theorem follows_value (v : LuaValue) : Follows dict (serialize v) (.value dict v) := by
  match v with
  | .nil => exact follows_marker .nil rfl
  | .bool true => exact follows_marker .boolTrue rfl
  | .bool false => exact follows_marker .boolFalse rfl
  | .num x => exact follows_number x
  | .str s => exact follows_string s
  | .table [] hash =>
    exact (follows_marker .mapStart rfl).bind
      ((follows_pairs hash).bind (follows_marker .recordEnd rfl))
  | .table (x :: xs) _ =>
    exact (follows_marker .arrayStart rfl).bind
      ((follows_value x).bind ((follows_all xs).bind (follows_marker .recordEnd rfl)))
  | .sparse _ _ => exact (follows_marker .arrayStart rfl).bind (follows_marker .recordEnd rfl)
  | .other _ => exact fun _ _ => rfl

theorem follows_all (xs : List LuaValue) : Follows dict (serializeAll xs) (.all dict xs) := by
  match xs with
  | [] => exact fun _ _ => rfl
  | x :: xs => exact (follows_value x).bind (follows_all xs)

theorem follows_pairs (entries : List (LuaValue × LuaValue)) :
    Follows dict (serializePairs entries) (.pairs dict entries) := by
  match entries with
  | [] => exact fun _ _ => rfl
  | (k, v) :: entries =>
    exact (follows_value k).bind ((follows_value v).bind (follows_pairs entries))

end

/-- The loop over the words of a dictionary; its result does not depend on the writer. -/
theorem exec_writeWords_script (ws : List Bytes) (i : Nat) (dictionary : List (Bytes × Nat)) :
    ∃ result, ∀ w : Writer, w.dictionary = dict →
      exec (writeWords ws i dictionary) w =
        exec (do (Script.words dict ws).run; pure result) w := by
  induction ws generalizing i dictionary with
  | nil => exact ⟨dictionary, fun w _ => rfl⟩
  | cons word ws ih =>
    obtain ⟨result, ih⟩ := ih (i + 1) ((word, i) :: dictionary)
    refine ⟨result, fun w hw => ?_⟩
    have hkeep : (exec (Script.string dict word).run w).2.dictionary = dict := keeps_run _ w hw
    rw [writeWords, Script.words, Script.run_andThen, bind_assoc, exec_bind, exec_bind,
      follows_string word w hw]
    rcases hrun : exec (Script.string dict word).run w with ⟨outcome, w'⟩
    rw [hrun] at hkeep
    cases outcome with
    | error e => rfl
    | ok u => exact ih w' hkeep

end Follows

/-- What a call does after its script. -/
def WriterCall.Finishes (call : WriterCall) (dict : Option (List (Bytes × Nat)))
    (finish : WriterM Unit) : Prop :=
  ∀ w : Writer, w.dictionary = dict →
    exec call.run w = exec (do (call.script dict).run; finish) w

theorem WriterCall.finishes_write (dict : Option (List (Bytes × Nat))) (val : LuaValue) :
    (write val).Finishes dict flush := by
  intro w hw
  rw [run, LuaPack.write, exec_bind, exec_bind, follows_value val w hw]
  rfl

theorem WriterCall.finishes_useDictionary (dict : Option (List (Bytes × Nat))) (ws : List Bytes) :
    ∃ result, (useDictionary ws).Finishes dict
      (modify fun lpack => { lpack with dictionary := some result }) := by
  obtain ⟨result, hwords⟩ := @exec_writeWords_script dict ws 1 []
  refine ⟨result, fun w hw => ?_⟩
  rw [run, setDictionaryForWrite, script, Script.run_andThen, Script.run_andThen, bind_assoc,
    bind_assoc, exec_bind, exec_bind, follows_marker .dictStart rfl w hw]
  have hkeep : (exec (Script.mark .dictStart rfl).run w).2.dictionary = dict := keeps_run _ w hw
  rcases hstart : exec (Script.mark .dictStart rfl).run w with ⟨outcome, w₁⟩
  rw [hstart] at hkeep
  cases outcome with
  | error e => rfl
  | ok u =>
    have hkeep₁ : (exec (Script.words dict ws).run w₁).2.dictionary = dict := keeps_run _ w₁ hkeep
    dsimp only
    rw [exec_bind, exec_bind, hwords w₁ hkeep, exec_bind]
    rcases hloop : exec (Script.words dict ws).run w₁ with ⟨outcome, w₂⟩
    rw [hloop] at hkeep₁
    cases outcome with
    | error e => rfl
    | ok u =>
      show exec (do writeMarker .recordEnd; _) w₂ = exec (do (Script.mark _ _).run; _) w₂
      rw [exec_bind, exec_bind, follows_marker .recordEnd rfl w₂ hkeep₁]

section Output

/-- What a flush in the given state passes to `writeFn`. -/
def Writer.emitted (u : Writer) : Option Bytes :=
  (Native.serializeWriteQ u.writeQ u.writeQsize).toOption

/-- A flush either passes a string on and empties the queue or raises and changes nothing. -/
theorem flush_emitted (w : Writer) :
    (∃ str, w.emitted = some str ∧ exec flush w = (.ok (), w.flushed [str])) ∨
      (w.emitted = none ∧ ∃ e, exec flush w = (.error (.raised e), w)) := by
  rw [flush, exec_bind_ok (exec_get w), exec_bind, Writer.emitted]
  cases Native.serializeWriteQ w.writeQ w.writeQsize with
  | ok str => exact .inl ⟨str, rfl, rfl⟩
  | error e => exact .inr ⟨rfl, e, rfl⟩

/-- `qstore` as the states list it. -/
theorem exec_qstoreAll_cons {val : LuaValue} (hval : val.isFalsy = false) (size : Nat)
    (rest : List (LuaValue × Nat)) (w : Writer) :
    exec (qstoreAll ((val, size) :: rest)) w =
      if w.flushLimit ≤ (w.enqueue val size).writeQsize then
        exec (do flush; qstoreAll rest) (w.enqueue val size)
      else exec (qstoreAll rest) (w.enqueue val size) := by
  have hone : exec (qstore val size) w =
      if w.flushLimit ≤ (w.enqueue val size).writeQsize then exec flush (w.enqueue val size)
      else (.ok (), w.enqueue val size) := exec_qstore hval size w
  rw [qstoreAll]
  by_cases hlimit : w.flushLimit ≤ (w.enqueue val size).writeQsize
  · rw [if_pos hlimit] at hone ⊢
    rw [exec_bind, exec_bind, hone]
  · rw [if_neg hlimit] at hone ⊢
    rw [exec_bind_ok hone]

theorem Item.isFalsy_entries (i : Item) {entry : LuaValue × Nat} (h : entry ∈ i.entries) :
    entry.1.isFalsy = false := by
  rw [entries, List.mem_cons, Option.mem_toList] at h
  obtain rfl | h := h
  · rfl
  · cases i with
    | token t => exact isFalsy_payload h
    | word m dw hm =>
      cases h
      rfl

theorem Script.isFalsy_entries (s : Script) {entry : LuaValue × Nat} (h : entry ∈ s.entries) :
    entry.1.isFalsy = false := by
  obtain ⟨i, -, h⟩ := List.mem_flatMap.mp h
  exact i.isFalsy_entries h

theorem output_qstoreAll {entries : List (LuaValue × Nat)}
    (h : ∀ entry ∈ entries, entry.1.isFalsy = false) (w : Writer) :
    (exec (qstoreAll entries) w).2.output =
      w.output ++ (qstoreFlushes entries w).filterMap Writer.emitted := by
  induction entries generalizing w with
  | nil => simp [qstoreAll, qstoreFlushes]
  | cons entry rest ih =>
    obtain ⟨val, size⟩ := entry
    have ih := ih fun e he => h e (List.mem_cons_of_mem _ he)
    rw [exec_qstoreAll_cons (h _ List.mem_cons_self), qstoreFlushes]
    split
    · obtain ⟨str, hstr, hok⟩ | ⟨hnone, e, herror⟩ := flush_emitted (w.enqueue val size)
      · rw [exec_bind_ok hok, hok, ih, List.filterMap_cons_some hstr]
        simp [Writer.flushed, Writer.enqueue]
      · rw [exec_bind_error herror, herror, List.filterMap_cons_none hnone]
        simp [Writer.enqueue]
    · exact ih _

/-- The error at the end of a script changes nothing. -/
theorem Script.exec_run_state (s : Script) (w : Writer) :
    (exec s.run w).2 = (exec (qstoreAll s.entries) w).2 := by
  rw [run, exec_bind]
  obtain ⟨e | u, w'⟩ := exec (qstoreAll s.entries) w
  · rfl
  · cases s.error <;> rfl

/-- The output of a call is what its flushes emit, so that no flush is missing among them. -/
theorem WriterCall.output_flushes (call : WriterCall) (w : Writer) :
    (exec call.run w).2.output = w.output ++ (call.flushes w).filterMap Writer.emitted := by
  have hscript := @output_qstoreAll (call.script w.dictionary).entries
    (fun _ h => (call.script w.dictionary).isFalsy_entries h) w
  rw [← Script.exec_run_state] at hscript
  cases call with
  | write val =>
    unfold flushes
    rw [finishes_write w.dictionary val w rfl, exec_bind, List.filterMap_append,
      ← List.append_assoc, ← hscript]
    obtain ⟨e | u, w'⟩ := exec ((write val).script w.dictionary).run w
    · simp
    · obtain ⟨str, hstr, hok⟩ | ⟨hnone, e, herror⟩ := flush_emitted w'
      · simp [hok, hstr, Writer.flushed]
      · simp [herror, hnone]
  | useDictionary ws =>
    obtain ⟨result, hfinish⟩ := finishes_useDictionary w.dictionary ws
    unfold flushes
    rw [hfinish w rfl, exec_bind, List.filterMap_append, ← List.append_assoc, ← hscript]
    obtain ⟨e | u, w'⟩ := exec ((useDictionary ws).script w.dictionary).run w
    · simp
    · simp

end Output

end Luaw.LuaPack
