import Luaw.LuaPack.Tokens

/-!
# Writing as a stream of tokens

Without a dictionary `serialize` stores the tokens of the value one after the other, and the
writer turns the queue into bytes stretch by stretch. `flushes` is the list of the stretches,
`FlushSafe` says that none of them ends between a marker and its payload and that the last one
is not empty.
-/

namespace Luaw.LuaPack

open Lua Program

/-- What the write functions do with a marker and its payload. -/
def store (t : Token) : WriterM Unit := do
  qstore (.int t.marker.tag) 1
  match t.payload with
  | none => pure ()
  | some (val, size) => qstore val size

def storeAll : List Token → WriterM Unit
  | [] => pure ()
  | t :: ts => do
    store t
    storeAll ts

theorem storeAll_append (ts us : List Token) :
    storeAll (ts ++ us) = (do storeAll ts; storeAll us) := by
  induction ts with
  | nil => simp [storeAll]
  | cons t ts ih => simp [storeAll, ih]

theorem keeps_flush {dict : Option (List (Bytes × Nat))} :
    Keeps (fun w : Writer => w.dictionary = dict) flush := by
  intro w hw
  rw [flush, exec_bind_ok (exec_get w), exec_bind]
  cases Native.serializeWriteQ w.writeQ w.writeQsize with
  | ok str => exact hw
  | error e => exact hw

theorem keeps_qstore {dict : Option (List (Bytes × Nat))} (val : LuaValue) (size : Nat) :
    Keeps (fun w : Writer => w.dictionary = dict) (qstore val size) := by
  refine .ite (.raise _) ?_
  refine .bind (.modify fun w hw => hw) fun _ => .bind .get fun lpack => ?_
  exact .ite keeps_flush (.pure _)

theorem keeps_storeAll (ts : List Token) :
    Keeps (fun w : Writer => w.dictionary = none) (storeAll ts) := by
  induction ts with
  | nil => exact .pure _
  | cons t ts ih =>
    refine .bind (.bind (keeps_qstore _ _) fun _ => ?_) fun _ => ih
    obtain - | ⟨val, size⟩ := t.payload
    · exact .pure _
    · exact keeps_qstore _ _

/-- The program stores the given tokens, or raises when there are none. -/
def Serializes (m : WriterM Unit) : Option (List Token) → Prop
  | some ts => ∀ w, w.dictionary = none → exec m w = exec (storeAll ts) w
  | none => ∀ w, w.dictionary = none → ∃ e w', exec m w = (.error e, w')

theorem Serializes.bind {m n : WriterM Unit} {ts us : Option (List Token)}
    (hm : Serializes m ts) (hn : Serializes n us) :
    Serializes (do m; n) (ts.bind fun a => us.map fun b => a ++ b) := by
  cases ts with
  | none =>
    intro w hw
    obtain ⟨e, w', hrun⟩ := hm w hw
    exact ⟨e, w', exec_bind_error hrun⟩
  | some a =>
    have hkeep : ∀ w : Writer, w.dictionary = none → (exec (storeAll a) w).2.dictionary = none :=
      keeps_storeAll a
    cases us with
    | some b =>
      intro w hw
      have hw' := hkeep w hw
      rw [storeAll_append, exec_bind, exec_bind, hm w hw]
      rcases hrun : exec (storeAll a) w with ⟨result, w'⟩
      rw [hrun] at hw'
      cases result with
      | ok _ => exact hn w' hw'
      | error e => rfl
    | none =>
      intro w hw
      have hw' := hkeep w hw
      rw [exec_bind, hm w hw]
      rcases hrun : exec (storeAll a) w with ⟨result, w'⟩
      rw [hrun] at hw'
      cases result with
      | ok _ => exact hn w' hw'
      | error e => exact ⟨e, w', rfl⟩

theorem serializes_marker (m : Marker) (h : m.isPlain = true) :
    Serializes (writeMarker m) (some [.plain m h]) := by
  intro w _
  simp [storeAll, store, Token.marker, Token.payload, writeMarker]

theorem serializes_number (x : Number) : Serializes (writeNumber x) (tokens (.num x)) := by
  rw [tokens]
  split
  · next m hm =>
    intro w _
    simp [writeNumber, hm, exec_bind, storeAll, store, Token.marker, Token.payload]
  · next e he =>
    intro w _
    exact ⟨_, w, by rw [writeNumber, exec_bind, he]; rfl⟩

theorem serializes_string (s : Bytes) : Serializes (writeString s) (tokens (.str s)) := by
  rw [tokens]
  split
  · next m hm =>
    intro w hw
    simp [writeString, hm, hw, exec_bind, storeAll, store, Token.marker, Token.payload]
  · next e he =>
    intro w hw
    refine ⟨.raised e, w, ?_⟩
    simp [writeString, he, hw, exec_bind]

mutual

theorem serializes (v : LuaValue) : Serializes (serialize v) (tokens v) := by
  match v with
  | .nil => exact serializes_marker .nil rfl
  | .bool true => exact serializes_marker .boolTrue rfl
  | .bool false => exact serializes_marker .boolFalse rfl
  | .num x => exact serializes_number x
  | .str s => exact serializes_string s
  | .table [] hash =>
    have h := (serializes_marker .mapStart rfl).bind
      ((serializes_pairs hash).bind (serializes_marker .recordEnd rfl))
    rw [serialize, tokens]
    cases hts : tokensOfPairs hash <;> rw [hts] at h <;> exact h
  | .table (x :: xs) _ =>
    have h := (serializes_marker .arrayStart rfl).bind
      ((serializes x).bind ((serializes_all xs).bind (serializes_marker .recordEnd rfl)))
    rw [serialize, tokens]
    cases hx : tokens x <;> cases hxs : tokensOfAll xs <;> rw [hx, hxs] at h
    · exact h
    · exact h
    · exact h
    · simpa only [Option.bind_some, Option.map_some, List.singleton_append,
        List.append_assoc] using h
  | .sparse _ _ => exact (serializes_marker .arrayStart rfl).bind (serializes_marker .recordEnd rfl)
  | .other _ => exact fun _ _ => rfl

theorem serializes_all (xs : List LuaValue) : Serializes (serializeAll xs) (tokensOfAll xs) := by
  match xs with
  | [] => exact fun _ _ => rfl
  | x :: xs => exact (serializes x).bind (serializes_all xs)

theorem serializes_pairs (entries : List (LuaValue × LuaValue)) :
    Serializes (serializePairs entries) (tokensOfPairs entries) := by
  match entries with
  | [] => exact fun _ _ => rfl
  | (k, v) :: entries =>
    have h := (serializes k).bind ((serializes v).bind (serializes_pairs entries))
    rw [serializePairs, tokensOfPairs]
    cases hk : tokens k <;> cases hv : tokens v <;> cases hts : tokensOfPairs entries <;>
      rw [hk, hv, hts] at h
    all_goals simpa only [Option.bind_some, Option.bind_none, Option.map_some, Option.map_none,
      List.append_assoc] using h

end

/-- `write` is storing the tokens and flushing. -/
def writeTokens (ts : List Token) : WriterM Unit := do
  storeAll ts
  flush

theorem exec_write {v : LuaValue} {ts : List Token} (h : tokens v = some ts) {w : Writer}
    (hw : w.dictionary = none) : exec (write v) w = exec (writeTokens ts) w := by
  have hv : Serializes (serialize v) (some ts) := h ▸ serializes v
  rw [write, writeTokens, exec_bind, exec_bind, hv w hw]

/-- A write of a value without tokens raises. -/
theorem exec_write_none {v : LuaValue} (h : tokens v = none) {w : Writer}
    (hw : w.dictionary = none) : ∃ e w', exec (write v) w = (.error e, w') := by
  have hv : Serializes (serialize v) none := h ▸ serializes v
  obtain ⟨e, w', hrun⟩ := hv w hw
  exact ⟨e, w', exec_bind_error hrun⟩

/-- The queue holds exactly the given tokens. -/
structure Queued (w : Writer) (ts : List Token) : Prop where
  queue : w.writeQ = entriesOf ts
  size : w.writeQsize = queueSize ts

def Writer.push (w : Writer) (t : Token) : Writer :=
  { w with writeQ := w.writeQ ++ t.entries, writeQsize := w.writeQsize + t.size }

def Writer.flushed (w : Writer) (strs : List Bytes) : Writer :=
  { w with writeQ := [], writeQsize := 0, output := w.output ++ strs }

theorem Queued.push {w : Writer} {p : List Token} (h : Queued w p) (t : Token) :
    Queued (w.push t) (p ++ [t]) := by
  refine ⟨?_, ?_⟩
  · simp [Writer.push, h.queue, entriesOf]
  · simp [Writer.push, h.size, queueSize]

theorem Queued.flushed (w : Writer) (strs : List Bytes) : Queued (w.flushed strs) [] := ⟨rfl, rfl⟩

theorem queueSize_eq_zero {ts : List Token} : queueSize ts = 0 ↔ ts = [] := by
  cases ts with
  | nil => simp [queueSize]
  | cons t ts => simp [queueSize, Token.size]

theorem exec_flush {w : Writer} {p : List Token} (h : Queued w p) :
    exec flush w = match Native.serializeWriteQ (entriesOf p) (queueSize p) with
      | .ok str => (.ok (), w.flushed [str])
      | .error e => (.error (.raised e), w) := by
  rw [flush, exec_bind_ok (exec_get w), exec_bind, h.queue, h.size]
  cases Native.serializeWriteQ (entriesOf p) (queueSize p) <;> rfl

/-- A flush empties the queue into one string, or raises and leaves everything as it is. -/
theorem flush_cases {w : Writer} {p : List Token} (h : Queued w p) :
    (p ≠ [] ∧ exec flush w = (.ok (), w.flushed [bytesOf p])) ∨
      ((p = [] ∨ ¬EnoughRoom (queueSize p) (bytesOf p)) ∧
        ∃ e, exec flush w = (.error (.raised e), w)) := by
  have hflush := exec_flush h
  by_cases hp : p = []
  · right
    refine ⟨.inl hp, text "Invalid write buffer length specified", ?_⟩
    rw [hflush, Native.serializeWriteQ, if_pos (queueSize_eq_zero.mpr hp)]
  · have hsize : queueSize p ≠ 0 := fun h0 => hp (queueSize_eq_zero.mp h0)
    obtain hok | ⟨hroom, e, he⟩ := serializeWriteQ_tokens p hsize
    · exact .inl ⟨hp, by rw [hflush, hok]⟩
    · exact .inr ⟨.inr hroom, e, by rw [hflush, he]⟩

theorem exec_qstore {val : LuaValue} (hval : val.isFalsy = false) (size : Nat) (w : Writer) :
    exec (qstore val size) w =
      if w.flushLimit ≤ w.writeQsize + size then
        exec flush { w with writeQ := w.writeQ ++ [val], writeQsize := w.writeQsize + size }
      else
        (.ok (), { w with writeQ := w.writeQ ++ [val], writeQsize := w.writeQsize + size }) := by
  simp only [qstore, hval, Bool.false_eq_true, if_false]
  rw [exec_bind_ok (exec_modify _ w), exec_bind_ok (exec_get _), exec_ite]
  rfl

/-- A flush of a queue that ends in a marker without its payload raises. -/
theorem flush_cut {w : Writer} {p : List Token} {t : Token} (ht : t.payload ≠ none)
    (hq : w.writeQ = entriesOf p ++ [.int t.marker.tag]) :
    ∃ e, exec flush w = (.error (.raised e), w) := by
  obtain ⟨e, he⟩ := serializeWriteQ_cut p t ht w.writeQsize
  refine ⟨e, ?_⟩
  rw [flush, exec_bind_ok (exec_get w), hq, he]
  exact exec_bind_error (exec_ofExcept_error e w)

theorem isFalsy_payload {t : Token} {val : LuaValue} {size : Nat}
    (h : t.payload = some (val, size)) : val.isFalsy = false := by
  cases t with
  | plain m hm => cases h
  | number m x hx => cases h; rfl
  | string m s hs => cases h; rfl

/-- Storing one token: an automatic flush right after a marker that waits for its payload
raises, and any other takes place after the whole token. -/
theorem store_cases {w : Writer} {p : List Token} (h : Queued w p) (t : Token) :
    ((t.payload ≠ none ∧ w.flushLimit ≤ w.writeQsize + 1) ∧
      ∃ e w', exec (store t) w = (.error (.raised e), w')) ∨
    ((t.payload ≠ none → w.writeQsize + 1 < w.flushLimit) ∧
      exec (store t) w =
        if w.flushLimit ≤ w.writeQsize + t.size then exec flush (w.push t)
        else (.ok (), w.push t)) := by
  have hmarker := @exec_qstore (.int t.marker.tag) rfl 1 w
  -- a token is one entry of the queue, or two: its marker and its payload
  rcases hp : t.payload with - | ⟨val, size⟩
  · right
    refine ⟨fun hne => absurd rfl hne, ?_⟩
    have hpush : w.push t = { w with
        writeQ := w.writeQ ++ [.int t.marker.tag], writeQsize := w.writeQsize + 1 } := by
      simp [Writer.push, Token.entries, Token.size, hp]
    have hsize : t.size = 1 := by simp [Token.size, hp]
    rw [hpush, hsize, ← hmarker]
    simp [store, hp]
  · have hstore : store t = (do qstore (.int t.marker.tag) 1; qstore val size) := by
      simp [store, hp]
    -- the marker alone may fill the queue
    by_cases hlimit : w.flushLimit ≤ w.writeQsize + 1
    · left
      refine ⟨⟨Option.some_ne_none _, hlimit⟩, ?_⟩
      have hpay : t.payload ≠ none := by simp [hp]
      rw [if_pos hlimit] at hmarker
      obtain ⟨e, he⟩ := @flush_cut { w with
        writeQ := w.writeQ ++ [.int t.marker.tag], writeQsize := w.writeQsize + 1 } p t hpay
        (by rw [h.queue])
      rw [he] at hmarker
      exact ⟨e, _, hstore ▸ exec_bind_error hmarker⟩
    · right
      refine ⟨fun _ => by omega, ?_⟩
      rw [if_neg hlimit] at hmarker
      have hpush : w.push t = { w with
          writeQ := w.writeQ ++ [.int t.marker.tag] ++ [val],
          writeQsize := w.writeQsize + 1 + size } := by
        simp [Writer.push, Token.entries, Token.size, hp, Nat.add_assoc]
      have hsize : t.size = 1 + size := by simp [Token.size, hp]
      rw [hstore, exec_bind_ok hmarker, exec_qstore (isFalsy_payload hp), hpush, hsize,
        ← Nat.add_assoc]

/-- No flush comes between a marker and its payload, and the last flush finds something in the
queue. `queued` is the size of what is in the queue. -/
def FlushSafe (limit : Nat) : Nat → List Token → Prop
  | queued, [] => 0 < queued
  | queued, t :: ts => (t.payload ≠ none → queued + 1 < limit) ∧
      FlushSafe limit (if limit ≤ queued + t.size then 0 else queued + t.size) ts

/-- The stretches of the token stream that are flushed one after the other; `p` is in the queue
already. -/
def flushes (limit : Nat) : List Token → List Token → List (List Token)
  | p, [] => [p]
  | p, t :: ts =>
    if limit ≤ queueSize (p ++ [t]) then (p ++ [t]) :: flushes limit [] ts
    else flushes limit (p ++ [t]) ts

theorem flatten_flushes (limit : Nat) (p ts : List Token) :
    (flushes limit p ts).flatten = p ++ ts := by
  induction ts generalizing p with
  | nil => simp [flushes]
  | cons t ts ih =>
    rw [flushes]
    split
    · simp [ih]
    · simp [ih]

theorem flatten_map_bytesOf (tss : List (List Token)) :
    (tss.map bytesOf).flatten = bytesOf tss.flatten := by
  induction tss with
  | nil => rfl
  | cons ts tss ih =>
    rw [List.map_cons, List.flatten_cons, ih, List.flatten_cons, bytesOf, bytesOf, bytesOf,
      List.flatMap_append]

/-- Every flush of the stream has enough room. -/
def FlushesFit (limit : Nat) (p ts : List Token) : Prop :=
  ∀ seg ∈ flushes limit p ts, EnoughRoom (queueSize seg) (bytesOf seg)

/-- Writing tokens either flushes all the stretches or raises, and it raises only when a flush
is unsafe or lacks room. -/
theorem writeTokens_cases (ts : List Token) {w : Writer} {p : List Token} (h : Queued w p) :
    (FlushSafe w.flushLimit (queueSize p) ts ∧
      exec (writeTokens ts) w =
        (.ok (), w.flushed ((flushes w.flushLimit p ts).map bytesOf))) ∨
    ((FlushSafe w.flushLimit (queueSize p) ts → ¬FlushesFit w.flushLimit p ts) ∧
      ∃ e w', exec (writeTokens ts) w = (.error (.raised e), w')) := by
  induction ts generalizing w p with
  | nil =>
    have hrun : exec (writeTokens []) w = exec flush w := by
      rw [writeTokens, storeAll, pure_bind]
    rw [hrun]
    obtain ⟨hne, hok⟩ | ⟨hbad, e, he⟩ := flush_cases h
    · exact .inl ⟨Nat.pos_of_ne_zero fun h0 => hne (queueSize_eq_zero.mp h0), hok⟩
    · refine .inr ⟨fun hsafe hfit => ?_, e, w, he⟩
      obtain hp | hroom := hbad
      · exact absurd (queueSize_eq_zero.mpr hp) (Nat.pos_iff_ne_zero.mp hsafe)
      · exact hroom (hfit p (List.mem_singleton_self p))
  | cons t ts ih =>
    have hrun : exec (writeTokens (t :: ts)) w = exec (do store t; writeTokens ts) w := by
      simp only [writeTokens, storeAll, bind_assoc]
    have hsize : queueSize (p ++ [t]) = queueSize p + t.size := by simp [queueSize]
    rw [hrun]
    obtain ⟨⟨hpay, hcut⟩, e, w', he⟩ | ⟨hpay, hstore⟩ := store_cases h t
    · right
      refine ⟨fun hsafe => ?_, e, w', exec_bind_error he⟩
      have := hsafe.1 hpay
      rw [h.size] at hcut
      omega
    · rw [h.size] at hpay hstore
      -- a token that fills the queue ends a stretch
      by_cases hlimit : w.flushLimit ≤ queueSize p + t.size
      · rw [if_pos hlimit] at hstore
        have hseg : flushes w.flushLimit p (t :: ts) =
            (p ++ [t]) :: flushes w.flushLimit [] ts := by
          rw [flushes, hsize, if_pos hlimit]
        obtain ⟨-, hok⟩ | ⟨hbad, e, he⟩ := flush_cases (h.push t)
        · rw [hok] at hstore
          rw [exec_bind_ok hstore]
          obtain ⟨hsafe, hdone⟩ | ⟨hbad, herror⟩ :=
            ih (Queued.flushed (w.push t) [bytesOf (p ++ [t])])
          · left
            refine ⟨⟨hpay, ?_⟩, ?_⟩
            · rw [if_pos hlimit]
              exact hsafe
            · rw [hdone, hseg]
              simp [Writer.flushed, Writer.push]
          · right
            refine ⟨fun hsafe hfit => ?_, herror⟩
            have hrest := hsafe.2
            rw [if_pos hlimit] at hrest
            refine hbad hrest fun seg hmem => hfit seg ?_
            rw [hseg]
            exact List.mem_cons_of_mem _ hmem
        · right
          rw [he] at hstore
          refine ⟨fun _ hfit => ?_, e, _, exec_bind_error hstore⟩
          obtain hnil | hroom := hbad
          · simp at hnil
          · exact hroom (hfit _ (by rw [hseg]; exact List.mem_cons_self))
      · rw [if_neg hlimit] at hstore
        have hseg : flushes w.flushLimit p (t :: ts) = flushes w.flushLimit (p ++ [t]) ts := by
          rw [flushes, hsize, if_neg hlimit]
        rw [exec_bind_ok hstore]
        obtain ⟨hsafe, hdone⟩ | ⟨hbad, herror⟩ := ih (h.push t)
        · left
          refine ⟨⟨hpay, ?_⟩, ?_⟩
          · rw [if_neg hlimit, ← hsize]
            exact hsafe
          · rw [hdone, hseg]
            rfl
        · right
          refine ⟨fun hsafe hfit => ?_, herror⟩
          have hrest := hsafe.2
          rw [if_neg hlimit, ← hsize] at hrest
          exact hbad hrest fun seg hmem => hfit seg (hseg ▸ hmem)

/-- Some writer without dictionary wrote the value as these bytes. -/
def Written (v : LuaValue) (s : Bytes) : Prop :=
  ∃ limit w, exec (write v) (newLPackBufferWriter limit) = (.ok (), w) ∧ w.output.flatten = s

theorem Written.tokens {v : LuaValue} {s : Bytes} (h : Written v s) :
    ∃ ts, tokens v = some ts ∧ s = bytesOf ts := by
  obtain ⟨limit, w, hrun, hout⟩ := h
  have hdict : (newLPackBufferWriter limit).dictionary = none := rfl
  cases hts : LuaPack.tokens v with
  | none =>
    obtain ⟨e, w', herror⟩ := exec_write_none hts hdict
    cases herror.symm.trans hrun
  | some ts =>
    refine ⟨ts, rfl, ?_⟩
    rw [exec_write hts hdict] at hrun
    obtain ⟨-, hok⟩ | ⟨-, e, w', herror⟩ :=
      writeTokens_cases ts (Queued.flushed (newLPackBufferWriter limit) [])
    · obtain rfl : _ = w := congrArg Prod.snd (hok.symm.trans hrun)
      rw [← hout]
      show ((flushes limit [] ts).map bytesOf).flatten = _
      rw [flatten_map_bytesOf, flatten_flushes, List.nil_append]
    · cases herror.symm.trans hrun

end Luaw.LuaPack
