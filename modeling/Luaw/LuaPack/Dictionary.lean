import Luaw.LuaPack.RoundTrip

/-!
# Dictionaries

A stream that is written with a dictionary starts with the words of it. The reader takes them in
and then calls `debugDump`, which is not in its scope: whatever comes after the dictionary is
never read.
-/

namespace Luaw.LuaPack

open Lua Program

/-- With enough room and no automatic flush the program writes the stream `bytes`. -/
def StreamOf (m : WriterM Unit) (bytes : Bytes) : Prop :=
  ∃ limit w size, exec m (newLPackBufferWriter limit) = (.ok (), w) ∧ w.output = [] ∧
    size ≠ 0 ∧ EnoughRoom size bytes ∧ Native.serializeWriteQ w.writeQ size = .ok bytes

def ReadsValue (bytes : Bytes) (val : LuaValue) : Prop :=
  ∃ N, ∀ fuel, N ≤ fuel → ∃ r, exec (read fuel) (newLPackStringReader bytes) = (.ok val, r)

/-- A value after a dictionary, as `useDictionary` and `write` put them into the queue. -/
def serializeWith (words : List Bytes) (v : LuaValue) : WriterM Unit := do
  setDictionaryForWrite words
  serialize v

/-- The stream with the dictionary is read as the one without it. -/
def DictionaryTransparent (words : List Bytes) (v : LuaValue) : Prop :=
  ∃ bytes bytes₀ val val₀, StreamOf (serializeWith words v) bytes ∧
    StreamOf (serialize v) bytes₀ ∧ ReadsValue bytes val ∧ ReadsValue bytes₀ val₀ ∧
    val₀.structEq val = true

section Writing

/-- The entries `q` are still at the head of the queue, unless it has been flushed. -/
def Behind (q : List LuaValue) (w : Writer) : Prop := w.output = [] → q <+: w.writeQ

theorem behind_flush (q : List LuaValue) : Keeps (Behind q) flush := by
  intro w hw
  rw [flush, exec_bind_ok (exec_get w), exec_bind]
  cases Native.serializeWriteQ w.writeQ w.writeQsize with
  | ok str => exact fun hout => absurd hout (by simp)
  | error e => exact hw

theorem behind_qstore (q : List LuaValue) (val : LuaValue) (size : Nat) :
    Keeps (Behind q) (qstore val size) := by
  refine .ite (.raise _) ?_
  refine .bind (.modify fun w hw hout => ?_) fun _ => .bind .get fun lpack =>
    .ite (behind_flush q) (.pure _)
  exact (hw hout).trans (List.prefix_append _ _)

theorem behind_writeNumber (q : List LuaValue) (x : Number) : Keeps (Behind q) (writeNumber x) :=
  .bind (.ofExcept _) fun _ => .bind (behind_qstore q _ _) fun _ => behind_qstore q _ _

theorem behind_writeString (q : List LuaValue) (s : Bytes) : Keeps (Behind q) (writeString s) := by
  refine .bind .get fun lpack => ?_
  cases lpack.dictionary.bind (List.lookup s)
  all_goals
    exact .bind (.ofExcept _) fun _ => .bind (behind_qstore q _ _) fun _ => behind_qstore q _ _

mutual

theorem behind_serialize (q : List LuaValue) (v : LuaValue) : Keeps (Behind q) (serialize v) := by
  match v with
  | .nil => exact behind_qstore q _ _
  | .bool b => exact .ite (behind_qstore q _ _) (behind_qstore q _ _)
  | .num x => exact behind_writeNumber q x
  | .str s => exact behind_writeString q s
  | .table [] hash =>
    exact .bind (behind_qstore q _ _) fun _ => .bind (behind_pairs q hash) fun _ =>
      behind_qstore q _ _
  | .table (x :: xs) _ =>
    exact .bind (behind_qstore q _ _) fun _ => .bind (behind_serialize q x) fun _ =>
      .bind (behind_all q xs) fun _ => behind_qstore q _ _
  | .sparse _ _ => exact .bind (behind_qstore q _ _) fun _ => behind_qstore q _ _
  | .other _ => exact .pure _

theorem behind_all (q : List LuaValue) (xs : List LuaValue) :
    Keeps (Behind q) (serializeAll xs) := by
  match xs with
  | [] => exact .pure _
  | x :: xs => exact .bind (behind_serialize q x) fun _ => behind_all q xs

theorem behind_pairs (q : List LuaValue) (entries : List (LuaValue × LuaValue)) :
    Keeps (Behind q) (serializePairs entries) := by
  match entries with
  | [] => exact .pure _
  | (k, v) :: entries =>
    exact .bind (behind_serialize q k) fun _ => .bind (behind_serialize q v) fun _ =>
      behind_pairs q entries

end

theorem tokens_str_scalar {s : Bytes} {ts : List Token} (h : tokens (.str s) = some ts) :
    ∀ t ∈ ts, t.isScalar = true := by
  rw [tokens] at h
  split at h
  · cases h
    simp [Token.isScalar]
  · cases h

/-- The words of a dictionary are stored as strings. -/
theorem exec_writeWords (words : List Bytes) (i : Nat) (dictionary : List (Bytes × Nat))
    {w w' : Writer} (hw : w.dictionary = none) {d : List (Bytes × Nat)}
    (h : exec (writeWords words i dictionary) w = (.ok d, w')) :
    ∃ ts, (∀ t ∈ ts, t.isScalar = true) ∧ exec (storeAll ts) w = (.ok (), w') := by
  induction words generalizing i dictionary w with
  | nil =>
    cases h
    exact ⟨[], nofun, rfl⟩
  | cons word words ih =>
    rw [writeWords] at h
    cases htoken : tokens (.str word) with
    | none =>
      obtain ⟨e, w₁, herror⟩ := (htoken ▸ serializes_string word : Serializes _ none) w hw
      rw [exec_bind_error herror] at h
      cases h
    | some tw =>
      have hstore := (htoken ▸ serializes_string word : Serializes _ (some tw)) w hw
      have hkeep := keeps_storeAll tw w hw
      rcases hrun : exec (storeAll tw) w with ⟨result, w₁⟩
      rw [hrun] at hstore hkeep
      cases result with
      | error e =>
        rw [exec_bind_error hstore] at h
        cases h
      | ok _ =>
        rw [exec_bind_ok hstore] at h
        obtain ⟨ts, hscalar, hrest⟩ := ih _ _ hkeep h
        refine ⟨tw ++ ts, fun t ht => ?_, ?_⟩
        · obtain ht | ht := List.mem_append.mp ht
          · exact tokens_str_scalar htoken t ht
          · exact hscalar t ht
        · rw [storeAll_append, exec_bind_ok hrun]
          exact hrest

/-- The dictionary as it is stored: its start, the words and the end of the record. -/
def dictionaryTokens (ts : List Token) : List Token :=
  .plain .dictStart Marker.dictStart_isPlain ::
    (ts ++ [.plain .recordEnd Marker.recordEnd_isPlain])

theorem exec_setDictionary {words : List Bytes} {w w' : Writer} (hw : w.dictionary = none)
    (h : exec (setDictionaryForWrite words) w = (.ok (), w')) :
    ∃ ts w₁, (∀ t ∈ ts, t.isScalar = true) ∧
      exec (storeAll (dictionaryTokens ts)) w = (.ok (), w₁) ∧
      w'.writeQ = w₁.writeQ ∧ w'.output = w₁.output := by
  rw [setDictionaryForWrite] at h
  have hstart := serializes_marker .dictStart rfl w hw
  have hkeep := keeps_storeAll [.plain .dictStart rfl] w hw
  rcases hrun : exec (storeAll [.plain .dictStart rfl]) w with ⟨result, w₀⟩
  rw [hrun] at hstart hkeep
  cases result with
  | error e =>
    rw [exec_bind_error hstart] at h
    cases h
  | ok _ =>
    rw [exec_bind_ok hstart] at h
    rcases hwords : exec (writeWords words 1 []) w₀ with ⟨result, w₁⟩
    cases result with
    | error e =>
      rw [exec_bind_error hwords] at h
      cases h
    | ok d =>
      rw [exec_bind_ok hwords] at h
      obtain ⟨ts, hscalar, hts⟩ := exec_writeWords words 1 [] hkeep hwords
      have hkeep₁ : w₁.dictionary = none := by
        have := keeps_storeAll ts w₀ hkeep
        rwa [hts] at this
      have hend := serializes_marker .recordEnd rfl w₁ hkeep₁
      rcases hlast : exec (storeAll [.plain .recordEnd rfl]) w₁ with ⟨result, w₂⟩
      rw [hlast] at hend
      cases result with
      | error e =>
        rw [exec_bind_error hend] at h
        cases h
      | ok _ =>
        rw [exec_bind_ok hend] at h
        cases h
        refine ⟨ts, w₂, hscalar, ?_, rfl, rfl⟩
        have happ : dictionaryTokens ts =
            [.plain .dictStart rfl] ++ (ts ++ [.plain .recordEnd rfl]) := rfl
        rw [happ, storeAll_append, exec_bind_ok hrun, storeAll_append, exec_bind_ok hts]
        exact hlast

/-- What the queue holds when a dictionary and a value have been put into it. -/
theorem serializeWith_queue {words : List Bytes} {v : LuaValue} {limit : Nat} {w : Writer}
    (h : exec (serializeWith words v) (newLPackBufferWriter limit) = (.ok (), w))
    (hout : w.output = []) :
    ∃ ts rest, (∀ t ∈ ts, t.isScalar = true) ∧
      w.writeQ = entriesOf (dictionaryTokens ts) ++ rest := by
  rw [serializeWith] at h
  rcases hdict : exec (setDictionaryForWrite words) (newLPackBufferWriter limit) with ⟨result, w₁⟩
  cases result with
  | error e =>
    rw [exec_bind_error hdict] at h
    cases h
  | ok _ =>
    rw [exec_bind_ok hdict] at h
    obtain ⟨ts, w₂, hscalar, hstore, hqueue, houtput⟩ := exec_setDictionary rfl hdict
    have hwhole := storeAll_queue _ (Queued.flushed (newLPackBufferWriter limit) []) hstore
    have hbehind : Behind (entriesOf (dictionaryTokens ts)) w₁ := by
      intro hnil
      rw [hqueue, hwhole (by rw [← houtput, hnil]; rfl)]
      exact List.prefix_rfl
    have hlast := behind_serialize _ v w₁ hbehind
    rw [h] at hlast
    obtain ⟨rest, hrest⟩ := hlast hout
    exact ⟨ts, rest, hscalar, hrest.symm⟩

theorem storePayload_grows {buffsize : Nat} {payload : Native.Payload} {entry : Option LuaValue}
    {buff bytes : Bytes} (h : Native.storePayload buffsize payload entry buff = .ok bytes) :
    buff <+: bytes := by
  cases payload with
  | none =>
    cases h
    exact List.prefix_rfl
  | integer width checked expected =>
    cases checked with
    | false =>
      obtain ⟨ival, -, h⟩ := except_bind_ok h
      cases h
      exact List.prefix_append _ _
    | true =>
      simp only [Native.storePayload, if_true] at h
      obtain ⟨_, -, h⟩ := except_bind_ok h
      obtain ⟨ival, -, h⟩ := except_bind_ok h
      cases h
      exact List.prefix_append _ _
  | int64 | real format width expected =>
    obtain ⟨_, -, h⟩ := except_bind_ok h
    obtain ⟨dval, -, h⟩ := except_bind_ok h
    cases h
    exact List.prefix_append _ _
  | string width expected =>
    obtain ⟨sval, -, h⟩ := except_bind_ok h
    obtain ⟨_, -, h⟩ := except_bind_ok h
    cases h
    rw [List.append_assoc]
    exact List.prefix_append _ _

/-- The entries of a queue only add to the bytes before them. -/
theorem serializeEntries_grows (buffsize : Nat) (q : List LuaValue) {buff bytes : Bytes}
    (h : Native.serializeEntries buffsize q buff = .ok bytes) : buff <+: bytes := by
  match q with
  | [] =>
    cases h
    exact List.prefix_rfl
  | entry :: rest =>
    rw [Native.serializeEntries] at h
    obtain ⟨marker, -, h⟩ := except_bind_ok h
    obtain ⟨_, -, h⟩ := except_bind_ok h
    refine (List.prefix_append buff (BigEndian.encodeInt 1 marker)).trans ?_
    dsimp only at h
    split at h
    · cases h
    · exact serializeEntries_grows buffsize rest h
    · cases rest with
      | nil => exact storePayload_grows h
      | cons value rest' =>
        obtain ⟨buff', hstore, h⟩ := except_bind_ok h
        exact (storePayload_grows hstore).trans (serializeEntries_grows buffsize rest' h)

/-- A stream that starts with tokens starts with their bytes. -/
theorem serializeWriteQ_prefix {ts : List Token} {rest : List LuaValue} {size : Nat}
    {bytes : Bytes} (h : Native.serializeWriteQ (entriesOf ts ++ rest) size = .ok bytes) :
    bytesOf ts <+: bytes := by
  rw [Native.serializeWriteQ] at h
  split at h
  · cases h
  · dsimp only at h
    split at h
    · cases h
    · obtain hall | ⟨-, e, he⟩ :=
        serializeEntries_tokens ts rest (((size + 64 : Nat) : Int).bmod (2 ^ 32)).toNat []
      · rw [hall, List.nil_append] at h
        exact serializeEntries_grows _ rest h
      · rw [he] at h
        cases h

end Writing

section Reading

/-- A stored value: the loop goes on, with the element at the end of its array. -/
theorem storeValue_array (fuel : Nat) {fr : Frame} {acc : List LuaValue}
    (hfr : fr.container = .array acc) (val : LuaValue) :
    ∃ fr' acc', fr'.container = .array acc' ∧
      storeValue (deserializeLoop fuel) fr val = deserializeLoop fuel fr' := by
  refine ⟨{ fr with val, container := .array (if val.isNil then acc else acc ++ [val]) }, _, rfl, ?_⟩
  simp only [storeValue, hfr, Frame.accept]
  rfl

/-- The words of a dictionary are read as an array, whatever follows them. -/
theorem words_reads {c fuel : Nat} (ts : List Token) (hscalar : ∀ t ∈ ts, t.isScalar = true)
    (hfuel : c + ts.length + 1 < fuel) {fr : Frame} {acc : List LuaValue}
    (hfr : fr.container = .array acc) (q : Bytes) :
    ∃ words, Reads c (deserializeLoop fuel fr)
      (bytesOf (ts ++ [.plain .recordEnd rfl]) ++ q) (.ok (.table words [])) q := by
  induction ts generalizing fuel fr acc with
  | nil =>
    obtain ⟨fuel, rfl⟩ : ∃ f, fuel = f + 1 := ⟨fuel - 1, by omega⟩
    refine ⟨acc, deserializeLoop_round .recordEnd (by omega) ?_⟩
    -- the end of the record returns the words
    have hmarked : deserializeMarked fuel (innerCall fuel) (deserializeLoop fuel) fr
        (some Marker.recordEnd.tag) = pure (.table acc []) := by
      obtain ⟨container, key, val, isKey, dictionary⟩ := fr
      cases hfr
      rfl
    rw [hmarked]
    exact .pure _
  | cons t ts ih =>
    obtain ⟨fuel, rfl⟩ : ∃ f, fuel = f + 1 := ⟨fuel - 1, by omega⟩
    have hmarker := Token.isScalar_marker (hscalar t List.mem_cons_self)
    obtain ⟨fr', acc', hfr', hstore⟩ := storeValue_array fuel hfr t.value
    have hrest : c + ts.length + 1 < fuel := by
      rw [List.length_cons] at hfuel
      omega
    obtain ⟨words, hwords⟩ := ih (fun t ht => hscalar t (List.mem_cons_of_mem _ ht)) hrest hfr'
    refine ⟨words, ?_⟩
    rw [List.cons_append, bytesOf_cons, List.cons_append, List.append_assoc]
    -- one round of the loop takes one word
    refine deserializeLoop_round t.marker (by omega) ?_
    rw [deserializeMarked_other (by intro he; rw [he] at hmarker; cases hmarker)
      (by intro he; rw [he] at hmarker; cases hmarker)]
    refine (readValue_reads (hscalar t List.mem_cons_self) (by omega) _ _ _).bind ?_
      (Stable.storeValue (stable_torn.deserializeLoop fuel) fr)
    rw [hstore]
    exact hwords

/-- The call that fills the dictionary, whatever follows it. -/
theorem innerCall_words {c fuel : Nat} (ts : List Token) (hscalar : ∀ t ∈ ts, t.isScalar = true)
    (hfuel : c + ts.length + 1 < fuel) (q : Bytes) :
    ∃ words, Reads c (innerCall fuel (.array []))
      (bytesOf (ts ++ [.plain .recordEnd rfl]) ++ q) (.ok (.table words [])) q := by
  have hnew : (Frame.enter (.array []) none).container = .array [] := rfl
  obtain ⟨words, hwords⟩ := words_reads ts hscalar hfuel hnew q
  refine ⟨words, fun r hr => ?_⟩
  rw [innerCall, exec_bind_ok (exec_get r), hr.dictionary]
  exact hwords r hr

/-- A stream that starts with a dictionary is not read. -/
theorem read_dictionary {ts : List Token} (hscalar : ∀ t ∈ ts, t.isScalar = true) {q bytes : Bytes}
    (hbytes : bytes = bytesOf (dictionaryTokens ts) ++ q) (hsmall : bytes.length < 2 ^ 31)
    {fuel : Nat} (hfuel : ts.length + 2 < fuel) :
    ∃ r, exec (read (fuel + 1)) (newLPackStringReader bytes) =
      (.error (.raised (text "attempt to call global 'debugDump' (a nil value)")), r) := by
  have hcons : bytes = UInt8.ofNat Marker.dictStart.tag ::
      (bytesOf (ts ++ [.plain .recordEnd rfl]) ++ q) := by
    rw [hbytes, dictionaryTokens, bytesOf_cons]
    rfl
  have hne : bytes ≠ [] := by
    rw [hcons]
    exact List.cons_ne_nil _ _
  have hstable := stable_oneChunk bytes
  have hone := hstable.next _ (oneChunk_new bytes)
  have hchunks : Chunks bytes [bytes] := ⟨by simp, by simpa using hne⟩
  have hholds : Holds (newLPackReader [bytes]).readNextBuffer bytes 1 := by
    rcases (hchunks.holds hsmall).next with htorn | hholds
    · rw [hone.1] at htorn
      cases htorn
    · exact hholds
  rw [newLPackStringReader, exec_read, hholds.dictionary]
  generalize (newLPackReader [bytes]).readNextBuffer = r at hone hholds ⊢
  rw [hcons] at hholds
  -- the marker
  have hone₁ := hstable.readMarker fuel r hone
  rcases readMarker_reads .dictStart (by omega : 1 < fuel) _ r hholds with htorn | ⟨r₁, hmarker, hr₁⟩
  · rw [hone₁.1] at htorn
    cases htorn
  rw [hmarker] at hone₁
  -- the words
  have hone₂ : OneChunk bytes (exec (innerCall fuel (.array [])) r₁).2 := by
    have hkeep : Keeps (OneChunk bytes) (innerCall fuel (.array [])) :=
      .bind .get fun _ => hstable.deserializeLoop _ _
    exact hkeep r₁ hone₁
  obtain ⟨words, hwords⟩ := innerCall_words ts hscalar (by omega : 1 + ts.length + 1 < fuel) q
  obtain htorn | ⟨r₂, hinner, -⟩ := hwords r₁ hr₁
  · rw [hone₂.1] at htorn
    cases htorn
  have hmarker' : exec (readMarker fuel) r = (.ok (some Marker.dictStart.tag), r₁) := hmarker
  have hinner' : exec (innerCall fuel (.array [])) r₁ = (.ok (.table words []), r₂) := hinner
  have hopen := hholds.not_done (List.cons_ne_nil _ _)
  refine ⟨{ r₂ with dictionary := some words }, ?_⟩
  have hloop : exec (deserializeLoop (fuel + 1) (.enter .none none)) r = exec (do
      let t ← readMarker fuel
      deserializeMarked fuel (innerCall fuel) (deserializeLoop fuel) (.enter .none none) t) r := by
    rw [deserializeLoop, exec_bind_ok (exec_get r), hopen]
    rfl
  rw [hloop, exec_bind_ok hmarker']
  change exec (innerCall fuel (.array []) >>= _) r₁ = _
  rw [exec_bind_ok hinner']
  rfl

end Reading

/-- The reader of a stream with a dictionary raises. -/
def Refused (bytes : Bytes) : Prop :=
  ∃ N, ∀ fuel, N ≤ fuel → ∃ r, exec (read fuel) (newLPackStringReader bytes) =
    (.error (.raised (text "attempt to call global 'debugDump' (a nil value)")), r)

theorem refused_of_stream {words : List Bytes} {v : LuaValue} {bytes : Bytes}
    (h : StreamOf (serializeWith words v) bytes) : Refused bytes := by
  obtain ⟨limit, w, size, hrun, hout, -, ⟨hroom, hsize⟩, hstream⟩ := h
  obtain ⟨ts, rest, hscalar, hqueue⟩ := serializeWith_queue hrun hout
  rw [hqueue] at hstream
  obtain ⟨q, hq⟩ := serializeWriteQ_prefix hstream
  refine ⟨ts.length + 4, fun fuel hfuel => ?_⟩
  obtain ⟨fuel, rfl⟩ : ∃ f, fuel = f + 1 := ⟨fuel - 1, by omega⟩
  exact read_dictionary hscalar hq.symm (by omega) (by omega)

theorem Refused.not_readsValue {bytes : Bytes} (h : Refused bytes) (val : LuaValue) :
    ¬ReadsValue bytes val := by
  rintro ⟨N, hread⟩
  obtain ⟨N', hraised⟩ := h
  obtain ⟨r, hok⟩ := hread (N + N') (Nat.le_add_right N N')
  obtain ⟨r', herror⟩ := hraised (N + N') (Nat.le_add_left N' N)
  cases hok.symm.trans herror

/-- A value that is written after a dictionary is never read back: the reader raises. -/
theorem dictionary_never_read (words : List Bytes) (v : LuaValue) :
    ¬DictionaryTransparent words v ∧
      ∀ bytes, StreamOf (serializeWith words v) bytes → Refused bytes :=
  ⟨fun ⟨_, _, val, _, hstream, _, hread, _⟩ =>
    (refused_of_stream hstream).not_readsValue val hread, fun _ => refused_of_stream⟩

/-- A dictionary of one word and a value without any string. -/
theorem dictionary_of_one_word :
    StreamOf (serializeWith [text "a"] (.bool true)) [3, 19, 1, 97, 4, 6] ∧
      StreamOf (serialize (.bool true)) [6] ∧
      (exec (read 20) (newLPackStringReader [3, 19, 1, 97, 4, 6])).1 =
        .error (.raised (text "attempt to call global 'debugDump' (a nil value)")) ∧
      (exec (read 20) (newLPackStringReader [6])).1 = .ok (.bool true) ∧
      ¬DictionaryTransparent [text "a"] (.bool true) := by
  refine ⟨⟨100, (exec (serializeWith [text "a"] (.bool true)) (newLPackBufferWriter 100)).2, 10,
      Prod.ext (by decide +kernel) rfl, by decide +kernel, by decide, by decide,
      by decide +kernel⟩,
    ⟨100, (exec (serialize (.bool true)) (newLPackBufferWriter 100)).2, 10,
      by rfl, by rfl, by decide, by decide, by decide +kernel⟩, by rfl, by rfl, ?_⟩
  rintro ⟨bytes, bytes₀, val, val₀, hstream, -, hread, -⟩
  exact (refused_of_stream hstream).not_readsValue val hread

end Luaw.LuaPack
