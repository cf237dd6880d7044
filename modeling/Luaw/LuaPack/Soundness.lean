import Luaw.LuaPack.StringReader

/-!
# Is decoding sound?

A read of a string that returns a value has derived it in the grammar, where TYPE_MARKER counts
as a number. The value is the one that the derivation means unless an empty string or a NIL of an
array was lost in it.
-/

namespace Luaw.LuaPack

open Lua Program BigEndian

section Frames

/-- The content that a call of `deserialize` returns for these, read one after the other. -/
def Whole (container : Container) (cs : List Content) (c : Content) : Prop :=
  match container with
  | .none => False
  | .array _ => c = .array cs
  | .map _ => ∃ entries, c = .map entries ∧ cs = flatten entries

/-- The frame has taken these contents. -/
def Filled (fr : Frame) (cs : List Content) : Prop :=
  match fr.container with
  | .none => False
  | .array acc => ReadableAll cs ∧ acc = (readAllAs cs).filter fun x => !x.isNil
  | .map acc => ∃ entries, ReadablePairs entries ∧ acc = assignAll (readPairsAs entries) [] ∧
      if fr.isKey then cs = flatten entries
      else ∃ k, cs = flatten entries ++ [k] ∧ Readable k ∧ fr.key = readAs k

theorem readableAll_append {cs cs' : List Content} :
    ReadableAll (cs ++ cs') ↔ ReadableAll cs ∧ ReadableAll cs' := by
  induction cs with
  | nil => exact (and_iff_right trivial).symm
  | cons c cs ih => rw [List.cons_append, ReadableAll, ReadableAll, ih, and_assoc]

theorem readAllAs_append (cs cs' : List Content) :
    readAllAs (cs ++ cs') = readAllAs cs ++ readAllAs cs' := by
  induction cs with
  | nil => rfl
  | cons c cs ih => rw [List.cons_append, readAllAs, readAllAs, ih, List.cons_append]

theorem readablePairs_append {es es' : List (Content × Content)} :
    ReadablePairs (es ++ es') ↔ ReadablePairs es ∧ ReadablePairs es' := by
  induction es with
  | nil => exact (and_iff_right trivial).symm
  | cons e es ih =>
    obtain ⟨k, v⟩ := e
    simp only [List.cons_append, ReadablePairs, ih, and_assoc]

theorem readPairsAs_append (es es' : List (Content × Content)) :
    readPairsAs (es ++ es') = readPairsAs es ++ readPairsAs es' := by
  induction es with
  | nil => rfl
  | cons e es ih =>
    obtain ⟨k, v⟩ := e
    rw [List.cons_append, readPairsAs, readPairsAs, ih, List.cons_append]

theorem length_flatten (es : List (Content × Content)) :
    (flatten es).length = 2 * es.length := by
  induction es with
  | nil => rfl
  | cons e es ih =>
    have hcons : flatten (e :: es) = e.1 :: e.2 :: flatten es := rfl
    rw [hcons, List.length_cons, List.length_cons, ih, List.length_cons]
    omega

/-- A key in front of a value. -/
theorem flatten_split {es : List (Content × Content)} {k c : Content} {cs : List Content}
    {entries : List (Content × Content)} (h : flatten entries = flatten es ++ k :: c :: cs) :
    ∃ es', entries = es ++ (k, c) :: es' := by
  induction es generalizing entries with
  | nil =>
    cases entries with
    | nil => cases h
    | cons e entries =>
      have hcons : e.1 :: e.2 :: flatten entries = k :: c :: cs := h
      injection hcons with hk hrest
      injection hrest with hc hrest
      exact ⟨entries, by rw [← hk, ← hc]; rfl⟩
  | cons e es ih =>
    cases entries with
    | nil => cases h
    | cons e' entries =>
      have hcons : e'.1 :: e'.2 :: flatten entries =
          e.1 :: e.2 :: (flatten es ++ k :: c :: cs) := h
      injection hcons with hk hrest
      injection hrest with hv hrest
      obtain ⟨es', rfl⟩ := ih hrest
      exact ⟨es', by rw [List.cons_append, Prod.ext hk hv]⟩

/-- A key is refused exactly if it is read as nil, or NaN. -/
theorem rawset_readAs (k : Content) (v : LuaValue) (acc : List (LuaValue × LuaValue)) :
    (∃ e, rawset (readAs k) v acc = .error e) ∧ ¬(k.isBlank = false ∧ k.isKey = true) ∨
      rawset (readAs k) v acc = .ok (assign (readAs k) v acc) ∧
        k.isBlank = false ∧ k.isKey = true := by
  match k with
  | .nil => exact .inl ⟨⟨_, rfl⟩, nofun⟩
  | .str [] => exact .inl ⟨⟨_, rfl⟩, nofun⟩
  | .num .nan => exact .inl ⟨⟨_, rfl⟩, nofun⟩
  | .bool _ | .array _ | .map _ | .str (_ :: _) | .num (.finite _) | .num (.infinite _) =>
    exact .inr ⟨rfl, rfl, rfl⟩

theorem Frame.accept_val {fr fr' : Frame} {val : LuaValue} (h : fr.accept val = .ok fr') :
    fr'.val = val := by
  rw [Frame.accept] at h
  split at h
  · cases h
    rfl
  · cases h
    rfl
  · split at h
    · cases h
      rfl
    · split at h
      · cases h
        rfl
      · cases h

/-- The frame takes one content more. -/
theorem Filled.accept {fr fr' : Frame} {cs : List Content} {c : Content} (h : Filled fr cs)
    (hc : Readable c) (haccept : fr.accept (readAs c) = .ok fr') :
    Filled fr' (cs ++ [c]) ∧ (∀ cs' c', Whole fr'.container cs' c' ↔ Whole fr.container cs' c') ∧
      fr'.dictionary = fr.dictionary := by
  obtain ⟨container, key, val, isKey, dictionary⟩ := fr
  cases container with
  | none => exact h.elim
  | array acc =>
    obtain ⟨hread, hacc⟩ : ReadableAll cs ∧ acc = (readAllAs cs).filter fun x => !x.isNil := h
    cases haccept
    refine ⟨⟨readableAll_append.mpr ⟨hread, hc, trivial⟩, ?_⟩, fun _ _ => Iff.rfl, rfl⟩
    rw [readAllAs_append, List.filter_append, ← hacc]
    cases hnil : (readAs c).isNil <;> simp [readAllAs, hnil]
  | map acc =>
    obtain ⟨entries, hread, hacc, hcs⟩ := h
    cases isKey with
    | true =>
      cases haccept
      exact ⟨⟨entries, hread, hacc, c, by rw [if_pos rfl] at hcs; rw [hcs], hc, rfl⟩,
        fun _ _ => Iff.rfl, rfl⟩
    | false =>
      obtain ⟨k, hcs, hk, hkey⟩ := hcs
      simp only at hkey
      subst hkey
      obtain ⟨⟨e, herror⟩, -⟩ | ⟨hset, hblank, hisKey⟩ := rawset_readAs k (readAs c) acc
      · simp only [Frame.accept, Bool.false_eq_true, if_false, herror] at haccept
        cases haccept
      · simp only [Frame.accept, Bool.false_eq_true, if_false, hset] at haccept
        cases haccept
        refine ⟨⟨entries ++ [(k, c)], ?_, ?_, ?_⟩, fun _ _ => Iff.rfl, rfl⟩
        · exact readablePairs_append.mpr ⟨hread, hblank, hisKey, hk, hc, trivial⟩
        · rw [readPairsAs_append, hacc, assignAll, assignAll, List.foldl_append]
          rfl
        · rw [if_pos rfl, hcs, List.append_assoc]
          simp [flatten]

theorem Readable.of_flatten {entries : List (Content × Content)} (h : ReadablePairs entries) :
    ∀ c ∈ flatten entries, Readable c := by
  induction entries with
  | nil => exact nofun
  | cons e entries ih =>
    obtain ⟨k, v⟩ := e
    obtain ⟨-, -, hk, hv, hrest⟩ := h
    exact List.forall_mem_cons.mpr ⟨hk, List.forall_mem_cons.mpr ⟨hv, ih hrest⟩⟩

/-- The next content of a readable whole is taken. -/
theorem Filled.accepts {fr : Frame} {prior cs : List Content} {c whole : Content}
    (h : Filled fr prior) (hwhole : Whole fr.container (prior ++ c :: cs) whole)
    (hread : Readable whole) : Readable c ∧ ∃ fr', fr.accept (readAs c) = .ok fr' := by
  obtain ⟨container, key, val, isKey, dictionary⟩ := fr
  cases container with
  | none => exact h.elim
  | array acc =>
    obtain rfl : whole = .array (prior ++ c :: cs) := hwhole
    have hall : ReadableAll (prior ++ c :: cs) := hread
    exact ⟨(readableAll_append.mp hall).2.1, _, rfl⟩
  | map acc =>
    obtain ⟨all, rfl, hall⟩ := hwhole
    have hpairs : ReadablePairs all := hread
    have hc : Readable c := Readable.of_flatten hpairs c (by simp [← hall])
    cases isKey with
    | true => exact ⟨hc, _, rfl⟩
    | false =>
      obtain ⟨entries, -, -, k, hprior, -, hkey⟩ := h
      simp only at hkey
      subst hkey
      rw [hprior, List.append_assoc] at hall
      obtain ⟨es', rfl⟩ := flatten_split hall.symm
      obtain ⟨hblank, hisKey, -⟩ := (readablePairs_append.mp hpairs).2
      obtain ⟨-, hbad⟩ | ⟨hset, -⟩ := rawset_readAs k (readAs c) acc
      · exact absurd ⟨hblank, hisKey⟩ hbad
      · refine ⟨hc, ⟨.map (assign (readAs k) (readAs c) acc), readAs k, readAs c, true,
          dictionary⟩, ?_⟩
        simp only [Frame.accept, Bool.false_eq_true, if_false, hset]

/-- The key of the last entry is still without its value. -/
def Frame.unbalanced (fr : Frame) : Bool :=
  match fr.container with
  | .map _ => !fr.isKey
  | _ => false

/-- At the end of the record the frame holds what has been read. -/
theorem Filled.whole {fr : Frame} {cs : List Content} (h : Filled fr cs)
    (hbalanced : fr.unbalanced = false) :
    ∃ c, Whole fr.container cs c ∧ Readable c ∧ fr.container.value = readAs c := by
  obtain ⟨container, key, val, isKey, dictionary⟩ := fr
  cases container with
  | none => exact h.elim
  | array acc =>
    obtain ⟨hread, hacc⟩ : ReadableAll cs ∧ acc = (readAllAs cs).filter fun x => !x.isNil := h
    exact ⟨_, rfl, hread, by rw [readAs, ← hacc]; rfl⟩
  | map acc =>
    obtain ⟨entries, hread, hacc, hcs⟩ := h
    cases isKey with
    | true => exact ⟨_, ⟨entries, rfl, hcs⟩, hread, by rw [readAs, ← hacc]; rfl⟩
    | false => cases hbalanced

theorem Whole.balanced {fr : Frame} {cs : List Content} {c : Content} (h : Filled fr cs)
    (hwhole : Whole fr.container cs c) :
    fr.unbalanced = false ∧ fr.container.value = readAs c := by
  obtain ⟨container, key, val, isKey, dictionary⟩ := fr
  cases container with
  | none => exact h.elim
  | array acc =>
    obtain rfl : c = .array cs := hwhole
    exact ⟨rfl, by rw [readAs, ← h.2]; rfl⟩
  | map acc =>
    obtain ⟨all, rfl, hall⟩ := hwhole
    obtain ⟨entries, hread, hacc, hcs⟩ := h
    cases isKey with
    | true =>
      have hsame : flatten entries = flatten all := hcs.symm.trans hall
      rw [flatten_injective hsame] at hacc
      exact ⟨rfl, by rw [readAs, ← hacc]; rfl⟩
    | false =>
      -- the keys and values of a map are even in number
      obtain ⟨k, hk, -⟩ := hcs
      have hlen := congrArg List.length (hk.symm.trans hall)
      rw [List.length_append, length_flatten, length_flatten, List.length_singleton] at hlen
      omega

end Frames

section Values

/-- A value with the given marker was read off the front, or the input is exhausted. -/
def ValueRead (m : Marker) (p : Bytes) (v : LuaValue) (r' : Reader) : Prop :=
  (v = .nil ∧ r'.done = true) ∨ ∃ c payload q, p = payload ++ q ∧
    Derives Marker.readNumbers [] c (UInt8.ofNat m.tag :: payload) ∧ Readable c ∧ v = readAs c ∧
    Sees r' q

/-- A container was read up to its end of record, or the input is exhausted; it had taken `cs`
before. -/
def ContainerRead (container : Container) (cs : List Content) (p : Bytes) (v : LuaValue)
    (r' : Reader) : Prop :=
  (v = .nil ∧ r'.done = true) ∨ ∃ cs' bs q c,
    p = bs ++ UInt8.ofNat Marker.recordEnd.tag :: q ∧
    DerivesAll Marker.readNumbers [] cs' bs ∧ Whole container (cs ++ cs') c ∧ Readable c ∧
    v = readAs c ∧ Sees r' q

theorem ValueRead.number {m : Marker} (hm : m ∈ Marker.readNumbers) {r r' : Reader} {p : Bytes}
    (h : Sees r p) {fuel : Nat} {v : LuaValue}
    (hrun : exec (do
      let value ← readNumber fuel (some m.tag)
      pure (value.elim LuaValue.nil LuaValue.num) : ReaderM LuaValue) r = (.ok v, r')) :
    ValueRead m p v r' := by
  obtain ⟨value, r₁, hnumber, hvalue⟩ := exec_bind_returns hrun
  cases hvalue
  obtain ⟨rfl, hdone⟩ | ⟨t, format, payload, q, ht, hformat, rfl, hlen, rfl, hsees⟩ :=
    h.readNumber hnumber
  · exact .inl ⟨rfl, hdone⟩
  · cases ht
    rw [Marker.ofTag?_tag, Option.bind_some] at hformat
    have hspells : Spells Marker.readNumbers [] m payload (.num (format.decode payload)) := by
      have hpayload : NumberPayload m payload (.num (format.decode payload)) :=
        ⟨format, hformat, hlen, rfl⟩
      simp only [Marker.readNumbers, Marker.intRanges, List.mem_cons, List.not_mem_nil,
        or_false] at hm
      obtain rfl | rfl | rfl | rfl | rfl | rfl | rfl | rfl | rfl | rfl := hm
      all_goals exact ⟨by decide, hpayload⟩
    exact .inr ⟨_, payload, q, rfl, .scalar hspells, trivial, rfl, hsees⟩

theorem ValueRead.string {m lenType : Marker} {w : Nat} (hw : w ≤ 4) (hsize : m.size = w)
    (ht : lenType.numberFormat? = some (.unsigned w))
    (hm : m = .string ∨ m = .bigString ∨ m = .hugeString) {r r' : Reader} {p : Bytes}
    (h : Sees r p) {fuel : Nat} {v : LuaValue}
    (hrun : exec (readSizedString fuel lenType) r = (.ok v, r')) : ValueRead m p v r' := by
  obtain ⟨value, r₁, hnumber, hstring⟩ := exec_bind_returns hrun
  obtain ⟨rfl, hdone⟩ | ⟨t, format, len, p', ht', hformat, rfl, hlen, rfl, hsees⟩ :=
    h.readNumber hnumber
  · cases hstring
  · cases ht'
    rw [Marker.ofTag?_tag, Option.bind_some, ht] at hformat
    cases hformat
    have hpow : 256 ^ w ≤ 256 ^ 4 := Nat.pow_le_pow_right (by omega) hw
    have hlt := ofBytes_lt len
    rw [show len.length = w from hlen] at hlt
    have hvalue : wireNat ((NumberFormat.unsigned w).decode len) = ofBytes len := by
      rw [decode_unsigned (by omega), wireNat_cast]
    have hpieces : exec (readPieces fuel (ofBytes len) []) r₁ = (.ok v, r') := by
      rw [← hvalue]
      exact hstring
    obtain hend | ⟨s, q, rfl, hs, rfl, hsees'⟩ := hsees.readPieces (by omega) hpieces
    · exact .inl hend
    · have hpayload : StringPayload m (len ++ s) (.str s) :=
        ⟨len, s, rfl, by rw [hlen, hsize]; rfl, hs.symm, rfl⟩
      have hspells : Spells Marker.readNumbers [] m (len ++ s) (.str s) := by
        obtain rfl | rfl | rfl := hm <;> exact hpayload
      exact .inr ⟨_, len ++ s, q, (List.append_assoc _ _ _).symm, .scalar hspells, trivial, rfl,
        hsees'⟩

theorem ValueRead.plain {m : Marker} {c : Content} (h : Spells Marker.readNumbers [] m [] c)
    (hread : Readable c) {r : Reader} {p : Bytes} (hsees : Sees r p) :
    ValueRead m p (readAs c) r :=
  .inr ⟨c, [], p, rfl, .scalar h, hread, rfl, hsees⟩

/-- Without dictionary every entry is refused. -/
theorem readDictEntry_none {fuel : Nat} {entryType lenType : Marker} {r r' : Reader}
    {v : LuaValue} (h : exec (readDictEntry fuel none entryType lenType) r = (.ok v, r')) :
    False := by
  obtain ⟨dw, r₁, -, hraise⟩ := exec_bind_returns h
  cases hraise

/-- What the recursive calls do. -/
def InnerReads (inner : Container → ReaderM LuaValue) : Prop :=
  ∀ ⦃container⦄, (container = .array [] ∨ container = .map []) → ∀ ⦃r p v r'⦄, Sees r p →
    exec (inner container) r = (.ok v, r') → ContainerRead container [] p v r'

theorem Sees.readValue {r r' : Reader} {p : Bytes} (h : Sees r p) {fuel : Nat}
    {inner : Container → ReaderM LuaValue} (hinner : InnerReads inner) {m : Marker}
    (hend : m ≠ .recordEnd) (hdict : m ≠ .dictStart) {v : LuaValue}
    (hrun : exec (readValue fuel inner none (some m.tag)) r = (.ok v, r')) :
    ValueRead m p v r' := by
  cases m with
  | recordEnd => exact absurd rfl hend
  | dictStart => exact absurd rfl hdict
  | nil =>
    cases hrun
    exact @ValueRead.plain .nil .nil ⟨rfl, rfl⟩ trivial _ _ h
  | boolTrue =>
    cases hrun
    exact @ValueRead.plain .boolTrue (.bool true) ⟨rfl, rfl⟩ trivial _ _ h
  | boolFalse =>
    cases hrun
    exact @ValueRead.plain .boolFalse (.bool false) ⟨rfl, rfl⟩ trivial _ _ h
  | string => exact .string (by decide) rfl rfl (.inl rfl) h hrun
  | bigString => exact .string (by decide) rfl rfl (.inr (.inl rfl)) h hrun
  | hugeString => exact .string (by decide) rfl rfl (.inr (.inr rfl)) h hrun
  | mapStart =>
    obtain hnil | ⟨cs, bs, q, c, rfl, hderives, ⟨entries, rfl, rfl⟩, hread, rfl, hsees⟩ :=
      hinner (.inr rfl) h hrun
    · exact .inl hnil
    · exact .inr ⟨_, _, q, (List.append_cons _ _ _), .map hderives, hread, rfl, hsees⟩
  | arrayStart =>
    obtain hnil | ⟨cs, bs, q, c, rfl, hderives, rfl, hread, rfl, hsees⟩ :=
      hinner (.inl rfl) h hrun
    · exact .inl hnil
    · exact .inr ⟨_, _, q, (List.append_cons _ _ _), .array hderives, hread, rfl, hsees⟩
  | dictEntry => exact (@readDictEntry_none _ .dictEntry _ _ _ _ hrun).elim
  | bigDictEntry => exact (@readDictEntry_none _ .bigDictEntry _ _ _ _ hrun).elim
  | _ => exact .number (by decide) h hrun

end Values

section Loop

/-- At the end of the input the rest of a round finds nil, and so does the loop. -/
theorem storeValue_done {fuel : Nat} {fr : Frame} {r r' : Reader} {v : LuaValue}
    (hdone : r.done = true)
    (hrun : exec (storeValue (deserializeLoop fuel) fr .nil) r = (.ok v, r')) :
    v = .nil ∧ r'.done = true := by
  rw [storeValue] at hrun
  split at hrun
  · cases hrun
    exact ⟨rfl, hdone⟩
  · obtain ⟨fr', r₁, haccept, hloop⟩ := exec_bind_returns hrun
    cases hfr : fr.accept .nil with
    | error e =>
      rw [hfr] at haccept
      cases haccept
    | ok fr₁ =>
      rw [hfr] at haccept
      cases haccept
      cases fuel with
      | zero => cases hloop
      | succ fuel =>
        rw [deserializeLoop, exec_bind_ok (exec_get _), hdone] at hloop
        cases hloop
        exact ⟨Frame.accept_val hfr, hdone⟩

/-- A number of unknown type: nothing is left, or it is refused. -/
theorem unknown_done {fuel : Nat} {t : Option Nat} (ht : t.bind Marker.ofTag? = none)
    {inner : Container → ReaderM LuaValue} {fr : Frame} {r r' : Reader} {v : LuaValue}
    (hread : ∀ {value r₁}, exec (readNumber fuel t) r = (.ok value, r₁) →
      value = none ∧ r₁.done = true)
    (hrun : exec (deserializeMarked fuel inner (deserializeLoop fuel) fr t) r = (.ok v, r')) :
    v = .nil ∧ r'.done = true := by
  rw [deserializeMarked, ht] at hrun
  obtain ⟨val, r₁, hvalue, hstore⟩ := exec_bind_returns hrun
  rw [readValue, ht] at hvalue
  obtain ⟨value, r₂, hnumber, hpure⟩ := exec_bind_returns hvalue
  obtain ⟨rfl, hdone⟩ := hread hnumber
  cases hpure
  exact storeValue_done hdone hstore

/-- A round of the loop at the end of a record. -/
theorem exec_recordEnd (fuel : Nat) (inner : Container → ReaderM LuaValue)
    (next : Frame → ReaderM LuaValue) (fr : Frame) (r : Reader) :
    exec (deserializeMarked fuel inner next fr (some Marker.recordEnd.tag)) r =
      if fr.unbalanced then
        (.error (.raised (text "Unbalanced table, key without corresponding value found")), r)
      else (.ok fr.container.value, r) := by
  obtain ⟨container, key, val, isKey, dictionary⟩ := fr
  cases container with
  | none => rfl
  | array acc => rfl
  | map acc => cases isKey <;> rfl

/-- A round of the loop that is part of a call that returns. -/
theorem Sees.round {r r' : Reader} {p : Bytes} (h : Sees r p) {fuel : Nat}
    (hinner : InnerReads (innerCall fuel)) {fr : Frame} (hdict : fr.dictionary = none)
    {v : LuaValue} (hrun : exec (deserializeLoop (fuel + 1) fr) r = (.ok v, r')) :
    (v = .nil ∧ r'.done = true) ∨
      (∃ q, p = UInt8.ofNat Marker.recordEnd.tag :: q ∧ fr.unbalanced = false ∧
        v = fr.container.value ∧ Sees r' q) ∨
      ∃ c bs q r₁, p = bs ++ q ∧ Derives Marker.readNumbers [] c bs ∧ Readable c ∧ Sees r₁ q ∧
        exec (storeValue (deserializeLoop fuel) fr (readAs c)) r₁ = (.ok v, r') := by
  rw [exec_deserializeLoop fuel fr h.not_done] at hrun
  obtain ⟨t, r₁, hmarker, hrun⟩ := exec_bind_returns hrun
  obtain ⟨rfl, hdone⟩ | ⟨b, q, rfl, rfl, hsees⟩ := h.readMarker hmarker
  · refine .inl (unknown_done rfl (fun {value r₂} hnumber => ?_) hrun)
    cases fuel with
    | zero => cases hnumber
    | succ fuel =>
      rw [exec_readNumber_done fuel none hdone] at hnumber
      cases hnumber
      exact ⟨rfl, hdone⟩
  cases hm : Marker.ofTag? b.toNat with
  | none =>
    have hunknown : (some b.toNat).bind Marker.ofTag? = none := hm
    refine .inl (unknown_done hunknown (fun {value r₂} hnumber => ?_) hrun)
    obtain hend | ⟨t, format, payload, q', ht, hformat, -⟩ := hsees.readNumber hnumber
    · exact hend
    · cases ht
      rw [hm] at hformat
      cases hformat
  | some m =>
    obtain rfl : b = UInt8.ofNat m.tag := by
      rw [← ofTag?_eq_some hm, UInt8.ofNat_toNat]
    rw [ofTag?_eq_some hm] at hrun
    by_cases hend : m = .recordEnd
    · subst hend
      rw [exec_recordEnd] at hrun
      split at hrun
      · cases hrun
      · next hbalanced =>
        cases hrun
        exact .inr (.inl ⟨q, rfl, Bool.eq_false_iff.mpr hbalanced, rfl, hsees⟩)
    by_cases hstart : m = .dictStart
    · subst hstart
      obtain ⟨words, r₂, -, hrest⟩ := exec_bind_returns hrun
      obtain ⟨⟨⟩, r₃, -, hraise⟩ := exec_bind_returns hrest
      cases hraise
    rw [deserializeMarked_other hend hstart, hdict] at hrun
    obtain ⟨val, r₂, hvalue, hstore⟩ := exec_bind_returns hrun
    obtain ⟨rfl, hdone⟩ | ⟨c, payload, q', rfl, hderives, hread, rfl, hsees'⟩ :=
      hsees.readValue hinner hend hstart hvalue
    · exact .inl (storeValue_done hdone hstore)
    · exact .inr (.inr ⟨c, _, q', r₂, rfl, hderives, hread, hsees', hstore⟩)

/-- The recursive calls do what the loop does from an empty container. -/
theorem innerReads_of_loop {fuel : Nat}
    (h : ∀ {fr cs}, Filled fr cs → fr.dictionary = none → ∀ r p v r', Sees r p →
      exec (deserializeLoop fuel fr) r = (.ok v, r') → ContainerRead fr.container cs p v r') :
    InnerReads (innerCall fuel) := by
  intro container hcontainer r p v r' hsees hcall
  rw [innerCall, exec_bind_ok (exec_get r), hsees.dictionary] at hcall
  have hfilled : Filled (.enter container none) [] := by
    obtain rfl | rfl := hcontainer
    · exact ⟨trivial, rfl⟩
    · exact ⟨[], trivial, rfl, rfl⟩
  exact h hfilled rfl r p v r' hsees hcall

/-- What the loop of `deserialize` returns for a container is derived. -/
theorem Sees.deserializeLoop {fuel : Nat} {fr : Frame} {cs : List Content} (hfr : Filled fr cs)
    (hdict : fr.dictionary = none) {r r' : Reader} {p : Bytes} (h : Sees r p) {v : LuaValue}
    (hrun : exec (deserializeLoop fuel fr) r = (.ok v, r')) :
    ContainerRead fr.container cs p v r' := by
  induction fuel generalizing fr cs r p v r' with
  | zero => cases hrun
  | succ fuel ih =>
    have hinner : InnerReads (innerCall fuel) :=
      innerReads_of_loop fun hfr hdict _ _ _ _ hsees hloop => ih hfr hdict hsees hloop
    obtain hnil | ⟨q, rfl, hbalanced, rfl, hsees⟩ |
      ⟨c, bs, q, r₁, rfl, hderives, hread, hsees, hstore⟩ := h.round hinner hdict hrun
    · exact .inl hnil
    · obtain ⟨c, hwhole, hread, hvalue⟩ := hfr.whole hbalanced
      exact .inr ⟨[], [], q, c, rfl, .nil, by rwa [List.append_nil], hread, hvalue, hsees⟩
    · -- one content more is in the frame
      have hloop : ∃ fr₁, fr.accept (readAs c) = .ok fr₁ ∧
          exec (LuaPack.deserializeLoop fuel fr₁) r₁ = (.ok v, r') := by
        rw [storeValue] at hstore
        split at hstore
        · next hnone =>
          rw [Filled, hnone] at hfr
          exact hfr.elim
        · obtain ⟨fr₁, r₂, haccept, hloop⟩ := exec_bind_returns hstore
          cases hfr₁ : fr.accept (readAs c) with
          | error e =>
            rw [hfr₁] at haccept
            cases haccept
          | ok fr₂ =>
            rw [hfr₁] at haccept
            cases haccept
            exact ⟨_, rfl, hloop⟩
      obtain ⟨fr₁, haccept, hloop⟩ := hloop
      obtain ⟨hfilled, hsame, hdict₁⟩ := hfr.accept hread haccept
      obtain hnil | ⟨cs', bs', q', whole, rfl, hall, hwhole, hreadable, rfl, hsees'⟩ :=
        ih hfilled (hdict₁.trans hdict) hsees hloop
      · exact .inl hnil
      · refine .inr ⟨c :: cs', bs ++ bs', q', whole, (List.append_assoc _ _ _).symm,
          .cons hderives hall, ?_, hreadable, rfl, hsees'⟩
        rw [hsame, List.append_assoc] at hwhole
        exact hwhole

end Loop

section Derivations

/-- One round of the loop takes the value off the front. -/
def ReadInRound (c : Content) (bs : Bytes) : Prop :=
  ∀ ⦃fr : Frame⦄ ⦃r : Reader⦄ ⦃q : Bytes⦄ ⦃fuel : Nat⦄, fr.dictionary = none →
    Sees r (bs ++ q) → bs.length ≤ fuel → ∃ r', Sees r' q ∧
      exec (deserializeLoop (fuel + 1) fr) r =
        exec (storeValue (deserializeLoop fuel) fr (readAs c)) r'

/-- The loop takes these up to the end of the record. -/
def ReadToEnd (cs : List Content) (bs : Bytes) : Prop :=
  ∀ ⦃fr : Frame⦄ ⦃prior : List Content⦄ ⦃whole : Content⦄ ⦃r : Reader⦄ ⦃q : Bytes⦄ ⦃fuel : Nat⦄,
    Filled fr prior → Whole fr.container (prior ++ cs) whole → Readable whole →
    fr.dictionary = none → Sees r (bs ++ UInt8.ofNat Marker.recordEnd.tag :: q) →
    bs.length + 2 ≤ fuel →
    ∃ r', Sees r' q ∧ exec (deserializeLoop fuel fr) r = (.ok (readAs whole), r')

/-- A round of the loop after its marker has been read. -/
theorem exec_round {r : Reader} {m : Marker} {q : Bytes} (h : Sees r (UInt8.ofNat m.tag :: q))
    (fuel : Nat) (fr : Frame) :
    exec (deserializeLoop (fuel + 2) fr) r =
      exec (deserializeMarked (fuel + 1) (innerCall (fuel + 1)) (deserializeLoop (fuel + 1)) fr
        (some m.tag)) (r.advance 1) := by
  rw [exec_deserializeLoop _ fr h.not_done, exec_bind_ok (exec_readMarker_sees h fuel)]

/-- A value that is read after its marker is taken in one round. -/
theorem readInRound_of_value {c : Content} {m : Marker} {payload : Bytes}
    (hend : m ≠ .recordEnd) (hdict : m ≠ .dictStart)
    (h : ∀ ⦃r : Reader⦄ ⦃q : Bytes⦄ ⦃fuel : Nat⦄, Sees r (payload ++ q) →
      payload.length ≤ fuel → ∃ r', Sees r' q ∧
        exec (readValue (fuel + 1) (innerCall (fuel + 1)) none (some m.tag)) r =
          (.ok (readAs c), r')) : ReadInRound c (UInt8.ofNat m.tag :: payload) := by
  intro fr r q fuel hfr hsees hfuel
  obtain ⟨fuel, rfl⟩ : ∃ k, fuel = k + 1 := ⟨fuel - 1, by
    rw [List.length_cons] at hfuel
    omega⟩
  have hmarked : Sees (r.advance 1) (payload ++ q) :=
    (@Sees.advance r [UInt8.ofNat m.tag] (payload ++ q) hsees).2
  obtain ⟨r', hsees', hvalue⟩ := h hmarked (Nat.le_of_succ_le_succ hfuel)
  refine ⟨r', hsees', ?_⟩
  rw [exec_round hsees, deserializeMarked_other hend hdict, hfr, exec_bind_ok hvalue]

/-- The payload of a number is read after its marker. -/
theorem exec_number_payload {m : Marker} {payload q : Bytes} {c : Content}
    (h : NumberPayload m payload c) {r : Reader} (hsees : Sees r (payload ++ q)) (fuel : Nat) :
    exec (do
      let value ← readNumber (fuel + 1) (some m.tag)
      pure (value.elim LuaValue.nil LuaValue.num) : ReaderM LuaValue) r =
      (.ok (readAs c), r.advance payload.length) := by
  obtain ⟨format, hformat, hlen, rfl⟩ := h
  have ht : (Marker.ofTag? m.tag).bind Marker.numberFormat? = some format := by
    rw [Marker.ofTag?_tag, Option.bind_some, hformat]
  rw [exec_bind_ok (exec_readNumber_sees ht hsees hlen fuel)]
  rfl

theorem exec_string_payload {m lenType : Marker} {payload q : Bytes} {c : Content}
    (h : StringPayload m payload c) {w : Nat} (hw : w ≤ 4) (hsize : m.size = w)
    (ht : lenType.numberFormat? = some (.unsigned w)) {r : Reader}
    (hsees : Sees r (payload ++ q)) (fuel : Nat) :
    ∃ r', Sees r' q ∧ exec (readSizedString (fuel + 1) lenType) r = (.ok (readAs c), r') := by
  obtain ⟨len, s, rfl, hlen, hs, rfl⟩ := h
  rw [List.append_assoc] at hsees
  have hformat : (Marker.ofTag? lenType.tag).bind Marker.numberFormat? = some (.unsigned w) := by
    rw [Marker.ofTag?_tag, Option.bind_some, ht]
  have hread := exec_readNumber_sees hformat hsees (hlen.trans hsize) fuel
  have hpow : 256 ^ w ≤ 256 ^ 4 := Nat.pow_le_pow_right (by omega) hw
  have hlt := ofBytes_lt len
  rw [hlen.trans hsize] at hlt
  refine ⟨_, hsees.advance.2.advance.2, ?_⟩
  rw [readSizedString, exec_bind_ok hread, readString, decode_unsigned (by omega), wireNat_cast, hs]
  exact exec_readPieces_sees hsees.advance.2 fuel

theorem readInRound_scalar {m : Marker} {payload : Bytes} {c : Content}
    (h : Spells Marker.readNumbers [] m payload c) :
    ReadInRound c (UInt8.ofNat m.tag :: payload) := by
  refine readInRound_of_value h.not_structural.2.2.2 h.not_structural.2.2.1
    fun r q fuel hsees _ => ?_
  cases m with
  | mapStart => exact h.elim
  | arrayStart => exact h.elim
  | dictStart => exact h.elim
  | recordEnd => exact h.elim
  | nil =>
    obtain ⟨rfl, rfl⟩ := h
    exact ⟨r, hsees, rfl⟩
  | boolTrue =>
    obtain ⟨rfl, rfl⟩ := h
    exact ⟨r, hsees, rfl⟩
  | boolFalse =>
    obtain ⟨rfl, rfl⟩ := h
    exact ⟨r, hsees, rfl⟩
  | string => exact exec_string_payload h (by decide) rfl rfl hsees fuel
  | bigString => exact exec_string_payload h (by decide) rfl rfl hsees fuel
  | hugeString => exact exec_string_payload h (by decide) rfl rfl hsees fuel
  | dictEntry =>
    obtain ⟨-, -, word, hword, -⟩ := h
    cases hword
  | bigDictEntry =>
    obtain ⟨-, -, word, hword, -⟩ := h
    cases hword
  | _ => exact ⟨_, hsees.advance.2, exec_number_payload h.2 hsees fuel⟩

/-- A container is read through the loop that fills it. -/
theorem readInRound_container {container : Container} {m : Marker} {cs : List Content}
    {c : Content} {bs : Bytes} (hend : m ≠ .recordEnd) (hdict : m ≠ .dictStart)
    (hvalue : ∀ fuel inner, readValue fuel inner none (some m.tag) = inner container)
    (hfilled : Filled (.enter container none) []) (hwhole : Whole container cs c)
    (hread : Readable c) (h : ReadToEnd cs bs) :
    ReadInRound c (UInt8.ofNat m.tag :: (bs ++ [UInt8.ofNat Marker.recordEnd.tag])) := by
  refine readInRound_of_value hend hdict fun r q fuel hsees hfuel => ?_
  rw [List.append_assoc] at hsees
  rw [List.length_append, List.length_singleton] at hfuel
  rw [hvalue, innerCall, exec_bind_ok (exec_get r), hsees.dictionary]
  exact h hfilled hwhole hread rfl hsees (by omega)

theorem readToEnd_nil : ReadToEnd [] [] := by
  intro fr prior whole r q fuel hfr hwhole hread hdict hsees hfuel
  obtain ⟨fuel, rfl⟩ : ∃ k, fuel = k + 2 := ⟨fuel - 2, by
    rw [List.length_nil] at hfuel
    omega⟩
  rw [List.append_nil] at hwhole
  obtain ⟨hbalanced, hvalue⟩ := hwhole.balanced hfr
  refine ⟨_, (@Sees.advance r [UInt8.ofNat Marker.recordEnd.tag] q hsees).2, ?_⟩
  rw [exec_round hsees, exec_recordEnd, hbalanced, if_neg Bool.false_ne_true, hvalue]
  rfl

theorem ReadInRound.cons {c : Content} {cs : List Content} {bs bs' : Bytes}
    (hpos : 0 < bs.length) (h : Readable c → ReadInRound c bs) (hs : ReadToEnd cs bs') :
    ReadToEnd (c :: cs) (bs ++ bs') := by
  intro fr prior whole r q fuel hfr hwhole hread hdict hsees hfuel
  rw [List.length_append] at hfuel
  obtain ⟨fuel, rfl⟩ : ∃ k, fuel = k + 1 := ⟨fuel - 1, by omega⟩
  rw [List.append_assoc] at hsees
  obtain ⟨hc, fr', haccept⟩ := hfr.accepts hwhole hread
  have hfirst : bs.length ≤ fuel := by omega
  have hrest : bs'.length + 2 ≤ fuel := by omega
  obtain ⟨r₁, hsees₁, hround⟩ := h hc hdict hsees hfirst
  obtain ⟨hfilled, hsame, hdict'⟩ := hfr.accept hc haccept
  have hwhole' : Whole fr'.container ((prior ++ [c]) ++ cs) whole := by
    rw [hsame, List.append_assoc]
    exact hwhole
  obtain ⟨r', hsees', hloop⟩ := hs hfilled hwhole' hread (hdict'.trans hdict) hsees₁ hrest
  refine ⟨r', hsees', ?_⟩
  rw [hround, storeValue, haccept]
  split
  · next hnone =>
    rw [Filled, hnone] at hfr
    exact hfr.elim
  · exact hloop

theorem Derives.length_pos {numbers : List Marker} {words : List Bytes} {c : Content} {bs : Bytes}
    (h : Derives numbers words c bs) : 0 < bs.length := by
  obtain ⟨m, bs', rfl, -⟩ := h.head
  exact Nat.succ_pos _

mutual

/-- What is derived and readable is read. -/
theorem Derives.read {c : Content} {bs : Bytes} (h : Derives Marker.readNumbers [] c bs)
    (hread : Readable c) : ReadInRound c bs := by
  match h with
  | .scalar h => exact readInRound_scalar h
  | .array h =>
    exact @readInRound_container (.array []) .arrayStart _ _ _ nofun nofun (fun _ _ => rfl)
      ⟨trivial, rfl⟩ rfl hread (DerivesAll.read h)
  | .map h =>
    exact @readInRound_container (.map []) .mapStart _ _ _ nofun nofun (fun _ _ => rfl)
      ⟨[], trivial, rfl, rfl⟩ ⟨_, rfl, rfl⟩ hread (DerivesAll.read h)

theorem DerivesAll.read {cs : List Content} {bs : Bytes}
    (h : DerivesAll Marker.readNumbers [] cs bs) : ReadToEnd cs bs := by
  match h with
  | .nil => exact readToEnd_nil
  | .cons h hs =>
    exact ReadInRound.cons h.length_pos (fun hc => Derives.read h hc) (DerivesAll.read hs)

end

end Derivations

section Soundness

theorem readNextBuffer_string (s : Bytes) :
    (newLPackStringReader s).readNextBuffer = { newLPackReader [] with buffer := s } := by
  simp [newLPackStringReader, newLPackReader, Reader.readNextBuffer, Reader.refill]

theorem sees_string {s : Bytes} (h : 0 ≤ Native.remaining s 0) :
    Sees (newLPackStringReader s).readNextBuffer (seen s) := by
  rw [readNextBuffer_string]
  refine ⟨rfl, rfl, rfl, List.take_prefix _ _, ?_⟩
  have hle := @remaining_le s 0 (Nat.zero_le _)
  show Native.remaining s 0 = (seen s).length
  rw [seen, List.length_take]
  omega

/-- A string of which a C `int` counts less than nothing is refused. -/
theorem read_negative {s : Bytes} (h : Native.remaining s 0 < 0) {fuel : Nat} {v : LuaValue}
    {r : Reader} (hrun : exec (read fuel) (newLPackStringReader s) = (.ok v, r)) : False := by
  rw [newLPackStringReader, exec_read, ← newLPackStringReader, readNextBuffer_string] at hrun
  cases fuel with
  | zero => cases hrun
  | succ fuel =>
    rw [exec_deserializeLoop _ _ rfl] at hrun
    obtain ⟨t, r₁, hmarker, -⟩ := exec_bind_returns hrun
    obtain ⟨value, r₂, hnumber, -⟩ := exec_bind_returns hmarker
    cases fuel with
    | zero => cases hnumber
    | succ fuel =>
      obtain ⟨e, he⟩ | ⟨t', format, k, -, -, hk⟩ :=
        readNumber_cases (some Marker.typeMarker.tag)
          (show ({ newLPackReader [] with buffer := s } : Reader).done = false from rfl)
      · rw [he] at hnumber
        cases hnumber
      · have hcount : Native.remaining s 0 = k := hk
        omega

/-- A read that returns has come to the end of the input, or to an end of record in front of
everything, or it has derived what it returns in the seen part of the string. -/
theorem read_cases {s : Bytes} {fuel : Nat} {v : LuaValue} {r : Reader}
    (hrun : exec (read fuel) (newLPackStringReader s) = (.ok v, r)) :
    (v = .nil ∧ r.done = true) ∨
      (v = .nil ∧ ∃ q, seen s = UInt8.ofNat Marker.recordEnd.tag :: q) ∨
      ∃ c bs, bs <+: seen s ∧ Derives Marker.readNumbers [] c bs ∧ Readable c ∧ v = readAs c := by
  by_cases hneg : Native.remaining s 0 < 0
  · exact (read_negative hneg hrun).elim
  have hsees := sees_string (Int.not_lt.mp hneg)
  rw [newLPackStringReader, exec_read, ← newLPackStringReader, hsees.dictionary] at hrun
  cases fuel with
  | zero => cases hrun
  | succ fuel =>
    have hinner : InnerReads (innerCall fuel) :=
      innerReads_of_loop fun hfr hdict _ _ _ _ hsees hloop =>
        hsees.deserializeLoop hfr hdict hloop
    obtain hnil | ⟨q, hq, -, rfl, -⟩ | ⟨c, bs, q, r₁, hp, hderives, hread, -, hstore⟩ :=
      hsees.round hinner rfl hrun
    · exact .inl hnil
    · exact .inr (.inl ⟨rfl, q, hq⟩)
    · cases hstore
      exact .inr (.inr ⟨c, bs, ⟨q, hp.symm⟩, hderives, hread, rfl⟩)

/-- A value that `read` returns is derived in the seen part of the string. -/
theorem derived_of_read {s : Bytes} {fuel : Nat} {v : LuaValue} {r : Reader}
    (hrun : exec (read fuel) (newLPackStringReader s) = (.ok v, r)) (hv : v.isNil = false) :
    ∃ c bs, bs <+: seen s ∧ Derives Marker.readNumbers [] c bs ∧ Readable c ∧ v = readAs c := by
  obtain ⟨rfl, -⟩ | ⟨rfl, -⟩ | hderived := read_cases hrun
  · cases hv
  · cases hv
  · exact hderived

/-- What is derived in the seen part of the string and readable is returned. -/
theorem read_of_derived {s bs : Bytes} {c : Content} (hfront : bs <+: seen s)
    (h : Derives Marker.readNumbers [] c bs) (hread : Readable c) :
    ∃ fuel r, exec (read fuel) (newLPackStringReader s) = (.ok (readAs c), r) := by
  have hnonneg : 0 ≤ Native.remaining s 0 := by
    by_contra hneg
    have hnone : seen s = [] := by rw [seen, Int.toNat_eq_zero.mpr (by omega), List.take_zero]
    rw [hnone] at hfront
    have hlen := hfront.length_le
    have hpos := h.length_pos
    rw [List.length_nil] at hlen
    omega
  obtain ⟨q, hq⟩ := hfront
  have hsees := sees_string hnonneg
  have hdictionary := hsees.dictionary
  rw [← hq] at hsees
  obtain ⟨r', -, hround⟩ := h.read hread
    (show (Frame.enter .none none).dictionary = none from rfl) hsees (Nat.le_refl _)
  refine ⟨bs.length + 1, r', ?_⟩
  rw [newLPackStringReader, exec_read, ← newLPackStringReader, hdictionary, hround]
  rfl

/-- Every value that `read` returns for the string, nil apart, is what a message of the grammar
at the beginning of the string stands for. -/
def DecodesSoundly (s : Bytes) : Prop :=
  ∀ fuel v r, exec (read fuel) (newLPackStringReader s) = (.ok v, r) → v.isNil = false →
    ∃ c bs, bs <+: s ∧ Message c bs ∧ Denotes c v

/-- Two derivations at the beginning of one string are the same. -/
theorem derived_once {numbers numbers' : List Marker} {words : List Bytes} {s bs bs' : Bytes}
    {c c' : Content} (hfront : bs <+: s) (hfront' : bs' <+: s) (h : Derives numbers words c bs)
    (h' : Derives numbers' words c' bs') : bs = bs' ∧ c = c' := by
  obtain ⟨q, hq⟩ := hfront
  obtain ⟨q', hq'⟩ := hfront'
  exact h.unique h' (hq.trans hq'.symm)

/-- Decoding is sound exactly for the strings in whose derivation, if they have one with
TYPE_MARKER counted as a number and it is not refused or read as nil, TYPE_MARKER does not occur
and no empty string and no NIL of an array is lost. -/
theorem decodesSoundly_iff (s : Bytes) :
    DecodesSoundly s ↔ ∀ c bs, bs <+: seen s → Derives Marker.readNumbers [] c bs →
      Readable c → c.isBlank = false → Derives Marker.intRanges [] c bs ∧ Intact c := by
  have hseen : seen s <+: s := List.take_prefix _ _
  constructor
  · intro h c bs hfront hderives hread hblank
    obtain ⟨fuel, r, hrun⟩ := read_of_derived hfront hderives hread
    obtain ⟨c', bs', hfront', hmessage, hmeans⟩ := h fuel _ r hrun (by rw [isNil_readAs, hblank])
    obtain hstrict | ⟨words, dictionary, value, rfl, -⟩ := hmessage
    · obtain ⟨rfl, rfl⟩ := derived_once (hfront.trans hseen) hfront' hderives hstrict
      exact ⟨hstrict, (denotes_readAs_iff hread).mp hmeans⟩
    · -- a dictionary is at the beginning of no value
      obtain ⟨m, ms, rfl, hm, -⟩ := hderives.head
      obtain ⟨q, hq⟩ := hfront.trans hseen
      obtain ⟨q', hq'⟩ := hfront'
      have hhead := hq.trans hq'.symm
      rw [List.cons_append, List.cons_append, List.cons.injEq] at hhead
      exact absurd (tag_injective hhead.1) hm
  · intro h fuel v r hrun hv
    obtain ⟨c, bs, hfront, hderives, hread, rfl⟩ := derived_of_read hrun hv
    rw [isNil_readAs] at hv
    obtain ⟨hstrict, hintact⟩ := h c bs hfront hderives hread hv
    exact ⟨c, bs, hfront.trans hseen, .inl hstrict, denotes_readAs c hread hintact⟩

/-- TYPE_MARKER begins no value. -/
theorem Derives.not_typeMarker {words : List Bytes} {c : Content} {bs : Bytes}
    (h : Derives Marker.intRanges words c (UInt8.ofNat Marker.typeMarker.tag :: bs)) : False := by
  generalize hall : UInt8.ofNat Marker.typeMarker.tag :: bs = all at h
  cases h with
  | scalar h =>
    injection hall with htag
    obtain rfl := tag_injective htag
    exact absurd h.1 (by decide)
  | array h =>
    injection hall with htag
    cases tag_injective htag
  | map h =>
    injection hall with htag
    cases tag_injective htag

/-- TYPE_MARKER and a byte are read as a number. -/
theorem type_marker_read_as_number : ¬DecodesSoundly [0, 7] := by
  intro h
  have hspells : Spells Marker.readNumbers [] .typeMarker [7]
      (.num ((NumberFormat.unsigned 1).decode [7])) :=
    ⟨by decide, .unsigned 1, rfl, rfl, rfl⟩
  have hseen : seen [0, 7] = [0, 7] := by decide
  obtain ⟨fuel, r, hrun⟩ := @read_of_derived [0, 7] _ _ (hseen ▸ List.prefix_rfl)
    (.scalar hspells) trivial
  obtain ⟨c, bs, hfront, hstrict | ⟨words, dictionary, value, rfl, -⟩, -⟩ := h fuel _ r hrun rfl
  · obtain ⟨rfl, rfl⟩ := derived_once hfront List.prefix_rfl hstrict (.scalar hspells)
    exact hstrict.not_typeMarker
  · obtain ⟨q, hq⟩ := hfront
    injection hq with htag
    cases @tag_injective .dictStart .typeMarker htag

end Soundness

end Luaw.LuaPack
