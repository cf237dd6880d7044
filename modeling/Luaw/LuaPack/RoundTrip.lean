import Luaw.Lua.Assignments
import Luaw.LuaPack.ChunkIndependence
import Luaw.LuaPack.Integers

/-!
# The round trip of a value

A value of booleans, small integers, strings, non-empty arrays and maps comes back exactly when
no empty string occurs in it: `readString` returns nil for a length of zero.
-/

namespace Luaw.LuaPack

open Lua Program

def PackableString (s : Bytes) : Prop := s.length < 2 ^ 32

def PackableKey : LuaValue → Prop
  | .bool _ => True
  | .str s => PackableString s
  | _ => False

mutual

/-- Booleans, integers up to `2 ^ 53`, strings, non-empty arrays and maps with distinct string
or boolean keys. -/
def Packable : LuaValue → Prop
  | .bool _ => True
  | .num x => ∃ n : Int, x = .finite n ∧ n.natAbs ≤ 2 ^ 53
  | .str s => PackableString s
  | .table (x :: xs) [] => Packable x ∧ PackableAll xs
  | .table [] entries => PackablePairs entries
  | _ => False

def PackableAll : List LuaValue → Prop
  | [] => True
  | x :: xs => Packable x ∧ PackableAll xs

def PackablePairs : List (LuaValue × LuaValue) → Prop
  | [] => True
  | (k, v) :: entries =>
    PackableKey k ∧ lookup k entries = none ∧ Packable v ∧ PackablePairs entries

end

mutual

/-- No empty string occurs in the value, neither as an element nor as a key or under one. -/
def NoEmptyString : LuaValue → Prop
  | .str s => s ≠ []
  | .table xs entries => NoEmptyStringAll xs ∧ NoEmptyStringPairs entries
  | .sparse _ entries => NoEmptyStringPairs entries
  | _ => True

def NoEmptyStringAll : List LuaValue → Prop
  | [] => True
  | x :: xs => NoEmptyString x ∧ NoEmptyStringAll xs

def NoEmptyStringPairs : List (LuaValue × LuaValue) → Prop
  | [] => True
  | (k, v) :: entries => NoEmptyString k ∧ NoEmptyString v ∧ NoEmptyStringPairs entries

end

/-- Reading the tokens of the value raises. -/
def Fails (result : TokenResult) : Prop := ∃ e rest, result = some (.error e, rest)

/-- The outcome of reading the tokens `tv` of a value in front of others: an error, or a value
that is equal to the one written exactly when no empty string occurs in that. -/
def ReadsBack (v : LuaValue) (tv : List Token) : Prop :=
  ∀ (fr : Frame) (ts : List Token) (n : Nat), (tv ++ ts).length ≤ n →
    (¬NoEmptyString v ∧ Fails (deserializeTokens n fr (tv ++ ts))) ∨
    ∃ val m, ts.length ≤ m ∧
      deserializeTokens n fr (tv ++ ts) = acceptToken (deserializeTokens m) fr val ts ∧
      (v.structEq val = true ↔ NoEmptyString v)

theorem readsBack_scalar {v : LuaValue} {t : Token} (ht : t.isScalar = true)
    (h : v.structEq t.value = true ↔ NoEmptyString v) : ReadsBack v [t] := by
  intro fr ts n hn
  obtain ⟨n, rfl⟩ : ∃ m, n = m + 1 :=
    ⟨n - 1, by simp only [List.length_append, List.length_singleton] at hn; omega⟩
  refine .inr ⟨t.value, n, ?_, deserializeTokens_scalar ht n fr ts, h⟩
  simp only [List.length_append, List.length_singleton] at hn
  omega

theorem readsBack_num {x : Number} (h : Packable (.num x)) {tv : List Token}
    (ht : tokens (.num x) = some tv) : ReadsBack (.num x) tv := by
  obtain ⟨n, rfl, hn⟩ := h
  rw [tokens] at ht
  split at ht
  · next m hm =>
    cases ht
    refine readsBack_scalar rfl ?_
    simp [Token.value, decoded_int hn hm, LuaValue.structEq, NoEmptyString]
  · cases ht

theorem readsBack_str {s : Bytes} {tv : List Token} (ht : tokens (.str s) = some tv) :
    ReadsBack (.str s) tv := by
  rw [tokens] at ht
  split at ht
  · next m hm =>
    cases ht
    refine readsBack_scalar rfl ?_
    by_cases hs : s = []
    · subst hs
      exact iff_of_false Bool.false_ne_true fun h => h rfl
    · rw [Token.value, if_neg hs]
      exact iff_of_true (decide_eq_true rfl) hs
  · cases ht

/-- What a key is read as. -/
def keyValue : LuaValue → LuaValue
  | .str [] => .nil
  | k => k

theorem tokens_key {k : LuaValue} (hk : PackableKey k) {tk : List Token}
    (ht : tokens k = some tk) : ∃ t, tk = [t] ∧ t.isScalar = true ∧ t.value = keyValue k := by
  match k with
  | .bool true => exact ⟨_, (Option.some.inj ht).symm, rfl, rfl⟩
  | .bool false => exact ⟨_, (Option.some.inj ht).symm, rfl, rfl⟩
  | .str s =>
    rw [tokens] at ht
    split at ht
    · refine ⟨_, (Option.some.inj ht).symm, rfl, ?_⟩
      cases s <;> rfl
    · cases ht

theorem structEq_nil {v : LuaValue} (h : Packable v) : v.structEq .nil = false := by
  match v with
  | .bool _ | .num _ | .str _ | .table (_ :: _) [] | .table [] _ => rfl

theorem isNil_eq {v : LuaValue} (h : v.isNil = true) : v = .nil := by
  match v with
  | .nil => rfl

theorem listEq_length {xs ys : List LuaValue} (h : listEq xs ys = true) :
    xs.length = ys.length := by
  induction xs generalizing ys with
  | nil =>
    cases ys with
    | nil => rfl
    | cons y ys => cases h
  | cons x xs ih =>
    cases ys with
    | nil => cases h
    | cons y ys =>
      rw [listEq, Bool.and_eq_true] at h
      rw [List.length_cons, List.length_cons, ih h.2]

/-- An element goes to the end of an array, nil nowhere. -/
theorem acceptToken_element (next : Frame → List Token → TokenResult) {fr : Frame}
    {acc : List LuaValue} (hfr : fr.container = .array acc) (val : LuaValue) (ts : List Token) :
    ∃ fr', fr'.container = .array (if val.isNil then acc else acc ++ [val]) ∧
      acceptToken next fr val ts = next fr' ts := by
  refine ⟨{ fr with val, container := .array (if val.isNil then acc else acc ++ [val]) }, rfl, ?_⟩
  simp only [acceptToken, hfr, Frame.accept]

/-- A key is kept for the next value. -/
theorem acceptToken_key (next : Frame → List Token → TokenResult) {fr : Frame}
    {acc : List (LuaValue × LuaValue)} (hfr : fr.container = .map acc) (hisKey : fr.isKey = true)
    (val : LuaValue) (ts : List Token) :
    ∃ fr', fr'.container = .map acc ∧ fr'.isKey = false ∧ fr'.key = val ∧
      acceptToken next fr val ts = next fr' ts := by
  refine ⟨{ fr with val, key := val, isKey := false }, hfr, rfl, rfl, ?_⟩
  simp only [acceptToken, hfr, Frame.accept, hisKey, if_true]

/-- A value is stored under the last key, or the key is refused. -/
theorem acceptToken_value (next : Frame → List Token → TokenResult) {fr : Frame}
    {acc : List (LuaValue × LuaValue)} (hfr : fr.container = .map acc) (hisKey : fr.isKey = false)
    (val : LuaValue) (ts : List Token) :
    match rawset fr.key val acc with
    | .ok entries => ∃ fr', fr'.container = .map entries ∧ fr'.isKey = true ∧
        acceptToken next fr val ts = next fr' ts
    | .error e => acceptToken next fr val ts = some (.error e, ts) := by
  cases hset : rawset fr.key val acc with
  | ok entries =>
    refine ⟨{ fr with val, container := .map entries, isKey := true }, rfl, rfl, ?_⟩
    simp only [acceptToken, hfr, Frame.accept, hisKey, Bool.false_eq_true, if_false, hset]
  | error e => simp only [acceptToken, hfr, Frame.accept, hisKey, Bool.false_eq_true, if_false, hset]

/-- The outcome of the loop that fills a container up to its end of record. -/
def Fills (good : Prop) (after : List Token) (result : TokenResult) (val : LuaValue → Prop) : Prop :=
  (¬good ∧ Fails result) ∨ ∃ v, result = some (.ok v, after) ∧ val v

/-- The rest `xs` of an array is read into `acc`. -/
def FillsArray (xs : List LuaValue) (txs : List Token) : Prop :=
  ∀ (acc : List LuaValue) (fr : Frame) (ts : List Token) (n : Nat), fr.container = .array acc →
    (txs ++ .plain .recordEnd Marker.recordEnd_isPlain :: ts).length ≤ n →
    Fills (NoEmptyStringAll xs) ts
      (deserializeTokens n fr (txs ++ .plain .recordEnd Marker.recordEnd_isPlain :: ts)) fun v =>
      ∃ ys, v = .table (acc ++ ys) [] ∧ ys.length ≤ xs.length ∧
        (listEq xs ys = true ↔ NoEmptyStringAll xs)

theorem fillsArray_nil : FillsArray [] [] := by
  intro acc fr ts n hfr hn
  obtain ⟨n, rfl⟩ : ∃ m, n = m + 1 :=
    ⟨n - 1, by simp only [List.nil_append, List.length_cons] at hn; omega⟩
  refine .inr ⟨.table acc [], ?_, [], by simp, le_rfl, by simp [listEq, NoEmptyStringAll]⟩
  simp [deserializeTokens, Token.marker, hfr, Container.value]

theorem fillsArray_cons {x : LuaValue} {xs : List LuaValue} {tx txs : List Token}
    (hx : Packable x) (hread : ReadsBack x tx) (ih : FillsArray xs txs) :
    FillsArray (x :: xs) (tx ++ txs) := by
  intro acc fr ts n hfr hn
  rw [List.append_assoc] at hn ⊢
  obtain ⟨hempty, hfail⟩ | ⟨val, m, hm, hrun, heq⟩ :=
    hread fr (txs ++ .plain .recordEnd rfl :: ts) n hn
  · exact .inl ⟨fun h => hempty h.1, hfail⟩
  · obtain ⟨fr', hfr', haccept⟩ := acceptToken_element (deserializeTokens m) hfr val
      (txs ++ .plain .recordEnd rfl :: ts)
    rw [hrun, haccept]
    obtain ⟨hempty, hfail⟩ | ⟨v, hok, ys, rfl, hlen, hys⟩ := ih _ fr' ts m hfr' hm
    · exact .inl ⟨fun h => hempty h.2, hfail⟩
    · refine .inr ⟨_, hok, ?_⟩
      by_cases hnil : val.isNil = true
      · -- the element is dropped
        have hbad : ¬NoEmptyString x := by
          rw [← heq, isNil_eq hnil, structEq_nil hx]
          exact nofun
        refine ⟨ys, by rw [if_pos hnil], by rw [List.length_cons]; omega, ?_⟩
        refine iff_of_false (fun h => ?_) fun h => hbad h.1
        have := listEq_length h
        rw [List.length_cons] at this
        omega
      · refine ⟨val :: ys, by rw [if_neg hnil, List.append_assoc]; rfl, Nat.succ_le_succ hlen, ?_⟩
        rw [listEq, Bool.and_eq_true, heq, hys, NoEmptyStringAll]

theorem sameKey_self {k : LuaValue} (h : PackableKey k) : k.sameKey k = true := by
  match k with
  | .bool b => exact decide_eq_true rfl
  | .str s => exact decide_eq_true rfl

theorem lookup_append {key : LuaValue} {entries : List (LuaValue × LuaValue)}
    (h : lookup key entries = none) (others : List (LuaValue × LuaValue)) :
    lookup key (entries ++ others) = lookup key others := by
  induction entries with
  | nil => rfl
  | cons e entries ih =>
    rw [lookup] at h
    split at h
    · cases h
    · next hkey => rw [List.cons_append, lookup, if_neg hkey, ih h]

theorem sameKey_of_lookup {key : LuaValue} {entries : List (LuaValue × LuaValue)}
    (h : lookup key entries = none) : ∀ e ∈ entries, e.1.sameKey key = false := by
  induction entries with
  | nil => exact nofun
  | cons e entries ih =>
    rw [lookup] at h
    split at h
    · cases h
    · next hkey =>
      intro e' he'
      obtain rfl | hmem := List.mem_cons.mp he'
      · exact Bool.eq_false_iff.mpr hkey
      · exact ih h e' hmem

/-- A new key goes to the end, a nil value nowhere. -/
theorem assign_new {key value : LuaValue} {entries : List (LuaValue × LuaValue)}
    (h : lookup key entries = none) :
    assign key value entries = if value.isNil then entries else entries ++ [(key, value)] := by
  induction entries with
  | nil => rfl
  | cons e entries ih =>
    rw [lookup] at h
    split at h
    · cases h
    · next hkey =>
      rw [assign, if_neg hkey, ih h]
      split <;> rfl

/-- A key that is not the empty string is stored as it is. -/
theorem rawset_keyValue {k : LuaValue} (hk : PackableKey k) (hne : k ≠ .str []) (val : LuaValue)
    (entries : List (LuaValue × LuaValue)) :
    rawset (keyValue k) val entries = .ok (assign k val entries) := by
  match k with
  | .bool _ => rfl
  | .str [] => exact absurd rfl hne
  | .str (_ :: _) => rfl

theorem noEmptyString_key {k : LuaValue} (hk : PackableKey k) (hne : k ≠ .str []) :
    NoEmptyString k := by
  match k with
  | .bool _ => trivial
  | .str _ => exact fun h => hne (by rw [h])

/-- The keys of the other entries are not the new one. -/
theorem lookup_append_new {k val : LuaValue} {es : List (LuaValue × LuaValue)}
    (hnew : lookup k es = none) {e : LuaValue × LuaValue} (he : e ∈ es)
    {entries : List (LuaValue × LuaValue)} (h : lookup e.1 entries = none) :
    lookup e.1 (entries ++ [(k, val)]) = none := by
  rw [lookup_append h, lookup, sameKey_comm, sameKey_of_lookup hnew e he]
  rfl

/-- The rest `es` of a map is read into `acc`, which has none of its keys. -/
def FillsMap (es : List (LuaValue × LuaValue)) (tes : List Token) : Prop :=
  ∀ (acc : List (LuaValue × LuaValue)) (fr : Frame) (ts : List Token) (n : Nat),
    fr.container = .map acc → fr.isKey = true → (∀ e ∈ es, lookup e.1 acc = none) →
    (tes ++ .plain .recordEnd Marker.recordEnd_isPlain :: ts).length ≤ n →
    Fills (NoEmptyStringPairs es) ts
      (deserializeTokens n fr (tes ++ .plain .recordEnd Marker.recordEnd_isPlain :: ts)) fun v =>
      ∃ new, v = .table [] (acc ++ new) ∧ new.length ≤ es.length ∧
        ∀ pre, (∀ e ∈ es, lookup e.1 pre = none) →
          ((es.length = new.length ∧ entriesEq es (pre ++ new) = true) ↔ NoEmptyStringPairs es)

theorem fillsMap_nil : FillsMap [] [] := by
  intro acc fr ts n hfr hkey _ hn
  obtain ⟨n, rfl⟩ : ∃ m, n = m + 1 :=
    ⟨n - 1, by simp only [List.nil_append, List.length_cons] at hn; omega⟩
  refine .inr ⟨.table [] acc, ?_, [], by simp, le_rfl, fun pre _ => ?_⟩
  · simp [deserializeTokens, Token.marker, hfr, hkey, Container.value]
  · simp [entriesEq, NoEmptyStringPairs]

theorem fillsMap_cons {k v : LuaValue} {es : List (LuaValue × LuaValue)} {t : Token}
    {tv tes : List Token} (hk : PackableKey k) (hnew : lookup k es = none) (hv : Packable v)
    (ht : t.isScalar = true) (hkey : t.value = keyValue k) (hread : ReadsBack v tv)
    (ih : FillsMap es tes) : FillsMap ((k, v) :: es) ([t] ++ tv ++ tes) := by
  intro acc fr ts n hfr hisKey hacc hn
  have happ : [t] ++ tv ++ tes ++ .plain .recordEnd rfl :: ts =
      t :: (tv ++ (tes ++ .plain .recordEnd rfl :: ts)) := by simp
  rw [happ] at hn ⊢
  rw [List.length_cons] at hn
  obtain ⟨n, rfl⟩ : ∃ m, n = m + 1 := ⟨n - 1, by omega⟩
  obtain ⟨fr₁, hfr₁, hisKey₁, hkey₁, haccept₁⟩ := acceptToken_key (deserializeTokens n) hfr hisKey
    (keyValue k) (tv ++ (tes ++ .plain .recordEnd rfl :: ts))
  rw [deserializeTokens_scalar ht, hkey, haccept₁]
  rcases hread fr₁ (tes ++ .plain .recordEnd rfl :: ts) n (by omega) with
    ⟨hempty, hfail⟩ | ⟨val, m, hm, hrun, heq⟩
  · exact .inl ⟨fun h => hempty h.2.1, hfail⟩
  have haccept₂ := acceptToken_value (deserializeTokens m) hfr₁ hisKey₁ val
    (tes ++ .plain .recordEnd rfl :: ts)
  rw [hkey₁] at haccept₂
  rw [hrun]
  by_cases hnil : k = .str []
  · -- the key was read as nil
    subst hnil
    exact .inl ⟨fun h => h.1 rfl, _, _, haccept₂⟩
  · rw [rawset_keyValue hk hnil] at haccept₂
    obtain ⟨fr₂, hfr₂, hisKey₂, haccept₂⟩ := haccept₂
    rw [haccept₂]
    have hlast := @assign_new k val acc (hacc (k, v) List.mem_cons_self)
    have hacc' : ∀ e ∈ es, lookup e.1 (assign k val acc) = none := by
      intro e he
      have hold := hacc e (List.mem_cons_of_mem _ he)
      rw [hlast]
      split
      · exact hold
      · exact lookup_append_new hnew he hold
    obtain ⟨hempty, hfail⟩ | ⟨w, hok, new, rfl, hlen, hnewEq⟩ :=
      ih (assign k val acc) fr₂ ts m hfr₂ hisKey₂ hacc' hm
    · exact .inl ⟨fun h => hempty h.2.2, hfail⟩
    refine .inr ⟨_, hok, ?_⟩
    by_cases hvnil : val.isNil = true
    · -- the entry is dropped
      have hbad : ¬NoEmptyString v := by
        rw [← heq, isNil_eq hvnil, structEq_nil hv]
        exact nofun
      refine ⟨new, by rw [hlast, if_pos hvnil], by rw [List.length_cons]; omega, fun pre hpre => ?_⟩
      refine iff_of_false (fun h => ?_) fun h => hbad h.2.1
      have := h.1
      rw [List.length_cons] at this
      omega
    · rw [if_neg hvnil] at hlast
      refine ⟨(k, val) :: new, by rw [hlast, List.append_assoc]; rfl, Nat.succ_le_succ hlen,
        fun pre hpre => ?_⟩
      have hpre₀ := hpre (k, v) List.mem_cons_self
      have hfound : lookup k (pre ++ (k, val) :: new) = some val := by
        rw [lookup_append hpre₀, lookup, sameKey_self hk]
        rfl
      have hshift : pre ++ (k, val) :: new = (pre ++ [(k, val)]) ++ new := by simp
      have hrest := hnewEq (pre ++ [(k, val)]) fun e he =>
        lookup_append_new hnew he (hpre e (List.mem_cons_of_mem _ he))
      rw [entriesEq, hfound, hshift]
      simp only [Bool.and_eq_true, heq, List.length_cons, Nat.succ.injEq, NoEmptyStringPairs]
      rw [← hrest]
      constructor
      · rintro ⟨hl, hgood, hes⟩
        exact ⟨noEmptyString_key hk hnil, hgood, hl, hes⟩
      · rintro ⟨-, hgood, hl, hes⟩
        exact ⟨hl, hgood, hes⟩

/-- A container is read back through the loop that fills it. -/
theorem readsBack_table {v : LuaValue} {m : Marker} {hm : m.isPlain = true} {container : Container}
    (hstart : ∀ n fr ts, deserializeTokens (n + 1) fr (.plain m hm :: ts) =
      nestedTokens (deserializeTokens n) fr container ts) {stream : List Token}
    (h : ∀ ts n, (stream ++ .plain .recordEnd rfl :: ts).length ≤ n →
      Fills (NoEmptyString v) ts (deserializeTokens n (.enter container none)
        (stream ++ .plain .recordEnd rfl :: ts)) fun val =>
          v.structEq val = true ↔ NoEmptyString v) :
    ReadsBack v (.plain m hm :: (stream ++ [.plain .recordEnd rfl])) := by
  intro fr ts n hn
  have happ : .plain m hm :: (stream ++ [.plain .recordEnd rfl]) ++ ts =
      .plain m hm :: (stream ++ .plain .recordEnd rfl :: ts) := by simp
  rw [happ] at hn ⊢
  rw [List.length_cons] at hn
  obtain ⟨n, rfl⟩ : ∃ k, n = k + 1 := ⟨n - 1, by omega⟩
  rw [hstart, nestedTokens]
  rcases h ts n (by omega) with ⟨hempty, e, rest, herror⟩ | ⟨val, hok, heq⟩
  · rw [herror]
    exact .inl ⟨hempty, e, rest, rfl⟩
  · rw [hok]
    refine .inr ⟨val, n, ?_, rfl, heq⟩
    rw [List.length_append, List.length_cons] at hn
    omega

mutual

theorem readsBack (v : LuaValue) (hv : Packable v) {tv : List Token} (ht : tokens v = some tv) :
    ReadsBack v tv := by
  match v with
  | .bool true =>
    cases ht
    exact readsBack_scalar rfl (iff_of_true rfl trivial)
  | .bool false =>
    cases ht
    exact readsBack_scalar rfl (iff_of_true rfl trivial)
  | .num x => exact readsBack_num hv ht
  | .str s => exact readsBack_str ht
  | .table (x :: xs) [] =>
    rw [tokens] at ht
    obtain ⟨tx, hx, ht⟩ := Option.bind_eq_some_iff.mp ht
    obtain ⟨txs, hxs, rfl⟩ := Option.map_eq_some_iff.mp ht
    -- an empty string among the elements vanishes or raises, and the lists differ
    have hfill := fillsArray_cons hv.1 (readsBack x hv.1 hx) (fillsArray xs hv.2 hxs)
    refine @readsBack_table _ .arrayStart rfl (.array []) (fun _ _ _ => rfl) _ fun ts n hn => ?_
    obtain ⟨hempty, hfail⟩ | ⟨val, hok, ys, rfl, -, heq⟩ :=
      hfill [] (.enter (.array []) none) ts n rfl hn
    · exact .inl ⟨fun h => hempty h.1, hfail⟩
    · refine .inr ⟨_, hok, ?_⟩
      have hnone : NoEmptyStringPairs [] := trivial
      simp only [LuaValue.structEq, List.nil_append, List.length_nil, decide_true, Bool.and_true,
        entriesEq, heq, NoEmptyString, hnone, and_true]
  | .table [] entries =>
    rw [tokens] at ht
    obtain ⟨tes, hes, rfl⟩ := Option.map_eq_some_iff.mp ht
    have hfill := fillsMap entries hv hes
    refine @readsBack_table _ .mapStart rfl (.map []) (fun _ _ _ => rfl) _ fun ts n hn => ?_
    rcases hfill [] (.enter (.map []) none) ts n rfl rfl (fun _ _ => rfl) hn with
      ⟨hempty, hfail⟩ | ⟨val, hok, new, rfl, -, heq⟩
    · exact .inl ⟨fun h => hempty h.2, hfail⟩
    · refine .inr ⟨_, hok, ?_⟩
      have hpairs := heq [] fun _ _ => rfl
      have hnone : NoEmptyStringAll [] := trivial
      simp only [LuaValue.structEq, listEq, Bool.true_and, Bool.and_eq_true, decide_eq_true_eq,
        NoEmptyString, hnone, true_and, List.nil_append]
      exact hpairs

theorem fillsArray (xs : List LuaValue) (hxs : PackableAll xs) {txs : List Token}
    (ht : tokensOfAll xs = some txs) : FillsArray xs txs := by
  match xs with
  | [] =>
    cases ht
    exact fillsArray_nil
  | x :: xs =>
    rw [tokensOfAll] at ht
    obtain ⟨tx, hx, ht⟩ := Option.bind_eq_some_iff.mp ht
    obtain ⟨txs', hxs', rfl⟩ := Option.map_eq_some_iff.mp ht
    exact fillsArray_cons hxs.1 (readsBack x hxs.1 hx) (fillsArray xs hxs.2 hxs')

theorem fillsMap (entries : List (LuaValue × LuaValue)) (hes : PackablePairs entries)
    {tes : List Token} (ht : tokensOfPairs entries = some tes) : FillsMap entries tes := by
  match entries with
  | [] =>
    cases ht
    exact fillsMap_nil
  | (k, v) :: entries =>
    rw [tokensOfPairs] at ht
    obtain ⟨tk, hk, ht⟩ := Option.bind_eq_some_iff.mp ht
    obtain ⟨tv, hv, ht⟩ := Option.bind_eq_some_iff.mp ht
    obtain ⟨tes', hes', rfl⟩ := Option.map_eq_some_iff.mp ht
    obtain ⟨hkey, hnew, hval, hrest⟩ := hes
    obtain ⟨t, rfl, hscalar, hvalue⟩ := tokens_key hkey hk
    exact fillsMap_cons hkey hnew hval hscalar hvalue (readsBack v hval hv)
      (fillsMap entries hrest hes')

end

theorem tokens_packable_str {s : Bytes} (h : PackableString s) :
    ∃ t, tokens (.str s) = some [t] := by
  have hlen : s.length ≤ 2 ^ 32 - 1 := Nat.le_sub_one_of_lt h
  have hcast : (s.length : ℚ) ≤ ((2 ^ 32 - 1 : Nat) : ℚ) := Nat.cast_le.mpr hlen
  norm_num at hcast
  have hhuge : Marker.covers .hugeString (.finite (s.length : Nat)) = true := by
    simp only [Marker.covers, Marker.range, Bool.and_eq_true]
    norm_num [hcast]
  have hsome : ∃ m, stringMarker s = .ok m := by
    rw [stringMarker, findMinRange]
    split
    · exact ⟨_, rfl⟩
    · next hnone => exact absurd hhuge (List.find?_eq_none.mp hnone .hugeString (by decide))
  obtain ⟨m, hm⟩ := hsome
  exact ⟨_, tokens_str hm⟩

mutual

/-- Every packable value has tokens. -/
theorem Packable.tokens (v : LuaValue) (hv : Packable v) :
    ∃ t ts, tokens v = some (t :: ts) := by
  match v with
  | .bool true => exact ⟨_, _, rfl⟩
  | .bool false => exact ⟨_, _, rfl⟩
  | .num x =>
    obtain ⟨n, rfl, hn⟩ := hv
    obtain ⟨m, -, hm, -⟩ := numberMarker_int (hn.trans (by norm_num))
    exact ⟨_, _, tokens_num hm⟩
  | .str s =>
    obtain ⟨t, ht⟩ := tokens_packable_str hv
    exact ⟨t, [], ht⟩
  | .table (x :: xs) [] =>
    obtain ⟨t, ts, hx⟩ := Packable.tokens x hv.1
    obtain ⟨txs, hxs⟩ := PackableAll.tokens xs hv.2
    rw [LuaPack.tokens, hx, hxs]
    exact ⟨_, _, rfl⟩
  | .table [] entries =>
    obtain ⟨tes, hes⟩ := PackablePairs.tokens entries hv
    rw [LuaPack.tokens, hes]
    exact ⟨_, _, rfl⟩

theorem PackableAll.tokens (xs : List LuaValue) (hxs : PackableAll xs) :
    ∃ ts, tokensOfAll xs = some ts := by
  match xs with
  | [] => exact ⟨[], rfl⟩
  | x :: xs =>
    obtain ⟨t, ts, hx⟩ := Packable.tokens x hxs.1
    obtain ⟨txs, hrest⟩ := PackableAll.tokens xs hxs.2
    rw [tokensOfAll, hx, hrest]
    exact ⟨_, rfl⟩

theorem PackablePairs.tokens (entries : List (LuaValue × LuaValue))
    (hes : PackablePairs entries) : ∃ ts, tokensOfPairs entries = some ts := by
  match entries with
  | [] => exact ⟨[], rfl⟩
  | (k, v) :: entries =>
    obtain ⟨hkey, -, hval, hrest⟩ := hes
    have hk : ∃ tk, LuaPack.tokens k = some tk := by
      match k with
      | .bool true => exact ⟨_, rfl⟩
      | .bool false => exact ⟨_, rfl⟩
      | .str s =>
        obtain ⟨t, ht⟩ := tokens_packable_str hkey
        exact ⟨_, ht⟩
    obtain ⟨tk, hk⟩ := hk
    obtain ⟨t, ts, hv⟩ := Packable.tokens v hval
    obtain ⟨tes, hes⟩ := PackablePairs.tokens entries hrest
    rw [tokensOfPairs, hk, hv, hes]
    exact ⟨_, rfl⟩

end

/-- Below the limit storing tokens only fills the queue. -/
theorem storeAll_below (ts : List Token) {w : Writer} {p : List Token} (h : Queued w p)
    (hlimit : queueSize (p ++ ts) < w.flushLimit) :
    ∃ w', exec (storeAll ts) w = (.ok (), w') ∧ w'.output = w.output := by
  induction ts generalizing w p with
  | nil => exact ⟨w, rfl, rfl⟩
  | cons t ts ih =>
    have happ : p ++ t :: ts = (p ++ [t]) ++ ts := by simp
    have htotal : queueSize ((p ++ [t]) ++ ts) = queueSize p + t.size + queueSize ts := by
      simp [queueSize, Nat.add_assoc]
    have hmarker : 1 ≤ t.size := Nat.le_add_right _ _
    have hsize := h.size
    rw [happ] at hlimit
    obtain ⟨w', hrun, hout⟩ := ih (h.push t) hlimit
    refine ⟨w', ?_, hout⟩
    rw [htotal] at hlimit
    obtain ⟨⟨-, hcut⟩, -⟩ | ⟨-, hstore⟩ := store_cases h t
    · omega
    · rw [if_neg (by omega)] at hstore
      rw [storeAll, exec_bind_ok hstore, hrun]

/-- A writer that has not flushed has all the tokens in its queue. -/
theorem storeAll_queue (ts : List Token) {w w' : Writer} {p : List Token} (h : Queued w p)
    (hrun : exec (storeAll ts) w = (.ok (), w')) :
    w'.output.length = w.output.length → w'.writeQ = entriesOf (p ++ ts) := by
  suffices w.output.length ≤ w'.output.length ∧
      (w'.output.length = w.output.length → w'.writeQ = entriesOf (p ++ ts)) from this.2
  induction ts generalizing w p with
  | nil =>
    obtain rfl : w = w' := congrArg Prod.snd hrun
    exact ⟨le_rfl, fun _ => by rw [h.queue, List.append_nil]⟩
  | cons t ts ih =>
    rw [storeAll] at hrun
    obtain ⟨-, e, w₁, herror⟩ | ⟨-, hstore⟩ := store_cases h t
    · rw [exec_bind_error herror] at hrun
      cases hrun
    · split at hstore
      · obtain ⟨-, hflush⟩ | ⟨-, e, hflush⟩ := flush_cases (h.push t)
        · -- the output has grown for good
          rw [hflush] at hstore
          rw [exec_bind_ok hstore] at hrun
          obtain ⟨hle, -⟩ := ih (Queued.flushed _ _) hrun
          have hgrow : ((w.push t).flushed [bytesOf (p ++ [t])]).output.length =
              w.output.length + 1 := by simp [Writer.flushed, Writer.push]
          exact ⟨by omega, fun heq => by omega⟩
        · rw [hflush] at hstore
          rw [exec_bind_error hstore] at hrun
          cases hrun
      · rw [exec_bind_ok hstore] at hrun
        have hih := ih (h.push t) hrun
        rwa [List.append_assoc] at hih

/-- `serialize` left the whole value in the queue of a writer without dictionary. -/
def QueuedWhole (v : LuaValue) (limit : Nat) (w : Writer) : Prop :=
  exec (serialize v) (newLPackBufferWriter limit) = (.ok (), w) ∧ w.output = []

theorem QueuedWhole.queue {v : LuaValue} {limit : Nat} {w : Writer} (h : QueuedWhole v limit w)
    {ts : List Token} (hts : tokens v = some ts) : w.writeQ = entriesOf ts := by
  obtain ⟨hrun, hout⟩ := h
  have hser : Serializes (serialize v) (some ts) := hts ▸ serializes v
  rw [hser _ rfl] at hrun
  have hqueue := storeAll_queue ts (Queued.flushed (newLPackBufferWriter limit) []) hrun
  exact hqueue (by rw [hout]; rfl)

/-- `read` on the bytes gives a value that is structurally equal, and nothing is left. -/
def RoundTrips (v : LuaValue) (bytes : Bytes) : Prop :=
  ∃ N, ∀ fuel, N ≤ fuel → ∃ val r, exec (read fuel) (newLPackStringReader bytes) = (.ok val, r) ∧
    v.structEq val = true ∧ r.chunks = [] ∧ r.buffer = bytes ∧ r.offset = bytes.length

/-- Reading from a string gives what the tokens say, and stops where they do. -/
theorem read_string {ts rest : List Token} {result : Except LuaError LuaValue} {n : Nat}
    (h : deserializeTokens n (.enter .none none) ts = some (result, rest))
    (hne : bytesOf ts ≠ []) (hsmall : (bytesOf ts).length < 2 ^ 31) {fuel : Nat}
    (hfuel : 1 + n < fuel) :
    ∃ r, exec (read fuel) (newLPackStringReader (bytesOf ts)) = (result.mapError .raised, r) ∧
      Holds r (bytesOf rest) 1 ∧ OneChunk (bytesOf ts) r := by
  have hone := (stable_oneChunk (bytesOf ts)).read fuel _ (oneChunk_new (bytesOf ts))
  have hnext := (stable_oneChunk (bytesOf ts)).next _ (oneChunk_new (bytesOf ts))
  have hchunks : Chunks (bytesOf ts) [bytesOf ts] := ⟨by simp, by simpa using hne⟩
  rcases (hchunks.holds hsmall).next with htorn | hholds
  · rw [hnext.1] at htorn
    cases htorn
  · rw [exec_read, hholds.dictionary] at hone
    rw [newLPackStringReader, exec_read, hholds.dictionary]
    obtain htorn | ⟨r, hrun, hr⟩ := deserializeLoop_reads n hfuel h _ hholds
    · rw [hone.1] at htorn
      cases htorn
    · rw [hrun] at hone
      exact ⟨r, hrun, hr, hone⟩

/-- A reader with nothing to come has consumed the whole string. -/
theorem Holds.consumed {r : Reader} {s : Bytes} {c : Nat} (h : Holds r [] c)
    (hone : OneChunk s r) : r.chunks = [] ∧ r.buffer = s ∧ r.offset = s.length := by
  have hbytes := List.append_eq_nil_iff.mp h.bytes
  obtain ⟨hchunks, rfl⟩ | ⟨hchunks, -⟩ := hone.2
  · have hend := List.drop_eq_nil_iff.mp hbytes.1
    exact ⟨hchunks, rfl, Nat.le_antisymm h.bound hend⟩
  · have hne := h.nonempty s (by simp [hchunks])
    rw [hchunks] at hbytes
    exact absurd (by simpa using hbytes.2) hne

/-- Reading tokens that stand for one value gives back the value that was written exactly when the
two are equal. -/
theorem roundTrips_of_reads {v val : LuaValue} {ts : List Token} {n : Nat}
    (h : deserializeTokens n (.enter .none none) ts = some (.ok val, []))
    (hne : bytesOf ts ≠ []) (hsmall : (bytesOf ts).length < 2 ^ 31) :
    RoundTrips v (bytesOf ts) ↔ v.structEq val = true := by
  constructor
  · rintro ⟨N, hN⟩
    obtain ⟨val', r, hrun, heq', -⟩ := hN (N + (1 + n) + 1) (by omega)
    obtain ⟨r', hrun', -⟩ := read_string h hne hsmall (show 1 + n < N + (1 + n) + 1 by omega)
    cases hrun.symm.trans hrun'
    exact heq'
  · intro heq'
    refine ⟨1 + n + 1, fun fuel hfuel => ?_⟩
    obtain ⟨r, hrun, hr, hone⟩ := read_string h hne hsmall (Nat.lt_of_succ_le hfuel)
    exact ⟨val, r, hrun, heq', hr.consumed hone⟩

/-- The bytes of a value are read back as that value exactly when it has no empty string. -/
theorem roundTrips_tokens {v : LuaValue} (hv : Packable v) {t : Token} {ts : List Token}
    (ht : tokens v = some (t :: ts)) (hsmall : (bytesOf (t :: ts)).length < 2 ^ 31) :
    RoundTrips v (bytesOf (t :: ts)) ↔ NoEmptyString v := by
  have hne : bytesOf (t :: ts) ≠ [] := by
    rw [bytesOf_cons]
    exact List.cons_ne_nil _ _
  have hback := readsBack v hv ht (.enter .none none) [] (t :: ts).length (by simp)
  rw [List.append_nil] at hback
  obtain ⟨hempty, e, rest, herror⟩ | ⟨val, m, -, hok, heq⟩ := hback
  · refine iff_of_false ?_ hempty
    rintro ⟨N, hN⟩
    obtain ⟨val, r, hrun, -⟩ := hN (N + (1 + (t :: ts).length) + 1) (by omega)
    obtain ⟨r', hrun', -⟩ := read_string herror hne hsmall
      (show 1 + (t :: ts).length < N + (1 + (t :: ts).length) + 1 by omega)
    cases hrun.symm.trans hrun'
  · rw [← heq]
    exact roundTrips_of_reads hok hne hsmall

/-- The round trip of the format: every packable value can be queued, the queue is serialised to
bytes that do not depend on the room given, and reading those gives the value back exactly when
no empty string occurs in it. -/
theorem roundTrips_iff_noEmptyString {v : LuaValue} (hv : Packable v) :
    (∃ L, ∀ limit, L ≤ limit → ∃ w, QueuedWhole v limit w) ∧
    ∀ limit w, QueuedWhole v limit w → ∃ bytes, ∀ size, size ≠ 0 → EnoughRoom size bytes →
      Native.serializeWriteQ w.writeQ size = .ok bytes ∧
        (RoundTrips v bytes ↔ NoEmptyString v) := by
  obtain ⟨t, ts, ht⟩ := hv.tokens
  refine ⟨⟨queueSize (t :: ts) + 1, fun limit hlimit => ?_⟩, fun limit w hw => ?_⟩
  · have hser : Serializes (serialize v) (some (t :: ts)) := ht ▸ serializes v
    obtain ⟨w, hrun, hout⟩ := storeAll_below (t :: ts)
      (Queued.flushed (newLPackBufferWriter limit) []) hlimit
    exact ⟨w, (hser _ rfl).trans hrun, hout⟩
  · refine ⟨bytesOf (t :: ts), fun size hsize hroom => ?_⟩
    rw [hw.queue ht]
    obtain hok | ⟨hno, -⟩ := serializeWriteQ_tokens (t :: ts) hsize
    · refine ⟨hok, roundTrips_tokens hv ht ?_⟩
      obtain ⟨hle, hlt⟩ := hroom
      omega
    · exact absurd hroom hno

/-- An array with a number, a string and a map. -/
def nested : LuaValue :=
  .table [.int 7, .str [104], .table [] [(.str [107], .bool true)]] []

theorem packable_nested : Packable nested := by
  refine ⟨⟨7, rfl, by decide⟩, ?_, ⟨?_, rfl, trivial, trivial⟩, trivial⟩
  · exact (by decide : [(104 : UInt8)].length < 2 ^ 32)
  · exact (by decide : [(107 : UInt8)].length < 2 ^ 32)

theorem roundTrips_nested :
    (∃ L, ∀ limit, L ≤ limit → ∃ w, QueuedWhole nested limit w) ∧
    ∀ limit w, QueuedWhole nested limit w → ∃ bytes, ∀ size, size ≠ 0 → EnoughRoom size bytes →
      Native.serializeWriteQ w.writeQ size = .ok bytes ∧
        (RoundTrips nested bytes ↔ NoEmptyString nested) :=
  roundTrips_iff_noEmptyString packable_nested

theorem stringMarker_nil : stringMarker [] = .ok .string := by decide +kernel

/-- The empty string is written as a marker and a length, and read as nil. -/
theorem empty_string_read_as_nil :
    Packable (.str []) ∧ (∃ w, QueuedWhole (.str []) 100 w ∧
      Native.serializeWriteQ w.writeQ 1 = .ok [19, 0]) ∧ ¬RoundTrips (.str []) [19, 0] := by
  have hmarker := tokens_str stringMarker_nil
  refine ⟨Nat.two_pow_pos 32, ?_, ?_⟩
  · have hser : Serializes (serialize (.str [])) (some _) := hmarker ▸ serializes (.str [])
    obtain ⟨w, hrun, hout⟩ := storeAll_below [.string .string [] stringMarker_nil]
      (Queued.flushed (newLPackBufferWriter 100) []) (by decide)
    have hqueued : QueuedWhole (.str []) 100 w := ⟨(hser _ rfl).trans hrun, hout⟩
    refine ⟨w, hqueued, ?_⟩
    rw [hqueued.queue hmarker]
    obtain hok | ⟨hroom, -⟩ :=
      serializeWriteQ_tokens [.string .string [] stringMarker_nil] Nat.one_ne_zero
    · exact hok
    · exact absurd (by decide) hroom
  · rintro ⟨N, hN⟩
    obtain ⟨val, r, hrun, heq, -⟩ := hN (N + 12) (Nat.le_add_right N 12)
    have hnil : (exec (read (N + 12)) (newLPackStringReader [19, 0])).1 = .ok .nil := by rfl
    rw [hrun] at hnil
    cases hnil
    cases heq

end Luaw.LuaPack
