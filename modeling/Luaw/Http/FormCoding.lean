import Luaw.Http.UrlText

/-!
# Forms that are encoded and decoded

The decoder reads what `urlEncodeParams` writes, except that it has no empty values: it skips
the last pair if its value is empty, and refuses another one.
-/

namespace Luaw.Http

open Lua

def urlEncodeByte (ch : UInt8) : Bytes := if isURLSafe ch then [ch] else toURLSafeChar ch

section Bytes

theorem digitValue?_hexDigit {n : Nat} (h : n < 16) :
    ChunkedCoding.digitValue? (toURLSafeChar.hexDigit n) = some n := by
  have hall : ∀ n : Fin 16,
      ChunkedCoding.digitValue? (toURLSafeChar.hexDigit n.val) = some n.val := by
    decide
  exact hall ⟨n, h⟩

theorem scanHex_hexDigits (ch : UInt8) (str : Bytes) :
    scanHex (toURLSafeChar.hexDigit (ch.toNat / 16) ::
      toURLSafeChar.hexDigit (ch.toNat % 16) :: str) = some ch := by
  have hlt := ch.toNat_lt
  rw [scanHex_digits (digitValue?_hexDigit (by omega)) (digitValue?_hexDigit (by omega)),
    Nat.div_add_mod, Nat.toUInt8, UInt8.ofNat_toNat]

/-- Separators are encoded. -/
theorem urlEncodeByte_separator (ch : UInt8) : ∀ b ∈ urlEncodeByte ch, b ≠ 38 ∧ b ≠ 61 := by
  have hall : ∀ ch : UInt8, (urlEncodeByte ch).all (fun b => b != 38 && b != 61) = true :=
    forall_byte (by decide +kernel)
  intro b hb
  simpa using List.all_eq_true.mp (hall ch) b hb

/-- An encoded byte has no plus sign, unless it is the one that stands for a space. -/
theorem plusToSpace_urlEncodeByte : ∀ ch : UInt8, plusToSpace (urlEncodeByte ch) =
    if isURLSafe ch ∨ ch = 32 then [ch]
    else [37, toURLSafeChar.hexDigit (ch.toNat / 16), toURLSafeChar.hexDigit (ch.toNat % 16)] :=
  forall_byte (by decide +kernel)

end Bytes

theorem urlEncode_cons (ch : UInt8) (str : Bytes) :
    urlEncode (ch :: str) = urlEncodeByte ch ++ urlEncode str := List.flatMap_cons

theorem urlEncode_separator {str : Bytes} : ∀ b ∈ urlEncode str, b ≠ 38 ∧ b ≠ 61 := by
  intro b hb
  obtain ⟨ch, -, hb⟩ := List.mem_flatMap.mp hb
  exact urlEncodeByte_separator ch b hb

theorem urlEncode_eq_nil {str : Bytes} : urlEncode str = [] ↔ str = [] := by
  cases str with
  | nil => exact iff_of_true rfl rfl
  | cons ch str =>
    refine iff_of_false (fun h => ?_) (List.cons_ne_nil ch str)
    rw [urlEncode_cons] at h
    have hbyte := congrArg plusToSpace (List.append_eq_nil_iff.mp h).1
    rw [plusToSpace_urlEncodeByte] at hbyte
    split at hbyte <;> cases hbyte

theorem decodeHex_urlEncode (hexCh : UInt8) (str : Bytes) :
    decodeHex hexCh (plusToSpace (urlEncode str)) = str := by
  induction str generalizing hexCh with
  | nil => rfl
  | cons ch str ih =>
    rw [urlEncode_cons, plusToSpace_append, plusToSpace_urlEncodeByte]
    by_cases hsafe : isURLSafe ch ∨ ch = 32
    · have hne : ch ≠ 37 := by
        rintro rfl
        exact absurd hsafe (by decide)
      rw [if_pos hsafe]
      exact (decodeHex_cons (.inl hne) hexCh).trans (congrArg _ (ih hexCh))
    · rw [if_neg hsafe]
      show (scanHex _).getD hexCh :: decodeHex ((scanHex _).getD hexCh) _ = _
      rw [scanHex_hexDigits, Option.getD_some]
      exact congrArg _ (ih ch)

theorem fieldPart_urlEncode {str : Bytes} (h : str ≠ []) : FieldPart (urlEncode str) :=
  ⟨urlEncode_eq_nil.not.mpr h, urlEncode_separator⟩

/-- The list that `urlEncodeParams` returns for the pairs, joined. -/
def joinPairs (pairs : List (Bytes × Bytes)) : Bytes :=
  (pairs.flatMap fun (key, val) =>
    [urlEncode key, text "=", urlEncode val, text "&"]).dropLast.flatten

/-- The fields of pairs that are encoded. -/
def encodePairs (pairs : List (Bytes × Bytes)) : List (Bytes × Bytes) :=
  pairs.map fun (name, value) => (urlEncode name, urlEncode value)

theorem joinPairs_concat (pairs : List (Bytes × Bytes)) (name value : Bytes) :
    joinPairs (pairs ++ [(name, value)]) =
      fieldsText (encodePairs pairs) ++ (urlEncode name ++ 61 :: urlEncode value) := by
  have hlist : (pairs ++ [(name, value)]).flatMap (fun (key, val) =>
      [urlEncode key, text "=", urlEncode val, text "&"]) =
      pairs.flatMap (fun (key, val) => [urlEncode key, text "=", urlEncode val, text "&"]) ++
        [urlEncode name, text "=", urlEncode value] ++ [text "&"] := by
    simp
  have hfields : (pairs.flatMap fun (key, val) =>
      [urlEncode key, text "=", urlEncode val, text "&"]).flatten =
      fieldsText (encodePairs pairs) := by
    induction pairs with
    | nil => rfl
    | cons pair pairs ih =>
      rw [List.flatMap_cons, List.flatten_append, ih (by simp)]
      simp [fieldsText, encodePairs, text]
  rw [joinPairs, hlist, List.dropLast_concat, List.flatten_append, hfields]
  simp [text]

/-- Pairs with names and values are read back as they were encoded. -/
theorem exists_text_joinPairs {pairs : List (Bytes × Bytes)}
    (h : ∀ p ∈ pairs, p.1 ≠ [] ∧ p.2 ≠ []) :
    ∃ t : UrlText, t.text = joinPairs pairs ∧ t.rest = [] ∧ t.pairs = encodePairs pairs := by
  obtain rfl | ⟨pairs, ⟨name, value⟩, rfl⟩ := List.eq_nil_or_concat pairs
  · exact ⟨⟨[], .start, [], nofun, .intro, atSeparator_nil⟩, rfl, rfl, rfl⟩
  · rw [List.concat_eq_append] at h ⊢
    obtain ⟨hname, hvalue⟩ := h (name, value) (by simp)
    have hfields : ∀ p ∈ encodePairs pairs, FieldPart p.1 ∧ FieldPart p.2 := by
      intro p hp
      obtain ⟨pair, hpair, rfl⟩ := List.mem_map.mp hp
      obtain ⟨hname, hvalue⟩ := h pair (List.mem_append_left _ hpair)
      exact ⟨fieldPart_urlEncode hname, fieldPart_urlEncode hvalue⟩
    refine ⟨⟨encodePairs pairs, .inValue (urlEncode name) (urlEncode value), [], hfields,
      ⟨fieldPart_urlEncode hname, fieldPart_urlEncode hvalue⟩, nofun⟩, ?_, rfl, ?_⟩
    · rw [joinPairs_concat, UrlText.text, List.append_nil]
      rfl
    · simp [UrlText.pairs, LastField.pairs, encodePairs]

theorem decodedPairs_encodePairs (garbage : Nat → Bool → UInt8) (k : Nat)
    (pairs : List (Bytes × Bytes)) : decodedPairs garbage k (encodePairs pairs) = pairs := by
  induction pairs generalizing k with
  | nil => rfl
  | cons pair pairs ih =>
    rw [encodePairs, List.map_cons, decodedPairs, decodedPair, decodeHex_urlEncode,
      decodeHex_urlEncode]
    exact congrArg _ (ih (k + 1))

theorem urlDecode_joinPairs (hexCh : Nat → Bool → UInt8) {pairs : List (Bytes × Bytes)}
    (h : ∀ p ∈ pairs, p.1 ≠ [] ∧ p.2 ≠ [])
    (params : Params) :
    ∃ left, urlDecode hexCh (joinPairs pairs) params =
      .ok (storeHttpParams params pairs, left) := by
  obtain ⟨t, htext, hrest, hpairs⟩ := exists_text_joinPairs h
  have herror : t.error? = none := if_pos hrest
  have hdecode := urlDecode_text hexCh t params
  rw [herror, hpairs, decodedPairs_encodePairs, htext] at hdecode
  exact ⟨_, hdecode⟩

/-- Names that are new are added at the end. -/
theorem storeHttpParam_new {params : Params} {name : Bytes} (h : name ∉ params.map Prod.fst)
    (value : Bytes) : storeHttpParam params name value = params ++ [(name, .single value)] := by
  induction params with
  | nil => rfl
  | cons param params ih =>
    obtain ⟨name', value'⟩ := param
    have hne : name' ≠ name := (List.ne_of_not_mem_cons h).symm
    rw [storeHttpParam, Headers.add, if_neg hne]
    exact congrArg _ (ih (List.not_mem_of_not_mem_cons h))

theorem storeHttpParams_new {params : Params} {pairs : List (Bytes × Bytes)}
    (hnodup : (params.map Prod.fst ++ pairs.map Prod.fst).Nodup) :
    storeHttpParams params pairs = params ++ pairs.map fun p => (p.1, .single p.2) := by
  induction pairs generalizing params with
  | nil => exact (List.append_nil params).symm
  | cons pair pairs ih =>
    obtain ⟨name, value⟩ := pair
    have hnew : name ∉ params.map Prod.fst := fun hmem =>
      (List.nodup_append.mp hnodup).2.2 name hmem name List.mem_cons_self rfl
    have hrest : storeHttpParams (params ++ [(name, .single value)]) pairs = _ :=
      ih (by simpa using hnodup)
    rw [List.append_assoc] at hrest
    rw [storeHttpParams, List.foldl_cons]
    show storeHttpParams (storeHttpParam params name value) pairs = _
    rw [storeHttpParam_new hnew]
    exact hrest

theorem storeHttpParam_values {params : Params} {value : Bytes} (hvalue : value ≠ [])
    (hparams : ∀ param ∈ params, param.2 ≠ .single []) (name : Bytes) :
    ∀ param ∈ storeHttpParam params name value, param.2 ≠ .single [] := by
  induction params with
  | nil =>
    intro param hmem heq
    rw [List.mem_singleton.mp hmem] at heq
    exact hvalue (HeaderValue.single.inj heq)
  | cons param params ih =>
    obtain ⟨name', values⟩ := param
    rw [storeHttpParam, Headers.add]
    split
    · intro param hmem heq
      obtain rfl | hmem := List.mem_cons.mp hmem
      · cases values <;> cases heq
      · exact hparams param (List.mem_cons_of_mem _ hmem) heq
    · intro param hmem
      obtain rfl | hmem := List.mem_cons.mp hmem
      · exact hparams _ List.mem_cons_self
      · exact ih (fun p hp => hparams p (List.mem_cons_of_mem _ hp)) param hmem

theorem storeHttpParams_values {params : Params} {pairs : List (Bytes × Bytes)}
    (hpairs : ∀ p ∈ pairs, p.2 ≠ []) (hparams : ∀ param ∈ params, param.2 ≠ .single []) :
    ∀ param ∈ storeHttpParams params pairs, param.2 ≠ .single [] := by
  induction pairs generalizing params with
  | nil => exact hparams
  | cons pair pairs ih =>
    exact ih (fun p hp => hpairs p (List.mem_cons_of_mem _ hp))
      (storeHttpParam_values (hpairs pair List.mem_cons_self) hparams pair.1)

theorem decodedPairs_values {garbage : Nat → Bool → UInt8} {k : Nat} {pairs : List (Bytes × Bytes)}
    (h : ∀ p ∈ pairs, p.2 ≠ []) : ∀ p ∈ decodedPairs garbage k pairs, p.2 ≠ [] := by
  induction pairs generalizing k with
  | nil => exact nofun
  | cons pair pairs ih =>
    intro p hp
    cases hp with
    | head => exact decodeHex_eq_nil.not.mpr (plusToSpace_eq_nil.not.mpr (h pair List.mem_cons_self))
    | tail _ hp => exact ih (fun p hp => h p (List.mem_cons_of_mem _ hp)) p hp

theorem UrlText.pairs_parts (t : UrlText) : ∀ p ∈ t.pairs, FieldPart p.1 ∧ FieldPart p.2 := by
  intro p hp
  obtain hp | hp := List.mem_append.mp hp
  · exact t.fields_parts p hp
  · obtain ⟨fields, last, rest, hfields, hwf, hstops⟩ := t
    split at hp
    · cases last with
      | inValue name value => exact List.mem_singleton.mp hp ▸ hwf
      | start | inName | assigned => cases hp
    · cases hp

/-- No empty value is stored. -/
theorem urlDecode_values {hexCh : Nat → Bool → UInt8} {data left : Bytes} {decoded : Params}
    (h : urlDecode hexCh data [] = .ok (decoded, left)) : ∀ param ∈ decoded, param.2 ≠ .single [] := by
  obtain ⟨t, rfl⟩ := UrlText.exists_text data
  rw [urlDecode_text] at h
  split at h
  · cases h
    exact storeHttpParams_values
      (decodedPairs_values fun p hp => (t.pairs_parts p hp).2.nonempty) nofun
  · cases h

theorem get?_mem {name : Bytes} {value : HeaderValue} {params : Params}
    (h : Headers.get? name params = some value) : (name, value) ∈ params := by
  induction params with
  | nil => cases h
  | cons param params ih =>
    obtain ⟨name', value'⟩ := param
    rw [Headers.get?] at h
    split at h
    · next heq =>
      cases h
      exact heq ▸ List.mem_cons_self
    · exact List.mem_cons_of_mem _ (ih h)

theorem get?_of_mem {name : Bytes} {value : HeaderValue} {params : Params}
    (hnodup : (params.map Prod.fst).Nodup) (h : (name, value) ∈ params) :
    Headers.get? name params = some value := by
  induction params with
  | nil => cases h
  | cons param params ih =>
    obtain ⟨name', value'⟩ := param
    obtain ⟨hnew, hnodup⟩ := List.nodup_cons.mp hnodup
    rw [Headers.get?]
    obtain heq | h := List.mem_cons.mp h
    · cases heq
      rw [if_pos rfl]
    · rw [if_neg]
      · exact ih hnodup h
      · rintro rfl
        exact hnew (List.mem_map.mpr ⟨_, h, rfl⟩)

/-- What `urlEncodeParams` returns is decoded to the table, and its length is as it says. -/
def FormAgrees (hexCh : Nat → Bool → UInt8) (rt : Runtime) (params : List (Bytes × Bytes)) : Prop :=
  let (encodedParams, contentLength) := (urlEncodeParams rt (some params)).getD ([], 0)
  (∃ decoded left, urlDecode hexCh encodedParams.flatten [] = .ok (decoded, left) ∧ ∀ name value,
    Headers.get? name decoded = some value ↔ ∃ v, (name, v) ∈ params ∧ value = .single v) ∧
  contentLength = encodedParams.flatten.length

theorem urlEncodeParams_eq (rt : Runtime) (params : List (Bytes × Bytes)) :
    ∃ encodedParams, (urlEncodeParams rt (some params)).getD ([], 0) =
      (encodedParams, encodedParams.flatten.length) ∧
      encodedParams.flatten = joinPairs (rt.pairs params) := by
  refine ⟨((rt.pairs params).flatMap fun (key, val) =>
    [urlEncode key, text "=", urlEncode val, text "&"]).dropLast, ?_, rfl⟩
  obtain hnil | ⟨pairs, pair, hpairs⟩ := List.eq_nil_or_concat (rt.pairs params)
  · simp [urlEncodeParams, hnil]
  · -- the last ampersand is not joined, and not counted
    rw [List.concat_eq_append] at hpairs
    have hlist : (rt.pairs params).flatMap (fun (key, val) =>
        [urlEncode key, text "=", urlEncode val, text "&"]) =
        pairs.flatMap (fun (key, val) => [urlEncode key, text "=", urlEncode val, text "&"]) ++
          [urlEncode pair.1, text "=", urlEncode pair.2] ++ [text "&"] := by
      simp [hpairs]
    simp only [urlEncodeParams, hlist, List.dropLast_concat, List.length_flatten]
    simp [text]
    omega

/-- A table of parameters comes back from the decoder exactly when no value is empty. -/
theorem formAgrees_iff (hexCh : Nat → Bool → UInt8) (rt : Runtime)
    {params : List (Bytes × Bytes)} (hdistinct : (params.map Prod.fst).Nodup)
    (hnames : ∀ p ∈ params, p.1 ≠ []) :
    FormAgrees hexCh rt params ↔ ∀ p ∈ params, p.2 ≠ [] := by
  obtain ⟨encodedParams, hencoded, hjoin⟩ := urlEncodeParams_eq rt params
  have hperm := rt.pairs_perm params
  rw [FormAgrees, hencoded]
  simp only [hjoin, and_true]
  constructor
  · rintro ⟨decoded, left, hdecoded, htable⟩ ⟨name, value⟩ hp rfl
    have hget := (htable name (.single [])).mpr ⟨[], hp, rfl⟩
    exact urlDecode_values hdecoded _ (get?_mem hget) rfl
  · intro hvalues
    have hnodup : ((rt.pairs params).map Prod.fst).Nodup :=
      (hperm.map Prod.fst).nodup_iff.mpr hdistinct
    have hpairs : ∀ p ∈ rt.pairs params, p.1 ≠ [] ∧ p.2 ≠ [] := fun p hp =>
      ⟨hnames p (hperm.mem_iff.mp hp), hvalues p (hperm.mem_iff.mp hp)⟩
    obtain ⟨left, hdecoded⟩ := urlDecode_joinPairs hexCh hpairs []
    rw [storeHttpParams_new (by simpa using hnodup), List.nil_append] at hdecoded
    refine ⟨_, left, hdecoded, fun name value => ?_⟩
    constructor
    · intro hget
      obtain ⟨⟨name', v⟩, hp, heq⟩ := List.mem_map.mp (get?_mem hget)
      cases heq
      exact ⟨v, hperm.mem_iff.mp hp, rfl⟩
    · rintro ⟨v, hp, rfl⟩
      refine get?_of_mem ?_ (List.mem_map.mpr ⟨(name, v), hperm.mem_iff.mpr hp, rfl⟩)
      rwa [List.map_map]

theorem formAgrees_two : FormAgrees (fun _ _ => 0) Runtime.default
    [(text "a", text "1 + 1"), (text "b&", text "%=")] ↔
      ∀ p ∈ [(text "a", text "1 + 1"), (text "b&", text "%=")], p.2 ≠ [] :=
  formAgrees_iff (fun _ _ => 0) Runtime.default (by decide) (by decide)

/-- A parameter with an empty value, the only one. -/
theorem empty_value_lost : ¬∀ (hexCh : Nat → Bool → UInt8) (rt : Runtime)
    (params : List (Bytes × Bytes)), (params.map Prod.fst).Nodup → (∀ p ∈ params, p.1 ≠ []) →
    FormAgrees hexCh rt params := by
  intro h
  have hagrees := h (fun _ _ => 0) Runtime.default [(text "a", [])] (by decide) (by decide)
  obtain ⟨⟨decoded, left, hdecoded, htable⟩, -⟩ := hagrees
  have hget := (htable (text "a") (.single [])).mpr ⟨[], by simp, rfl⟩
  have hnone : urlDecode (fun _ _ => 0) [97, 61] [] = .ok ([], [97, 61]) := rfl
  cases hnone.symm.trans hdecoded
  cases hget

end Luaw.Http
