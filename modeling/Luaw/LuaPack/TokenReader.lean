import Luaw.LuaPack.Refill
import Luaw.LuaPack.Tokens

/-!
# Reading a stream of tokens

`deserializeTokens` is `deserialize` on tokens instead of bytes. The reader of bytes does the
same as it, wherever the chunks were cut, unless the run is torn.
-/

namespace Luaw.LuaPack

open Lua BigEndian Program

namespace Token

/-- The number that the bytes of a numeric token stand for. -/
def decoded (m : Marker) (x : Number) : Number :=
  (m.numberFormat?.map fun format => format.decode (numberBytes m x)).getD (.finite 0)

/-- What `deserialize` reads for a token that stands for a value by itself. An empty string is
read as nil. -/
def value : Token → LuaValue
  | plain .boolTrue _ => .bool true
  | plain .boolFalse _ => .bool false
  | plain _ _ => .nil
  | number m x _ => .num (decoded m x)
  | string _ s _ => if s = [] then .nil else .str s

end Token

/-- What reading tokens yields: the result and the tokens left over, or nothing when the tokens
end inside a container or start a dictionary. -/
abbrev TokenResult := Option (Except LuaError LuaValue × List Token)

/-- One value has been read: a call without container returns it, a loop goes on. -/
def acceptToken (next : Frame → List Token → TokenResult) (fr : Frame) (val : LuaValue)
    (ts : List Token) : TokenResult :=
  match fr.container with
  | .none => some (.ok val, ts)
  | _ =>
    match fr.accept val with
    | .ok fr => next fr ts
    | .error e => some (.error e, ts)

/-- A nested container is read as one value. -/
def nestedTokens (next : Frame → List Token → TokenResult) (fr : Frame) (container : Container)
    (ts : List Token) : TokenResult :=
  match next (.enter container none) ts with
  | some (.ok val, ts) => acceptToken next fr val ts
  | result => result

/-- The loop of `deserialize` on tokens. -/
def deserializeTokens : Nat → Frame → List Token → TokenResult
  | 0, _, _ => none
  | _ + 1, _, [] => none
  | fuel + 1, fr, t :: ts =>
    match t.marker with
    | .recordEnd =>
      match fr.container, fr.isKey with
      | .map _, false =>
        some (.error (text "Unbalanced table, key without corresponding value found"), ts)
      | container, _ => some (.ok container.value, ts)
    | .dictStart => none
    | .mapStart => nestedTokens (deserializeTokens fuel) fr (.map []) ts
    | .arrayStart => nestedTokens (deserializeTokens fuel) fr (.array []) ts
    | _ => acceptToken (deserializeTokens fuel) fr t.value ts

theorem decode_unsigned {w : Nat} {bs : Bytes} (h : ofBytes bs ≤ 2 ^ 53) :
    (NumberFormat.unsigned w).decode bs = .finite (ofBytes bs : Nat) := by
  have hself : BinaryFloat.ofInt BinaryFloat.double (ofBytes bs : Nat) =
      .finite ((ofBytes bs : Nat) : Int) :=
    BinaryFloat.ofInt_eq_self (by simpa [BinaryFloat.double] using h)
  simpa [NumberFormat.decode] using hself

@[simp] theorem wireNat_cast (n : Nat) : wireNat (.finite n) = n := by
  simp [wireNat]

theorem readMarker_reads (m : Marker) {c fuel : Nat} (hfuel : c < fuel) (q : Bytes) :
    Reads c (readMarker fuel) (UInt8.ofNat m.tag :: q) (.ok (some m.tag)) q := by
  have hbyte : ofBytes [UInt8.ofNat m.tag] = m.tag := by
    have := m.tag_lt
    simp [ofBytes, Nat.mod_eq_of_lt this]
  have hread : Reads c (readNumber fuel (some Marker.typeMarker.tag)) ([UInt8.ofNat m.tag] ++ q)
      (.ok (some ((NumberFormat.unsigned 1).decode [UInt8.ofNat m.tag]))) q :=
    @readNumber_reads _ (.unsigned 1) rfl Nat.one_pos _ q rfl c fuel hfuel
  have hsmall : ofBytes [UInt8.ofNat m.tag] ≤ 2 ^ 53 := by
    have := m.tag_lt
    omega
  rw [decode_unsigned hsmall, hbyte] at hread
  refine hread.bind ?_ fun _ => .pure _
  rw [Option.map_some, wireNat_cast]
  exact .pure _

theorem exec_readPieces_zero (fuel : Nat) (accm : List Bytes) (r : Reader) :
    exec (readPieces (fuel + 1) 0 accm) r = (.ok .nil, r) := by
  have hcond : ¬(0 < 0 ∧ r.done = false) := fun h => Nat.lt_irrefl 0 h.1
  rw [readPieces, exec_bind_ok (exec_get r), if_neg hcond, exec_pure]

/-- A string with its length in front of it. -/
theorem readSizedString_reads {lenType : Marker} {w : Nat} (hw : 0 < w) (hw4 : w ≤ 4)
    (hformat : lenType.numberFormat? = some (.unsigned w)) {s : Bytes} (hs : s.length < 256 ^ w)
    {c fuel : Nat} (hfuel : c < fuel) (q : Bytes) :
    Reads c (readSizedString fuel lenType) (toBytes w s.length ++ s ++ q)
      (.ok (if s = [] then .nil else .str s)) q := by
  have hvalue : ofBytes (toBytes w s.length) = s.length := by
    rw [ofBytes_toBytes, Nat.mod_eq_of_lt hs]
  have hsmall : ofBytes (toBytes w s.length) ≤ 2 ^ 53 := by
    have hpow : 256 ^ w ≤ 256 ^ 4 := Nat.pow_le_pow_right (by omega) hw4
    omega
  have hlen : Reads c (readNumber fuel (some lenType.tag)) (toBytes w s.length ++ (s ++ q))
      (.ok (some ((NumberFormat.unsigned w).decode (toBytes w s.length)))) (s ++ q) := by
    refine @readNumber_reads _ (.unsigned w) ?_ hw _ _ (length_toBytes _ _) c fuel hfuel
    rw [Marker.ofTag?_tag, Option.bind_some, hformat]
  rw [decode_unsigned hsmall, hvalue] at hlen
  rw [List.append_assoc]
  refine hlen.bind ?_ fun _ => stable_torn.readString _ _
  rw [readString, wireNat_cast]
  by_cases hempty : s = []
  · subst hempty
    obtain ⟨fuel, rfl⟩ : ∃ f, fuel = f + 1 := ⟨fuel - 1, by omega⟩
    exact fun r h => .inr ⟨r, exec_readPieces_zero fuel [] r, h⟩
  · rw [if_neg hempty]
    exact readPieces_reads hempty hfuel []

/-- The tokens that stand for a value by themselves. -/
def Token.isScalar : Token → Bool
  | .plain m _ => m = .nil || m = .boolTrue || m = .boolFalse
  | _ => true

theorem numberFormat?_number {x : Number} {m : Marker} (h : numberMarker x = .ok m) :
    ∃ format, m.numberFormat? = some format ∧ 0 < format.width ∧
      (Token.numberBytes m x).length = format.width := by
  have hmem := numberMarker_mem h
  simp only [Marker.intRanges, List.mem_cons, List.not_mem_nil, or_false] at hmem
  obtain rfl | rfl | rfl | rfl | rfl | rfl | rfl | rfl | rfl := hmem
  all_goals exact ⟨_, rfl, by decide, by simp [Token.numberBytes, Native.payload?, NumberFormat.width]⟩

/-- A string fits the length field of its marker. -/
theorem stringMarker_length {s : Bytes} {m : Marker} (h : stringMarker s = .ok m) :
    s.length < 256 ^ m.size := by
  have hcovers := (findMinRange_ok h).2
  have hmem := stringMarker_mem h
  simp only [Marker.covers, Bool.and_eq_true, decide_eq_true_eq] at hcovers
  have hle := hcovers.2
  simp only [Marker.stringRanges, List.mem_cons, List.not_mem_nil, or_false] at hmem
  obtain rfl | rfl | rfl := hmem
  all_goals
    simp only [Marker.range, Marker.size] at hle ⊢
    norm_num at hle ⊢
    omega

/-- The value of a scalar token is read from its payload. -/
theorem readValue_reads {t : Token} (ht : t.isScalar = true) {c fuel : Nat} (hfuel : c < fuel)
    (inner : Container → ReaderM LuaValue) (dictionary : Option (List LuaValue)) (q : Bytes) :
    Reads c (readValue fuel inner dictionary (some t.marker.tag)) (t.payloadBytes ++ q)
      (.ok t.value) q := by
  cases t with
  | plain m hm =>
    simp only [Token.isScalar, Bool.or_eq_true, decide_eq_true_eq] at ht
    obtain (rfl | rfl) | rfl := ht
    · exact .pure _
    · exact .pure _
    · exact .pure _
  | number m x hx =>
    obtain ⟨format, hformat, hpos, hlen⟩ := numberFormat?_number hx
    have hread : Reads c (readNumber fuel (some m.tag)) (Token.numberBytes m x ++ q)
        (.ok (some (format.decode (Token.numberBytes m x)))) q :=
      readNumber_reads (by rw [Marker.ofTag?_tag, Option.bind_some, hformat]) hpos hlen hfuel
    have hvalue : Token.decoded m x = format.decode (Token.numberBytes m x) := by
      rw [Token.decoded, hformat, Option.map_some, Option.getD_some]
    have hbind : Reads c (do
        let value ← readNumber fuel (some m.tag)
        pure (value.elim LuaValue.nil LuaValue.num))
        (Token.numberBytes m x ++ q) (.ok (.num (format.decode (Token.numberBytes m x)))) q :=
      hread.bind (.pure _) fun _ => .pure _
    have hmem := numberMarker_mem hx
    simp only [Marker.intRanges, List.mem_cons, List.not_mem_nil, or_false] at hmem
    rw [Token.value, hvalue]
    obtain rfl | rfl | rfl | rfl | rfl | rfl | rfl | rfl | rfl := hmem
    all_goals exact hbind
  | string m s hs =>
    have hlen := stringMarker_length hs
    have hmem := stringMarker_mem hs
    simp only [Marker.stringRanges, List.mem_cons, List.not_mem_nil, or_false] at hmem
    rw [Token.value]
    obtain rfl | rfl | rfl := hmem
    · exact readSizedString_reads Nat.one_pos (by decide) rfl hlen hfuel q
    · exact readSizedString_reads Nat.two_pos (by decide) rfl hlen hfuel q
    · exact readSizedString_reads (by decide) (by decide) rfl hlen hfuel q

theorem bytesOf_cons (t : Token) (ts : List Token) :
    bytesOf (t :: ts) = UInt8.ofNat t.marker.tag :: (t.payloadBytes ++ bytesOf ts) := rfl

theorem bytesOf_number {m : Marker} {x : Number} (h : numberMarker x = .ok m) :
    bytesOf [.number m x h] = UInt8.ofNat m.tag :: Token.numberBytes m x :=
  congrArg (List.cons _) (List.append_nil _)

theorem bytesOf_string {m : Marker} {s : Bytes} (h : stringMarker s = .ok m) :
    bytesOf [.string m s h] = UInt8.ofNat m.tag :: Token.stringBytes m s :=
  congrArg (List.cons _) (List.append_nil _)

/-- The loop of `deserialize` reads at least what the loop on `n` tokens reads. -/
def ReadsTokens (c fuel n : Nat) : Prop :=
  ∀ {fr ts result rest}, deserializeTokens n fr ts = some (result, rest) →
    Reads c (deserializeLoop fuel fr) (bytesOf ts) result (bytesOf rest)

theorem storeValue_reads {c fuel n : Nat} (ih : ReadsTokens c fuel n) {fr : Frame}
    {val : LuaValue} {ts rest : List Token} {result : Except LuaError LuaValue}
    (h : acceptToken (deserializeTokens n) fr val ts = some (result, rest)) :
    Reads c (storeValue (deserializeLoop fuel) fr val) (bytesOf ts) result (bytesOf rest) := by
  rw [acceptToken] at h
  rw [storeValue]
  split
  · next hnone =>
    rw [hnone] at h
    cases h
    exact .pure _
  · next hsome =>
    split at h
    · next hnone => exact absurd hnone hsome
    · split at h
      · next fr' haccept =>
        rw [haccept]
        exact Reads.bind (.pure fr') (ih h) (stable_torn.deserializeLoop fuel)
      · next e haccept =>
        cases h
        rw [haccept]
        exact Reads.bind_error (.raise e) (stable_torn.deserializeLoop fuel)

/-- The recursive call of `deserialize`. -/
def innerCall (fuel : Nat) (container : Container) : ReaderM LuaValue := do
  let lpack ← get
  deserializeLoop fuel (.enter container lpack.dictionary)

theorem keepsTorn_innerCall (fuel : Nat) (container : Container) :
    KeepsTorn (innerCall fuel container) :=
  .bind .get fun _ => stable_torn.deserializeLoop _ _

theorem nested_reads {c fuel n : Nat} (ih : ReadsTokens c fuel n) {fr : Frame}
    {container : Container} {ts rest : List Token} {result : Except LuaError LuaValue}
    (h : nestedTokens (deserializeTokens n) fr container ts = some (result, rest)) :
    Reads c (do
      let val ← innerCall fuel container
      storeValue (deserializeLoop fuel) fr val) (bytesOf ts) result (bytesOf rest) := by
  have hinner : ∀ {result' rest'},
      deserializeTokens n (.enter container none) ts = some (result', rest') →
      Reads c (innerCall fuel container) (bytesOf ts) result' (bytesOf rest') := by
    intro result' rest' htokens r hr
    rw [innerCall, exec_bind_ok (exec_get r), hr.dictionary]
    exact ih htokens r hr
  have hkeep : ∀ val, KeepsTorn (storeValue (deserializeLoop fuel) fr val) :=
    Stable.storeValue (stable_torn.deserializeLoop fuel) fr
  rw [nestedTokens] at h
  split at h
  · next val ts' htokens => exact (hinner htokens).bind (storeValue_reads ih h) hkeep
  · next hfail =>
    obtain e | val := result
    · exact (hinner h).bind_error hkeep
    · exact absurd h (hfail val rest)

/-- The markers at which `deserialize` does something other than read one scalar. -/
def Marker.isStructural : Marker → Bool
  | .mapStart | .arrayStart | .dictStart | .recordEnd => true
  | _ => false

theorem Token.isScalar_marker {t : Token} (h : t.isScalar = true) :
    t.marker.isStructural = false := by
  cases t with
  | plain m hm =>
    simp only [Token.isScalar, Bool.or_eq_true, decide_eq_true_eq] at h
    obtain (rfl | rfl) | rfl := h <;> rfl
  | number m x hx =>
    have hall : ∀ m ∈ Marker.intRanges, m.isStructural = false := by decide
    exact hall m (numberMarker_mem hx)
  | string m s hs =>
    have hall : ∀ m ∈ Marker.stringRanges, m.isStructural = false := by decide
    exact hall m (stringMarker_mem hs)

theorem deserializeTokens_scalar {t : Token} (h : t.isScalar = true) (n : Nat) (fr : Frame)
    (ts : List Token) :
    deserializeTokens (n + 1) fr (t :: ts) =
      acceptToken (deserializeTokens n) fr t.value ts := by
  have hmarker := Token.isScalar_marker h
  rw [deserializeTokens]
  split
  all_goals first
    | rfl
    | (next heq => rw [heq] at hmarker; cases hmarker)

theorem deserializeMarked_other {m : Marker} (hr : m ≠ .recordEnd) (hd : m ≠ .dictStart)
    (fuel : Nat) (inner : Container → ReaderM LuaValue) (next : Frame → ReaderM LuaValue)
    (fr : Frame) :
    deserializeMarked fuel inner next fr (some m.tag) = (do
      let val ← readValue fuel inner fr.dictionary (some m.tag)
      storeValue next fr val) := by
  have htag : (some m.tag).bind Marker.ofTag? = some m := Marker.ofTag?_tag m
  rw [deserializeMarked]
  split
  · next heq => exact absurd (Option.some.inj (htag.symm.trans heq)) hr
  · next heq => exact absurd (Option.some.inj (htag.symm.trans heq)) hd
  · rfl

/-- A round of the loop after the marker of the first token. -/
theorem deserializeMarked_reads {c fuel n : Nat} (hc : c < fuel) (ih : ReadsTokens c fuel n)
    {fr : Frame} {t : Token} {ts rest : List Token} {result : Except LuaError LuaValue}
    (h : deserializeTokens (n + 1) fr (t :: ts) = some (result, rest)) :
    Reads c (deserializeMarked fuel (innerCall fuel) (deserializeLoop fuel) fr
      (some t.marker.tag)) (t.payloadBytes ++ bytesOf ts) result (bytesOf rest) := by
  by_cases hscalar : t.isScalar = true
  · have hmarker := Token.isScalar_marker hscalar
    rw [deserializeTokens_scalar hscalar] at h
    rw [deserializeMarked_other (by intro he; rw [he] at hmarker; cases hmarker)
      (by intro he; rw [he] at hmarker; cases hmarker)]
    exact (readValue_reads hscalar hc _ _ _).bind (storeValue_reads ih h)
      (Stable.storeValue (stable_torn.deserializeLoop fuel) fr)
  -- the other tokens are the markers of containers
  · cases t with
    | number m x hx => exact absurd rfl hscalar
    | string m s hs => exact absurd rfl hscalar
    | plain m hm =>
      cases m with
      | mapStart => exact nested_reads ih h
      | arrayStart => exact nested_reads ih h
      | recordEnd =>
        simp only [deserializeTokens, Token.marker] at h
        have hmarked : deserializeMarked fuel (innerCall fuel) (deserializeLoop fuel) fr
            (some Marker.recordEnd.tag) =
            match fr.container, fr.isKey with
            | .map _, false =>
              Program.raise (text "Unbalanced table, key without corresponding value found")
            | container, _ => pure container.value := rfl
        rw [Token.marker, hmarked]
        split at h
        · cases h
          exact .raise _
        · cases h
          exact .pure _
      | dictStart => cases h
      | nil => exact absurd rfl hscalar
      | boolTrue => exact absurd rfl hscalar
      | boolFalse => exact absurd rfl hscalar
      | _ => cases hm

/-- A round of the loop: the marker, and what comes after it. -/
theorem deserializeLoop_round (m : Marker) {c fuel : Nat} (hc : c < fuel) {fr : Frame}
    {q rest : Bytes} {result : Except LuaError LuaValue}
    (h : Reads c (deserializeMarked fuel (innerCall fuel) (deserializeLoop fuel) fr (some m.tag))
      q result rest) :
    Reads c (deserializeLoop (fuel + 1) fr) (UInt8.ofNat m.tag :: q) result rest := by
  have hround : Reads c (do
      let t ← readMarker fuel
      deserializeMarked fuel (innerCall fuel) (deserializeLoop fuel) fr t)
      (UInt8.ofNat m.tag :: q) result rest :=
    (readMarker_reads m hc q).bind h (stable_torn.deserializeMarked fuel (keepsTorn_innerCall fuel)
      (stable_torn.deserializeLoop fuel) fr)
  intro r hr
  have hopen := hr.not_done (List.cons_ne_nil _ _)
  have hloop : exec (deserializeLoop (fuel + 1) fr) r = exec (do
      let t ← readMarker fuel
      deserializeMarked fuel (innerCall fuel) (deserializeLoop fuel) fr t) r := by
    rw [deserializeLoop, exec_bind_ok (exec_get r), hopen]
    rfl
  rw [hloop]
  exact hround r hr

/-- The reader of bytes reads the tokens, unless the buffer is torn. -/
theorem deserializeLoop_reads (n : Nat) {c fuel : Nat} (hfuel : c + n < fuel) :
    ReadsTokens c fuel n := by
  induction n generalizing fuel with
  | zero => exact fun h => nomatch h
  | succ n ih =>
    intro fr ts result rest h
    obtain ⟨fuel, rfl⟩ : ∃ f, fuel = f + 1 := ⟨fuel - 1, by omega⟩
    have hc : c < fuel := by omega
    cases ts with
    | nil => cases h
    | cons t ts =>
      rw [bytesOf_cons]
      exact deserializeLoop_round t.marker hc (deserializeMarked_reads hc (ih (by omega)) h)

end Luaw.LuaPack
