import Luaw.Http.FullBody
import Luaw.Http.UrlDecoding
import Luaw.Parsing.HeaderLines

/-!
# Header blocks that are sent

The parser knows a header by its name in lower case. A block with one Content-Length, and with no
other header that says where the body ends, has said how long the body is, in whatever order the
headers come.
-/

namespace Luaw.Parsing

open Http Lua

section Names

theorem token_lowerCase (ch : UInt8) :
    token ch = 0 ∨ token ch = if 65 ≤ ch ∧ ch ≤ 90 then ch + 32 else ch := by
  unfold token
  split_ifs <;> simp

theorem map_token {name : Bytes} (h : ∀ ch ∈ name, token ch ≠ 0) : name.map token = lowerCase name :=
  List.map_congr_left fun ch hch => (token_lowerCase ch).resolve_left (h ch hch)

theorem ofName_lowerCase {name : Bytes} (h : ∀ ch ∈ name, token ch ≠ 0) :
    HeaderState.ofName name = (knownNames.lookup (lowerCase name)).getD .general := by
  rw [HeaderState.ofName, map_token h]

/-- The headers that say something about the connection. -/
def isConnection (name : Bytes) : Bool :=
  lowerCase name = text "connection" || lowerCase name = text "proxy-connection"

/-- The header asks for the connection to be closed. -/
def closes (f : Bytes × Bytes) : Bool := isConnection f.1 && isWord (text "close") f.2

/-- The header says neither where the body ends nor that the protocol changes. -/
structure Neutral (f : Bytes × Bytes) : Prop where
  framing : isFraming f = false
  upgrade : lowerCase f.1 ≠ text "upgrade"

/-- The name of a header that is neutral. -/
theorem ofName_neutral {f : Bytes × Bytes} (hf : Proper f) (h : Neutral f) :
    HeaderState.ofName f.1 = if isConnection f.1 then .connection else .general := by
  have hframing := h.framing
  rw [isFraming, isContentLength, Bool.or_eq_false_iff, decide_eq_false_iff_not,
    decide_eq_false_iff_not] at hframing
  rw [ofName_lowerCase hf.name, isConnection]
  have hupgrade := h.upgrade
  revert hframing hupgrade
  generalize lowerCase f.1 = name
  intro hframing hupgrade
  by_cases hconn : name = text "connection"
  · rw [hconn]
    rfl
  by_cases hproxy : name = text "proxy-connection"
  · rw [hproxy]
    rfl
  have hlookup : knownNames.lookup name = none := by
    simp only [knownNames, List.lookup_cons, beq_false_of_ne hconn, beq_false_of_ne hproxy,
      beq_false_of_ne hframing.1, beq_false_of_ne hframing.2, beq_false_of_ne hupgrade]
    rfl
  rw [hlookup, if_neg (by simp [hconn, hproxy])]
  rfl

/-- The same has been said of the body and of the protocol. -/
structure Head.Agrees (hd hd' : Head) : Prop where
  contentLength : hd.contentLength = hd'.contentLength
  chunked : hd.flags.chunked = hd'.flags.chunked
  upgrade : hd.flags.upgrade = hd'.flags.upgrade

theorem Head.Agrees.trans {a b c : Head} (h : a.Agrees b) (h' : b.Agrees c) : a.Agrees c :=
  ⟨h.1.trans h'.1, h.2.trans h'.2, h.3.trans h'.3⟩

/-- A neutral header leaves what has been said of the body as it is. -/
theorem field_neutral {f : Bytes × Bytes} (hf : Proper f) (h : Neutral f) (hd : Head) :
    ∃ hd', hd.field f = some hd' ∧ hd'.Agrees hd ∧
      (closes f = false → hd'.flags.connectionClose = hd.flags.connectionClose) := by
  rw [Head.field, ofName_neutral hf h]
  unfold Head.value
  by_cases hvalue : f.2 = []
  · exact ⟨hd, if_pos hvalue, ⟨rfl, rfl, rfl⟩, fun _ => rfl⟩
  · rw [if_neg hvalue]
    cases hname : isConnection f.1 with
    | false => exact ⟨hd, rfl, ⟨rfl, rfl, rfl⟩, fun _ => rfl⟩
    | true =>
      refine ⟨hd.mark (HeaderState.ofValue .connection f.2), rfl, ?_⟩
      rw [closes, hname, Bool.true_and]
      unfold HeaderState.ofValue
      dsimp only
      split_ifs with hkeep hclose
      · exact ⟨⟨rfl, rfl, rfl⟩, fun _ => rfl⟩
      · exact ⟨⟨rfl, rfl, rfl⟩, fun hno => absurd (hno.symm.trans hclose) (by decide)⟩
      · exact ⟨⟨rfl, rfl, rfl⟩, fun _ => rfl⟩

/-- A length that the parser reads without an overflow. -/
def LengthFits (n : Nat) : Prop := n / 10 ≤ (ullongMax - 10) / 10

instance (n : Nat) : Decidable (LengthFits n) :=
  inferInstanceAs (Decidable (n / 10 ≤ (ullongMax - 10) / 10))

theorem LengthFits.lt {n : Nat} (h : LengthFits n) : n < ullongMax := by
  unfold LengthFits at h
  simp only [ullongMax] at h ⊢
  omega

theorem field_length {body : Bytes} (h : LengthFits body.length) (hd : Head) :
    hd.field (contentLength body) = some { hd with contentLength := body.length } := by
  have hname : HeaderState.ofName (text "Content-Length") = .contentLength := by decide
  have hdecimal : decimal body.length ≠ [] := by
    intro hnil
    have hlength := lengthOf_decimal h
    rw [hnil] at hlength
    cases hlength
  show hd.value (HeaderState.ofName (text "Content-Length")) (decimal body.length) = _
  rw [hname, Head.value, if_neg hdecimal, lengthOf_decimal h]
  rfl

theorem field_transfer (hd : Head) :
    hd.field (text "Transfer-Encoding", text "chunked") =
      some { hd with flags.chunked := true } := by
  rfl

end Names

section Blocks

variable {fields : List (Bytes × Bytes)} {hd : Head}

theorem fields_append {pre : List (Bytes × Bytes)} {hd₁ : Head} (h : hd.fields pre = some hd₁)
    (post : List (Bytes × Bytes)) : hd.fields (pre ++ post) = hd₁.fields post := by
  rw [Head.fields, List.foldlM_append]
  exact (congrArg (· >>= _) h).trans rfl

theorem fields_neutral (h : ∀ f ∈ fields, Proper f ∧ Neutral f) (hd : Head) :
    ∃ hd', hd.fields fields = some hd' ∧ hd'.Agrees hd ∧
      ((∀ f ∈ fields, closes f = false) → hd'.flags.connectionClose = hd.flags.connectionClose) := by
  induction fields generalizing hd with
  | nil => exact ⟨hd, rfl, ⟨rfl, rfl, rfl⟩, fun _ => rfl⟩
  | cons f fields ih =>
    obtain ⟨hproper, hneutral⟩ := h f List.mem_cons_self
    obtain ⟨hd₁, hfirst, hagrees, hclose⟩ := field_neutral hproper hneutral hd
    obtain ⟨hd₂, hrest, hagrees', hclose'⟩ := ih (fun g hg => h g (List.mem_cons_of_mem f hg)) hd₁
    refine ⟨hd₂, ?_, hagrees'.trans hagrees, fun hno => ?_⟩
    · rw [Head.fields, List.foldlM_cons, hfirst]
      exact hrest
    · rw [hclose' fun g hg => hno g (List.mem_cons_of_mem f hg), hclose (hno f List.mem_cons_self)]

/-- A block of neutral headers with one header that makes `set` of what has been said. -/
theorem fields_perm (set : Head → Head) {one : Bytes × Bytes} {block : List (Bytes × Bytes)}
    (hone : ∀ hd : Head, hd.field one = some (set hd))
    (hset : ∀ {a b : Head}, a.Agrees b → (set a).Agrees (set b))
    (hclose : ∀ hd : Head, (set hd).flags.connectionClose = hd.flags.connectionClose)
    (hfields : ∀ f ∈ fields, Proper f ∧ Neutral f) (hblock : block.Perm (one :: fields))
    (hd : Head) :
    ∃ hd', hd.fields block = some hd' ∧ hd'.Agrees (set hd) ∧
      ((∀ f ∈ fields, closes f = false) → hd'.flags.connectionClose = hd.flags.connectionClose) := by
  obtain ⟨pre, post, rfl⟩ := List.append_of_mem (hblock.mem_iff.mpr List.mem_cons_self)
  have hrest : (pre ++ post).Perm fields := (List.perm_middle.symm.trans hblock).cons_inv
  have hmem : ∀ f ∈ pre ++ post, f ∈ fields := fun f hf => hrest.mem_iff.mp hf
  have hpre : ∀ f ∈ pre, Proper f ∧ Neutral f :=
    fun f hf => hfields f (hmem f (List.mem_append_left post hf))
  have hpost : ∀ f ∈ post, Proper f ∧ Neutral f :=
    fun f hf => hfields f (hmem f (List.mem_append_right pre hf))
  obtain ⟨hd₁, hfirst, hagrees, hclose₁⟩ := fields_neutral hpre hd
  obtain ⟨hd₂, hlast, hagrees', hclose₂⟩ := fields_neutral hpost (set hd₁)
  refine ⟨hd₂, ?_, hagrees'.trans (hset hagrees), fun hno => ?_⟩
  · rw [fields_append hfirst, Head.fields, List.foldlM_cons, hone]
    exact hlast
  · rw [hclose₂ fun f hf => hno f (hmem f (List.mem_append_right pre hf)), hclose,
      hclose₁ fun f hf => hno f (hmem f (List.mem_append_left post hf))]

end Blocks

end Luaw.Parsing
