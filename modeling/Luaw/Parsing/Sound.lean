import Luaw.Parsing.Execute

/-!
# What holds between two bytes

`Sound` is the invariant of a parser that has not failed. Under it no assertion of the `switch`
fails, no string is read past its end and no counter outgrows its field; and a byte starts, goes on
with or ends a field as its state says.
-/

namespace Luaw.Parsing

open Http

/-- The states that a header name may lead to, with the index into the word. -/
def HeaderState.InName (index : Nat) : HeaderState → Prop
  | .C => index = 0
  | .CO => index = 1
  | .CON => index = 2
  | .matchingConnection => index + 1 < (text "connection").length
  | .matchingProxyConnection => index + 1 < (text "proxy-connection").length
  | .matchingContentLength => index + 1 < (text "content-length").length
  | .matchingTransferEncoding => index + 1 < (text "transfer-encoding").length
  | .matchingUpgrade => index + 1 < (text "upgrade").length
  | .general | .connection | .contentLength | .transferEncoding | .upgrade => True
  | _ => False

/-- The states that a header value may lead to. -/
def HeaderState.InValue (index : Nat) : HeaderState → Prop
  | .matchingTransferEncodingChunked => index + 1 < (text "chunked").length
  | .matchingConnectionKeepAlive => index + 1 < (text "keep-alive").length
  | .matchingConnectionClose => index + 1 < (text "close").length
  | .general | .contentLength | .transferEncodingChunked | .connectionKeepAlive
  | .connectionClose => True
  | _ => False

/-- The states that take the body as a block. -/
def State.takesBody : State → Bool
  | .chunkData | .bodyIdentity | .bodyIdentityEof => true
  | _ => false

namespace Parser

/-- The parser has not failed, and the counters are small. -/
def Bounds (p : Parser) : Prop :=
  p.errno = .ok ∧ p.index ≤ 18 ∧ p.nread ≤ httpMaxHeaderSize ∧ p.contentLength ≤ ullongMax ∧
    p.httpMajor ≤ 999 ∧ p.httpMinor ≤ 999 ∧ p.statusCode ≤ 999

/-- What the state relies on, where `nread` bytes of the size of a chunk have been counted. -/
def Expects (nread : Nat) (p : Parser) : Prop :=
  match p.state with
  | .reqMethod => p.index ≤ p.method.str.length
  | .headerField => p.headerState.InName p.index
  | .headerValue => p.headerState.InValue p.index
  | .bodyIdentity => p.contentLength ≠ 0 ∧ p.contentLength < ullongMax
  | .chunkSizeStart => p.flags.chunked = true ∧ p.nread = nread
  | .chunkSize | .chunkParameters | .chunkSizeAlmostDone =>
    p.flags.chunked = true ∧ p.contentLength < ullongMax
  | .chunkData => p.flags.chunked = true ∧ p.contentLength ≠ 0 ∧ p.contentLength < ullongMax
  | .chunkDataAlmostDone => p.flags.chunked = true ∧ p.contentLength = 0
  | .chunkDataDone => p.flags.chunked = true
  | _ => True

def Ready (nread : Nat) (p : Parser) : Prop := p.Bounds ∧ p.Expects nread

/-- The invariant between two bytes. -/
def Sound (p : Parser) : Prop := p.Ready 0

end Parser

/-- What a byte may do in the state `s`. -/
def Action.Fits (s : State) : Action → Prop
  | .next q => q.Sound ∧ q.state.field = s.field ∧ s.takesBody = false
  | .mark f q => q.Sound ∧ s.field = none ∧ q.state.field = some f ∧ s.takesBody = false
  | .data f q => q.Sound ∧ q.state.field = none ∧ s.takesBody = false ∧
      (s.field = some f ∨ s = .chunkDataAlmostDone ∧ f = .body)
  | .markData _ q => q.Sound ∧ s.field = none ∧ q.state.field = none ∧ s.takesBody = false
  | .dataStay f q _ => q.Sound ∧ s.field = some f ∧ q.state = .headerAlmostDone
  | .notify _ q => q.Sound ∧ s.field = none ∧ q.state.field = none ∧ s.takesBody = false
  | .notifyStay n q =>
    q.Sound ∧ s.field = none ∧ q.state = .headersDone ∧ s.takesBody = false ∧ n = .headersComplete
  | .take _ q => q.Sound ∧ s.takesBody = true
  | .takeLast _ q => q.Sound ∧ s = .bodyIdentity
  | .error _ _ => True
  | .abort => False

theorem digit_le {ch : UInt8} (h : ch ≤ 57) : digit ch ≤ 9 := by
  have hnat : ch.toNat ≤ 57 := UInt8.le_iff_toNat_le.mp h
  rw [digit]
  omega

theorem isNum_iff {ch : UInt8} : isNum ch = true ↔ 48 ≤ ch ∧ ch ≤ 57 := by
  rw [isNum, Bool.and_eq_true, decide_eq_true_iff, decide_eq_true_iff]

theorem digit_le_of_isNum {ch : UInt8} (h : isNum ch = true) : digit ch ≤ 9 :=
  digit_le (isNum_iff.mp h).2

theorem unhex_le {ch : UInt8} {v : Nat} (h : unhex ch = some v) : v ≤ 15 := by
  rw [unhex] at h
  split_ifs at h with h₁ h₂ h₃ h₄
  · cases h
    exact Nat.zero_le 15
  · cases h
    have hnat : ch.toNat ≤ 57 := UInt8.le_iff_toNat_le.mp (isNum_iff.mp h₂).2
    omega
  · cases h
    have hnat : ch.toNat ≤ 70 := UInt8.le_iff_toNat_le.mp h₃.2
    omega
  · cases h
    have hnat : ch.toNat ≤ 102 := UInt8.le_iff_toNat_le.mp h₄.2
    omega

/-- A method that a letter leads to has at least as many letters as have been read. -/
theorem switch_length {m m' : Method} {index : Nat} {ch : UInt8}
    (h : m.switch index ch = some m') : index + 1 ≤ m'.str.length := by
  cases m <;> simp only [Method.switch, Option.ite_none_right_eq_some, reduceCtorEq] at h
  case put => obtain ⟨⟨rfl, -⟩, h⟩ := h; cases h; decide
  case unlock => obtain ⟨⟨rfl, -⟩, h⟩ := h; cases h; decide
  case propfind => obtain ⟨⟨rfl, -⟩, h⟩ := h; cases h; decide
  case subscribe => obtain ⟨⟨rfl, -⟩, h⟩ := h; cases h; decide
  case connect =>
    split_ifs at h with h₁ h₂
    · cases h; rw [h₁.1]; decide
    · cases h; rw [h₂.1]; decide
  case post =>
    split_ifs at h with h₁ h₂ h₃
    · cases h; rw [h₁.1]; decide
    · cases h; rw [h₂.1]; decide
    · cases h; rw [h₃.1]; decide
  case mkcol =>
    split_ifs at h with h₁ h₂ h₃ h₄
    · cases h; rw [h₁.1]; decide
    · cases h; rw [h₂.1]; decide
    · cases h; rw [h₃.1]; decide
    · cases h; rw [h₄.1]; decide

theorem Method.length_str_le (m : Method) : m.str.length ≤ 11 := by cases m <;> decide

theorem Method.length_str_pos (m : Method) : 1 ≤ m.str.length := by cases m <;> decide

theorem lt_length_of_charAt {s : Bytes} {index : Nat} {c : UInt8} (h : charAt s index = some c)
    (hc : c ≠ 0) : index + 1 ≤ s.length := by
  by_contra hlt
  have hle : s.length ≤ index := by omega
  rw [charAt, List.getElem?_append_right hle] at h
  have hlt := (List.getElem?_eq_some_iff.mp h).1
  have hzero : index - s.length = 0 := by
    simp only [List.length_cons, List.length_nil] at hlt
    omega
  rw [hzero] at h
  cases h
  exact hc rfl

theorem isSome_charAt {s : Bytes} {index : Nat} (h : index ≤ s.length) :
    ∃ c, charAt s index = some c :=
  ⟨_, List.getElem?_eq_getElem (by simpa using Nat.lt_succ_of_le h)⟩

/-- What the automaton for URLs says of the next state. -/
theorem parseUrlChar_field (s : State) (ch : UInt8) :
    parseUrlChar s ch = .dead ∨ (parseUrlChar s ch).field = some .url ∧
      ∀ (p : Parser) (nread : Nat), p.state = parseUrlChar s ch → p.Expects nread := by
  have hurl : ∀ t : State, t.field = some .url →
      t.field = some .url ∧ ∀ (p : Parser) (nread : Nat), p.state = t → p.Expects nread := by
    intro t ht
    refine ⟨ht, fun p nread hp => ?_⟩
    rw [Parser.Expects, hp]
    cases t <;> trivial
  unfold parseUrlChar
  split
  · exact .inl rfl
  split
  · exact .inl rfl
  split <;> (try split_ifs) <;> first | exact .inl rfl | exact .inr (hurl _ rfl)

theorem Parser.matchWord_eq (p : Parser) (word : Bytes) (matched : HeaderState) (c : UInt8) :
    ∃ hs, p.matchWord word matched c = { p with index := p.index + 1, headerState := hs } ∧
      (hs = .general ∨ hs = matched ∨ hs = p.headerState ∧
        (p.index + 1 < word.length → p.index + 1 + 1 < word.length)) := by
  unfold Parser.matchWord
  dsimp only
  split_ifs with h₁ h₂
  · exact ⟨_, rfl, .inl rfl⟩
  · exact ⟨_, rfl, .inr (.inl rfl)⟩
  · refine ⟨p.headerState, rfl, .inr (.inr ⟨rfl, fun h => ?_⟩)⟩
    omega

section Fits

variable {p : Parser} (hp : p.Bounds) (ch : UInt8)

include hp

theorem Parser.Bounds.index_le : p.index ≤ 18 := hp.2.1

/-- The state does not change, and it relies on nothing. -/
theorem Parser.Bounds.stay {s : State} (hs : p.state = s) (hstate : Parser.Expects 0 { p with state := s }) :
    p.Sound := ⟨hp, by subst hs; exact hstate⟩

theorem dead_fits (hs : p.state = .dead) : (dead p ch).Fits .dead := by
  unfold dead
  split
  · exact ⟨hp.stay hs trivial, by rw [hs], rfl⟩
  · trivial

theorem clear_bounds : p.clear.Bounds := by
  obtain ⟨herrno, hindex, hnread, -, hversions⟩ := hp
  exact ⟨herrno, hindex, hnread, le_rfl, hversions⟩

/-- A letter of a constant. -/
theorem expect_fits (c : UInt8) {s s' : State} (hs : s.field = none) (hs' : s'.field = none)
    (hbody : s.takesBody = false) (hexpects : Parser.Expects 0 { p with state := s' }) :
    (expect p ch c s').Fits s := by
  unfold expect
  split
  · trivial
  · exact ⟨⟨hp, hexpects⟩, hs'.trans hs.symm, hbody⟩

theorem resOrRespH_fits : (resOrRespH p ch).Fits .resOrRespH := by
  obtain ⟨herrno, hindex, hrest⟩ := hp
  unfold resOrRespH
  split_ifs
  · exact ⟨⟨⟨herrno, hindex, hrest⟩, trivial⟩, rfl, rfl⟩
  · trivial
  · exact ⟨⟨⟨herrno, Nat.le_add_left 2 16, hrest⟩, (by decide : 2 ≤ Method.head.str.length)⟩,
      rfl, rfl⟩

theorem startRes_fits (hs : p.state = .startRes) : (startRes p ch).Fits .startRes := by
  have hclear := clear_bounds hp
  have hstate : p.clear.state = .startRes := hs
  unfold startRes
  split_ifs
  · exact ⟨⟨hclear, trivial⟩, rfl, rfl, rfl⟩
  · exact ⟨hclear.stay hstate trivial, rfl, by rw [hstate]; rfl, rfl⟩
  · trivial

omit hp in
theorem firstVersionDigit_fits (low : UInt8) {q : Parser} {s : State}
    (hq : digit ch ≤ 9 → q.Sound) (hfield : q.state.field = s.field) (hbody : s.takesBody = false) :
    (firstVersionDigit p ch low q).Fits s := by
  unfold firstVersionDigit
  split
  · trivial
  · next h => exact ⟨hq (digit_le (UInt8.not_lt.mp fun hlt => h (.inr hlt))), hfield, hbody⟩

omit hp in
theorem versionDigit_fits {n : Nat} {q : Parser} {s : State} (hq : n ≤ 999 → q.Sound)
    (hfield : q.state.field = s.field) (hbody : s.takesBody = false) :
    (versionDigit p ch n q).Fits s := by
  unfold versionDigit
  split_ifs with h₁ h₂
  · trivial
  · trivial
  · exact ⟨hq (Nat.le_of_not_lt h₂), hfield, hbody⟩

theorem withMajor_bounds {n : Nat} (hn : n ≤ 999) : Parser.Bounds { p with httpMajor := n } := by
  obtain ⟨herrno, hindex, hnread, hlength, -, hrest⟩ := hp
  exact ⟨herrno, hindex, hnread, hlength, hn, hrest⟩

theorem withMinor_bounds {n : Nat} (hn : n ≤ 999) : Parser.Bounds { p with httpMinor := n } := by
  obtain ⟨herrno, hindex, hnread, hlength, hmajor, -, hstatus⟩ := hp
  exact ⟨herrno, hindex, hnread, hlength, hmajor, hn, hstatus⟩

theorem withStatus_bounds {n : Nat} (hn : n ≤ 999) : Parser.Bounds { p with statusCode := n } := by
  obtain ⟨herrno, hindex, hnread, hlength, hmajor, hminor, -⟩ := hp
  exact ⟨herrno, hindex, hnread, hlength, hmajor, hminor, hn⟩

theorem withIndex_bounds {n : Nat} (hn : n ≤ 18) : Parser.Bounds { p with index := n } := by
  obtain ⟨herrno, -, hrest⟩ := hp
  exact ⟨herrno, hn, hrest⟩

theorem withLength_bounds {n : Nat} (hn : n ≤ ullongMax) :
    Parser.Bounds { p with contentLength := n } := by
  obtain ⟨herrno, hindex, hnread, -, hrest⟩ := hp
  exact ⟨herrno, hindex, hnread, hn, hrest⟩

theorem unread_bounds : Parser.Bounds { p with nread := 0 } := by
  obtain ⟨herrno, hindex, -, hrest⟩ := hp
  exact ⟨herrno, hindex, Nat.zero_le _, hrest⟩

theorem resFirstHttpMajor_fits : (resFirstHttpMajor p ch).Fits .resFirstHttpMajor :=
  firstVersionDigit_fits ch 48 (fun h => ⟨withMajor_bounds hp (by omega), trivial⟩) rfl rfl

theorem resHttpMajor_fits (hs : p.state = .resHttpMajor) : (resHttpMajor p ch).Fits .resHttpMajor := by
  unfold resHttpMajor
  split
  · exact ⟨⟨hp, trivial⟩, rfl, rfl⟩
  · exact versionDigit_fits ch (fun h => (withMajor_bounds hp h).stay hs trivial) (by rw [hs]) rfl

theorem resFirstHttpMinor_fits : (resFirstHttpMinor p ch).Fits .resFirstHttpMinor :=
  firstVersionDigit_fits ch 48 (fun h => ⟨withMinor_bounds hp (by omega), trivial⟩) rfl rfl

theorem resHttpMinor_fits (hs : p.state = .resHttpMinor) : (resHttpMinor p ch).Fits .resHttpMinor := by
  unfold resHttpMinor
  split
  · exact ⟨⟨hp, trivial⟩, rfl, rfl⟩
  · exact versionDigit_fits ch (fun h => (withMinor_bounds hp h).stay hs trivial) (by rw [hs]) rfl

theorem resFirstStatusCode_fits (hs : p.state = .resFirstStatusCode) :
    (resFirstStatusCode p ch).Fits .resFirstStatusCode := by
  unfold resFirstStatusCode
  split_ifs with hnum hspace
  · exact ⟨hp.stay hs trivial, by rw [hs], rfl⟩
  · trivial
  · have hdigit := digit_le_of_isNum (by simpa using hnum)
    exact ⟨⟨withStatus_bounds hp (by omega), trivial⟩, rfl, rfl⟩

theorem resStatusCode_fits (hs : p.state = .resStatusCode) :
    (resStatusCode p ch).Fits .resStatusCode := by
  unfold resStatusCode
  dsimp only
  split_ifs with hnum _ _ _ hlarge
  · exact ⟨⟨hp, trivial⟩, rfl, rfl⟩
  · exact ⟨⟨hp, trivial⟩, rfl, rfl⟩
  · exact ⟨⟨hp, trivial⟩, rfl, rfl⟩
  · trivial
  · trivial
  · exact ⟨(withStatus_bounds hp (Nat.le_of_not_lt hlarge)).stay hs trivial, by rw [hs], rfl⟩

theorem resStatusStart_fits : (resStatusStart p ch).Fits .resStatusStart := by
  unfold resStatusStart
  split_ifs
  · exact ⟨⟨hp, trivial⟩, rfl, rfl⟩
  · exact ⟨⟨hp, trivial⟩, rfl, rfl⟩
  · exact ⟨⟨withIndex_bounds hp (Nat.zero_le 18), trivial⟩, rfl, rfl, rfl⟩

theorem resStatus_fits (hs : p.state = .resStatus) : (resStatus p ch).Fits .resStatus := by
  unfold resStatus
  split_ifs
  · exact ⟨⟨hp, trivial⟩, rfl, rfl, .inl rfl⟩
  · exact ⟨⟨hp, trivial⟩, rfl, rfl, .inl rfl⟩
  · exact ⟨hp.stay hs trivial, by rw [hs], rfl⟩

theorem startReq_fits {s : State} (hfield : s.field = none) (hbody : s.takesBody = false)
    (hstay : ch = CR ∨ ch = LF → p.Sound ∧ p.state = s) : (startReq p ch).Fits s := by
  have hclear := clear_bounds hp
  unfold startReq
  split_ifs with hline
  · obtain ⟨hsound, hs⟩ := hstay hline
    exact ⟨hsound, by rw [hs], hbody⟩
  · trivial
  · split
    · trivial
    · next m _ =>
      exact ⟨⟨withIndex_bounds hclear (by decide : 1 ≤ 18), m.length_str_pos⟩, hfield, rfl, hbody⟩

theorem startReqOrRes_fits (hs : p.state = .startReqOrRes) :
    (startReqOrRes p ch).Fits .startReqOrRes := by
  have hclear := clear_bounds hp
  unfold startReqOrRes
  split_ifs with hline
  · exact ⟨hp.stay hs trivial, by rw [hs], rfl⟩
  · exact ⟨⟨hclear, trivial⟩, rfl, rfl, rfl⟩
  · have hrequest : Parser.Bounds { p.clear with type := .request, state := .startReq } := hclear
    exact startReq_fits hrequest ch rfl rfl fun h => absurd h hline

theorem reqMethod_fits (hs : p.state = .reqMethod) (hindex : p.index ≤ p.method.str.length) :
    (reqMethod p ch).Fits .reqMethod := by
  have hstr := p.method.length_str_le
  obtain ⟨c, hc⟩ := isSome_charAt hindex
  unfold reqMethod
  rw [hc]
  dsimp only
  split_ifs with hzero hspace hletter
  · trivial
  · exact ⟨⟨withIndex_bounds hp (by omega), trivial⟩, rfl, rfl⟩
  · have hlt := lt_length_of_charAt hc (hletter ▸ hzero)
    refine ⟨⟨withIndex_bounds hp (by omega), ?_⟩, by rw [hs], rfl⟩
    rw [Parser.Expects, hs]
    exact hlt
  · split
    · next m hm =>
      have hlength := switch_length hm
      have hstr' := m.length_str_le
      refine ⟨⟨withIndex_bounds hp (by omega), ?_⟩, by rw [hs], rfl⟩
      rw [Parser.Expects, hs]
      exact hlength
    · trivial

theorem reqSpacesBeforeUrl_fits (hs : p.state = .reqSpacesBeforeUrl) :
    (reqSpacesBeforeUrl p ch).Fits .reqSpacesBeforeUrl := by
  unfold reqSpacesBeforeUrl
  dsimp only
  split_ifs with hspace hconnect hdead hdead
  · exact ⟨hp.stay hs trivial, by rw [hs], rfl⟩
  · trivial
  · obtain hbad | ⟨hurl, hexpects⟩ := parseUrlChar_field .reqServerStart ch
    · exact absurd hbad hdead
    · exact ⟨⟨hp, hexpects _ 0 rfl⟩, rfl, hurl, rfl⟩
  · trivial
  · obtain hbad | ⟨hurl, hexpects⟩ := parseUrlChar_field .reqSpacesBeforeUrl ch
    · exact absurd hbad hdead
    · exact ⟨⟨hp, hexpects _ 0 rfl⟩, rfl, hurl, rfl⟩

theorem urlChar_fits {s : State} (hfield : s.field = some .url) (hbody : s.takesBody = false) :
    (urlChar p ch).Fits s := by
  unfold urlChar
  dsimp only
  split_ifs with hdead
  · trivial
  · obtain hbad | ⟨hurl, hexpects⟩ := parseUrlChar_field p.state ch
    · exact absurd hbad hdead
    · exact ⟨⟨hp, hexpects _ 0 rfl⟩, hurl.trans hfield.symm, hbody⟩

theorem reqSchema_fits {s : State} (hfield : s.field = some .url) (hbody : s.takesBody = false) :
    (reqSchema p ch).Fits s := by
  unfold reqSchema
  split
  · trivial
  · exact urlChar_fits hp ch hfield hbody

theorem reqServer_fits {s : State} (hfield : s.field = some .url) (hbody : s.takesBody = false) :
    (reqServer p ch).Fits s := by
  have hold : ∀ s : State, Parser.Bounds { p with httpMajor := 0, httpMinor := 9, state := s } :=
    fun s => withMinor_bounds (withMajor_bounds hp (Nat.zero_le 999)) (Nat.le_add_left 9 990)
  unfold reqServer
  split_ifs
  · exact ⟨⟨hp, trivial⟩, rfl, hbody, .inl hfield⟩
  · exact ⟨⟨hold _, trivial⟩, rfl, hbody, .inl hfield⟩
  · exact ⟨⟨hold _, trivial⟩, rfl, hbody, .inl hfield⟩
  · exact urlChar_fits hp ch hfield hbody

theorem reqHttpStart_fits (hs : p.state = .reqHttpStart) :
    (reqHttpStart p ch).Fits .reqHttpStart := by
  unfold reqHttpStart
  split_ifs
  · exact ⟨⟨hp, trivial⟩, rfl, rfl⟩
  · exact ⟨hp.stay hs trivial, by rw [hs], rfl⟩
  · trivial

theorem reqFirstHttpMajor_fits : (reqFirstHttpMajor p ch).Fits .reqFirstHttpMajor :=
  firstVersionDigit_fits ch 49 (fun h => ⟨withMajor_bounds hp (by omega), trivial⟩) rfl rfl

theorem reqHttpMajor_fits (hs : p.state = .reqHttpMajor) : (reqHttpMajor p ch).Fits .reqHttpMajor := by
  unfold reqHttpMajor
  split
  · exact ⟨⟨hp, trivial⟩, rfl, rfl⟩
  · exact versionDigit_fits ch (fun h => (withMajor_bounds hp h).stay hs trivial) (by rw [hs]) rfl

theorem reqFirstHttpMinor_fits : (reqFirstHttpMinor p ch).Fits .reqFirstHttpMinor :=
  firstVersionDigit_fits ch 48 (fun h => ⟨withMinor_bounds hp (by omega), trivial⟩) rfl rfl

theorem reqHttpMinor_fits (hs : p.state = .reqHttpMinor) : (reqHttpMinor p ch).Fits .reqHttpMinor := by
  unfold reqHttpMinor
  split_ifs
  · exact ⟨⟨hp, trivial⟩, rfl, rfl⟩
  · exact ⟨⟨hp, trivial⟩, rfl, rfl⟩
  · exact versionDigit_fits ch (fun h => (withMinor_bounds hp h).stay hs trivial) (by rw [hs]) rfl

theorem reqLineAlmostDone_fits : (reqLineAlmostDone p ch).Fits .reqLineAlmostDone := by
  unfold reqLineAlmostDone
  split
  · trivial
  · exact ⟨⟨hp, trivial⟩, rfl, rfl⟩

omit hp in
/-- The state for a new message is in no field and relies on nothing. -/
theorem newMessage_quiet (p : Parser) :
    p.newMessage.field = none ∧ ∀ (q : Parser) (nread : Nat), q.state = p.newMessage → q.Expects nread := by
  unfold Parser.newMessage Parser.startState
  split_ifs <;> exact ⟨rfl, fun q nread hq => by rw [Parser.Expects, hq]; trivial⟩

/-- The end of a message. -/
theorem complete_fits {s : State} (hfield : s.field = none) (hbody : s.takesBody = false) (q : Parser) :
    (Action.notify .messageComplete { p with state := q.newMessage }).Fits s := by
  obtain ⟨hnew, hexpects⟩ := newMessage_quiet q
  exact ⟨⟨hp, hexpects _ 0 rfl⟩, hfield, hnew, hbody⟩

theorem headersAlmostDone_fits {s : State} (hfield : s.field = none) (hbody : s.takesBody = false) :
    (headersAlmostDone p ch).Fits s := by
  unfold headersAlmostDone
  split_ifs
  · trivial
  · exact complete_fits hp hfield hbody p
  · exact ⟨⟨hp, trivial⟩, hfield, rfl, hbody, rfl⟩

omit hp in
theorem ofFirst_inName (c : UInt8) : (HeaderState.ofFirst c).InName 0 := by
  unfold HeaderState.ofFirst
  split_ifs <;> first | rfl | trivial | (show 0 + 1 < _; decide)

theorem headerFieldStart_fits {s : State} (hfield : s.field = none) (hbody : s.takesBody = false)
    : (headerFieldStart p ch).Fits s := by
  unfold headerFieldStart
  split_ifs
  · exact ⟨⟨hp, trivial⟩, hfield.symm, hbody⟩
  · exact headersAlmostDone_fits (p := { p with state := .headersAlmostDone }) hp ch hfield hbody
  · trivial
  · exact ⟨⟨withIndex_bounds hp (Nat.zero_le 18), ofFirst_inName (token ch)⟩, hfield, rfl, hbody⟩

/-- The letter of a word leads to a state that the predicate allows, if it allows that the next one
is compared. -/
theorem matchWord_ready {Allowed : Nat → HeaderState → Prop} {word : Bytes} {matched : HeaderState}
    (c : UInt8) (hindex : p.index + 1 < word.length) (hword : word.length ≤ 18)
    (hgeneral : ∀ i, Allowed i .general) (hmatched : ∀ i, Allowed i matched)
    (hmatching : ∀ i, i + 1 < word.length → Allowed i p.headerState) :
    (p.matchWord word matched c).Bounds ∧ (p.matchWord word matched c).state = p.state ∧
      Allowed (p.matchWord word matched c).index (p.matchWord word matched c).headerState := by
  obtain ⟨hs, heq, hcases⟩ := p.matchWord_eq word matched c
  rw [heq]
  refine ⟨withIndex_bounds hp (by omega), rfl, ?_⟩
  obtain rfl | rfl | ⟨rfl, hmore⟩ := hcases
  · exact hgeneral _
  · exact hmatched _
  · exact hmatching _ (hmore hindex)

theorem matchName_fits {word : Bytes} {matched : HeaderState} (hs : p.state = .headerField)
    (c : UInt8) (hindex : p.index + 1 < word.length) (hword : word.length ≤ 18)
    (hmatched : ∀ i, matched.InName i)
    (hmatching : ∀ i, i + 1 < word.length → p.headerState.InName i) :
    (Action.next (p.matchWord word matched c)).Fits .headerField := by
  obtain ⟨hbounds, hstate, hallowed⟩ :=
    matchWord_ready hp c hindex hword (fun _ => trivial) hmatched hmatching
  rw [hs] at hstate
  refine ⟨⟨hbounds, ?_⟩, by rw [hstate], rfl⟩
  rw [Parser.Expects, hstate]
  exact hallowed

theorem matchValue_fits {word : Bytes} {matched : HeaderState} (hs : p.state = .headerValue)
    (c : UInt8) (hindex : p.index + 1 < word.length) (hword : word.length ≤ 18)
    (hmatched : ∀ i, matched.InValue i)
    (hmatching : ∀ i, i + 1 < word.length → p.headerState.InValue i) :
    (Action.next (p.matchWord word matched c)).Fits .headerValue := by
  obtain ⟨hbounds, hstate, hallowed⟩ :=
    matchWord_ready hp c hindex hword (fun _ => trivial) hmatched hmatching
  rw [hs] at hstate
  refine ⟨⟨hbounds, ?_⟩, by rw [hstate], rfl⟩
  rw [Parser.Expects, hstate]
  exact hallowed

theorem nameLetter_fits (hs : p.state = .headerField) (hname : p.headerState.InName p.index) :
    (nameLetter p ch).Fits .headerField := by
  have hstay : ∀ {hs' : HeaderState} {n : Nat}, n ≤ 18 → hs'.InName n →
      (Action.next { p with index := n, headerState := hs' }).Fits .headerField := by
    intro hs' n hn hallowed
    refine ⟨⟨withIndex_bounds hp hn, ?_⟩, by rw [hs], rfl⟩
    rw [Parser.Expects, hs]
    exact hallowed
  unfold nameLetter
  cases hstate : p.headerState <;> rw [hstate] at hname <;> dsimp only
  case general =>
    have hkeep := @hstay p.headerState p.index hp.index_le (by rw [hstate]; trivial)
    exact hkeep
  case C =>
    refine hstay (by rw [show p.index = 0 from hname]; decide) ?_
    rw [show p.index = 0 from hname]
    split
    · rfl
    · trivial
  case CO =>
    refine hstay (by rw [show p.index = 1 from hname]; decide) ?_
    rw [show p.index = 1 from hname]
    split
    · rfl
    · trivial
  case CON =>
    refine hstay (by rw [show p.index = 2 from hname]; decide) ?_
    rw [show p.index = 2 from hname]
    split_ifs
    · exact (by decide : 3 + 1 < (text "connection").length)
    · exact (by decide : 3 + 1 < (text "content-length").length)
    · trivial
  case matchingConnection =>
    exact matchName_fits hp hs _ hname (by decide) (fun _ => trivial) fun i h => by rwa [hstate]
  case matchingProxyConnection =>
    exact matchName_fits hp hs _ hname (by decide) (fun _ => trivial) fun i h => by rwa [hstate]
  case matchingContentLength =>
    exact matchName_fits hp hs _ hname (by decide) (fun _ => trivial) fun i h => by rwa [hstate]
  case matchingTransferEncoding =>
    exact matchName_fits hp hs _ hname (by decide) (fun _ => trivial) fun i h => by rwa [hstate]
  case matchingUpgrade =>
    exact matchName_fits hp hs _ hname (by decide) (fun _ => trivial) fun i h => by rwa [hstate]
  case connection | contentLength | transferEncoding | upgrade =>
    split
    · exact @hstay .general p.index hp.index_le trivial
    · exact @hstay p.headerState p.index hp.index_le (by rw [hstate]; trivial)
  all_goals exact hname

theorem headerField_fits (hs : p.state = .headerField) (hname : p.headerState.InName p.index) :
    (headerField p ch).Fits .headerField := by
  unfold headerField
  split_ifs
  · exact nameLetter_fits hp ch hs hname
  · exact ⟨⟨hp, trivial⟩, rfl, rfl, .inl rfl⟩
  · exact ⟨⟨hp, trivial⟩, rfl, rfl, .inl rfl⟩
  · exact ⟨⟨hp, trivial⟩, rfl, rfl, .inl rfl⟩
  · trivial

theorem firstValueLetter_fits (hs : p.state = .headerValue) (hindex : p.index = 0) :
    (firstValueLetter p ch).Fits .headerValueStart := by
  have hstart : ∀ {q : Parser}, q.Bounds → q.state = p.state → q.headerState.InValue q.index →
      (Action.mark .headerValue q).Fits .headerValueStart := by
    intro q hq hstate hallowed
    rw [hs] at hstate
    refine ⟨⟨hq, ?_⟩, rfl, by rw [hstate]; rfl, rfl⟩
    rw [Parser.Expects, hstate]
    exact hallowed
  unfold firstValueLetter
  dsimp only
  split
  · exact hstart hp rfl trivial
  · refine hstart hp rfl ?_
    dsimp only
    rw [hindex]
    split_ifs
    · exact (by decide : 0 + 1 < (text "chunked").length)
    · trivial
  · next hstate =>
    split_ifs with hnum
    · trivial
    · have hdigit := digit_le_of_isNum (by simpa using hnum)
      refine hstart (withLength_bounds hp (hdigit.trans (by decide))) rfl ?_
      dsimp only
      rw [hstate]
      trivial
  · refine hstart hp rfl ?_
    dsimp only
    rw [hindex]
    split_ifs
    · exact (by decide : 0 + 1 < (text "keep-alive").length)
    · exact (by decide : 0 + 1 < (text "close").length)
    · trivial
  · exact hstart hp rfl trivial

theorem headerValueStart_fits (hs : p.state = .headerValueStart) :
    (headerValueStart p ch).Fits .headerValueStart := by
  have hzero := withIndex_bounds hp (Nat.zero_le 18)
  unfold headerValueStart
  dsimp only
  split_ifs
  · exact ⟨hp.stay hs trivial, by rw [hs], rfl⟩
  · exact ⟨⟨hzero, trivial⟩, rfl, rfl, rfl⟩
  · exact ⟨⟨hzero, trivial⟩, rfl, rfl, rfl⟩
  · exact firstValueLetter_fits (p := { p with state := .headerValue, index := 0 }) hzero ch rfl rfl

theorem headerAlmostDone_fits : (headerAlmostDone p ch).Fits .headerAlmostDone := by
  unfold headerAlmostDone
  dsimp only
  split_ifs
  · trivial
  · split <;> exact ⟨⟨hp, trivial⟩, rfl, rfl⟩

theorem valueLetter_fits (hs : p.state = .headerValue) (hvalue : p.headerState.InValue p.index) :
    (valueLetter p ch).Fits .headerValue := by
  have hstay : ∀ {q : Parser}, q.Bounds → q.state = p.state → q.headerState.InValue q.index →
      (Action.next q).Fits .headerValue := by
    intro q hq hstate hallowed
    rw [hs] at hstate
    refine ⟨⟨hq, ?_⟩, by rw [hstate], rfl⟩
    rw [Parser.Expects, hstate]
    exact hallowed
  unfold valueLetter
  cases hstate : p.headerState <;> rw [hstate] at hvalue <;> dsimp only
  case general => exact hstay hp rfl (by rw [hstate]; trivial)
  case contentLength =>
    split_ifs with hspace hnum hlarge
    · exact hstay hp rfl (by rw [hstate]; trivial)
    · trivial
    · trivial
    · have hdigit := digit_le_of_isNum (by simpa using hnum)
      refine hstay (withLength_bounds hp ?_) rfl trivial
      simp only [ullongMax] at hlarge ⊢
      omega
  case matchingTransferEncodingChunked =>
    exact matchValue_fits hp hs _ hvalue (by decide) (fun _ => trivial) fun i h => by rwa [hstate]
  case matchingConnectionKeepAlive =>
    exact matchValue_fits hp hs _ hvalue (by decide) (fun _ => trivial) fun i h => by rwa [hstate]
  case matchingConnectionClose =>
    exact matchValue_fits hp hs _ hvalue (by decide) (fun _ => trivial) fun i h => by rwa [hstate]
  case transferEncodingChunked | connectionKeepAlive | connectionClose =>
    split
    · exact hstay hp rfl trivial
    · exact hstay hp rfl (by rw [hstate]; trivial)
  all_goals exact False.elim hvalue

theorem headerValue_fits (hs : p.state = .headerValue) (hvalue : p.headerState.InValue p.index) :
    (headerValue p ch).Fits .headerValue := by
  unfold headerValue
  dsimp only
  split_ifs
  · exact ⟨⟨hp, trivial⟩, rfl, rfl, .inl rfl⟩
  · exact ⟨⟨hp, trivial⟩, rfl, rfl⟩
  · exact valueLetter_fits hp ch hs hvalue

theorem headerValueLws_fits : (headerValueLws p ch).Fits .headerValueLws := by
  unfold headerValueLws
  split_ifs
  · exact ⟨⟨hp, trivial⟩, rfl, rfl⟩
  · exact headerFieldStart_fits (p := { p with state := .headerFieldStart }) hp ch rfl rfl

theorem headersDone_fits : (headersDone p ch).Fits .headersDone := by
  have hread := unread_bounds hp
  have hcomplete := fun q : Parser => complete_fits hread (rfl : State.headersDone.field = none) rfl q
  unfold headersDone
  dsimp only
  split_ifs with hch hupgrade hskip hchunked hzero hmax heof
  · trivial
  · exact hcomplete _
  · exact hcomplete _
  · exact ⟨⟨hread, hchunked, rfl⟩, rfl, rfl⟩
  · exact hcomplete _
  · have hlength : p.contentLength ≤ ullongMax := hp.2.2.2.1
    exact ⟨⟨hread, hzero, Nat.lt_of_le_of_ne hlength hmax⟩, rfl, rfl⟩
  · exact hcomplete _
  · exact ⟨⟨hread, trivial⟩, rfl, rfl⟩

theorem chunkSizeStart_fits (hchunked : p.flags.chunked = true) (hnread : p.nread = 1) :
    (chunkSizeStart p ch).Fits .chunkSizeStart := by
  unfold chunkSizeStart
  rw [if_neg (by simp [hnread, hchunked])]
  split
  · trivial
  · next v hv =>
    have hsmall : v < ullongMax := (Nat.lt_succ_of_le (unhex_le hv)).trans (by decide)
    exact ⟨⟨withLength_bounds hp hsmall.le, hchunked, hsmall⟩, rfl, rfl⟩

theorem chunkSize_fits (hs : p.state = .chunkSize) (hchunked : p.flags.chunked = true)
    (hlength : p.contentLength < ullongMax) : (chunkSize p ch).Fits .chunkSize := by
  unfold chunkSize
  rw [if_neg (by simp [hchunked])]
  split
  · exact ⟨⟨hp, hchunked, hlength⟩, rfl, rfl⟩
  · split
    · split_ifs
      · exact ⟨⟨hp, hchunked, hlength⟩, rfl, rfl⟩
      · trivial
    · next v hv =>
      split_ifs with hlarge
      · trivial
      · have hdigit := unhex_le hv
        have hsmall : p.contentLength * 16 + v < ullongMax := by
          simp only [ullongMax] at hlarge ⊢
          omega
        refine ⟨⟨withLength_bounds hp hsmall.le, ?_⟩, by rw [hs], rfl⟩
        rw [Parser.Expects, hs]
        exact ⟨hchunked, hsmall⟩

theorem chunkParameters_fits (hs : p.state = .chunkParameters) (hchunked : p.flags.chunked = true)
    (hlength : p.contentLength < ullongMax) : (chunkParameters p ch).Fits .chunkParameters := by
  unfold chunkParameters
  rw [if_neg (by simp [hchunked])]
  split_ifs
  · exact ⟨⟨hp, hchunked, hlength⟩, rfl, rfl⟩
  · exact ⟨hp.stay hs ⟨hchunked, hlength⟩, by rw [hs], rfl⟩

theorem chunkSizeAlmostDone_fits (hchunked : p.flags.chunked = true)
    (hlength : p.contentLength < ullongMax) :
    (chunkSizeAlmostDone p ch).Fits .chunkSizeAlmostDone := by
  unfold chunkSizeAlmostDone
  rw [if_neg (by simp [hchunked])]
  dsimp only
  split_ifs with hch hzero
  · trivial
  · exact ⟨⟨unread_bounds hp, trivial⟩, rfl, rfl⟩
  · exact ⟨⟨unread_bounds hp, hchunked, hzero, hlength⟩, rfl, rfl⟩

theorem chunkDataAlmostDone_fits (hchunked : p.flags.chunked = true) (hlength : p.contentLength = 0) :
    (chunkDataAlmostDone p ch).Fits .chunkDataAlmostDone := by
  unfold chunkDataAlmostDone
  rw [if_neg (by simp [hchunked, hlength])]
  split_ifs
  · trivial
  · exact ⟨⟨hp, hchunked⟩, rfl, rfl, .inr ⟨rfl, rfl⟩⟩

theorem chunkDataDone_fits (hchunked : p.flags.chunked = true) :
    (chunkDataDone p ch).Fits .chunkDataDone := by
  unfold chunkDataDone
  rw [if_neg (by simp [hchunked])]
  split_ifs
  · trivial
  · exact ⟨⟨unread_bounds hp, hchunked, rfl⟩, rfl, rfl⟩

omit ch in
/-- What is left of the length is one that the parser can go on with. -/
theorem chunkData_fits (hs : p.state = .chunkData) (hchunked : p.flags.chunked = true)
    (hzero : p.contentLength ≠ 0) (hlength : p.contentLength < ullongMax) (remaining : Nat) :
    (chunkData p remaining).Fits .chunkData := by
  unfold chunkData
  dsimp only
  rw [if_neg (by simp [hchunked, hzero, hlength.ne])]
  have hle : p.contentLength - min p.contentLength remaining ≤ p.contentLength := Nat.sub_le _ _
  split_ifs with hend
  · exact ⟨⟨withLength_bounds hp (hle.trans hlength.le), hchunked, hend⟩, rfl⟩
  · refine ⟨⟨withLength_bounds hp (hle.trans hlength.le), ?_⟩, rfl⟩
    rw [Parser.Expects, hs]
    exact ⟨hchunked, hend, hle.trans_lt hlength⟩

omit ch in
theorem bodyIdentity_fits (hs : p.state = .bodyIdentity) (hzero : p.contentLength ≠ 0)
    (hlength : p.contentLength < ullongMax) (remaining : Nat) :
    (bodyIdentity p remaining).Fits .bodyIdentity := by
  unfold bodyIdentity
  dsimp only
  rw [if_neg (by simp [hzero, hlength.ne])]
  have hle : p.contentLength - min p.contentLength remaining ≤ p.contentLength := Nat.sub_le _ _
  split_ifs with hend
  · exact ⟨⟨withLength_bounds hp (hle.trans hlength.le), trivial⟩, rfl⟩
  · refine ⟨⟨withLength_bounds hp (hle.trans hlength.le), ?_⟩, rfl⟩
    rw [Parser.Expects, hs]
    exact ⟨hend, hle.trans_lt hlength⟩

end Fits

/-- What a byte can do, when the byte has been counted. -/
theorem byte_fits {p : Parser} (h : p.Ready 1) (ch : UInt8) (remaining : Nat) :
    (byte p ch remaining).Fits p.state := by
  obtain ⟨hp, hexpects⟩ := h
  unfold byte
  unfold Parser.Expects at hexpects
  cases hs : p.state <;> rw [hs] at hexpects <;> dsimp only
  case dead => exact dead_fits hp ch hs
  case startReqOrRes => exact startReqOrRes_fits hp ch hs
  case resOrRespH => exact resOrRespH_fits hp ch
  case startRes => exact startRes_fits hp ch hs
  case resH => exact expect_fits hp ch 84 rfl rfl rfl trivial
  case resHT => exact expect_fits hp ch 84 rfl rfl rfl trivial
  case resHTT => exact expect_fits hp ch 80 rfl rfl rfl trivial
  case resHTTP => exact expect_fits hp ch 47 rfl rfl rfl trivial
  case resFirstHttpMajor => exact resFirstHttpMajor_fits hp ch
  case resHttpMajor => exact resHttpMajor_fits hp ch hs
  case resFirstHttpMinor => exact resFirstHttpMinor_fits hp ch
  case resHttpMinor => exact resHttpMinor_fits hp ch hs
  case resFirstStatusCode => exact resFirstStatusCode_fits hp ch hs
  case resStatusCode => exact resStatusCode_fits hp ch hs
  case resStatusStart => exact resStatusStart_fits hp ch
  case resStatus => exact resStatus_fits hp ch hs
  case resLineAlmostDone => exact expect_fits hp ch LF rfl rfl rfl trivial
  case startReq =>
    exact startReq_fits hp ch rfl rfl fun _ => ⟨hp.stay hs trivial, hs⟩
  case reqMethod => exact reqMethod_fits hp ch hs hexpects
  case reqSpacesBeforeUrl => exact reqSpacesBeforeUrl_fits hp ch hs
  case reqSchema | reqSchemaSlash | reqSchemaSlashSlash | reqServerStart =>
    exact reqSchema_fits hp ch rfl rfl
  case reqServer | reqServerWithAt | reqPath | reqQueryStringStart | reqQueryString
      | reqFragmentStart | reqFragment =>
    exact reqServer_fits hp ch rfl rfl
  case reqHttpStart => exact reqHttpStart_fits hp ch hs
  case reqHttpH => exact expect_fits hp ch 84 rfl rfl rfl trivial
  case reqHttpHT => exact expect_fits hp ch 84 rfl rfl rfl trivial
  case reqHttpHTT => exact expect_fits hp ch 80 rfl rfl rfl trivial
  case reqHttpHTTP => exact expect_fits hp ch 47 rfl rfl rfl trivial
  case reqFirstHttpMajor => exact reqFirstHttpMajor_fits hp ch
  case reqHttpMajor => exact reqHttpMajor_fits hp ch hs
  case reqFirstHttpMinor => exact reqFirstHttpMinor_fits hp ch
  case reqHttpMinor => exact reqHttpMinor_fits hp ch hs
  case reqLineAlmostDone => exact reqLineAlmostDone_fits hp ch
  case headerFieldStart => exact headerFieldStart_fits hp ch rfl rfl
  case headerField => exact headerField_fits hp ch hs hexpects
  case headerValueStart => exact headerValueStart_fits hp ch hs
  case headerValue => exact headerValue_fits hp ch hs hexpects
  case headerValueLws => exact headerValueLws_fits hp ch
  case headerAlmostDone => exact headerAlmostDone_fits hp ch
  case chunkSizeStart => exact chunkSizeStart_fits hp ch hexpects.1 hexpects.2
  case chunkSize => exact chunkSize_fits hp ch hs hexpects.1 hexpects.2
  case chunkParameters => exact chunkParameters_fits hp ch hs hexpects.1 hexpects.2
  case chunkSizeAlmostDone => exact chunkSizeAlmostDone_fits hp ch hexpects.1 hexpects.2
  case headersAlmostDone => exact headersAlmostDone_fits hp ch rfl rfl
  case headersDone => exact headersDone_fits hp ch
  case chunkData => exact chunkData_fits hp hs hexpects.1 hexpects.2.1 hexpects.2.2 remaining
  case chunkDataAlmostDone => exact chunkDataAlmostDone_fits hp ch hexpects.1 hexpects.2
  case chunkDataDone => exact chunkDataDone_fits hp ch hexpects
  case bodyIdentity => exact bodyIdentity_fits hp hs hexpects.1 hexpects.2 remaining
  case bodyIdentityEof => exact ⟨hp.stay hs trivial, rfl⟩
  case messageDone => exact complete_fits hp rfl rfl p

end Luaw.Parsing
