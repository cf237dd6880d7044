import Luaw.Parsing.Sound
import Mathlib.Tactic.IntervalCases

/-!
# The words that the parser knows

The methods, five header names and three header values. While one of them is being read, `index`
and the method or `header_state` say how much of which word has been matched: here that is a
statement on the bytes that have come.
-/

namespace Luaw.Parsing

open Http Lua

section Methods

/-- A letter of a method: the method and the index after it, or nothing when it is no letter of a
method. -/
def methodLetter (m : Method) (index : Nat) (ch : UInt8) : Option (Method × Nat) :=
  if ch = 0 ∨ ch = 32 then none
  else
    match charAt m.str index with
    | none => none
    | some c =>
      if ch = c then some (m, index + 1) else (m.switch index ch).map fun m' => (m', index + 1)

theorem reqMethod_letter {p : Parser} {ch : UInt8} {m : Method} {index : Nat}
    (h : methodLetter p.method p.index ch = some (m, index)) :
    reqMethod p ch = .next { p with method := m, index := index } := by
  unfold methodLetter at h
  unfold reqMethod
  split at h
  · cases h
  · next hplain =>
    rw [not_or] at hplain
    rw [if_neg hplain.1]
    cases hc : charAt p.method.str p.index with
    | none =>
      rw [hc] at h
      cases h
    | some c =>
      rw [hc] at h
      dsimp only at h ⊢
      rw [if_neg fun hend => hplain.2 hend.1]
      split at h
      · next hch =>
        cases h
        rw [if_pos hch]
      · next hch =>
        rw [if_neg hch]
        obtain ⟨m', hswitch, heq⟩ := Option.map_eq_some_iff.mp h
        cases heq
        rw [hswitch]

theorem ofFirst_alpha {ch : UInt8} {m : Method} (h : Method.ofFirst ch = some m) :
    ¬(ch = CR ∨ ch = LF) ∧ isAlpha ch = true := by
  unfold Method.ofFirst at h
  iterate 13
    obtain ⟨rfl, h⟩ | ⟨-, h⟩ := ite_eq_iff.mp h
    · decide
  cases h

/-- What is left of a method after some of its letters is read to its end. -/
def methodLetters : Method × Nat → Bytes → Option (Method × Nat)
  | mi, [] => some mi
  | (m, index), ch :: rest => (methodLetter m index ch).bind fun mi => methodLetters mi rest

theorem methodLetters_str (m : Method) :
    ∃ first rest m₀, m.str = first :: rest ∧ Method.ofFirst first = some m₀ ∧
      methodLetters (m₀, 1) rest = some (m, m.str.length) := by
  cases m <;> exact ⟨_, _, _, rfl, rfl, by decide⟩

end Methods

section Words

/-- The part of a word that has been matched. -/
def Matching (word w : Bytes) (index : Nat) : Prop :=
  w = word.take (index + 1) ∧ index + 1 < word.length

theorem charAt_lt {word : Bytes} {index : Nat} (h : index < word.length) :
    charAt word index = word[index]? := List.getElem?_append_left h

/-- A further letter of a word. -/
theorem matchWord_matching {p : Parser} {word w : Bytes} (matched : HeaderState) (c : UInt8)
    (h : Matching word w p.index) :
    ∃ hs, p.matchWord word matched c = { p with index := p.index + 1, headerState := hs } ∧
      (hs = .general ∧ word[w.length]? ≠ some c ∨ hs = matched ∧ w ++ [c] = word ∨
        hs = p.headerState ∧ Matching word (w ++ [c]) (p.index + 1)) := by
  obtain ⟨rfl, hlt⟩ := h
  have hlength : (word.take (p.index + 1)).length = p.index + 1 := List.length_take_of_le hlt.le
  have htake : word[p.index + 1]? = some c →
      word.take (p.index + 1) ++ [c] = word.take (p.index + 1 + 1) := by
    intro hc
    rw [List.take_add_one (i := p.index + 1), hc]
    rfl
  unfold Parser.matchWord
  dsimp only
  rw [charAt_lt hlt, hlength]
  split_ifs with hout hend
  · exact ⟨_, rfl, .inl ⟨rfl, hout.resolve_left (by omega)⟩⟩
  · have hc : word[p.index + 1]? = some c := Classical.not_not.mp fun hne => hout (.inr hne)
    refine ⟨_, rfl, .inr (.inl ⟨rfl, ?_⟩)⟩
    rw [htake hc, hend, List.take_length]
  · have hc : word[p.index + 1]? = some c := Classical.not_not.mp fun hne => hout (.inr hne)
    exact ⟨_, rfl, .inr (.inr ⟨rfl, htake hc, by omega⟩)⟩

end Words

section Names

/-- The header names that the parser knows, in lower case, and the states that they lead to. -/
def knownNames : List (Bytes × HeaderState) :=
  [(text "connection", .connection), (text "proxy-connection", .connection),
    (text "content-length", .contentLength), (text "transfer-encoding", .transferEncoding),
    (text "upgrade", .upgrade)]

/-- The state that a header name leads to. -/
def HeaderState.ofName (name : Bytes) : HeaderState :=
  (knownNames.lookup (name.map token)).getD .general

/-- No name that the parser knows starts with `w`. -/
def Unknown (w : Bytes) : Prop := ∀ n ∈ knownNames, ¬w <+: n.1

theorem Unknown.append {w : Bytes} (h : Unknown w) (c : UInt8) : Unknown (w ++ [c]) :=
  fun n hn hprefix => h n hn ((List.prefix_append w [c]).trans hprefix)

theorem unknown_append {w : Bytes} {c : UInt8}
    (h : ∀ n ∈ knownNames, w <+: n.1 → n.1[w.length]? ≠ some c) : Unknown (w ++ [c]) := by
  intro n hn hprefix
  refine h n hn ((List.prefix_append w [c]).trans hprefix) ?_
  obtain ⟨rest, hrest⟩ := hprefix
  rw [← hrest, List.append_assoc, List.getElem?_append_right le_rfl, Nat.sub_self]
  rfl

/-- `w` is what has come of a header name, in lower case. -/
def HeaderState.Spells (w : Bytes) (index : Nat) : HeaderState → Prop
  | .general => Unknown w
  | .C => w = text "c" ∧ index = 0
  | .CO => w = text "co" ∧ index = 1
  | .CON => w = text "con" ∧ index = 2
  | .matchingConnection => 3 ≤ index ∧ Matching (text "connection") w index
  | .matchingProxyConnection => Matching (text "proxy-connection") w index
  | .matchingContentLength => 3 ≤ index ∧ Matching (text "content-length") w index
  | .matchingTransferEncoding => Matching (text "transfer-encoding") w index
  | .matchingUpgrade => Matching (text "upgrade") w index
  | .connection => w = text "connection" ∨ w = text "proxy-connection"
  | .contentLength => w = text "content-length"
  | .transferEncoding => w = text "transfer-encoding"
  | .upgrade => w = text "upgrade"
  | _ => False

theorem ofFirst_spells (c : UInt8) : (HeaderState.ofFirst c).Spells [c] 0 := by
  unfold HeaderState.ofFirst
  split_ifs with hc hp ht hu
  · exact ⟨by rw [hc]; rfl, rfl⟩
  · exact ⟨by rw [hp]; rfl, by decide⟩
  · exact ⟨by rw [ht]; rfl, by decide⟩
  · exact ⟨by rw [hu]; rfl, by decide⟩
  · have hfirst : ∀ n ∈ knownNames, n.1[0]? = some 99 ∨ n.1[0]? = some 112 ∨ n.1[0]? = some 116 ∨
        n.1[0]? = some 117 := by decide
    refine unknown_append (w := []) fun n hn _ heq => ?_
    obtain h | h | h | h := hfirst n hn <;> cases h.symm.trans heq <;> contradiction

/-- A letter of a known name that no other one shares the letters before it with. -/
theorem matchName_spells {p : Parser} {word w : Bytes} {matched : HeaderState} {c : UInt8}
    (h : Matching word w p.index) (honly : ∀ n ∈ knownNames, w <+: n.1 → n.1 = word)
    (hmatched : matched.Spells word (p.index + 1))
    (hmatching : Matching word (w ++ [c]) (p.index + 1) →
      p.headerState.Spells (w ++ [c]) (p.index + 1)) :
    ∃ hs, p.matchWord word matched c = { p with index := p.index + 1, headerState := hs } ∧
      hs.Spells (w ++ [c]) (p.index + 1) := by
  obtain ⟨hs, heq, ⟨rfl, hne⟩ | ⟨rfl, hend⟩ | ⟨rfl, hmore⟩⟩ := matchWord_matching _ c h
  · refine ⟨_, heq, unknown_append fun n hn hprefix => ?_⟩
    rwa [honly n hn hprefix]
  · exact ⟨_, heq, by rwa [hend]⟩
  · exact ⟨_, heq, hmatching hmore⟩

theorem Matching.only {word w : Bytes} {index low : Nat} (h : Matching word w index)
    (hlow : low ≤ index) (hword : ∀ i < word.length, low ≤ i → ∀ n ∈ knownNames,
      word.take (i + 1) <+: n.1 → n.1 = word) :
    ∀ n ∈ knownNames, w <+: n.1 → n.1 = word := by
  rw [h.1]
  exact hword index (by have := h.2; omega) hlow

/-- A letter of a header name. -/
theorem nameLetter_spells {p : Parser} {ch : UInt8} {w : Bytes}
    (h : p.headerState.Spells w p.index) (hch : token ch ≠ 0) :
    ∃ index hs, nameLetter p ch = .next { p with index := index, headerState := hs } ∧
      hs.Spells (w ++ [token ch]) index := by
  have hspace : ch ≠ 32 := by
    rintro rfl
    exact hch (by decide)
  have hmatch : ∀ {word : Bytes} {matched : HeaderState},
      (∃ hs, p.matchWord word matched (token ch) =
        { p with index := p.index + 1, headerState := hs } ∧
        hs.Spells (w ++ [token ch]) (p.index + 1)) →
      ∃ index hs, Action.next (p.matchWord word matched (token ch)) =
        .next { p with index := index, headerState := hs } ∧
        hs.Spells (w ++ [token ch]) index := by
    rintro word matched ⟨hs, heq, hspells⟩
    exact ⟨_, hs, congrArg _ heq, hspells⟩
  -- after a known name any letter leads to one that is not known
  have hlonger : (∀ n ∈ knownNames, w <+: n.1 → n.1[w.length]? = none) →
      ∃ index hs, Action.next (if ch ≠ 32 then { p with headerState := .general } else p) =
        .next { p with index := index, headerState := hs } ∧
        hs.Spells (w ++ [token ch]) index := by
    intro hlast
    rw [if_pos hspace]
    exact ⟨p.index, .general, rfl, unknown_append fun n hn hprefix heq => by
      rw [hlast n hn hprefix] at heq; cases heq⟩
  unfold nameLetter
  cases hstate : p.headerState <;> rw [hstate] at h <;> dsimp only
  case general => exact ⟨p.index, .general, by rw [← hstate], h.append (token ch)⟩
  case C =>
    obtain ⟨rfl, hindex⟩ := h
    refine ⟨_, _, rfl, ?_⟩
    rw [hindex]
    split
    · next hc => exact ⟨by rw [hc]; rfl, rfl⟩
    · next hc =>
      have hnext : ∀ n ∈ knownNames, text "c" <+: n.1 → n.1[1]? = some 111 := by decide
      exact unknown_append fun n hn hprefix heq =>
        hc (Option.some.inj (heq.symm.trans (hnext n hn hprefix)))
  case CO =>
    obtain ⟨rfl, hindex⟩ := h
    refine ⟨_, _, rfl, ?_⟩
    rw [hindex]
    split
    · next hc => exact ⟨by rw [hc]; rfl, rfl⟩
    · next hc =>
      have hnext : ∀ n ∈ knownNames, text "co" <+: n.1 → n.1[2]? = some 110 := by decide
      exact unknown_append fun n hn hprefix heq =>
        hc (Option.some.inj (heq.symm.trans (hnext n hn hprefix)))
  case CON =>
    obtain ⟨rfl, hindex⟩ := h
    refine ⟨_, _, rfl, ?_⟩
    rw [hindex]
    split_ifs with hn ht
    · exact ⟨le_rfl, by rw [hn]; rfl, by decide⟩
    · exact ⟨le_rfl, by rw [ht]; rfl, by decide⟩
    · have hnext : ∀ n ∈ knownNames, text "con" <+: n.1 →
          n.1[3]? = some 110 ∨ n.1[3]? = some 116 := by decide
      refine unknown_append fun n hmem hprefix heq => ?_
      obtain hs | hs := hnext n hmem hprefix
      · exact hn (Option.some.inj (heq.symm.trans hs))
      · exact ht (Option.some.inj (heq.symm.trans hs))
  case matchingConnection =>
    exact hmatch (matchName_spells h.2 (h.2.only h.1 (by decide)) (.inl rfl) fun hmore => by
      rw [hstate]; exact ⟨Nat.le_succ_of_le h.1, hmore⟩)
  case matchingProxyConnection =>
    exact hmatch (matchName_spells h (h.only (Nat.zero_le _) (by decide)) (.inr rfl) fun hmore => by
      rw [hstate]; exact hmore)
  case matchingContentLength =>
    exact hmatch (matchName_spells h.2 (h.2.only h.1 (by decide)) rfl fun hmore => by
      rw [hstate]; exact ⟨Nat.le_succ_of_le h.1, hmore⟩)
  case matchingTransferEncoding =>
    exact hmatch (matchName_spells h (h.only (Nat.zero_le _) (by decide)) rfl fun hmore => by
      rw [hstate]; exact hmore)
  case matchingUpgrade =>
    exact hmatch (matchName_spells h (h.only (Nat.zero_le _) (by decide)) rfl fun hmore => by
      rw [hstate]; exact hmore)
  case connection =>
    obtain rfl | rfl := h
    · exact hlonger (by decide)
    · exact hlonger (by decide)
  case contentLength => subst h; exact hlonger (by decide)
  case transferEncoding => subst h; exact hlonger (by decide)
  case upgrade => subst h; exact hlonger (by decide)
  all_goals exact h.elim

/-- The name as far as the value is concerned. -/
def HeaderState.known : HeaderState → HeaderState
  | .connection => .connection
  | .contentLength => .contentLength
  | .transferEncoding => .transferEncoding
  | .upgrade => .upgrade
  | _ => .general

theorem Unknown.lookup {w : Bytes} (h : Unknown w) : knownNames.lookup w = none := by
  rw [List.lookup_eq_none_iff]
  intro n hn
  rw [bne_iff_ne]
  rintro rfl
  exact h n hn List.prefix_rfl

/-- At the end of a name its state is the one of the name. -/
theorem HeaderState.Spells.known_eq {w : Bytes} {index : Nat} {hs : HeaderState}
    (h : hs.Spells w index) : hs.known = (knownNames.lookup w).getD .general := by
  have hshort : ∀ {word : Bytes}, Matching word w index →
      (∀ i < word.length - 1, knownNames.lookup (word.take (i + 1)) = none) →
      HeaderState.general = (knownNames.lookup w).getD .general := by
    rintro word ⟨rfl, hlt⟩ hnone
    rw [hnone index (by omega)]
    rfl
  cases hs
  case general => rw [h.lookup]; rfl
  case C => rw [h.1]; rfl
  case CO => rw [h.1]; rfl
  case CON => rw [h.1]; rfl
  case matchingConnection => exact hshort h.2 (by decide)
  case matchingProxyConnection => exact hshort h (by decide)
  case matchingContentLength => exact hshort h.2 (by decide)
  case matchingTransferEncoding => exact hshort h (by decide)
  case matchingUpgrade => exact hshort h (by decide)
  case connection =>
    obtain rfl | rfl := h <;> rfl
  case contentLength => subst h; rfl
  case transferEncoding => subst h; rfl
  case upgrade => subst h; rfl
  all_goals exact h.elim

end Names

section Values

/-- The value is the word in any case, and maybe spaces. -/
def isWord (word v : Bytes) : Bool :=
  (v.take word.length).map lower = word && (v.drop word.length).all (· = 32)

theorem isWord_iff {word v : Bytes} :
    isWord word v = true ↔ (v.take word.length).map lower = word ∧ ∀ c ∈ v.drop word.length, c = 32 := by
  rw [isWord, Bool.and_eq_true, decide_eq_true_iff, List.all_eq_true]
  simp only [decide_eq_true_iff]

theorem length_le_of_isWord {word v : Bytes} (h : isWord word v = true) : word.length ≤ v.length := by
  have hlength := congrArg List.length (isWord_iff.mp h).1
  rw [List.length_map, List.length_take] at hlength
  omega

/-- However the value goes on, it is not the word. -/
def Hopeless (word v : Bytes) : Prop := ∀ rest, isWord word (v ++ rest) = false

theorem Hopeless.append {word v : Bytes} (h : Hopeless word v) (ch : UInt8) :
    Hopeless word (v ++ [ch]) := fun rest => by rw [List.append_assoc]; exact h _

theorem Hopeless.not_isWord {word v : Bytes} (h : Hopeless word v) : isWord word v = false := by
  have hnil := h []
  rwa [List.append_nil] at hnil

theorem hopeless_of_ne {word v : Bytes} {ch : UInt8} (hlt : v.length < word.length)
    (hne : word[v.length]? ≠ some (lower ch)) : Hopeless word (v ++ [ch]) := by
  intro rest
  rw [Bool.eq_false_iff]
  intro h
  have hget := congrArg (fun l : Bytes => l[v.length]?) (isWord_iff.mp h).1
  rw [List.getElem?_map, List.getElem?_take_of_lt hlt, List.append_assoc,
    List.getElem?_append_right le_rfl, Nat.sub_self] at hget
  exact hne hget.symm

theorem hopeless_of_isWord {word v : Bytes} {ch : UInt8} (h : isWord word v = true) (hch : ch ≠ 32) :
    Hopeless word (v ++ [ch]) := by
  intro rest
  rw [Bool.eq_false_iff]
  intro hlonger
  refine hch ((isWord_iff.mp hlonger).2 ch ?_)
  rw [List.append_assoc, List.drop_append_of_le_length (length_le_of_isWord h)]
  simp

theorem isWord_space {word v : Bytes} (h : isWord word v = true) : isWord word (v ++ [32]) = true := by
  have hle := length_le_of_isWord h
  rw [isWord_iff] at h ⊢
  rw [List.take_append_of_le_length hle, List.drop_append_of_le_length hle]
  refine ⟨h.1, fun c hc => ?_⟩
  obtain hc | hc := List.mem_append.mp hc
  · exact h.2 c hc
  · exact List.mem_singleton.mp hc

theorem isWord_of_eq {word v : Bytes} (h : v.map lower = word) : isWord word v = true := by
  have hlength : word.length = v.length := by rw [← h, List.length_map]
  rw [isWord_iff, hlength, List.take_length, List.drop_length]
  exact ⟨h, fun c hc => by cases hc⟩

theorem Matching.length {word v : Bytes} {index : Nat} (h : Matching word (v.map lower) index) :
    v.length = index + 1 := by
  rw [← List.length_map lower, h.1, List.length_take_of_le h.2.le]

theorem Matching.not_isWord {word v : Bytes} {index : Nat} (h : Matching word (v.map lower) index) :
    isWord word v = false := by
  rw [Bool.eq_false_iff]
  intro hword
  have hle := length_le_of_isWord hword
  rw [h.length] at hle
  exact absurd h.2 (Nat.not_lt.mpr hle)

/-- `v` is what has come of the value of a header with the name that leads to the state `name`. -/
def HeaderState.Means (name : HeaderState) (v : Bytes) (index : Nat) : HeaderState → Prop
  | .general => name ≠ .contentLength ∧
      (name = .transferEncoding → Hopeless (text "chunked") v) ∧
      (name = .connection → Hopeless (text "keep-alive") v ∧ Hopeless (text "close") v)
  | .contentLength => name = .contentLength
  | .matchingTransferEncodingChunked =>
    name = .transferEncoding ∧ Matching (text "chunked") (v.map lower) index
  | .transferEncodingChunked => name = .transferEncoding ∧ isWord (text "chunked") v = true
  | .matchingConnectionKeepAlive => name = .connection ∧
      Matching (text "keep-alive") (v.map lower) index ∧ Hopeless (text "close") v
  | .connectionKeepAlive =>
    name = .connection ∧ isWord (text "keep-alive") v = true ∧ Hopeless (text "close") v
  | .matchingConnectionClose => name = .connection ∧
      Matching (text "close") (v.map lower) index ∧ Hopeless (text "keep-alive") v
  | .connectionClose =>
    name = .connection ∧ isWord (text "close") v = true ∧ Hopeless (text "keep-alive") v
  | _ => False

/-- What a value of a header says, in the state that the end of its line looks at. -/
def HeaderState.ofValue (name : HeaderState) (v : Bytes) : HeaderState :=
  match name with
  | .transferEncoding => if isWord (text "chunked") v then .transferEncodingChunked else .general
  | .connection =>
    if isWord (text "keep-alive") v then .connectionKeepAlive
    else if isWord (text "close") v then .connectionClose
    else .general
  | _ => .general

/-- The state as far as the end of the line is concerned. -/
def HeaderState.told : HeaderState → HeaderState
  | .transferEncodingChunked => .transferEncodingChunked
  | .connectionKeepAlive => .connectionKeepAlive
  | .connectionClose => .connectionClose
  | _ => .general

/-- At the end of a value its state is the one of the value. -/
theorem HeaderState.Means.told_eq {name hs : HeaderState} {v : Bytes} {index : Nat}
    (h : name.Means v index hs) : hs.told = name.ofValue v := by
  cases hs
  case general =>
    obtain ⟨-, hchunked, hconnection⟩ := h
    cases name
    case transferEncoding => simp [told, ofValue, (hchunked rfl).not_isWord]
    case connection =>
      simp [told, ofValue, (hconnection rfl).1.not_isWord, (hconnection rfl).2.not_isWord]
    all_goals rfl
  case contentLength => rw [show name = .contentLength from h]; rfl
  case matchingTransferEncodingChunked =>
    obtain ⟨rfl, hmatching⟩ := h
    simp [told, ofValue, hmatching.not_isWord]
  case transferEncodingChunked =>
    obtain ⟨rfl, hword⟩ := h
    simp [told, ofValue, hword]
  case matchingConnectionKeepAlive =>
    obtain ⟨rfl, hmatching, hclose⟩ := h
    simp [told, ofValue, hmatching.not_isWord, hclose.not_isWord]
  case connectionKeepAlive =>
    obtain ⟨rfl, hword, -⟩ := h
    simp [told, ofValue, hword]
  case matchingConnectionClose =>
    obtain ⟨rfl, hmatching, hkeep⟩ := h
    simp [told, ofValue, hmatching.not_isWord, hkeep.not_isWord]
  case connectionClose =>
    obtain ⟨rfl, hword, hkeep⟩ := h
    simp [told, ofValue, hword, hkeep.not_isWord]
  all_goals exact h.elim

/-- A further letter of a value that may become a word. -/
theorem matchWord_means {p : Parser} {word v : Bytes} (matched : HeaderState) (ch : UInt8)
    (h : Matching word (v.map lower) p.index) :
    ∃ hs, p.matchWord word matched (lower ch) = { p with index := p.index + 1, headerState := hs } ∧
      (hs = .general ∧ Hopeless word (v ++ [ch]) ∨ hs = matched ∧ isWord word (v ++ [ch]) = true ∨
        hs = p.headerState ∧ Matching word ((v ++ [ch]).map lower) (p.index + 1)) := by
  have hlength := h.length
  obtain ⟨hs, heq, ⟨rfl, hne⟩ | ⟨rfl, hend⟩ | ⟨rfl, hmore⟩⟩ :=
    matchWord_matching matched (lower ch) h
  · rw [List.length_map] at hne
    exact ⟨_, heq, .inl ⟨rfl, hopeless_of_ne (by rw [hlength]; exact h.2) hne⟩⟩
  · refine ⟨_, heq, .inr (.inl ⟨rfl, isWord_of_eq ?_⟩)⟩
    rw [List.map_append]
    exact hend
  · refine ⟨_, heq, .inr (.inr ⟨rfl, ?_⟩)⟩
    rw [List.map_append]
    exact hmore

/-- The first letter of a value, unless it is that of a length or of an upgrade. -/
theorem firstValueLetter_means {p : Parser} (ch : UInt8) (hindex : p.index = 0)
    (hlength : p.headerState ≠ .contentLength) (hupgrade : p.headerState ≠ .upgrade) :
    ∃ hs, firstValueLetter p ch = .mark .headerValue { p with headerState := hs } ∧
      p.headerState.known.Means [ch] p.index hs := by
  have hfirst : ∀ {word : Bytes} {c : UInt8}, word[0]? = some c → lower ch ≠ c →
      Hopeless word [ch] := by
    intro word c hc hne
    refine hopeless_of_ne (v := []) ?_ ?_
    · exact (List.getElem?_eq_some_iff.mp hc).1
    · intro heq
      exact hne (Option.some.inj (heq.symm.trans hc))
  have hmatching : ∀ {word : Bytes} {c : UInt8}, word[0]? = some c → 1 < word.length →
      lower ch = c → Matching word ([ch].map lower) 0 := by
    rintro word c hc hlong rfl
    refine ⟨?_, hlong⟩
    cases word with
    | nil => cases hc
    | cons a word => cases hc; rfl
  unfold firstValueLetter
  dsimp only
  rw [hindex]
  cases hstate : p.headerState
  case upgrade => exact absurd hstate hupgrade
  case contentLength => exact absurd hstate hlength
  case transferEncoding =>
    refine ⟨_, rfl, ?_⟩
    split
    · next hc => exact ⟨rfl, hmatching rfl (by decide) hc⟩
    · next hc => exact ⟨by decide, fun _ => hfirst rfl hc, by rintro ⟨⟩⟩
  case connection =>
    refine ⟨_, rfl, ?_⟩
    split_ifs with hk hc
    · exact ⟨rfl, hmatching rfl (by decide) hk, hfirst rfl (by rw [hk]; decide)⟩
    · exact ⟨rfl, hmatching rfl (by decide) hc, hfirst rfl (by rw [hc]; decide)⟩
    · exact ⟨by decide, by rintro ⟨⟩, fun _ => ⟨hfirst rfl hk, hfirst rfl hc⟩⟩
  all_goals exact ⟨_, rfl, by decide, by rintro ⟨⟩, by rintro ⟨⟩⟩

/-- A further letter of a value, unless it is that of a length. -/
theorem valueLetter_means {p : Parser} {name : HeaderState} {v : Bytes} (ch : UInt8)
    (h : name.Means v p.index p.headerState) (hlength : name ≠ .contentLength) :
    ∃ index hs, valueLetter p ch = .next { p with index := index, headerState := hs } ∧
      name.Means (v ++ [ch]) index hs := by
  -- behind the word there may be spaces only
  have hbehind : ∀ {word : Bytes} {P : HeaderState → Prop}, isWord word v = true →
      (isWord word (v ++ [ch]) = true → P p.headerState) →
      (Hopeless word (v ++ [ch]) → P .general) →
      ∃ index hs, Action.next (if ch ≠ 32 then { p with headerState := .general } else p) =
        .next { p with index := index, headerState := hs } ∧ index = p.index ∧ P hs := by
    intro word P hword hspace hother
    by_cases hch : ch = 32
    · subst hch
      exact ⟨p.index, p.headerState, rfl, rfl, hspace (isWord_space hword)⟩
    · rw [if_pos hch]
      exact ⟨p.index, .general, rfl, rfl, hother (hopeless_of_isWord hword hch)⟩
  unfold valueLetter
  dsimp only
  cases hstate : p.headerState <;> rw [hstate] at h <;> dsimp only
  case general =>
    exact ⟨p.index, .general, by rw [← hstate], h.1, fun hname => (h.2.1 hname).append ch,
      fun hname => ⟨(h.2.2 hname).1.append ch, (h.2.2 hname).2.append ch⟩⟩
  case contentLength => exact absurd h hlength
  case matchingTransferEncodingChunked =>
    obtain ⟨rfl, hmatching⟩ := h
    obtain ⟨hs, heq, ⟨rfl, hno⟩ | ⟨rfl, hyes⟩ | ⟨rfl, hmore⟩⟩ :=
      matchWord_means .transferEncodingChunked ch hmatching
    · exact ⟨_, _, congrArg _ heq, by decide, fun _ => hno, by rintro ⟨⟩⟩
    · exact ⟨_, _, congrArg _ heq, rfl, hyes⟩
    · exact ⟨_, _, congrArg _ heq, by rw [hstate]; exact ⟨rfl, hmore⟩⟩
  case matchingConnectionKeepAlive =>
    obtain ⟨rfl, hmatching, hclose⟩ := h
    obtain ⟨hs, heq, ⟨rfl, hno⟩ | ⟨rfl, hyes⟩ | ⟨rfl, hmore⟩⟩ :=
      matchWord_means .connectionKeepAlive ch hmatching
    · exact ⟨_, _, congrArg _ heq, by decide, by rintro ⟨⟩, fun _ => ⟨hno, hclose.append ch⟩⟩
    · exact ⟨_, _, congrArg _ heq, rfl, hyes, hclose.append ch⟩
    · exact ⟨_, _, congrArg _ heq, by rw [hstate]; exact ⟨rfl, hmore, hclose.append ch⟩⟩
  case matchingConnectionClose =>
    obtain ⟨rfl, hmatching, hkeep⟩ := h
    obtain ⟨hs, heq, ⟨rfl, hno⟩ | ⟨rfl, hyes⟩ | ⟨rfl, hmore⟩⟩ :=
      matchWord_means .connectionClose ch hmatching
    · exact ⟨_, _, congrArg _ heq, by decide, by rintro ⟨⟩, fun _ => ⟨hkeep.append ch, hno⟩⟩
    · exact ⟨_, _, congrArg _ heq, rfl, hyes, hkeep.append ch⟩
    · exact ⟨_, _, congrArg _ heq, by rw [hstate]; exact ⟨rfl, hmore, hkeep.append ch⟩⟩
  case transferEncodingChunked =>
    obtain ⟨rfl, hword⟩ := h
    obtain ⟨index, hs, heq, rfl, hmeans⟩ := hbehind
      (P := fun hs => HeaderState.transferEncoding.Means (v ++ [ch]) p.index hs) hword
      (fun hyes => by rw [hstate]; exact ⟨rfl, hyes⟩)
      fun hno => ⟨by decide, fun _ => hno, by rintro ⟨⟩⟩
    exact ⟨_, hs, heq, hmeans⟩
  case connectionKeepAlive =>
    obtain ⟨rfl, hword, hclose⟩ := h
    obtain ⟨index, hs, heq, rfl, hmeans⟩ := hbehind
      (P := fun hs => HeaderState.connection.Means (v ++ [ch]) p.index hs) hword
      (fun hyes => by rw [hstate]; exact ⟨rfl, hyes, hclose.append ch⟩)
      fun hno => ⟨by decide, by rintro ⟨⟩, fun _ => ⟨hno, hclose.append ch⟩⟩
    exact ⟨_, hs, heq, hmeans⟩
  case connectionClose =>
    obtain ⟨rfl, hword, hkeep⟩ := h
    obtain ⟨index, hs, heq, rfl, hmeans⟩ := hbehind
      (P := fun hs => HeaderState.connection.Means (v ++ [ch]) p.index hs) hword
      (fun hyes => by rw [hstate]; exact ⟨rfl, hyes, hkeep.append ch⟩)
      fun hno => ⟨by decide, by rintro ⟨⟩, fun _ => ⟨hkeep.append ch, hno⟩⟩
    exact ⟨_, hs, heq, hmeans⟩
  all_goals exact h.elim

end Values

section Lengths

/-- A further letter of the value of a Content-Length, after the number `n`. -/
def lengthLetter (n : Nat) (ch : UInt8) : Option Nat :=
  if ch = 32 then some n
  else if !isNum ch then none
  else if (ullongMax - 10) / 10 < n then none
  else some (n * 10 + digit ch)

/-- The number that the value of a Content-Length is taken for, if it is not refused. -/
def lengthOf : Bytes → Option Nat
  | [] => none
  | ch :: rest => if isNum ch then rest.foldlM lengthLetter (digit ch) else none

theorem valueLetter_length {p : Parser} (h : p.headerState = .contentLength) (ch : UInt8) :
    valueLetter p ch =
      match lengthLetter p.contentLength ch with
      | some n => .next { p with contentLength := n }
      | none => .error .invalidContentLength p := by
  unfold valueLetter lengthLetter
  rw [h]
  dsimp only
  split_ifs <;> first | rfl | (rw [← h])

theorem decimal_of_lt {n : Nat} (h : n < 10) : decimal n = [(48 + n).toUInt8] := by
  interval_cases n <;> rfl

theorem decimal_of_le {n : Nat} (h : 10 ≤ n) :
    decimal n = decimal (n / 10) ++ [(48 + n % 10).toUInt8] := by
  have hlast := decimal_of_lt (Nat.mod_lt n (by decide : 0 < 10))
  rw [decimal, Nat.toDigits_of_lt_base (Nat.mod_lt n (by decide))] at hlast
  rw [decimal, Nat.toDigits_of_base_le (by decide) h, List.map_append, ← hlast]
  rfl

theorem digit_digit {n : Nat} (h : n < 10) :
    isNum (48 + n).toUInt8 = true ∧ digit (48 + n).toUInt8 = n ∧ (48 + n).toUInt8 ≠ 32 := by
  interval_cases n <;> decide

/-- The length is read back, unless it is too large. -/
theorem lengthOf_decimal {n : Nat} (h : n / 10 ≤ (ullongMax - 10) / 10) :
    lengthOf (decimal n) = some n := by
  induction n using Nat.strong_induction_on with
  | _ n ih =>
    by_cases hn : n < 10
    · obtain ⟨hnum, hdigit, -⟩ := digit_digit hn
      rw [decimal_of_lt hn, lengthOf, if_pos hnum, hdigit]
      rfl
    · have hle : 10 ≤ n := Nat.le_of_not_lt hn
      obtain ⟨hnum, hdigit, hspace⟩ := digit_digit (Nat.mod_lt n (by decide : 0 < 10))
      have hfront := ih (n / 10) (by omega) (by omega)
      have hstep : lengthLetter (n / 10) (48 + n % 10).toUInt8 = some n := by
        rw [lengthLetter, if_neg hspace, hnum, if_neg (by decide), if_neg (Nat.not_lt.mpr h), hdigit]
        congr 1
        omega
      rw [decimal_of_le hle]
      cases hcs : decimal (n / 10) with
      | nil => rw [hcs] at hfront; cases hfront
      | cons c cs =>
        rw [hcs, lengthOf] at hfront
        rw [List.cons_append, lengthOf]
        split at hfront
        · next hc => rw [if_pos hc, List.foldlM_append, hfront]; simpa using hstep
        · cases hfront

end Lengths

end Luaw.Parsing
