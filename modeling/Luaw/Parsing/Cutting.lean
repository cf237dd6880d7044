import Luaw.Http.Hearing
import Luaw.Parsing.Instance

/-!
# However the stream is cut

What the calls of the parser report of a connection is settled by the bytes that the connection
brings: the strings that they come in only cut the pieces of data. This includes where the parser
fails, and with which error.
-/

namespace Luaw.Parsing

open Http Lua Program

/-- What becomes of a byte stream. -/
inductive Outcome where
  | read (q : Parser)
  /-- The parser fails at the first one of the bytes `left`. -/
  | failed (code : Nat) (left : Bytes)

/-- The parser of a complete message starts anew. -/
def restart (t : ParserType) (x : Execution Parser) : Parser :=
  match x.event with
  | some (.messageComplete _) => httpParserInit t
  | _ => x.state

/-- `n` calls on single bytes, which report `es`. -/
inductive Listens (t : ParserType) : Nat → Parser → Bytes → List Event → Outcome → Prop where
  | done (p : Parser) : Listens t 0 p [] [] (.read p)
  | failed {p q : Parser} {ch : UInt8} {s : Bytes} {e : Hpe} (hmove : step p ch = some (.fail e q)) :
      Listens t 0 p (ch :: s) [] (.failed e.code (ch :: s))
  | byte {n : Nat} {p : Parser} {ch : UInt8} {s : Bytes} {es : List Event} {o : Outcome} {mv : Move}
      (hmove : step p ch = some mv) (hlive : mv.live = true)
      (hrest : Listens t n (restart t (mv.execution ch)) ((ch :: s).drop (mv.execution ch).nparsed)
        es o) :
      Listens t (n + 1) p (ch :: s) ((mv.execution ch).event.toList ++ es) o

section Progress

variable {p : Parser} {ch : UInt8} {mv : Move}

/-- The states in which a byte that has not been taken is looked at again. -/
def State.again : State → Bool
  | .headerAlmostDone | .headersDone | .messageDone => true
  | _ => false

theorem again_of_stay (h : p.Sound) (hmove : step p ch = some mv) (hlive : mv.live = true)
    (hstay : (mv.execution ch).nparsed = 0) : (mv.execution ch).state.state.again = true := by
  by_cases hbody : p.state.takesBody = true
  · rw [step_body h hbody] at hmove
    cases hmove
    cases hlast : p.atLast with
    | false =>
      rw [hlast] at hstay
      cases hstay
    | true =>
      rw [Parser.atLast, Bool.and_eq_true, decide_eq_true_iff, decide_eq_true_iff] at hlast
      show (p.ate 1).state.again = true
      rw [Parser.ate, hlast.1]
      dsimp only
      rw [if_pos hlast.2]
      rfl
  · unfold step at hmove
    split at hmove
    · cases hmove
      cases hlive
    · next hsize =>
      have hfits := byte_fits (h.countByte hsize) ch 1
      rw [countByte_state] at hfits
      cases haction : byte p.countByte ch 1 <;> rw [haction] at hfits hmove <;> cases hmove
      case next q =>
        rw [Move.execution] at hstay
        split at hstay <;> cases hstay
      case mark f q =>
        rw [Move.execution] at hstay
        split at hstay <;> cases hstay
      case data f q =>
        split at hstay
        · cases hstay
        · rw [Move.execution] at hstay
          split at hstay <;> cases hstay
      case markData f q => cases hstay
      case dataStay f q a =>
        show q.state.again = true
        rw [hfits.2.2]
        rfl
      case notify m q => cases hstay
      case notifyStay m q =>
        show q.state.again = true
        rw [hfits.2.2.1]
        rfl
      case take k q => exact absurd hfits.2 hbody
      case takeLast k q => exact absurd (by rw [hfits.2]; rfl) hbody
      case error e q => cases hlive

/-- A byte that is looked at again is taken. -/
theorem taken_of_again (hagain : p.state.again = true) (hmove : step p ch = some mv)
    (hlive : mv.live = true) : (mv.execution ch).nparsed = 1 := by
  have htakes : (∃ q, byte p.countByte ch 1 = .next q) ∨
      (∃ n q, byte p.countByte ch 1 = .notify n q) ∨ ∃ e q, byte p.countByte ch 1 = .error e q := by
    rw [← countByte_state p] at hagain
    unfold byte
    cases hs : p.countByte.state <;> rw [hs] at hagain <;> cases hagain
    · dsimp only
      unfold headerAlmostDone
      split
      · exact .inr (.inr ⟨_, _, rfl⟩)
      · dsimp only
        split <;> exact .inl ⟨_, rfl⟩
    · dsimp only
      unfold headersDone
      dsimp only
      split_ifs
      all_goals first
        | exact .inl ⟨_, rfl⟩
        | exact .inr (.inl ⟨_, _, rfl⟩)
        | exact .inr (.inr ⟨_, _, rfl⟩)
    · exact .inr (.inl ⟨_, _, rfl⟩)
  unfold step at hmove
  split at hmove
  · cases hmove
    cases hlive
  · obtain ⟨q, hbyte⟩ | ⟨n, q, hbyte⟩ | ⟨e, q, hbyte⟩ := htakes <;> rw [hbyte] at hmove <;>
      cases hmove
    · rw [Move.execution]
      split <;> rfl
    · rfl
    · cases hlive

theorem restart_sound (t : ParserType) (h : p.Sound) (hmove : step p ch = some mv)
    (hlive : mv.live = true) : (restart t (mv.execution ch)).Sound := by
  obtain ⟨mv', hmove', hfits⟩ := h.step ch
  obtain rfl : mv = mv' := Option.some.inj (hmove.symm.trans hmove')
  unfold restart
  split
  · exact init_sound t
  · exact hfits.sound hlive ch

/-- The parser starts anew only with the byte after the message. -/
theorem restart_of_stay (t : ParserType) (h : p.Sound) (hmove : step p ch = some mv)
    (hstay : (mv.execution ch).nparsed = 0) :
    restart t (mv.execution ch) = (mv.execution ch).state := by
  obtain ⟨mv', hmove', hfits⟩ := h.step ch
  obtain rfl : mv = mv' := Option.some.inj (hmove.symm.trans hmove')
  unfold restart
  split
  · next keepAlive hevent =>
    cases mv with
    | on q fresh =>
      rw [Move.execution] at hevent
      split at hevent
      · next f hf => cases f <;> cases hevent
      · cases hevent
    | field f q taken => cases f <;> cases hevent
    | empty f q => cases f <;> cases hevent
    | notice n q taken =>
      obtain rfl | rfl := hfits.2.2.2
      · cases hstay
      · cases hevent
    | body q taken => cases hevent
    | fail e q => cases hevent
  · rfl

end Progress

/-- How many calls a byte is good for. -/
def State.looks (s : State) : Nat := if s.again then 1 else 2

theorem State.looks_pos (s : State) : 1 ≤ s.looks ∧ s.looks ≤ 2 := by
  unfold State.looks
  split <;> decide

/-- Every stream is read to its end, or there is a byte that the parser fails at. -/
theorem listens_exists (t : ParserType) (k : Nat) {p : Parser} (h : p.Sound) (s : Bytes)
    (hk : 2 * s.length + p.state.looks ≤ k) : ∃ n es o, Listens t n p s es o := by
  induction k generalizing p s with
  | zero => exact absurd hk (by have := p.state.looks_pos; omega)
  | succ k ih =>
    cases s with
    | nil => exact ⟨0, [], _, .done p⟩
    | cons ch s =>
      obtain ⟨mv, hmove, -⟩ := h.step ch
      cases hlive : mv.live with
      | false =>
        cases mv with
        | fail e q => exact ⟨0, [], _, .failed hmove⟩
        | on | field | empty | notice | body => cases hlive
      | true =>
        have hnext := restart_sound t h hmove hlive
        -- either the byte is taken, or it is looked at again
        have hless : 2 * ((ch :: s).drop (mv.execution ch).nparsed).length +
            (restart t (mv.execution ch)).state.looks ≤ k := by
          have hlooks := (restart t (mv.execution ch)).state.looks_pos
          rw [List.length_cons] at hk
          by_cases hstay : (mv.execution ch).nparsed = 0
          · have hagain := again_of_stay h hmove hlive hstay
            have hfirst : p.state.again = false := by
              cases hp : p.state.again with
              | false => rfl
              | true => exact absurd hstay (by rw [taken_of_again hp hmove hlive]; decide)
            rw [restart_of_stay t h hmove hstay, hstay, List.drop_zero, List.length_cons,
              State.looks, if_pos hagain]
            rw [State.looks, if_neg (by rw [hfirst]; exact Bool.false_ne_true)] at hk
            omega
          · have hone : (mv.execution ch).nparsed = 1 := by
              have := mv.nparsed_le ch
              omega
            rw [hone, List.drop_succ_cons, List.drop_zero]
            have := p.state.looks_pos
            omega
        obtain ⟨n, es, o, hlistens⟩ := ih hnext _ hless
        exact ⟨n + 1, _, o, .byte hmove hlive hlistens⟩

theorem restart_of_pieced {t : ParserType} {x : Execution Parser} (h : Pieced x.event.toList) :
    restart t x = x.state := by
  unfold restart
  split
  · next keepAlive hevent =>
    rw [hevent] at h
    cases h _ (List.mem_singleton.mpr rfl)
  · rfl

/-- The calls on the bytes of a field are the first ones of those on the stream. -/
theorem feeds_listens {t : ParserType} {n : Nat} {p q : Parser} {a b : Bytes} {es₀ es : List Event}
    {o : Outcome} (hfeeds : Feeds p a es₀ q b) (hes : Pieced es₀) {r : Bytes}
    (h : Listens t n p (a ++ r) es o) :
    ∃ n' es', n' ≤ n ∧ Listens t n' q (b ++ r) es' o ∧ es = es₀ ++ es' := by
  induction hfeeds generalizing n es with
  | refl p s => exact ⟨n, es, le_rfl, h, rfl⟩
  | @byte p q ch s b es₀ mv hmove hlive hrest ih =>
    rw [List.cons_append] at h
    cases h with
    | @failed _ q' _ _ e hmove' =>
      cases hmove.symm.trans hmove'
      cases hlive
    | @byte n _ _ _ es _ mv' hmove' hlive' hrest' =>
      obtain rfl : mv = mv' := Option.some.inj (hmove.symm.trans hmove')
      have hfirst : Pieced (mv.execution ch).event.toList := fun e he =>
        hes e (List.mem_append_left _ he)
      have hdrop : (ch :: (s ++ r)).drop (mv.execution ch).nparsed =
          (ch :: s).drop (mv.execution ch).nparsed ++ r := by
        have hle := mv.nparsed_le ch
        rw [← List.cons_append, List.drop_append_of_le_length (by rw [List.length_cons]; omega)]
      rw [restart_of_pieced hfirst, hdrop] at hrest'
      obtain ⟨n', es', hn, hlistens, rfl⟩ :=
        ih (fun e he => hes e (List.mem_append_right _ he)) hrest'
      exact ⟨n', es', Nat.le_succ_of_le hn, hlistens, (List.append_assoc _ _ _).symm⟩

section Call

variable {t : ParserType} {n : Nat} {p : Parser} {buf r : Bytes} {es : List Event} {o : Outcome}

theorem drop_suffix {α : Type} {a b : List α} {n k : Nat} (h : b <:+ a)
    (hn : n + b.length = a.length + k) : a.drop n = b.drop k := by
  obtain ⟨pre, rfl⟩ := h
  rw [List.length_append] at hn
  obtain rfl : n = pre.length + k := by omega
  rw [← List.drop_drop, List.drop_left]

/-- The events of the bytes of a call, and the parser of the next one. -/
theorem Reports.restart_eq {total : Nat} {es : List Event} {ch : UInt8} {mv : Move}
    {x : Execution Parser} (h : Reports total es ch mv x) (hes : Pieced es)
    (hlive : mv.live = true) :
    restart t x = restart t (mv.execution ch) ∧
      events.merge (es ++ (mv.execution ch).event.toList) = x.event.toList := by
  cases h with
  | failed hmv => rw [hmv] at hlive; cases hlive
  | silent _ hnil hevent =>
    rw [hnil, hevent]
    unfold restart
    rw [hevent]
    exact ⟨rfl, rfl⟩
  | @called e n _ hmerge =>
    refine ⟨?_, hmerge⟩
    cases hevent : (mv.execution ch).event with
    | none =>
      rw [hevent, Option.toList_none, List.append_nil] at hmerge
      unfold restart
      rw [hevent]
      dsimp only
      split
      · next keepAlive heq =>
        cases heq
        have hone := hes (.messageComplete keepAlive)
          (by rw [events.merge_eq_single hmerge rfl]; exact List.mem_singleton.mpr rfl)
        cases hone
      · rfl
    | some e' =>
      rw [hevent, Option.toList_some] at hmerge
      cases hkind : events.kind e' with
      | none =>
        -- an event without data comes alone
        rw [Gluing.merge_append_none events hkind] at hmerge
        obtain ⟨-, hone⟩ := List.append_inj' (hmerge.trans (List.nil_append [e]).symm) rfl
        cases hone
        unfold restart
        rw [hevent]
      | some f =>
        unfold restart
        rw [hevent]
        dsimp only
        split
        · next keepAlive heq =>
          cases heq
          have hone := events.merge_eq_single hmerge rfl
          have hlast := (List.append_inj' (hone.trans (List.nil_append _).symm) rfl).2
          cases hlast
          cases hkind
        · cases e' <;> first | rfl | cases hkind

/-- What a call on the start of a stream leaves of it. -/
theorem parseHttp_listens (h : p.Sound) (hbuf : buf ≠ []) (hlistens : Listens t n p (buf ++ r) es o) :
    ∃ x, parseHttp p buf = some x ∧
      ((∃ n' es', n' < n ∧ Listens t n' (restart t x) (buf.drop x.nparsed ++ r) es' o ∧
          (restart t x).Sound ∧ events.merge es = events.merge (x.event.toList ++ es') ∧
          (x.nparsed < buf.length → x.errno = .paused)) ∨
        ∃ code, o = .failed code (buf.drop x.nparsed ++ r) ∧ x.nparsed < buf.length ∧
          x.errno = .failed code ∧ Pieced es) := by
  obtain ⟨x, es₀, ch, left, mv, hx, ⟨p₁, hfeeds, hmove⟩, hes₀, hn, hreports⟩ :=
    parseHttp_reports h hbuf
  have hsound := hfeeds.sound h
  obtain ⟨n₁, es₁, hn₁, hrest, rfl⟩ := feeds_listens hfeeds hes₀ hlistens
  have hdrop : buf.drop x.nparsed = (ch :: left).drop (mv.execution ch).nparsed :=
    drop_suffix hfeeds.suffix hn
  refine ⟨x, hx, ?_⟩
  rw [List.cons_append] at hrest
  cases hrest with
  | @failed _ q _ _ e hmove' =>
    right
    cases hmove.symm.trans hmove'
    have hzero : (Move.execution ch (.fail e q)).nparsed = 0 := rfl
    rw [hzero, List.drop_zero] at hdrop
    rw [hzero] at hn
    cases hreports with
    | failed hmv =>
      cases hmv
      refine ⟨_, by rw [hdrop]; rfl, by omega, rfl, ?_⟩
      rw [List.append_nil]
      exact hes₀
    | called hlive => cases hlive
    | silent hlive => cases hlive
  | @byte n₂ _ _ _ es₂ _ mv' hmove' hlive hrest' =>
    left
    obtain rfl : mv = mv' := Option.some.inj (hmove.symm.trans hmove')
    obtain ⟨hrestart, hmerge⟩ := hreports.restart_eq (t := t) hes₀ hlive
    have htail : (ch :: (left ++ r)).drop (mv.execution ch).nparsed =
        (ch :: left).drop (mv.execution ch).nparsed ++ r := by
      have hle := mv.nparsed_le ch
      rw [← List.cons_append, List.drop_append_of_le_length (by rw [List.length_cons]; omega)]
    rw [htail, ← hdrop, ← hrestart] at hrest'
    refine ⟨n₂, es₂, by omega, hrest', ?_, ?_, ?_⟩
    · rw [hrestart]
      exact restart_sound t hsound hmove hlive
    · rw [← List.append_assoc]
      refine events.merge_congr ?_ rfl
      rw [hmerge]
      cases x.event <;> rfl
    · cases hreports with
      | failed hmv => rw [hmv] at hlive; cases hlive
      | called => exact fun _ => rfl
      | silent => exact fun hlt => absurd hlt (Nat.lt_irrefl _)

end Call

section Connection

variable {t : ParserType} {platform : Platform} {parseURL : Bytes → Bool → Option ParsedURL}

/-- The next call fails at the first one of the bytes `left`: it closes the connection and raises. -/
def Fails {σ : Type} (P : HttpParser σ) (s : Session σ) (more : List (Except LuaError Bytes))
    (code : Nat) (left : Bytes) : Prop :=
  ∃ (content : Bytes) (offset n : Nat) (block : List Bytes),
    offset + n < content.length ∧ content.drop (offset + n) ++ block.flatten = left ∧
    ∀ req, exec (readAndParse P) (s.withReq req) =
      (.error (.raised (text "Error parsing HTTP fragment: errorCode=" ++ decimal code ++
        text ", total=" ++ decimal content.length ++ text ", parsed=" ++ decimal n ++
        text ", content=" ++ content ++ text "\n")),
        { s with req, conn := { s.conn with incoming := block.map .ok ++ more, closed := true } })

/-- What the calls on a connection come to, which have asked for the callbacks of `evs`. When the
parser fails, the pieces `cut` of the field that it was in the middle of may be missing. -/
def Outcome.Comes (P : HttpParser ValidParser) (more : List (Except LuaError Bytes))
    (es : List Event) (evs : List (Option Event)) (s : Session ValidParser) : Outcome → Prop
  | .read q => s.parser.1 = q ∧ s.Supply [] more [] ∧ events.merge (told evs) = events.merge es
  | .failed code left => Fails P s more code left ∧
      ∃ cut, Pieced cut ∧ events.merge (told evs ++ cut) = events.merge es

theorem parser_of_taken {s : Session ValidParser} {content : Bytes} {offset : Nat}
    {x : Execution Parser} (hx : parseHttp s.parser.1 (content.drop offset) = some x) :
    (s.taken (httpParser t platform parseURL) content offset).parser.1 = restart t x := by
  obtain ⟨hstate, -, -, hevent⟩ := ValidParser.execute_eq hx
  show (match (ValidParser.execute s.parser (content.drop offset)).event with
    | some (.messageComplete _) => ValidParser.init t
    | _ => (ValidParser.execute s.parser (content.drop offset)).state).1 = _
  rw [hevent]
  unfold restart
  split
  · rfl
  · exact hstate

/-- A call that fails. -/
theorem fails_of_parseHttp {s : Session ValidParser} {content : Bytes} {offset code : Nat}
    {block : List Bytes} {more : List (Except LuaError Bytes)} {x : Execution Parser}
    (hread : exec readContent s = (.ok (some (content, offset)),
      { s with conn := { s.conn with incoming := block.map .ok ++ more } }))
    (hoffset : offset ≤ content.length)
    (hx : parseHttp s.parser.1 (content.drop offset) = some x)
    (hn : x.nparsed < (content.drop offset).length) (herrno : x.errno = .failed code) :
    Fails (httpParser t platform parseURL) s more code
      ((content.drop offset).drop x.nparsed ++ block.flatten) := by
  rw [List.length_drop] at hn
  refine ⟨content, offset, x.nparsed, block, by omega, by rw [List.drop_drop], fun req => ?_⟩
  obtain ⟨-, hnparsed, herr, -⟩ := ValidParser.execute_eq hx
  have hcall : ((httpParser t platform parseURL).execute s.parser (content.drop offset)).nparsed =
      x.nparsed := hnparsed
  have hcode : ((httpParser t platform parseURL).execute s.parser (content.drop offset)).errno =
      .failed code := herr.trans herrno
  rw [readAndParse, exec_bind_ok (readContent_some hread req)]
  refine exec_bind_error ?_
  rw [parseHttpFragment, exec_bind_ok (exec_get _), exec_ite, if_neg (Nat.not_lt.mpr hoffset),
    exec_ite]
  simp only [Session.withReq, hcall, hcode]
  rw [if_pos ⟨by omega, by rintro ⟨⟩⟩]
  rfl

theorem hears_listens {n : Nat} {s : Session ValidParser} (hsound : s.parser.1.Sound)
    {block : List Bytes} {more : List (Except LuaError Bytes)} {stream : Bytes}
    (hsupply : s.Supply block more stream) {es : List Event} {o : Outcome}
    (h : Listens t n s.parser.1 stream es o) :
    ∃ evs s', Hears (httpParser t platform parseURL) s evs s' ∧
      o.Comes (httpParser t platform parseURL) more es evs s' := by
  induction n using Nat.strong_induction_on generalizing s block stream es with
  | _ n ih =>
    by_cases hstream : stream = []
    · subst hstream
      have hblock : block = [] := by
        cases block with
        | nil => rfl
        | cons chunk block =>
          have hflat := (List.append_eq_nil_iff.mp hsupply.bytes).2
          rw [List.flatten_cons] at hflat
          exact absurd (List.append_eq_nil_iff.mp hflat).1
            (hsupply.nonempty chunk List.mem_cons_self)
      subst hblock
      cases h
      exact ⟨[], s, .nil s, rfl, hsupply, rfl⟩
    · obtain ⟨content, offset, block', -, hread, hoffset, hbuf, hbytes, hne⟩ :=
        readContent_supply hsupply hstream
      rw [← hbytes] at h
      obtain ⟨x, hx, ⟨n', es', hn', hlistens, hnext, hmerge, hpaused⟩ |
        ⟨code, rfl, hn, herrno, hes⟩⟩ := parseHttp_listens hsound hbuf h
      · obtain ⟨-, hnparsed, herr, hevent⟩ := ValidParser.execute_eq hx
        have hearable : Hearable (httpParser t platform parseURL) s content offset
            { s with conn := { s.conn with incoming := block'.map .ok ++ more } } := by
          refine ⟨hread, hoffset, fun hlt => ?_⟩
          exact herr.trans (hpaused (hnparsed ▸ hlt))
        have hparser := @parser_of_taken t platform parseURL
          { s with conn := { s.conn with incoming := block'.map .ok ++ more } } content offset x hx
        have hpending : ∀ m, m = x.nparsed →
            Session.pending { s with unread := unreadFrom content (offset + m) } =
              (content.drop offset).drop x.nparsed := by
          rintro _ rfl
          rw [pending_unreadFrom, List.drop_drop]
        rw [← hparser] at hlistens hnext
        obtain ⟨evs, s', hhears, hcomes⟩ := ih n' hn' hnext
          ⟨hsupply.opened, rfl, by rw [← hpending _ hnparsed]; rfl, hne⟩ hlistens
        refine ⟨_, s', .cons hearable hhears, ?_⟩
        have htold : told (((httpParser t platform parseURL).execute s.parser
            (content.drop offset)).event :: evs) = x.event.toList ++ told evs := by
          rw [show ((httpParser t platform parseURL).execute s.parser (content.drop offset)).event =
            x.event from hevent]
          cases x.event <;> rfl
        cases o with
        | read q =>
          refine ⟨hcomes.1, hcomes.2.1, ?_⟩
          rw [htold, hmerge]
          exact events.merge_congr rfl hcomes.2.2
        | failed code left =>
          obtain ⟨hfails, cut, hcut, hmerged⟩ := hcomes
          refine ⟨hfails, cut, hcut, ?_⟩
          rw [htold, hmerge, List.append_assoc]
          exact events.merge_congr rfl hmerged
      · exact ⟨[], s, .nil s, fails_of_parseHttp hread hoffset hx hn herrno, es, hes, rfl⟩

/-- What a connection is heard to say depends on its bytes, and not on the strings that they come
in. -/
theorem hears_cutting (t : ParserType) (platform : Platform)
    (parseURL : Bytes → Bool → Option ParsedURL) (stream : Bytes) :
    ∃ (es : List Event) (o : Outcome), ∀ (conn : Conn) (block : List Bytes)
      (more : List (Except LuaError Bytes)), conn.Supply block more stream →
      ∃ evs s, Hears (httpParser t platform parseURL)
          (newSession (httpParser t platform parseURL) conn) evs s ∧
        o.Comes (httpParser t platform parseURL) more es evs s := by
  obtain ⟨n, es, o, hlistens⟩ := listens_exists t _ (init_sound t) stream le_rfl
  refine ⟨es, o, fun conn block more hsupply => ?_⟩
  exact hears_listens (init_sound t) (hsupply.session _) hlistens

end Connection

end Luaw.Parsing
