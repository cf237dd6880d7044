import Luaw.Parsing.Bodies

/-!
# Whole messages

The start lines, and what follows the headers. Every message that is written as these bytes is
told by the events of its parts, and its last byte completes it.
-/

namespace Luaw.Parsing

open Http Lua

section StartLines

variable {p : Parser}

/-- The version, behind `HTTP/`. -/
def versionText (major minor : Nat) : Bytes := decimal major ++ text "." ++ decimal minor

def requestLine (m : Method) (url : Bytes) (major minor : Nat) : Bytes :=
  m.str ++ text " " ++ url ++ text " HTTP/" ++ versionText major minor ++ CRLF

def statusLine (major minor status : Nat) (mesg : Bytes) : Bytes :=
  text "HTTP/" ++ versionText major minor ++ text " " ++ decimal status ++ text " " ++ mesg ++ CRLF

theorem turns_dot (s s' : State) (hheader : s.parsingHeader = true) (hplain : s'.field = none)
    (hbyte : ∀ p : Parser, p.state = s → byte p 46 1 = .next { p with state := s' }) :
    TurnsAll s (text ".") s' := .cons ⟨hheader, hplain, hbyte⟩ (.nil _)

theorem turns_reqEnd : TurnsAll .reqHttpMinor CRLF .headerFieldStart := by
  have hcr : Turns .reqHttpMinor CR .reqLineAlmostDone :=
    ⟨rfl, rfl, fun p hp => by unfold byte; rw [hp]; rfl⟩
  have hlf : Turns .reqLineAlmostDone LF .headerFieldStart :=
    ⟨rfl, rfl, fun p hp => by unfold byte; rw [hp]; rfl⟩
  exact .cons hcr (.cons hlf (.nil _))

theorem reads_requestLine (hs : p.state = .startReq) {m : Method} {url : Bytes}
    (hurl : validUrl m url = true) {major minor : Nat} (hmajor : 1 ≤ major ∧ major ≤ 999)
    (hminor : minor ≤ 999) (hroom : p.Room (requestLine m url major minor).length) :
    Reads p (requestLine m url major minor) (.messageBegin :: fieldEvents .url url) { p.clear with
      method := m
      index := m.str.length + 1
      httpMajor := major
      httpMinor := minor
      state := .headerFieldStart
      nread := p.nread + (requestLine m url major minor).length } := by
  have hlength : (requestLine m url major minor).length = m.str.length + 1 + (url.length + 1) + 5 +
      (decimal major).length + 1 + (decimal minor).length + 2 := by
    simp only [requestLine, versionText, CRLF, List.length_append, List.length_cons, List.length_nil]
    show m.str.length + 1 + url.length + 6 + ((decimal major).length + 1 + _) + 2 = _
    omega
  have hbytes : requestLine m url major minor = m.str ++ [32] ++ (url ++ [32] ++ (text "HTTP/" ++
      (decimal major ++ (text "." ++ (decimal minor ++ CRLF))))) := by
    simp only [requestLine, versionText, List.append_assoc]
    rfl
  rw [hlength] at hroom ⊢
  unfold Parser.Room at hroom
  have hmethod := reads_method hs m (by unfold Parser.Room; omega)
  have htarget := reads_url (p := { p.clear with
      method := m
      index := m.str.length + 1
      state := .reqSpacesBeforeUrl
      nread := p.nread + (m.str.length + 1) }) rfl hurl (by unfold Parser.Room; dsimp only; omega)
  have hhttp := turns_reqHttp.reads (p := { p.clear with
      method := m
      index := m.str.length + 1
      state := .reqHttpStart
      nread := p.nread + (m.str.length + 1) + (url.length + 1) }) rfl
    (by unfold Parser.Room; show _ + _ + _ + 5 ≤ _; omega)
  have hfirst := reqMajor.reads le_rfl hmajor.1 hmajor.2 (p := { p.clear with
      method := m
      index := m.str.length + 1
      state := .reqFirstHttpMajor
      nread := p.nread + (m.str.length + 1) + (url.length + 1) + 5 }) rfl
    (by unfold Parser.Room; dsimp only; omega)
  have hdot := (turns_dot .reqHttpMajor .reqFirstHttpMinor rfl rfl
    fun p hp => by unfold byte; rw [hp]; rfl).reads (p := { p.clear with
      method := m
      index := m.str.length + 1
      httpMajor := major
      state := .reqHttpMajor
      nread := p.nread + (m.str.length + 1) + (url.length + 1) + 5 + (decimal major).length }) rfl
    (by unfold Parser.Room; show _ + _ + _ + _ + _ + 1 ≤ _; omega)
  have hsecond := reqMinor.reads (Nat.zero_le 1) (Nat.zero_le minor) hminor (p := { p.clear with
      method := m
      index := m.str.length + 1
      httpMajor := major
      state := .reqFirstHttpMinor
      nread := p.nread + (m.str.length + 1) + (url.length + 1) + 5 + (decimal major).length + 1 }) rfl
    (by unfold Parser.Room; dsimp only; omega)
  have hend := turns_reqEnd.reads (p := { p.clear with
      method := m
      index := m.str.length + 1
      httpMajor := major
      httpMinor := minor
      state := .reqHttpMinor
      nread := p.nread + (m.str.length + 1) + (url.length + 1) + 5 + (decimal major).length + 1 +
        (decimal minor).length }) rfl
    (by unfold Parser.Room; show _ + _ + _ + _ + _ + _ + _ + 2 ≤ _; omega)
  have hall := hmethod.trans (htarget.trans (hhttp.trans (hfirst.trans (hdot.trans
    (hsecond.trans hend)))))
  rw [hbytes]
  have hcrlf : CRLF.length = 2 := rfl
  simpa only [List.append_nil, List.nil_append, List.singleton_append, Nat.add_assoc, hcrlf] using hall

/-- The text of a status, as far as there is one. -/
def statusEvents (mesg : Bytes) : List Event := if mesg = [] then [] else fieldEvents .status mesg

/-- The text of a status and the end of its line. -/
theorem reads_statusText (hs : p.state = .resStatusStart) {mesg : Bytes}
    (hmesg : ∀ ch ∈ mesg, ch ≠ CR ∧ ch ≠ LF) (hroom : p.Room (mesg.length + 1)) :
    ∃ index, Reads p (mesg ++ [CR]) (statusEvents mesg) { p with
      index := index
      state := .resLineAlmostDone
      nread := p.nread + (mesg.length + 1) } := by
  have hstart : ∀ ch, byte { p with nread := p.nread + 1 } ch 1 =
      resStatusStart { p with nread := p.nread + 1 } ch := by
    intro ch
    unfold byte
    dsimp only
    rw [hs]
  cases mesg with
  | nil =>
    exact ⟨p.index, reads_next hs rfl hroom ((hstart CR).trans rfl) rfl⟩
  | cons ch rest =>
    obtain ⟨hcr, hlf⟩ := hmesg ch List.mem_cons_self
    rw [List.length_cons] at hroom
    unfold Parser.Room at hroom
    have hmark : Reads p [ch] (pieces .status [ch])
        { p with index := 0, state := .resStatus, nread := p.nread + 1 } := by
      refine .piece (step_mark (f := .status) (by rw [hs]; rfl) (by unfold Parser.Room; omega) ?_) rfl
      rw [hstart, resStatusStart, if_neg hcr, if_neg hlf]
    obtain ⟨q, hrest, v, rfl, hv⟩ := reads_pieces (f := .status)
      (fun left q => ∃ v, q = { p with
          index := 0, state := .resStatus, nread := p.nread + v.length } ∧ v ++ left = ch :: rest)
      (by rintro left q ⟨v, rfl, -⟩; rfl)
      (by
        rintro c left q ⟨v, rfl, hv⟩
        obtain ⟨hcr, hlf⟩ := hmesg c (by rw [← hv]; simp)
        have hlength := congrArg List.length hv
        simp only [List.length_append, List.length_cons] at hlength
        refine ⟨_, step_next rfl (by unfold Parser.Room; dsimp only; omega) ?_, v ++ [c], rfl,
          by rw [List.append_assoc]; exact hv⟩
        show resStatus _ c = _
        rw [resStatus, if_neg hcr, if_neg hlf, List.length_append, ← Nat.add_assoc]
        rfl)
      rest (p := { p with index := 0, state := .resStatus, nread := p.nread + 1 }) ⟨[ch], rfl, rfl⟩
    rw [List.append_nil] at hv
    subst hv
    refine ⟨0, ?_⟩
    rw [statusEvents, if_neg (List.cons_ne_nil ch rest)]
    exact (hmark.trans hrest).trans (.field (f := .status) (step_data (f := .status) rfl
      (by unfold Parser.Room; rw [List.length_cons]; exact hroom) rfl rfl))

theorem reads_statusLine (hs : p.state = .startRes) {major minor status : Nat}
    (hmajor : major ≤ 999) (hminor : minor ≤ 999) (hstatus : status ≤ 999) {mesg : Bytes}
    (hmesg : ∀ ch ∈ mesg, ch ≠ CR ∧ ch ≠ LF)
    (hroom : p.Room (statusLine major minor status mesg).length) :
    ∃ index, Reads p (statusLine major minor status mesg) (.messageBegin :: statusEvents mesg)
      { p.clear with
        index := index
        httpMajor := major
        httpMinor := minor
        statusCode := status
        state := .headerFieldStart
        nread := p.nread + (statusLine major minor status mesg).length } := by
  have hlength : (statusLine major minor status mesg).length = 1 + 4 + (decimal major).length + 1 +
      (decimal minor).length + 1 + (decimal status).length + 1 + (mesg.length + 1) + 1 := by
    simp only [statusLine, versionText, CRLF, List.length_append, List.length_cons, List.length_nil]
    show 5 + ((decimal major).length + 1 + _) + 1 + _ + 1 + _ + 2 = _
    omega
  have hbytes : statusLine major minor status mesg = [72] ++ (text "TTP/" ++ (decimal major ++
      (text "." ++ (decimal minor ++ ([32] ++ (decimal status ++ ([32] ++ (mesg ++ [CR] ++
        [LF])))))))) := by
    simp only [statusLine, versionText, CRLF, List.append_assoc]
    rfl
  rw [hlength] at hroom ⊢
  unfold Parser.Room at hroom
  have hbegin : Reads p [72] [.messageBegin] { p.clear with state := .resH, nread := p.nread + 1 } := by
    refine .notice (n := .messageBegin) ?_
    rw [step_header (by rw [hs]; rfl) (by unfold Parser.Room; omega)]
    have hbyte : byte { p with nread := p.nread + 1 } 72 1 =
        startRes { p with nread := p.nread + 1 } 72 := by
      unfold byte
      dsimp only
      rw [hs]
    rw [hbyte]
    rfl
  have hhttp := turns_resHttp.reads (p := { p.clear with state := .resH, nread := p.nread + 1 }) rfl
    (by unfold Parser.Room; show _ + 1 + 4 ≤ _; omega)
  have hfirst := resMajor.reads (Nat.zero_le 1) (Nat.zero_le major) hmajor
    (p := { p.clear with state := .resFirstHttpMajor, nread := p.nread + 1 + 4 }) rfl
    (by unfold Parser.Room; dsimp only; omega)
  have hdot := (turns_dot .resHttpMajor .resFirstHttpMinor rfl rfl
    fun p hp => by unfold byte; rw [hp]; rfl).reads (p := { p.clear with
      httpMajor := major
      state := .resHttpMajor
      nread := p.nread + 1 + 4 + (decimal major).length }) rfl
    (by unfold Parser.Room; show _ + _ + _ + _ + 1 ≤ _; omega)
  have hsecond := resMinor.reads (Nat.zero_le 1) (Nat.zero_le minor) hminor (p := { p.clear with
      httpMajor := major
      state := .resFirstHttpMinor
      nread := p.nread + 1 + 4 + (decimal major).length + 1 }) rfl
    (by unfold Parser.Room; dsimp only; omega)
  have hspace : Reads { p.clear with
        httpMajor := major
        httpMinor := minor
        state := .resHttpMinor
        nread := p.nread + 1 + 4 + (decimal major).length + 1 + (decimal minor).length } [32] []
      { p.clear with
        httpMajor := major
        httpMinor := minor
        state := .resFirstStatusCode
        nread := p.nread + 1 + 4 + (decimal major).length + 1 + (decimal minor).length + 1 } :=
    reads_next rfl rfl (by unfold Parser.Room; dsimp only; omega) rfl rfl
  have hcode := resStatusNumber.reads (Nat.zero_le 1) (Nat.zero_le status) hstatus
    (p := { p.clear with
      httpMajor := major
      httpMinor := minor
      state := .resFirstStatusCode
      nread := p.nread + 1 + 4 + (decimal major).length + 1 + (decimal minor).length + 1 }) rfl
    (by unfold Parser.Room; dsimp only; omega)
  have hbehind : Reads { p.clear with
        httpMajor := major
        httpMinor := minor
        statusCode := status
        state := .resStatusCode
        nread := p.nread + 1 + 4 + (decimal major).length + 1 + (decimal minor).length + 1 +
          (decimal status).length } [32] []
      { p.clear with
        httpMajor := major
        httpMinor := minor
        statusCode := status
        state := .resStatusStart
        nread := p.nread + 1 + 4 + (decimal major).length + 1 + (decimal minor).length + 1 +
          (decimal status).length + 1 } :=
    reads_next rfl rfl (by unfold Parser.Room; dsimp only; omega) rfl rfl
  obtain ⟨index, htext⟩ := reads_statusText (p := { p.clear with
      httpMajor := major
      httpMinor := minor
      statusCode := status
      state := .resStatusStart
      nread := p.nread + 1 + 4 + (decimal major).length + 1 + (decimal minor).length + 1 +
        (decimal status).length + 1 }) rfl hmesg (by unfold Parser.Room; dsimp only; omega)
  have hend : Reads { p.clear with
        index := index
        httpMajor := major
        httpMinor := minor
        statusCode := status
        state := .resLineAlmostDone
        nread := p.nread + 1 + 4 + (decimal major).length + 1 + (decimal minor).length + 1 +
          (decimal status).length + 1 + (mesg.length + 1) } [LF] []
      { p.clear with
        index := index
        httpMajor := major
        httpMinor := minor
        statusCode := status
        state := .headerFieldStart
        nread := p.nread + 1 + 4 + (decimal major).length + 1 + (decimal minor).length + 1 +
          (decimal status).length + 1 + (mesg.length + 1) + 1 } :=
    reads_next rfl rfl (by unfold Parser.Room; dsimp only; omega) rfl rfl
  have hall := hbegin.trans (hhttp.trans (hfirst.trans (hdot.trans (hsecond.trans (hspace.trans
    (hcode.trans (hbehind.trans (htext.trans hend))))))))
  refine ⟨index, ?_⟩
  rw [hbytes]
  simpa only [List.append_nil, List.nil_append, List.singleton_append, Nat.add_assoc] using hall

end StartLines

end Luaw.Parsing
