import Mathlib.Algebra.BigOperators.Group.List.Basic
import Luaw.Http.ReadFull
import Luaw.Http.Uniform

/-!
# No more is parsed than has arrived

Whatever a parser makes of what it is given: the bytes of all requests that are dispatched on a
connection are no more than the connection brings.
-/

namespace Luaw.Http

open Lua Program

/-- The number of bytes that the result of a read brings. -/
def readLength : Except LuaError Bytes → Nat
  | .ok str => str.length
  | .error _ => 0

def Conn.arriving (conn : Conn) : Nat := (conn.incoming.map readLength).sum

theorem arriving_eq {conn : Conn} {block : List Bytes} {more : List (Except LuaError Bytes)}
    (hincoming : conn.incoming = block.map .ok ++ more)
    (hmore : ∀ result ∈ more, ∃ mesg, result = .error mesg) :
    conn.arriving = block.flatten.length := by
  have hnone : ∀ n ∈ more.map readLength, n = 0 := by
    intro n hn
    obtain ⟨result, hresult, rfl⟩ := List.mem_map.mp hn
    obtain ⟨mesg, rfl⟩ := hmore result hresult
    rfl
  rw [Conn.arriving, hincoming, List.map_append, List.sum_append, List.sum_eq_zero hnone,
    List.map_map, List.length_flatten]
  rfl

theorem Conn.read_ok {conn conn' : Conn} {str : Bytes} (h : conn.read = (.ok str, conn')) :
    (conn.Accepts → conn'.Accepts) ∧ str.length + conn'.arriving = conn.arriving := by
  obtain ⟨_ | _, _ | ⟨mesg | str', incoming⟩, written, faults⟩ := conn <;> cases h
  exact ⟨fun h => ⟨rfl, h.faults⟩, rfl⟩

theorem Conn.read_error {conn conn' : Conn} {mesg : LuaError}
    (h : conn.read = (.error mesg, conn')) : conn'.arriving ≤ conn.arriving := by
  obtain ⟨_ | _, _ | ⟨mesg | str', incoming⟩, written, faults⟩ := conn <;> cases h
  · exact le_rfl
  · exact Nat.le_add_left _ _
  · exact le_rfl
  · exact le_rfl
  · exact le_rfl

section Bound

variable {σ : Type} {P : HttpParser σ} {K : Nat}

/-- What has been parsed, is unread or has yet to come is at most `K` bytes, and the connection
is in order as long as its end has not been noticed. -/
structure Bounded (K : Nat) (s : Session σ) : Prop where
  usable : s.req.EOF = true ∨ s.conn.Accepts
  bound : s.consumed.length + s.pending.length + s.conn.arriving ≤ K

theorem callback_EOF {e : Event} {req req' : Request} (h : callback P e req = .ok req')
    (hEOF : req.EOF = true) : req'.EOF = true := by
  cases e with
  | headersComplete =>
    obtain ⟨parsedURL, params, left, -, -, rfl⟩ := onHeadersComplete_ok P h
    simp [hEOF]
  | messageComplete =>
    obtain ⟨parts, params, left, -, -, rfl⟩ := onMesgComplete_ok P h
    simp [hEOF]
  | headerField =>
    cases h
    simpa using hEOF
  | messageBegin | status | url | headerValue | body =>
    cases h
    exact hEOF

theorem parseHttpFragment_ok {content : Bytes} {offset n : Nat} {s s' : Session σ}
    (h : exec (parseHttpFragment P content offset) s = (.ok n, s')) :
    ∃ req, heard P (P.execute s.parser (content.drop offset)).event s.req = .ok req ∧
      n = offset + (P.execute s.parser (content.drop offset)).nparsed ∧
      s' = s.parsed P (content.drop offset) req := by
  by_cases hoffset : content.length < offset
  · rw [parseHttpFragment, exec_bind_ok (exec_get s), exec_ite, if_pos hoffset] at h
    cases h
  by_cases hfailed : offset + (P.execute s.parser (content.drop offset)).nparsed < content.length ∧
      (P.execute s.parser (content.drop offset)).errno ≠ .paused
  · rw [parseHttpFragment, exec_bind_ok (exec_get s), exec_ite, if_neg hoffset, exec_ite,
      if_pos hfailed] at h
    cases h
  · have hpaused : (P.execute s.parser (content.drop offset)).nparsed <
        (content.drop offset).length →
        (P.execute s.parser (content.drop offset)).errno = .paused := by
      intro hlt
      rw [List.length_drop] at hlt
      by_contra herr
      exact hfailed ⟨by omega, herr⟩
    rw [exec_parseHttpFragment (Nat.not_lt.mp hoffset) hpaused] at h
    cases hheard : heard P (P.execute s.parser (content.drop offset)).event s.req with
    | error e =>
      rw [hheard] at h
      cases h
    | ok req =>
      rw [hheard] at h
      cases h
      exact ⟨req, rfl, rfl, rfl⟩

theorem readContent_bounded {s s' : Session σ} {unread : Option (Bytes × Nat)}
    (h : Bounded K s) (hrun : exec readContent s = (.ok unread, s')) :
    match unread with
    | none => Bounded K s'
    | some (content, offset) => (s'.req.EOF = true ∨ s'.conn.Accepts) ∧
        s'.consumed.length + (content.drop offset).length + s'.conn.arriving ≤ K := by
  obtain ⟨husable, hbound⟩ := h
  obtain ⟨content, offset, hunread, -, rfl, rfl⟩ | ⟨-, content, conn, hread, rfl, rfl⟩ |
    ⟨-, conn, hread, rfl, rfl⟩ := readContent_cases hrun
  · rw [Session.pending, hunread] at hbound
    exact ⟨husable, hbound⟩
  · obtain ⟨haccepts, harriving⟩ := Conn.read_ok hread
    refine ⟨husable.imp id haccepts, ?_⟩
    rw [List.drop_zero]
    dsimp only
    omega
  · have harriving := Conn.read_error hread
    refine ⟨.inl rfl, ?_⟩
    simp only [Session.pending, Session.atEOF, List.length_nil]
    omega

theorem readAndParse_bounded {s s' : Session σ} (h : Bounded K s)
    (hrun : exec (readAndParse P) s = (.ok (), s')) : Bounded K s' := by
  rcases hread : exec readContent s with ⟨stop | unread, s₁⟩
  · rw [readAndParse, exec_bind_error hread] at hrun
    cases hrun
  have h₁ := readContent_bounded h hread
  rw [readAndParse, exec_bind_ok hread] at hrun
  obtain - | ⟨content, offset⟩ := unread
  · cases hrun
    exact h₁
  · obtain ⟨husable, hbound⟩ := h₁
    rcases hparse : exec (parseHttpFragment P content offset) s₁ with ⟨stop | n, s₂⟩
    · change exec (parseHttpFragment P content offset >>= _) s₁ = _ at hrun
      rw [exec_bind_error hparse] at hrun
      cases hrun
    · change exec (parseHttpFragment P content offset >>= _) s₁ = _ at hrun
      rw [exec_bind_ok hparse] at hrun
      cases hrun
      obtain ⟨req, hheard, rfl, rfl⟩ := parseHttpFragment_ok hparse
      refine ⟨husable.imp (fun hEOF => ?_) id, ?_⟩
      · cases hevent : (P.execute s₁.parser (content.drop offset)).event with
        | none =>
          rw [hevent] at hheard
          cases hheard
          exact hEOF
        | some e =>
          rw [hevent] at hheard
          exact callback_EOF hheard hEOF
      -- what the parser takes goes from what is pending to what is consumed
      · have hn := P.nparsed_le s₁.parser (content.drop offset)
        have hpending := pending_unreadFrom
          (s₁.parsed P (content.drop offset) req) content
          (offset + (P.execute s₁.parser (content.drop offset)).nparsed)
        have htaken : ((content.drop offset).take
            (P.execute s₁.parser (content.drop offset)).nparsed).length =
              (P.execute s₁.parser (content.drop offset)).nparsed := by
          rw [List.length_take, Nat.min_eq_left hn]
        show (s₁.consumed ++ (content.drop offset).take _).length + _ + s₁.conn.arriving ≤ K
        rw [unreadFrom] at hpending
        rw [hpending, ← List.drop_drop, List.length_append, htaken, List.length_drop]
        omega

theorem readUntil_bounded {done : Request → Bool} (fuel : Nat) {s s' : Session σ}
    (h : Bounded K s) (hrun : exec (readUntil P done fuel) s = (.ok (), s')) : Bounded K s' := by
  induction fuel generalizing s with
  | zero => cases hrun
  | succ fuel ih =>
    cases hdone : done s.req with
    | true =>
      rw [exec_readUntil_done hdone] at hrun
      cases hrun
      exact h
    | false =>
      rw [exec_readUntil_step hdone] at hrun
      rcases hround : exec (readAndParse P) s with ⟨stop | ⟨⟩, s₁⟩
      · rw [exec_bind_error hround] at hrun
        cases hrun
      · rw [exec_bind_ok hround] at hrun
        exact ih (readAndParse_bounded h hround) hrun

theorem readFull_bounded {fuel : Nat} {s s' : Session σ} (h : Bounded K s)
    (hrun : exec (readFull P fuel) s = (.ok (), s')) : Bounded K s' := by
  rcases hheaders : exec (readUntil P Request.headersDone fuel) s with ⟨stop | ⟨⟩, s₁⟩
  · rw [readFull, exec_bind_error hheaders] at hrun
    cases hrun
  have h₁ := readUntil_bounded fuel h hheaders
  rw [readFull, exec_bind_ok hheaders, exec_bind_ok (exec_get s₁)] at hrun
  cases hboundary : getMultipartBoundary s₁.req.headers with
  | error e =>
    rw [hboundary] at hrun
    cases hrun
  | ok boundary =>
    rw [hboundary, exec_bind_ok (exec_ofExcept_ok _ _), exec_ite] at hrun
    split at hrun
    · cases hrun
      exact h₁
    · exact readUntil_bounded fuel h₁ hrun

/-- The bytes of the dispatched requests have all arrived. -/
theorem serviceHTTP_bounded (env : Env σ) (fuel : Nat) {conn : Conn} (h : conn.Accepts) :
    ((serviceHTTP env fuel conn).dispatched.map fun d => d.consumed.length).sum ≤
      conn.arriving := by
  induction fuel generalizing env conn with
  | zero => exact Nat.zero_le _
  | succ fuel ih =>
    have hnew : Bounded conn.arriving (newSession env.parser conn) :=
      ⟨.inr h, by simp [newSession, Session.pending]⟩
    rcases hread : exec (readFull env.parser fuel) (newSession env.parser conn) with
      ⟨(err | -) | ⟨⟩, s⟩
    · rw [serviceHTTP_raised env hread]
      exact Nat.zero_le _
    · rw [serviceHTTP, hread]
      exact Nat.zero_le _
    obtain ⟨husable, hbound⟩ := readFull_bounded hnew hread
    cases hEOF : s.req.EOF with
    | true =>
      rw [serviceHTTP_EOF env hread hEOF]
      exact Nat.zero_le _
    | false =>
      have haccepts : s.conn.Accepts := husable.resolve_left (by simp [hEOF])
      have hone : ((dispatchedOf env s).map fun d => d.consumed.length).sum ≤ s.consumed.length := by
        rw [dispatchedOf]
        split <;> simp
      obtain ⟨result, resp, hdispatch, hresp, hincoming, -⟩ :=
        dispatchAction_cases env haccepts s.req
      have harriving : resp.conn.arriving = s.conn.arriving := by
        rw [Conn.arriving, Conn.arriving, hincoming]
      -- the next round only has what is still to arrive
      have hlater := ih (env.after s.req.overwritten) hresp
      cases result with
      | error stop =>
        rw [serviceHTTP_unsent env hread hEOF hdispatch]
        omega
      | ok =>
        rw [serviceHTTP_sent env hread hEOF hdispatch, List.map_append, List.sum_append]
        omega

end Bound

end Luaw.Http
