import Luaw.Concurrent.Isolation

/-!
# A request that is served alone

Without other coroutines the functions of this part do what the functions of the sequential model
do: suspensions and globals make no difference, as long as the strings in the code are what they
were at first. Where the others do not interfere, it is what they do among others too.
-/

namespace Luaw.Concurrent

open Lua Http Routine

/-- The message, while its connection is there. -/
def Outgoing.focus : Focus Outgoing Message where
  Inv o := o.attached = true
  view := mesg
  put := withMesg
  inv_put _ _ h := h
  view_put _ _ := rfl
  put_put _ _ _ := rfl
  put_view := withMesg_mesg

section Encoding

variable (rt : Runtime)

theorem urlEncode_plus (str : Bytes) : urlEncode (text "+") str = Http.urlEncode str := by
  have hchar (ch : UInt8) : (if ch = 32 then text "+" else toURLSafeChar ch) = toURLSafeChar ch := by
    rw [toURLSafeChar]
    split <;> rfl
  simp only [urlEncode, Http.urlEncode, hchar]

theorem urlEncodeParams_plus (params : Option (List (Bytes × Bytes))) :
    urlEncodeParams rt (text "+") params = (Http.urlEncodeParams rt params).map Prod.fst := by
  cases params with
  | none => rfl
  | some params =>
    simp only [urlEncodeParams, Http.urlEncodeParams, urlEncode_plus]
    split <;> rfl

theorem firstLine_plus (m : Message) : firstLine rt (text "+") m = m.firstLine rt := by
  have hurl : buildURL rt (text "+") m = Http.buildURL rt m := by
    rw [buildURL, Http.buildURL, urlEncodeParams_plus]
    cases Http.urlEncodeParams rt m.params <;> rfl
  have hline : firstRequestLine rt (text "+") m = Http.firstRequestLine rt m := by
    rw [firstRequestLine, Http.firstRequestLine, hurl]
  cases htype : m.mesgType with
  | sresp => simp only [firstLine, Message.firstLine, htype]
  | creq => simp only [firstLine, Message.firstLine, htype, hline]

theorem addParams_plus (m : Message) : addParams rt (text "+") m = Http.addParams rt m := by
  rw [addParams, Http.addParams, urlEncodeParams_plus]
  cases Http.urlEncodeParams rt m.params <;> rfl

end Encoding

section Writing

variable (rt : Runtime)

theorem modifyMesg_mirrors (f : Message → Message) :
    Mirrors Outgoing.focus (modifyMesg f) (modify f) := fun _ _ => .modify rfl

theorem noteSent_bind_mirrors {α : Type} {o : Outgoing} {peer : Peer} {str : Bytes}
    (result : Except LuaError Unit) {f : Unit → LuaM Outgoing α} {p : MessageM α}
    (h : MirrorsAt Outgoing.focus o (f ()) p) :
    MirrorsAt Outgoing.focus o (noteSent peer str result >>= f) p := by
  cases result with
  | ok _ => exact .emit_bind h
  | error _ => exact h

theorem write_mirrors (str : Bytes) : Mirrors Outgoing.focus (write str) (Http.write str) := by
  intro o ho
  apply MirrorsAt.get_bind
  rw [if_pos (show o.attached = true from ho)]
  apply MirrorsAt.bind ho (.set rfl)
  intro _ o' _
  split
  · exact .ofExcept _
  · exact noteSent_bind_mirrors _ (.suspend_bind (.ofExcept _))

theorem sendBuffer_mirrors (buffer : Buffer) (store : Message → Buffer → Message)
    (isChunked : Bool) : Mirrors Outgoing.focus (sendBuffer buffer store isChunked)
      (Http.sendBuffer buffer store isChunked) := by
  intro o ho
  apply MirrorsAt.bind ho (.ofExcept _)
  intro chunk o ho
  apply MirrorsAt.bind ho (modifyMesg_mirrors _ o ho)
  intro _
  exact write_mirrors _

theorem sendHeaders_mirrors :
    Mirrors Outgoing.focus (sendHeaders rt (text "+")) (Http.sendHeaders rt) := by
  intro o ho
  apply MirrorsAt.get_bind
  rw [firstLine_plus]
  apply MirrorsAt.bind ho (.ofExcept _)
  intro line o ho
  apply MirrorsAt.bind ho (modifyMesg_mirrors _ o ho)
  intro _
  exact sendBuffer_mirrors _ _ _

theorem startStreaming_mirrors :
    Mirrors Outgoing.focus (startStreaming rt (text "+")) (Http.startStreaming rt) := by
  intro o ho
  apply MirrorsAt.bind ho (modifyMesg_mirrors _ o ho)
  intro _
  exact sendHeaders_mirrors rt

theorem appendBody_mirrors (bodyPart : Option Bytes) :
    Mirrors Outgoing.focus (appendBody rt bodyPart) (Http.appendBody rt bodyPart) := by
  intro o ho
  cases bodyPart with
  | none => exact .pure _
  | some bodyPart =>
    apply MirrorsAt.bind ho (modifyMesg_mirrors _ o ho)
    intro _ o ho
    apply MirrorsAt.get_bind
    exact .ite Iff.rfl (sendBuffer_mirrors _ _ _ o ho) (.pure _)

theorem writeFullBody_mirrors :
    Mirrors Outgoing.focus (writeFullBody rt (text "+")) (Http.writeFullBody rt) := by
  intro o ho
  rw [writeFullBody, funext (addParams_plus rt)]
  apply MirrorsAt.bind ho (modifyMesg_mirrors _ o ho)
  intro _ o ho
  apply MirrorsAt.bind ho (modifyMesg_mirrors _ o ho)
  intro _ o ho
  apply MirrorsAt.bind ho (sendHeaders_mirrors rt o ho)
  intro _ o ho
  apply MirrorsAt.get_bind
  exact sendBuffer_mirrors _ _ _ o ho

theorem endStreaming_mirrors : Mirrors Outgoing.focus endStreaming Http.endStreaming := by
  intro o ho
  apply MirrorsAt.get_bind
  apply MirrorsAt.bind ho (sendBuffer_mirrors _ _ _ o ho)
  intro _
  exact write_mirrors _

theorem flush_mirrors : Mirrors Outgoing.focus (flush rt (text "+")) (Http.flush rt) := by
  intro o ho
  apply MirrorsAt.get_bind
  exact .ite Iff.rfl (endStreaming_mirrors o ho) (writeFullBody_mirrors rt o ho)

/-- Among other coroutines a flush that gets enough turns, and that the others do not disturb,
sends what it sends in the sequential model, and ends with the same result. -/
theorem flush_run_done {ι : Type} [DecidableEq ι]
    {machine : Coroutine.Machine ι lua (Except (Program.Stop LuaError) Unit × Outgoing)}
    {i : ι} {o : Outgoing} (ho : o.attached = true)
    (hcode : (machine.threads i).code = exec (flush rt (text "+")) o)
    (hexCh : ℕ → Nat → Bool → UInt8) :
    ∃ n, ∀ schedule : List ι, n ≤ schedule.count i →
      machine.Undisturbed (decoding hexCh) i schedule →
      (machine.run (decoding hexCh) schedule).AsksSettled (decoding hexCh)
        (fun _ => decoding hexCh 0) i →
      ((machine.run (decoding hexCh) schedule).threads i).code =
        .done ((Program.exec (Http.flush rt) o.mesg).1,
          { o with mesg := (Program.exec (Http.flush rt) o.mesg).2 }) :=
  (flush_mirrors rt).run_done ho hcode (flush_owns rt _ o).isolated (decoding hexCh)
    (decoding hexCh 0) Global.initial

end Writing

end Luaw.Concurrent
