import Luaw.Http.Service

/-!
# Dispatching is the same on every connection that accepts writes

The rules of `Uniform`, one for each way to build a program, and from them that a request is
dispatched to the same outcome on every connection that accepts what is written to it.
-/

namespace Luaw.Http

open Lua Program

namespace Uniform

variable {α β : Type}

theorem pure (a : α) : Uniform (Pure.pure a : MessageM α) :=
  fun msg => ⟨.ok a, msg, fun conn h => ⟨conn, rfl, h, rfl⟩⟩

theorem raise (e : LuaError) : Uniform (Program.raise e : MessageM α) :=
  fun msg => ⟨.error (.raised e), msg, fun conn h => ⟨conn, rfl, h, rfl⟩⟩

theorem ofExcept (x : Except LuaError α) : Uniform (Program.ofExcept x : MessageM α) := by
  cases x with
  | ok a => exact Uniform.pure a
  | error e => exact Uniform.raise e

theorem bind {m : MessageM α} {k : α → MessageM β} (hm : Uniform m) (hk : ∀ a, Uniform (k a)) :
    Uniform (m >>= k) := by
  intro msg
  obtain ⟨result, msg₁, hrun⟩ := hm msg
  cases result with
  | ok a =>
    obtain ⟨result₂, msg₂, hrun₂⟩ := hk a msg₁
    refine ⟨result₂, msg₂, fun conn h => ?_⟩
    obtain ⟨conn₁, hexec, h₁, hincoming⟩ := hrun conn h
    obtain ⟨conn₂, hexec₂, h₂, hincoming₂⟩ := hrun₂ conn₁ h₁
    exact ⟨conn₂, (exec_bind_ok hexec).trans hexec₂, h₂, hincoming₂.trans hincoming⟩
  | error stop =>
    refine ⟨.error stop, msg₁, fun conn h => ?_⟩
    obtain ⟨conn₁, hexec, h₁, hincoming⟩ := hrun conn h
    exact ⟨conn₁, exec_bind_error hexec, h₁, hincoming⟩

/-- A change of the message that leaves its connection alone. -/
theorem modify {f : Message → Message}
    (hf : ∀ (msg : Message) (conn : Conn), f (msg.withConn conn) = (f msg).withConn conn) :
    Uniform (modify f : MessageM PUnit) := by
  refine fun msg => ⟨.ok ⟨⟩, f msg, fun conn h => ⟨conn, ?_, h, rfl⟩⟩
  rw [exec_modify, hf]

/-- A program that looks at the message, but not at its connection. -/
theorem get_bind {k : Message → MessageM β}
    (hconn : ∀ (msg : Message) (conn : Conn), k (msg.withConn conn) = k msg)
    (hk : ∀ msg, Uniform (k msg)) : Uniform (get >>= k) := by
  intro msg
  obtain ⟨result, msg', hrun⟩ := hk msg msg
  refine ⟨result, msg', fun conn h => ?_⟩
  rw [exec_bind_ok (exec_get _), hconn]
  exact hrun conn h

theorem ite {c : Prop} [Decidable c] {m n : MessageM α} (hm : Uniform m) (hn : Uniform n) :
    Uniform (if c then m else n) := by
  split
  · exact hm
  · exact hn

theorem write (str : Bytes) : Uniform (Http.write str) := by
  refine fun msg => ⟨.ok (), msg, fun conn h => ?_⟩
  obtain ⟨conn', hwrite, h', hincoming⟩ := h.write str
  refine ⟨conn', ?_, h', hincoming⟩
  have hwrite' : (msg.withConn conn).conn.write str = (.ok (), conn') := hwrite
  rw [Http.write, exec_bind_ok (exec_get _), hwrite']
  rfl

theorem sendBuffer {buffer : Buffer} {store : Message → Buffer → Message} {isChunked : Bool}
    (hstore : ∀ (msg : Message) (conn : Conn) (b : Buffer),
      store (msg.withConn conn) b = (store msg b).withConn conn) :
    Uniform (sendBuffer buffer store isChunked) :=
  (ofExcept _).bind fun _ => (modify fun msg conn => hstore msg conn _).bind fun _ => write _

theorem sendHeaders (rt : Runtime) : Uniform (sendHeaders rt) := by
  refine get_bind (fun _ _ => rfl) fun msg => (ofExcept _).bind fun line => ?_
  exact (modify fun _ _ => rfl).bind fun _ => sendBuffer fun _ _ _ => rfl

theorem startStreaming (rt : Runtime) : Uniform (startStreaming rt) :=
  (modify fun _ _ => rfl).bind fun _ => sendHeaders rt

theorem appendBody (rt : Runtime) (bodyPart : Option Bytes) : Uniform (appendBody rt bodyPart) := by
  cases bodyPart with
  | none => exact Uniform.pure _
  | some bodyPart =>
    refine (modify fun _ _ => rfl).bind fun _ => get_bind (fun _ _ => rfl) fun msg => ?_
    exact ite (sendBuffer fun _ _ _ => rfl) (Uniform.pure _)

theorem writeFullBody (rt : Runtime) : Uniform (writeFullBody rt) := by
  have hparams : ∀ (msg : Message) (conn : Conn),
      addParams rt (msg.withConn conn) = (addParams rt msg).withConn conn := by
    intro msg conn
    have hmethod : (msg.withConn conn).method = msg.method := rfl
    have hparams : (msg.withConn conn).params = msg.params := rfl
    rw [addParams, addParams, hmethod, hparams]
    by_cases hpost : msg.method = some (text "POST")
    · rw [if_pos hpost, if_pos hpost]
      cases urlEncodeParams rt msg.params <;> rfl
    · rw [if_neg hpost, if_neg hpost]
  refine (modify hparams).bind fun _ => (modify fun _ _ => rfl).bind fun _ => ?_
  exact (sendHeaders rt).bind fun _ => get_bind (fun _ _ => rfl) fun _ => sendBuffer fun _ _ _ => rfl

theorem endStreaming : Uniform endStreaming :=
  get_bind (fun _ _ => rfl) fun _ => (sendBuffer fun _ _ _ => rfl).bind fun _ => write _

theorem flush (rt : Runtime) : Uniform (flush rt) :=
  get_bind (fun _ _ => rfl) fun _ => ite endStreaming (writeFullBody rt)

end Uniform

section Dispatch

variable {σ : Type} (env : Env σ)

theorem uniform_handleReturned (action : Action) (req : Request) (returned : Returned) :
    Uniform (handleReturned env action req returned) := by
  cases returned with
  | nothing => exact Uniform.pure _
  | status code body =>
    refine (Uniform.modify fun _ _ => rfl).bind fun _ => ?_
    cases body with
    | none => exact Uniform.pure _
    | some content => exact Uniform.appendBody env.rt _
  | view path model =>
    refine (Uniform.modify fun _ _ => rfl).bind fun _ => ?_
    cases hview : action.compiledViews path with
    | none => exact Uniform.raise _
    | some view =>
      show Uniform (renderView env req model view)
      rw [renderView]
      have hrender := action.views_uniform path view req model hview
      exact Uniform.ite ((Uniform.startStreaming env.rt).bind fun _ => hrender)
        ((Uniform.pure ()).bind fun _ => hrender)
  | body content =>
    exact (Uniform.modify fun _ _ => rfl).bind fun _ => Uniform.appendBody env.rt _

theorem uniform_dispatchAction (req : Request) : Uniform (dispatchAction env req) := by
  refine (Uniform.ofExcept _).bind fun action => ?_
  cases action with
  | none => exact Uniform.pure _
  | some action =>
    refine (Uniform.modify fun _ _ => rfl).bind fun _ =>
      (action.handler_uniform req).bind fun returned => ?_
    exact (uniform_handleReturned env action req returned).bind fun _ => Uniform.flush env.rt

/-- The handler returns and its response can be sent, on a connection that accepts it. -/
def Sendable (req : Request) : Prop :=
  (exec (dispatchAction env req) (newServerHttpResponse ⟨false, [], [], []⟩)).1 = .ok ()

/-- The outcome of a dispatch does not depend on the connection, of which it reads nothing. -/
theorem dispatchAction_cases {conn : Conn} (h : conn.Accepts) (req : Request) :
    ∃ result resp, exec (dispatchAction env req) (newServerHttpResponse conn) = (result, resp) ∧
      resp.conn.Accepts ∧ resp.conn.incoming = conn.incoming ∧
      (result = .ok () ↔ Sendable env req) := by
  let fresh : Conn := ⟨false, [], [], []⟩
  obtain ⟨result, msg, hrun⟩ := uniform_dispatchAction env req (newServerHttpResponse fresh)
  obtain ⟨conn', hexec, h', hincoming⟩ := hrun conn h
  obtain ⟨_, hfresh, -, -⟩ := hrun fresh ⟨rfl, rfl⟩
  have hsendable : (exec (dispatchAction env req) (newServerHttpResponse fresh)).1 = result :=
    congrArg Prod.fst hfresh
  refine ⟨result, msg.withConn conn', hexec, h', hincoming, ?_⟩
  rw [Sendable, hsendable]

end Dispatch

end Luaw.Http
