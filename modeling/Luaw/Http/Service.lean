import Luaw.Http.FullBody
import Luaw.Http.Request

/-!
# Serving a connection

`dispatchAction` and the loop of `serviceHTTP`. The registered web applications are a parameter:
which action a method and a path lead to, and the views. They are made of strings too, so what
they do may depend on which strings have been overwritten.
-/

namespace Luaw.Http

open Lua Program

/-- The program treats its connection only as something that accepts what is written to it: on
every accepting connection it has the same outcome, and reads nothing. -/
def Uniform {α : Type} (m : MessageM α) : Prop :=
  ∀ msg : Message, ∃ (result : Except (Stop LuaError) α) (msg' : Message), ∀ conn : Conn,
    conn.Accepts → ∃ conn' : Conn, exec m (msg.withConn conn) = (result, msg'.withConn conn') ∧
      conn'.Accepts ∧ conn'.incoming = conn.incoming

/-- The values `v1, v2` that a handler returns. -/
inductive Returned where
  | nothing
  | status (code : Nat) (body : Option Bytes)
  | view (path : Bytes) (model : LuaValue)
  | body (content : Bytes)

/-- A handler with the compiled views of its web application. -/
structure Action where
  handler : Request → MessageM Returned
  handler_uniform : ∀ req, Uniform (handler req)
  compiledViews : Bytes → Option (Request → LuaValue → MessageM Unit)
  views_uniform : ∀ path view req model, compiledViews path = some view → Uniform (view req model)

/-- An action without views. -/
theorem noViews_uniform : ∀ (_ : Bytes) (view : Request → LuaValue → MessageM Unit) (req : Request)
    (model : LuaValue), none = some view → Uniform (view req model) := by
  rintro _ view req model ⟨⟩

/-- What a connection is served with; `overwritten` are the strings that earlier requests on it have
overwritten. -/
structure Env (σ : Type) where
  rt : Runtime
  parser : HttpParser σ
  findAction : List Overwriting → Bytes → Option Bytes → Except LuaError (Option Action)
  overwritten : List Overwriting

/-- The environment once more strings have been overwritten. -/
def Env.after {σ : Type} (env : Env σ) (overwritten : List Overwriting) : Env σ :=
  { env with overwritten := env.overwritten ++ overwritten }

section Dispatch

variable {σ : Type} (env : Env σ)

/-- The action for a request, none when there is nothing to dispatch. -/
def actionOf (req : Request) : Except LuaError (Option Action) :=
  match req.method, req.parsedURL with
  | some method, some parsedURL => do
    match ← env.findAction (env.overwritten ++ req.overwritten) method parsedURL.path with
    | some action => pure (some action)
    | none => .error (text "No action found for path " ++ parsedURL.path.getD [] ++
        text " for method " ++ method)
  | _, _ => .ok none

def renderView (req : Request) (model : LuaValue)
    (view : Request → LuaValue → MessageM Unit) : MessageM Unit := do
  if 1 ≤ req.majorVersion.getD 0 ∧ 1 ≤ req.minorVersion.getD 0 then startStreaming env.rt
  else pure ()
  view req model

/-- What `dispatchAction` does with the values that the handler returned. -/
def handleReturned (action : Action) (req : Request) : Returned → MessageM Unit
  | .nothing => pure ()
  | .status code body => do
    modify fun resp => resp.setStatus code
    match body with
    | none => pure ()
    | some content => appendBody env.rt (some content)
  | .view path model => do
    modify fun resp => resp.setStatus 200
    match action.compiledViews path with
    | none => raise (text "View '" ++ path ++ text "' is not defined")
    | some view => renderView env req model view
  | .body content => do
    modify fun resp => resp.setStatus 200
    appendBody env.rt (some content)

/-- The Connection header of the response. -/
def connectionHeader (req : Request) : Bytes :=
  if req.EOF then text "close" else text "Keep-Alive"

def dispatchAction (req : Request) : MessageM Unit := do
  match ← ofExcept (actionOf env req) with
  | none => pure ()
  | some action =>
    modify fun resp => { resp with
      headers := resp.headers.assign (text "Connection") (connectionHeader req) }
    let returned ← action.handler req
    handleReturned env action req returned
    flush env.rt

end Dispatch

/-- A request for which a handler was called, with the bytes it was parsed from. -/
structure Dispatched where
  req : Request
  consumed : Bytes

/-- The requests dispatched on a connection, the connection afterwards, and how `serviceHTTP`
ended: with a message or with an error. -/
structure Served where
  dispatched : List Dispatched
  conn : Conn
  outcome : Except (Stop LuaError) Bytes

namespace Served

/-- The result of the loop with the first round in front. -/
def after (dispatched : List Dispatched) (served : Served) : Served :=
  { served with dispatched := dispatched ++ served.dispatched }

end Served

section Serve

variable {σ : Type} (env : Env σ)

/-- What the handler of the request saw, if there is one. -/
def dispatchedOf (s : Session σ) : List Dispatched :=
  match actionOf env s.req with
  | .ok (some _) => [⟨s.req, s.consumed⟩]
  | _ => []

/-- A response after its dispatch has raised: the error path, and the connection is closed. -/
def failResponse (errMesg : LuaError) (resp : Message) : Served :=
  let (result, resp) := exec (sendError env.rt errMesg) resp
  match result with
  | .ok _ => ⟨[], resp.conn.close, .error (.raised errMesg)⟩
  | .error stop => ⟨[], resp.conn.close, .error stop⟩

def serviceHTTP : Env σ → Nat → Conn → Served
  | _, 0, conn => ⟨[], conn, .error .outOfFuel⟩
  | env, fuel + 1, conn =>
    -- a new request object, with a new parser
    match exec (readFull env.parser fuel) (newSession env.parser conn) with
    | (.error .outOfFuel, s) => ⟨[], s.conn, .error .outOfFuel⟩
    | (.error (.raised _), s) => ⟨[], s.conn.close, .ok (text "connection reset by peer")⟩
    | (.ok _, s) =>
      if s.req.EOF then ⟨[], s.conn.close, .ok (text "read time out")⟩
      else
        match exec (dispatchAction env s.req) (newServerHttpResponse s.conn) with
        | (.error .outOfFuel, resp) =>
          (Served.mk [] resp.conn (.error .outOfFuel)).after (dispatchedOf env s)
        | (.error (.raised errMesg), resp) =>
          (failResponse env errMesg resp).after (dispatchedOf env s)
        | (.ok _, resp) =>
          if s.req.EOF then
            (Served.mk [] resp.conn.close (.ok (text "connection reset by peer"))).after
              (dispatchedOf env s)
          else (serviceHTTP (env.after s.req.overwritten) fuel resp.conn).after (dispatchedOf env s)

theorem serviceHTTP_raised {conn : Conn} {fuel : Nat} {s : Session σ} {err : LuaError}
    (h : exec (readFull env.parser fuel) (newSession env.parser conn) = (.error (.raised err), s)) :
    serviceHTTP env (fuel + 1) conn =
      ⟨[], s.conn.close, .ok (text "connection reset by peer")⟩ := by
  rw [serviceHTTP, h]

theorem serviceHTTP_EOF {conn : Conn} {fuel : Nat} {s : Session σ}
    (h : exec (readFull env.parser fuel) (newSession env.parser conn) = (.ok (), s))
    (hEOF : s.req.EOF = true) :
    serviceHTTP env (fuel + 1) conn = ⟨[], s.conn.close, .ok (text "read time out")⟩ := by
  rw [serviceHTTP, h]
  simp only [hEOF, if_true]

theorem failResponse_dispatched (errMesg : LuaError) (resp : Message) :
    (failResponse env errMesg resp).dispatched = [] := by
  rw [failResponse]
  split
  split <;> rfl

/-- When the response has been sent, the next request is read. -/
theorem serviceHTTP_sent {conn : Conn} {fuel : Nat} {s : Session σ} {resp : Message}
    (h : exec (readFull env.parser fuel) (newSession env.parser conn) = (.ok (), s))
    (hEOF : s.req.EOF = false)
    (hdispatch : exec (dispatchAction env s.req) (newServerHttpResponse s.conn) = (.ok (), resp)) :
    (serviceHTTP env (fuel + 1) conn).dispatched =
      dispatchedOf env s ++
        (serviceHTTP (env.after s.req.overwritten) fuel resp.conn).dispatched := by
  rw [serviceHTTP, h]
  simp only [hEOF, hdispatch]
  rfl

theorem serviceHTTP_unsent {conn : Conn} {fuel : Nat} {s : Session σ} {resp : Message}
    {stop : Stop LuaError}
    (h : exec (readFull env.parser fuel) (newSession env.parser conn) = (.ok (), s))
    (hEOF : s.req.EOF = false)
    (hdispatch : exec (dispatchAction env s.req) (newServerHttpResponse s.conn) =
      (.error stop, resp)) :
    (serviceHTTP env (fuel + 1) conn).dispatched = dispatchedOf env s := by
  rw [serviceHTTP, h]
  simp only [hEOF, hdispatch]
  cases stop with
  | raised errMesg =>
    show dispatchedOf env s ++ (failResponse env errMesg resp).dispatched = _
    rw [failResponse_dispatched, List.append_nil]
  | outOfFuel => exact List.append_nil _

end Serve

end Luaw.Http
