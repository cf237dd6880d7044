import Luaw.Concurrent.LuaPackReading
import Luaw.Http.ClientResponse

/-!
# Serving a request in a coroutine

`connect` of `luaw_tcp.lua`, `execute` of a client request, and `dispatchAction` and
`serviceHTTP` of `luaw_webapp.lua`. A handler is a script: it calls the library on its request and
response and on client requests that it makes, and computes with what it gets. Over a call it keeps
strings in its local variables, and has them back as they are then.
-/

namespace Luaw.Concurrent

open Lua Http Routine

/-- The two messages over a connection: what is read and what is written. -/
structure Exchange (τ : Type) where
  incoming : Incoming τ
  outgoing : Outgoing

instance {τ : Type} : Retains Bytes (Exchange τ) :=
  .fields (fun x => (x.incoming, x.outgoing)) (fun (incoming, outgoing) _ => { incoming, outgoing })
    fun _ => rfl

namespace Exchange

variable {τ : Type}

/-- The connection is one object. -/
def ofIncoming (incoming : Incoming τ) (outgoing : Outgoing) : Exchange τ where
  incoming := incoming
  outgoing := { outgoing with mesg := outgoing.mesg.withConn incoming.session.conn }

def ofOutgoing (outgoing : Outgoing) (incoming : Incoming τ) : Exchange τ where
  incoming := { incoming with session := { incoming.session with conn := outgoing.mesg.conn } }
  outgoing := outgoing

def onIncoming {α : Type} (m : LuaM (Incoming τ) α) : LuaM (Exchange τ) α :=
  zoom incoming outgoing ofIncoming m

def onOutgoing {α : Type} (m : LuaM Outgoing α) : LuaM (Exchange τ) α :=
  zoom outgoing incoming ofOutgoing m

end Exchange

/-- Where a client request is sent. -/
structure Target where
  hostIP : Option Bytes
  hostName : Option Bytes

/-- What becomes of a connect: the status of `resolveDNS`, the address that its callback brings,
the connection, and the status of `startReading`. -/
structure Upstream where
  lookedUp : Except LuaError Unit
  resolved : Except LuaError Bytes
  connected : Except LuaError Conn
  started : Except LuaError Unit

section Client

variable {σ τ : Type}

def resolveHost [Retains Bytes σ] (target : Target) (net : Upstream) : LuaM σ Bytes :=
  match target.hostIP, target.hostName with
  | some hostIP, _ => pure hostIP
  | none, none => raise (text "Either hostName or hostIP must be specified in request")
  | none, some _ => do
    ofExcept net.lookedUp
    suspend
    ofExcept net.resolved

/-- The address decides nothing here; what the connect brings is given. -/
def connect [Retains Bytes σ] (target : Target) (net : Upstream) : LuaM σ Conn := do
  let _ ← resolveHost target net
  suspend
  ofExcept net.connected

/-- The global `conn` as an object. -/
def globalConn : LuaM σ Conn := do
  let conn : Option Conn ← readGlobal .conn
  match conn with
  | some conn => pure conn
  | none => raise (text "attempt to index global 'conn' (a nil value)")

/-- `connectReq`: `luaw_conn` of the request, and the response object with a parser of its own. -/
def Exchange.connectReq (P : HttpParser τ) (target : Target) (net : Upstream) :
    LuaM (Exchange τ) Unit := do
  let x ← get
  let connected ← connect target net
  emit (.connected x.outgoing.peer)
  assign Global.conn (some connected)
  let _ ← globalConn
  ofExcept net.started
  let conn ← globalConn
  modify fun x => { x with outgoing := { x.outgoing with
    mesg := x.outgoing.mesg.withConn conn
    attached := true } }
  let conn ← globalConn
  modify fun x => { x with incoming :=
    ⟨clientSession P Http.newClientHttpResponse conn, true, none, none, none⟩ }

/-- `close` of a message that is read, and of one that is written. -/
def closeIncoming : LuaM (Incoming τ) Unit :=
  modify fun s => if s.attached then
    { s with session := { s.session with conn := s.session.conn.close }, attached := false } else s

def closeOutgoing : LuaM Outgoing Unit :=
  modify fun o => if o.attached then
    { o with mesg := o.mesg.withConn o.mesg.conn.close, attached := false } else o

end Client

/-- The functions of the library that a handler calls on one of its exchanges. A message that is
written is shown without its connection. -/
inductive Method where
  | incoming
  | setIncoming (req : Request)
  | outgoing
  | updateOutgoing (f : Message → Message)
  | startStreaming
  | appendBody (bodyPart : Option Bytes)
  | flush
  | closeOutgoing
  | readAndParse
  | readFull
  | isMultipart
  | nextPart (state : Multipart.Token)
  | readLuaPack (lpack : LuaPack.Reader) (fromReq : Bool)
  | closeIncoming
  | newClientHttpRequest
  | connect (target : Target)
  | execute (target : Target)

def Method.Return : Method → Type
  | incoming => Request
  | outgoing => Message
  | isMultipart => Bool
  | nextPart _ => Option Multipart.Yield
  | readLuaPack .. => Except LuaError LuaValue × LuaPack.Reader
  | execute _ => Request
  | _ => Unit

/-- What a handler does. An error of the library is handed to what follows, which may raise it
again. A loop that is never left is cut off somewhere. -/
inductive Script (α : Type) : Type
  | done (a : α)
  | raise (e : LuaError)
  | cutOff
  | call (kept : List Bytes) (peer : Peer) (method : Method)
      (k : List Bytes → Except LuaError method.Return → Script α)

abbrev PathParams := List (Bytes × LuaValue)

/-- A view, which is given the strings of the code of the application as they are now. -/
abbrev View := List Bytes → PathParams → LuaValue → Script Unit

/-- A handler with the path parameters of a request and the compiled views of its web
application. -/
structure Action where
  pathParams : PathParams
  handler : PathParams → Script (Result × LuaValue)
  compiledViews : List Bytes → Bytes → Option View

/-- What all requests have in common. `constants` are the strings of the code of the application at
first, those in the routes among them; `findAction` is given them as they are now. `fuel` bounds
every loop. -/
structure Env (τ : Type) where
  rt : Runtime
  parser : HttpParser τ
  tostring : LuaValue → Bytes
  constants : List Bytes
  findAction : List Bytes → Bytes → Option Bytes → Except LuaError (Option Action)
  fuel : Nat

/-- What belongs to one coroutine: the exchange with the client that it serves, those of the client
requests that its handlers make, and what becomes of the connects to come. Of the strings in the
code, which all coroutines share, it knows what they are now. -/
structure Serving (τ : Type) where
  served : Exchange τ
  clients : List (Nat × Exchange τ)
  networks : Nat → Upstream
  connects : Nat
  plus : Bytes
  constants : List Bytes

instance {τ : Type} : Retains Bytes (Serving τ) :=
  .fields (fun s => (s.served, s.clients, s.plus, s.constants))
    (fun (served, clients, plus, constants) s => { s with served, clients, plus, constants })
    fun _ => rfl

/-- The connection of a message that has none. -/
def noConnection : Conn := ⟨true, [], [], []⟩

/-- A client request before it is connected; its response is still to come. -/
def clientExchange {τ : Type} (P : HttpParser τ) (n : Nat) : Exchange τ where
  incoming := ⟨clientSession P Http.newClientHttpResponse noConnection, false, none, none, none⟩
  outgoing := ⟨.client n, Http.newClientHttpRequest noConnection, false⟩

namespace Serving

variable {τ : Type} (env : Env τ)

def exchange (peer : Peer) (s : Serving τ) : Exchange τ :=
  match peer with
  | .served => s.served
  | .client n => (s.clients.lookup n).getD (clientExchange env.parser n)

/-- Without the exchange with the peer. -/
def without (peer : Peer) (s : Serving τ) : Serving τ :=
  match peer with
  | .served => { s with served := clientExchange env.parser 0 }
  | .client n => { s with clients := s.clients.filter fun client => client.1 ≠ n }

def setExchange (peer : Peer) (x : Exchange τ) (s : Serving τ) : Serving τ :=
  match peer with
  | .served => { s with served := x }
  | .client n => { s with clients := (n, x) :: s.clients.filter fun client => client.1 ≠ n }

def on {α : Type} (peer : Peer) (m : LuaM (Exchange τ) α) : LuaM (Serving τ) α :=
  zoom (exchange env peer) (without env peer) (setExchange peer) m

def onIncoming {α : Type} (peer : Peer) (m : LuaM (Incoming τ) α) : LuaM (Serving τ) α :=
  on env peer (Exchange.onIncoming m)

def onOutgoing {α : Type} (peer : Peer) (m : LuaM Outgoing α) : LuaM (Serving τ) α :=
  on env peer (Exchange.onOutgoing m)

def startStreaming (peer : Peer) : LuaM (Serving τ) Unit := do
  let s ← get
  onOutgoing env peer (Concurrent.startStreaming env.rt s.plus)

def flush (peer : Peer) : LuaM (Serving τ) Unit := do
  let s ← get
  onOutgoing env peer (Concurrent.flush env.rt s.plus)

/-- What becomes of the next connect. -/
def nextUpstream : LuaM (Serving τ) Upstream := do
  let s ← get
  set { s with connects := s.connects + 1 }
  pure (s.networks s.connects)

end Serving

section Handlers

variable {τ : Type} (env : Env τ)

def newClientHttpRequest : Peer → LuaM (Serving τ) Unit
  | .served => pure ()
  | .client n => modify (Serving.setExchange (.client n) (clientExchange env.parser n))

def connectReq (peer : Peer) (target : Target) : LuaM (Serving τ) Unit := do
  let net ← Serving.nextUpstream
  Serving.on env peer (Exchange.connectReq env.parser target net)

def execute (peer : Peer) (target : Target) : LuaM (Serving τ) Request := do
  connectReq env peer target
  Serving.flush env peer
  Serving.onIncoming env peer (readFull env.parser env.fuel)
  let s ← get
  let resp := (s.exchange env peer).incoming.session.req
  Serving.onIncoming env peer (if resp.EOF then closeIncoming else pure ())
  pure resp

/-- A LuaPack reader is an object of its own; what it has read stays read when it raises. -/
def readLuaPack (lpack : LuaPack.Reader) (fromReq : Bool) :
    LuaM (Incoming τ) (Except LuaError LuaValue × LuaPack.Reader) :=
  zoom (fun s => ⟨lpack, fromReq, s⟩) (fun _ => ()) (fun (reading : LPack.Reading τ) _ =>
      reading.incoming) do
    let result ← pcall (LPack.read env.parser env.fuel)
    let reading ← get
    pure (result, reading.lpack)

def Method.run (peer : Peer) : (method : Method) → LuaM (Serving τ) method.Return
  | incoming => do
    let s ← get
    pure (s.exchange env peer).incoming.session.req
  | setIncoming req =>
    Serving.onIncoming env peer (modifySession fun session => { session with req })
  | outgoing => do
    let s ← get
    pure ((s.exchange env peer).outgoing.mesg.withConn noConnection)
  | updateOutgoing f =>
    Serving.onOutgoing env peer (modifyMesg fun m => (f (m.withConn noConnection)).withConn m.conn)
  | startStreaming => Serving.startStreaming env peer
  | appendBody bodyPart => Serving.onOutgoing env peer (Concurrent.appendBody env.rt bodyPart)
  | flush => Serving.flush env peer
  | closeOutgoing => Serving.onOutgoing env peer Concurrent.closeOutgoing
  | readAndParse => Serving.onIncoming env peer (Concurrent.readAndParse env.parser)
  | readFull => Serving.onIncoming env peer (Concurrent.readFull env.parser env.fuel)
  | isMultipart => Serving.onIncoming env peer Concurrent.isMultipart
  | nextPart state => do
    let part ← Serving.onIncoming env peer (fetchNextPart env.parser env.fuel state)
    emit (.part part)
    pure part
  | readLuaPack lpack fromReq =>
    Serving.onIncoming env peer (Concurrent.readLuaPack env lpack fromReq)
  | closeIncoming => Serving.onIncoming env peer Concurrent.closeIncoming
  | newClientHttpRequest => Concurrent.newClientHttpRequest env peer
  | connect target => connectReq env peer target
  | execute target => do
    let resp ← Concurrent.execute env peer target
    emit (.response resp)
    pure resp

def Script.run {α : Type} : Script α → LuaM (Serving τ) α
  | done a => pure a
  | raise e => Routine.raise e
  | cutOff => outOfFuel
  | call kept peer method k => do
    let (kept, result) ← keep kept (pcall (method.run env peer))
    (k kept result).run

end Handlers

section Dispatch

variable {τ : Type} (env : Env τ)

/-- The action for a request, none when there is nothing to dispatch. -/
def actionOf (constants : List Bytes) (req : Request) : Except LuaError (Option Action) :=
  match req.method, req.parsedURL with
  | some method, some parsedURL => do
    match ← env.findAction constants method parsedURL.path with
    | some action => pure (some action)
    | none => .error (text "No action found for path " ++ parsedURL.path.getD [] ++
        text " for method " ++ method)
  | _, _ => .ok none

def setStatus (code : Nat) : LuaM (Serving τ) Unit :=
  Serving.onOutgoing env .served (modifyMesg fun resp => resp.setStatus code)

def appendToBody (content : Bytes) : LuaM (Serving τ) Unit :=
  Serving.onOutgoing env .served (appendBody env.rt (some content))

/-- `BEGIN`, `TEXT` and `END`, which a view is given, append to the body. -/
def renderView (pathParams : PathParams) (model : LuaValue) (view : View) :
    LuaM (Serving τ) Unit := do
  let s ← get
  let req := s.served.incoming.session.req
  let ((pathParams, model), _) ← keep (pathParams, model)
    (if 1 ≤ req.majorVersion.getD 0 ∧ 1 ≤ req.minorVersion.getD 0 then
      Serving.startStreaming env .served
    else pure ())
  let s ← get
  (view s.constants pathParams model).run env

/-- The branch for a first value that is not a number. -/
def handleContent (action : Action) (pathParams : PathParams) (v1 : Result) (shown : Bytes) :
    LuaM (Serving τ) Unit := do
  setStatus env 200
  let v2 : LuaValue ← readGlobal .v2
  let s ← get
  match v1, v2.isFalsy with
  | .str path, false =>
    match action.compiledViews s.constants path with
    | none => raise (text "View '" ++ path ++ text "' is not defined")
    | some view => renderView env pathParams v2 view
  | _, _ => appendToBody env shown

/-- What `dispatchAction` does with the globals `v1` and `v2`. -/
def handleReturned (action : Action) (pathParams : PathParams) : LuaM (Serving τ) Unit := do
  let v1 : Result ← readGlobal .v1
  let s ← get
  if s.served.outgoing.attached then
    match v1 with
    | .nothing => pure ()
    | .status code => do
      setStatus env code
      let v2 : LuaValue ← readGlobal .v2
      if v2.isFalsy then pure () else appendToBody env (env.tostring v2)
    | .str s => handleContent env action pathParams v1 s
    | .other shown => handleContent env action pathParams v1 shown
  else pure ()

def dispatchAction : LuaM (Serving τ) Unit := do
  let s ← get
  let req := s.served.incoming.session.req
  let action ← ofExcept (actionOf env s.constants req)
  match action with
  | none => pure ()
  | some action =>
    Serving.onOutgoing env .served (modifyMesg fun resp => { resp with
      headers := resp.headers.assign (text "Connection")
        (if req.EOF then text "close" else text "Keep-Alive") })
    let (pathParams, returned) ←
      keep action.pathParams ((action.handler action.pathParams).run env)
    assign (S := lua) Global.v1 returned.1
    assign (S := lua) Global.v2 returned.2
    handleReturned env action pathParams
    let s ← get
    if s.served.outgoing.attached then Serving.flush env .served else pure ()

end Dispatch

section Serve

variable {τ : Type} (env : Env τ)

/-- A new request object, with a new parser. The objects of the last handler are gone. -/
def newServerHttpRequest : LuaM (Serving τ) Unit :=
  modify fun s => { s with
    served := { s.served with
      incoming := ⟨newSession env.parser s.served.incoming.session.conn, true, none, none, none⟩ }
    clients := [] }

def newServerHttpResponse : LuaM (Serving τ) Unit :=
  modify fun s => { s with served := { s.served with
    outgoing := ⟨.served, Http.newServerHttpResponse s.served.incoming.session.conn, true⟩ } }

/-- `conn:close()`. -/
def closeServed : LuaM (Serving τ) Unit := Serving.onIncoming env .served closeConn

/-- The error path: what the calls return is not looked at. -/
def sendError (errMesg : LuaError) : LuaM (Serving τ) Unit := do
  Serving.onOutgoing env .served (modifyMesg fun resp =>
    (resp.setStatus 500).addHeader (text "Connection") (text "close"))
  let _ ← pcall (appendToBody env errMesg)
  let _ ← pcall (Serving.flush env .served)
  closeServed env

/-- The loop of `serviceHTTP`. -/
def serviceLoop : Nat → LuaM (Serving τ) Bytes
  | 0 => outOfFuel
  | fuel + 1 => do
    newServerHttpRequest env
    let status ← pcall (Serving.onIncoming env .served (readFull env.parser env.fuel))
    let s ← get
    match status with
    | .error _ => do
      closeServed env
      pure (text "connection reset by peer")
    | .ok _ =>
      if s.served.incoming.session.req.EOF then do
        closeServed env
        pure (text "read time out")
      else do
        newServerHttpResponse
        let status ← pcall (dispatchAction env)
        let s ← get
        match status with
        | .error errMesg => do
          let (errMesg, _) ← keep errMesg (sendError env errMesg)
          raise errMesg
        | .ok _ =>
          if s.served.incoming.session.req.EOF then do
            closeServed env
            pure (text "connection reset by peer")
          else serviceLoop fuel

def serviceHTTP (started : Except LuaError Unit) : LuaM (Serving τ) Bytes := do
  ofExcept started
  serviceLoop env env.fuel

end Serve

section Owning

variable {σ τ α : Type}

theorem resolveHost_owns [Retains Bytes σ] (target : Target) (net : Upstream) :
    Owns ∅ (resolveHost target net : LuaM σ Bytes) ∅ := by
  rw [resolveHost]
  split
  · exact .pure _
  · exact .raise _
  · exact .bind (.ofExcept _) fun _ => .bind .suspend fun _ => .ofExcept _

theorem connect_owns [Retains Bytes σ] (target : Target) (net : Upstream) :
    Owns ∅ (connect target net : LuaM σ Conn) ∅ :=
  .bind (resolveHost_owns target net) fun _ => .bind .suspend fun _ => .ofExcept _

theorem globalConn_owns {W : Set Global} (h : Global.conn ∈ W) :
    Owns W (globalConn : LuaM σ Conn) W := by
  apply Owns.bind (readGlobal_owns h)
  intro conn
  cases conn with
  | none => exact .raise _
  | some conn => exact .pure _

/-- Nothing suspends between the assignment to `conn` and its last use. -/
theorem Exchange.connectReq_owns (P : HttpParser τ) (target : Target) (net : Upstream) :
    Owns ∅ (Exchange.connectReq P target net) ∅ := by
  have hconn : Global.conn ∈ insert Global.conn (∅ : Set Global) := Set.mem_insert _ _
  apply Owns.bind .get
  intro x
  apply Owns.bind (connect_owns target net)
  intro connected
  apply Owns.bind (.emit _)
  intro _
  apply Owns.bind (.assign _ _)
  intro _
  apply Owns.bind (globalConn_owns hconn)
  intro _
  apply Owns.bind (.ofExcept _)
  intro _
  apply Owns.bind (globalConn_owns hconn)
  intro _
  apply Owns.bind (.modify _)
  intro _
  apply Owns.bind (globalConn_owns hconn)
  intro _
  exact .weaken (.modify _) (Set.empty_subset _)

variable (env : Env τ)

theorem onIncoming_owns (peer : Peer) {m : LuaM (Incoming τ) α} (h : Owns ∅ m ∅) :
    Owns ∅ (Serving.onIncoming env peer m) ∅ := .zoom (.zoom h)

theorem onOutgoing_owns (peer : Peer) {m : LuaM Outgoing α} (h : Owns ∅ m ∅) :
    Owns ∅ (Serving.onOutgoing env peer m) ∅ := .zoom (.zoom h)

theorem Serving.startStreaming_owns (peer : Peer) : Owns ∅ (Serving.startStreaming env peer) ∅ :=
  .bind .get fun _ => onOutgoing_owns env peer (Concurrent.startStreaming_owns _ _)

theorem Serving.flush_owns (peer : Peer) : Owns ∅ (Serving.flush env peer) ∅ :=
  .bind .get fun _ => onOutgoing_owns env peer (Concurrent.flush_owns _ _)

theorem connectReq_owns (peer : Peer) (target : Target) :
    Owns ∅ (connectReq env peer target) ∅ := by
  have hnext : Owns ∅ (Serving.nextUpstream : LuaM (Serving τ) Upstream) ∅ :=
    .bind .get fun _ => .bind (.set _) fun _ => .pure _
  exact .bind hnext fun net => .zoom (Exchange.connectReq_owns env.parser target net)

theorem execute_owns (peer : Peer) (target : Target) : Owns ∅ (execute env peer target) ∅ := by
  apply Owns.bind (connectReq_owns env peer target)
  intro _
  apply Owns.bind (Serving.flush_owns env peer)
  intro _
  apply Owns.bind (onIncoming_owns env peer (readFull_owns env.parser env.fuel))
  intro _
  apply Owns.bind .get
  intro s
  exact .bind (onIncoming_owns env peer (.ite (.modify _) (.pure _))) fun _ => .pure _

theorem method_owns (peer : Peer) (method : Method) : Owns ∅ (method.run env peer) ∅ := by
  cases method with
  | incoming => exact .bind .get fun _ => .pure _
  | setIncoming req => exact onIncoming_owns env peer (.modify _)
  | outgoing => exact .bind .get fun _ => .pure _
  | updateOutgoing f => exact onOutgoing_owns env peer (.modify _)
  | startStreaming => exact Serving.startStreaming_owns env peer
  | appendBody bodyPart => exact onOutgoing_owns env peer (appendBody_owns env.rt bodyPart)
  | flush => exact Serving.flush_owns env peer
  | closeOutgoing => exact onOutgoing_owns env peer (.modify _)
  | readAndParse => exact onIncoming_owns env peer (readAndParse_owns env.parser)
  | readFull => exact onIncoming_owns env peer (readFull_owns env.parser env.fuel)
  | isMultipart => exact onIncoming_owns env peer isMultipart_owns
  | nextPart state =>
    apply Owns.bind (onIncoming_owns env peer (fetchNextPart_owns env.parser env.fuel state))
    intro part
    exact .bind (.emit _) fun _ => .pure _
  | readLuaPack lpack fromReq =>
    apply onIncoming_owns env peer
    apply Owns.zoom
    apply Owns.bind (.pcall (LPack.read_owns env.parser env.fuel))
    intro result
    exact .bind .get fun _ => .pure _
  | closeIncoming => exact onIncoming_owns env peer (.modify _)
  | newClientHttpRequest =>
    cases peer with
    | served => exact .pure _
    | client n => exact .modify _
  | connect target => exact connectReq_owns env peer target
  | execute target =>
    apply Owns.bind (execute_owns env peer target)
    intro resp
    exact .bind (.emit _) fun _ => .pure _

/-- Whatever a handler does with what it is given, it does not come near the globals. -/
theorem script_owns (script : Script α) : Owns ∅ (script.run env) ∅ := by
  induction script with
  | done a => exact .pure a
  | raise e => exact .raise e
  | cutOff => exact .outOfFuel
  | call kept peer method k ih =>
    exact .bind (.keep (.pcall (method_owns env peer method))) fun _ => ih _ _

variable {W : Set Global}

theorem setStatus_owns (code : Nat) : Owns W (setStatus env code) W := .zoom (.zoom (.modify _))

theorem appendToBody_owns (content : Bytes) : Owns W (appendToBody env content) ∅ :=
  (onOutgoing_owns env .served (appendBody_owns env.rt (some content))).conseq (Set.empty_subset W)

theorem renderView_owns (pathParams : PathParams) (model : LuaValue) (view : View) :
    Owns W (renderView env pathParams model view) ∅ := by
  apply Owns.conseq (W := ∅) _ (Set.empty_subset W)
  apply Owns.bind .get
  intro s
  apply Owns.bind (.keep (.ite (Serving.startStreaming_owns env .served) (.pure _)))
  intro kept
  exact .bind .get fun _ => script_owns env _

theorem handleContent_owns (h : Global.v2 ∈ W) (action : Action) (pathParams : PathParams)
    (v1 : Result) (shown : Bytes) :
    Owns W (handleContent env action pathParams v1 shown) ∅ := by
  apply Owns.bind (setStatus_owns env 200)
  intro _
  apply Owns.bind (readGlobal_owns h)
  intro v2
  apply Owns.bind .get
  intro s
  split
  · split
    · exact .raise _
    · exact renderView_owns env _ _ _
  · exact appendToBody_owns env shown

/-- The values of the handler are read before anything is sent. -/
theorem handleReturned_owns (h₁ : Global.v1 ∈ W) (h₂ : Global.v2 ∈ W) (action : Action)
    (pathParams : PathParams) : Owns W (handleReturned env action pathParams) ∅ := by
  have hnothing : Owns W (pure () : LuaM (Serving τ) Unit) ∅ :=
    .weaken (.pure _) (Set.empty_subset W)
  apply Owns.bind (readGlobal_owns h₁)
  intro v1
  apply Owns.bind .get
  intro s
  apply Owns.ite _ hnothing
  cases v1 with
  | nothing => exact hnothing
  | status code =>
    apply Owns.bind (setStatus_owns env code)
    intro _
    apply Owns.bind (readGlobal_owns h₂)
    intro v2
    exact .ite hnothing (appendToBody_owns env _)
  | str s => exact handleContent_owns env h₂ action pathParams _ s
  | other shown => exact handleContent_owns env h₂ action pathParams _ shown

theorem dispatchAction_owns : Owns ∅ (dispatchAction env) ∅ := by
  apply Owns.bind .get
  intro s
  apply Owns.bind (.ofExcept _)
  intro action
  cases action with
  | none => exact .pure _
  | some action =>
    apply Owns.bind (onOutgoing_owns env .served (.modify _))
    intro _
    apply Owns.bind (.keep (script_owns env _))
    rintro ⟨pathParams, returned⟩
    apply Owns.bind (.assign _ _)
    intro _
    apply Owns.bind (.assign _ _)
    intro _
    apply Owns.bind (handleReturned_owns env (by simp) (by simp) action pathParams)
    intro _
    exact .bind .get fun _ => .ite (Serving.flush_owns env .served) (.pure _)

theorem sendError_owns (errMesg : LuaError) : Owns ∅ (sendError env errMesg) ∅ := by
  apply Owns.bind (onOutgoing_owns env .served (.modify _))
  intro _
  apply Owns.bind (.pcall (appendToBody_owns env errMesg))
  intro _
  apply Owns.bind (.pcall (Serving.flush_owns env .served))
  intro _
  exact onIncoming_owns env .served (.modify _)

theorem serviceLoop_owns (fuel : Nat) : Owns ∅ (serviceLoop env fuel) ∅ := by
  have hclose (result : Bytes) :
      Owns ∅ (closeServed env >>= fun _ => pure result : LuaM (Serving τ) Bytes) ∅ :=
    .bind (onIncoming_owns env .served (.modify _)) fun _ => .pure _
  induction fuel with
  | zero => exact .outOfFuel
  | succ fuel ih =>
    apply Owns.bind (.modify _)
    intro _
    apply Owns.bind (.pcall (onIncoming_owns env .served (readFull_owns env.parser env.fuel)))
    intro status
    apply Owns.bind .get
    intro s
    cases status with
    | error errmesg => exact hclose _
    | ok _ =>
      apply Owns.ite (hclose _)
      apply Owns.bind (.modify _)
      intro _
      apply Owns.bind (.pcall (dispatchAction_owns env))
      intro status
      apply Owns.bind .get
      intro s
      cases status with
      | error errMesg => exact .bind (.keep (sendError_owns env errMesg)) fun _ => .raise _
      | ok _ => exact .ite (hclose _) ih

theorem serviceHTTP_owns (started : Except LuaError Unit) :
    Owns ∅ (serviceHTTP env started) ∅ :=
  .bind (.ofExcept _) fun _ => serviceLoop_owns env env.fuel

end Owning

end Luaw.Concurrent
