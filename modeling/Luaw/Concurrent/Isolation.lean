import Luaw.Concurrent.Serving
import Luaw.Parsing.Exchange

/-!
# Requests that do not interfere

The coroutines of a server, each of which serves a connection, take turns in some order. None of
them reads from a global what another one has assigned. The strings are another matter: a request
whose query string is decoded changes equal strings of the requests that are served meanwhile.
Where that does not happen, each coroutine does what it does when it is the only one.
-/

namespace Luaw.Concurrent

open Lua Http

/-- What the sockets of a coroutine bring: the connection that it serves, the status of
`startReading`, and what becomes of each connect. -/
structure Sockets where
  conn : Conn
  started : Except LuaError Unit
  networks : Nat → Upstream

section

variable {τ ι : Type} [DecidableEq ι] (env : Env τ)

/-- The state in which a connection has been accepted; nothing has been made of it yet. -/
def Sockets.accepted (sockets : Sockets) : Serving τ where
  served :=
    { incoming := ⟨newSession env.parser sockets.conn, true, none, none, none⟩
      outgoing := ⟨.served, Http.newServerHttpResponse sockets.conn, true⟩ }
  clients := []
  networks := sockets.networks
  connects := 0
  plus := text "+"
  constants := env.constants

/-- The coroutine that serves a connection. It starts with its first turn. -/
def serve (sockets : Sockets) : Coroutine lua (Except (Program.Stop LuaError) Bytes × Serving τ) :=
  Routine.exec (do Routine.suspend; serviceHTTP env sockets.started) (sockets.accepted env)

theorem serve_isolated (sockets : Sockets) : (serve env sockets).Isolated :=
  Coroutine.Owning.isolated (P := fun r Z => ∀ a, r.1 = .ok a → ∅ ⊆ Z)
    (Routine.Owns.bind .suspend (fun _ => serviceHTTP_owns env sockets.started)
      (sockets.accepted env))

theorem serve_holdsAll (sockets : Sockets) : (serve env sockets).HoldsAll :=
  Routine.holdsAll (do Routine.suspend; serviceHTTP env sockets.started) (sockets.accepted env)

/-- The coroutines that serve the connections, before their first turns. -/
def serving (sockets : ι → Sockets) :
    Coroutine.Machine ι lua (Except (Program.Stop LuaError) Bytes × Serving τ) :=
  .start Global.initial fun i => serve env (sockets i)

/-- A connection that is the only one to be served, before its first turn. -/
def servedAlone (sockets : Sockets) :
    Coroutine.Machine Unit lua (Except (Program.Stop LuaError) Bytes × Serving τ) :=
  .alone Global.initial (serve env sockets)

end

section Echo

open Parsing (ValidParser serverParser)

/-- The bytes that a peer is sent. -/
def sentTo (peer : Peer) (log : List Observation) : Bytes :=
  log.flatMap fun
    | .sent p str => if p = peer then str else []
    | _ => []

def tagOf (req : Request) : Bytes :=
  match req.headers.get? (text "X-Tag") with
  | some (.single tag) => tag
  | _ => []

/-- A handler that answers a request with its tag. -/
def echoTag : Script (Result × LuaValue) :=
  .call [] .served .incoming fun _ result =>
    match result with
    | .ok req => .done (.str (tagOf req), .nil)
    | .error e => .raise e

def echoEnv : Env ValidParser where
  rt := .default
  parser := serverParser ⟨fun _ _ _ => 0, fun _ => true⟩ fun _ _ => none
  tostring _ := []
  constants := []
  findAction _ _ _ := .ok (some ⟨[], fun _ => echoTag, fun _ _ => none⟩)
  fuel := 16

def socketsOf (reads : List Bytes) : Sockets where
  conn := ⟨false, reads.map .ok, [], []⟩
  started := .ok ()
  networks _ := ⟨.ok (), .ok [], .ok noConnection, .ok ()⟩

/-- A request with a tag, which comes in two reads, and a request with a query string. -/
def tagAndQuery (query : Bytes) : Bool → Sockets
  | false => socketsOf [text "GET / HTTP/1.1\r\nX-Tag: k=a+b\r\n", CRLF]
  | true => socketsOf [text "GET /?" ++ query ++ text " HTTP/1.1\r\n\r\n"]

/-- The query string is decoded while the request with the tag waits for its second read. -/
def queryBetween : List Bool := [false, false, true, true, false, false, false]

/-- What `hex_ch` holds. -/
def holding (ch : UInt8) : ℕ → Nat → Bool → UInt8 := fun _ _ _ => ch

end Echo

end Luaw.Concurrent
