import Luaw.Tcp.Waiting

/-!
# The connections of a server

All connections, and all threads that are suspended in `connect`, `read` or `write` of
`luaw_tcp.lua`. What will resume them is recorded in a DNS request, in a connection, or it is
already being done.
-/

namespace Luaw.Tcp

/-- `dns_resolve`: whether the request was made. -/
def dnsResolve (tid : Nat) (request : UvRequest) : Bool :=
  if tid = 0 then false
  else
    match request with
    | .noMemory => false
    | .refused _ => false
    | .accepted => true

/-- `on_resolved`, for the thread id that the request has recorded; `resolved` is the address, or
the status. -/
def onResolved (tid : Nat) (resolved : Except UvError Bytes) : List Wakeup :=
  match resolved with
  | .error e => resumeLuaThread tid false (.strerror e)
  | .ok ip => resumeLuaThread tid true (.str ip)

structure LibState where
  sockets : List Socket
  resolvers : List Nat
  threads : Threads

/-- `resolveDNS` and `connect` are the two parts of `connect`: up to the first `coroutine.yield`,
and from there, or from the beginning if the address is given. -/
inductive LibEvent where
  | resolveDNS (tid : Nat) (request : UvRequest)
  | onResolved (tid : Nat) (resolved : Except UvError Bytes)
  | connect (tid : Nat) (port connectTimeout : Int) (ip4Addr : Bool) (request : UvRequest)
  | onServerConnect
  | conn (c : Nat) (e : ConnEvent)
  | resume

namespace LibState

def start : LibState := ⟨[], [], ⟨fun _ => none, [], []⟩⟩

def step (s : LibState) : LibEvent → Option LibState
  | .resolveDNS tid request =>
    if tid ≠ 0 ∧ s.threads.blocked tid = none then
      -- the thread raises an error if there is no request
      some (if dnsResolve tid request then
        { s with
          resolvers := tid :: s.resolvers
          threads := s.threads.suspend (some (tid, .connect)) }
      else s)
    else none
  | .onResolved tid resolved =>
    if tid ∈ s.resolvers ∧ s.threads.resumes = [] then
      some { s with
        resolvers := s.resolvers.erase tid
        threads := s.threads.issue (onResolved tid resolved) }
    else none
  | .connect tid port connectTimeout ip4Addr request =>
    if tid ≠ 0 ∧ s.threads.blocked tid = none then
      -- the thread yields whatever `client_connect` returns
      let (conn, started) := clientConnect port tid connectTimeout ip4Addr request
      some { s with
        sockets := s.sockets ++ conn.toList.map fun conn => ⟨conn, started⟩
        threads := s.threads.suspend (some (tid, .connect)) }
    else none
  | .onServerConnect =>
    if s.threads.resumes = [] then
      some { s with sockets := s.sockets ++ [⟨newConnection, false⟩] }
    else none
  | .conn c e =>
    match s.sockets[c]? with
    | none => none
    | some socket =>
      if s.threads.Admits e then
        (socket.step e).map fun (socket, woken, suspended) =>
          { s with
            sockets := s.sockets.set c socket
            threads := (s.threads.issue woken).suspend suspended }
      else none
  | .resume =>
    match s.threads.resumes with
    | [] => none
    | w :: resumes => some { s with threads := Threads.wake { s.threads with resumes } w }

/-- The ids recorded in a connection that is not closed. -/
def socketSources (socket : Socket) : List Nat :=
  if socket.conn.luaRef then socket.conn.ids else []

/-- The thread ids recorded for a wake-up to come. -/
def sources (s : LibState) : List Nat :=
  s.resolvers ++ s.sockets.flatMap socketSources ++ s.threads.resumes.map Wakeup.tid

/-- A step of one of the connections. -/
theorem step_conn {s s' : LibState} {c : Nat} {e : ConnEvent}
    (h : s.step (.conn c e) = some s') :
    ∃ socket, s.sockets[c]? = some socket ∧ s.threads.Admits e ∧
      ∃ socket' woken suspended, socket.step e = some (socket', woken, suspended) ∧
        s' = { s with
          sockets := s.sockets.set c socket'
          threads := (s.threads.issue woken).suspend suspended } := by
  rw [step] at h
  split at h
  · cases h
  · next socket hsocket =>
    split at h
    · next hadmits =>
      obtain ⟨⟨socket', woken, suspended⟩, hstep, rfl⟩ := Option.map_eq_some_iff.mp h
      exact ⟨socket, hsocket, hadmits, socket', woken, suspended, hstep, rfl⟩
    · cases h

theorem step_connect {s s' : LibState} {tid : Nat} {port connectTimeout : Int} {ip4Addr : Bool}
    {request : UvRequest} (h : s.step (.connect tid port connectTimeout ip4Addr request) = some s') :
    let r := clientConnect port tid connectTimeout ip4Addr request
    tid ≠ 0 ∧ s' = { s with
      sockets := s.sockets ++ r.1.toList.map fun conn => ⟨conn, r.2⟩
      threads := s.threads.suspend (some (tid, .connect)) } := by
  rw [step] at h
  split at h
  · next hrun => exact ⟨hrun.1, (Option.some.inj h).symm⟩
  · cases h

section Sources

variable {s : LibState} {socket : Socket} {c : Nat}

theorem count_flatMap_set {sockets : List Socket} (h : sockets[c]? = some socket)
    (socket' : Socket) (tid : Nat) :
    ((sockets.set c socket').flatMap socketSources).count tid + (socketSources socket).count tid =
      (sockets.flatMap socketSources).count tid + (socketSources socket').count tid := by
  induction sockets generalizing c with
  | nil => cases h
  | cons first sockets ih =>
    cases c with
    | zero =>
      cases h
      rw [List.set_cons_zero, List.flatMap_cons, List.flatMap_cons, List.count_append,
        List.count_append]
      omega
    | succ c =>
      have hrest := ih (c := c) h
      rw [List.set_cons_succ, List.flatMap_cons, List.flatMap_cons, List.count_append,
        List.count_append]
      omega

/-- An id is counted for each place in which it is recorded. -/
theorem count_sources (s : LibState) (tid : Nat) :
    s.sources.count tid = s.resolvers.count tid + (s.sockets.flatMap socketSources).count tid +
      (s.threads.resumes.map Wakeup.tid).count tid := by
  rw [sources, List.count_append, List.count_append]

end Sources

end LibState

end Luaw.Tcp
