import Luaw.Foundations.Transition
import Luaw.Tcp.Socket

/-!
# One connection and its threads

A callback that resumes several threads resumes the first one at once; while that one runs, the
others are still to be resumed. No callback of libuv comes before they all have been.
-/

namespace Luaw.Tcp

/-- The threads that are suspended, the resumes that functions of `luaw_tcp.c` have still to make,
and those that found their thread not suspended. -/
structure Threads where
  blocked : Nat → Option Op
  resumes : List Wakeup
  strays : List Wakeup

namespace Threads

def wake (threads : Threads) (w : Wakeup) : Threads :=
  if threads.blocked w.tid = none then { threads with strays := threads.strays ++ [w] }
  else { threads with blocked := Function.update threads.blocked w.tid none }

/-- A function resumes the first thread at once. -/
def issue (threads : Threads) : List Wakeup → Threads
  | [] => threads
  | w :: woken => wake { threads with resumes := woken ++ threads.resumes } w

def suspend (threads : Threads) : Option (Nat × Op) → Threads
  | none => threads
  | some (tid, op) => { threads with blocked := Function.update threads.blocked tid (some op) }

/-- A suspended thread calls no method, and callbacks are not nested. -/
def Admits (threads : Threads) (e : ConnEvent) : Prop :=
  (∀ tid ∈ e.caller, threads.blocked tid = none) ∧ (e.isCallback = true → threads.resumes = [])

instance (threads : Threads) (e : ConnEvent) : Decidable (threads.Admits e) :=
  inferInstanceAs (Decidable (_ ∧ _))

variable (threads : Threads)

theorem wake_blocked (w : Wakeup) (tid : Nat) :
    (threads.wake w).blocked tid = if tid = w.tid then none else threads.blocked tid := by
  rw [wake]
  by_cases htid : tid = w.tid
  · rw [if_pos htid, htid]
    split
    · assumption
    · exact Function.update_self ..
  · rw [if_neg htid]
    split
    · rfl
    · exact Function.update_of_ne htid ..

theorem wake_resumes (w : Wakeup) : (threads.wake w).resumes = threads.resumes := by
  rw [wake]
  split <;> rfl

theorem wake_strays {w : Wakeup} (h : threads.blocked w.tid ≠ none) :
    (threads.wake w).strays = threads.strays := by
  rw [wake, if_neg h]

theorem issue_resumes (woken : List Wakeup) :
    (threads.issue woken).resumes = woken.tail ++ threads.resumes := by
  cases woken with
  | nil => rfl
  | cons w woken => exact wake_resumes _ w

theorem issue_blocked (woken : List Wakeup) (tid : Nat) :
    (threads.issue woken).blocked tid =
      if some tid = (woken.map Wakeup.tid).head? then none else threads.blocked tid := by
  cases woken with
  | nil => exact (if_neg nofun).symm
  | cons w woken =>
    rw [issue, wake_blocked]
    simp only [List.map_cons, List.head?_cons, Option.some_inj]

/-- A thread that is not the first to be resumed stays suspended. -/
theorem issue_blocked_of_ne {woken : List Wakeup} {tid : Nat}
    (h : (woken.map Wakeup.tid).head? ≠ some tid) :
    (threads.issue woken).blocked tid = threads.blocked tid := by
  rw [issue_blocked, if_neg (Ne.symm h)]

theorem issue_strays {woken : List Wakeup}
    (h : ∀ w ∈ woken, threads.blocked w.tid ≠ none) :
    (threads.issue woken).strays = threads.strays := by
  cases woken with
  | nil => rfl
  | cons w woken => exact wake_strays _ (h w List.mem_cons_self)

end Threads

structure WaitState where
  socket : Socket
  threads : Threads

inductive WaitEvent where
  | conn (e : ConnEvent)
  | resume
  deriving DecidableEq, Repr

def WaitState.step (s : WaitState) : WaitEvent → Option WaitState
  | .conn e =>
    if s.threads.Admits e then
      (s.socket.step e).map fun (socket, woken, suspended) =>
        ⟨socket, (s.threads.issue woken).suspend suspended⟩
    else none
  | .resume =>
    match s.threads.resumes with
    | [] => none
    | w :: resumes => some { s with threads := Threads.wake { s.threads with resumes } w }

/-- A connection that was accepted by the server, or that `connect` has created: the thread that
called it is then suspended, whatever `client_connect` returned. -/
inductive Starts (connectTimeout : Int) : WaitState → Prop where
  | accept : Starts connectTimeout ⟨⟨newConnection, false⟩, ⟨fun _ => none, [], []⟩⟩
  | connect {port : Int} {tid : Nat} {ip4Addr : Bool} {request : UvRequest}
      {conn : Connection} {started : Bool}
      (hconnect : clientConnect port tid connectTimeout ip4Addr request = (some conn, started)) :
      Starts connectTimeout
        ⟨⟨conn, started⟩, ⟨Function.update (fun _ => none) tid (some .connect), [], []⟩⟩

/-- A step of the connection. -/
theorem WaitState.step_conn {s s' : WaitState} {e : ConnEvent}
    (h : s.step (.conn e) = some s') :
    s.threads.Admits e ∧ ∃ socket woken suspended,
      s.socket.step e = some (socket, woken, suspended) ∧
        s' = ⟨socket, (s.threads.issue woken).suspend suspended⟩ := by
  rw [step] at h
  split at h
  · next hadmits =>
    obtain ⟨⟨socket, woken, suspended⟩, hstep, rfl⟩ := Option.map_eq_some_iff.mp h
    exact ⟨hadmits, socket, woken, suspended, hstep, rfl⟩
  · cases h

theorem WaitState.step_resume {s s' : WaitState} (h : s.step .resume = some s') :
    ∃ w resumes, s.threads.resumes = w :: resumes ∧
      s' = { s with threads := Threads.wake { s.threads with resumes } w } := by
  rw [step] at h
  split at h
  · cases h
  · next w resumes hresumes =>
    cases h
    exact ⟨w, resumes, hresumes, rfl⟩

section Resumes

variable {e : ConnEvent} {woken : List Wakeup} {suspended : Option (Nat × Op)}

theorem Threads.suspend_resumes (threads : Threads) (suspended : Option (Nat × Op)) :
    (threads.suspend suspended).resumes = threads.resumes := by
  cases suspended <;> rfl

/-- Only a function that closes the connection resumes more than one thread. -/
theorem Effect.closed_of_tail {s socket : Socket} (h : Effect s e socket woken suspended)
    (htail : woken.tail ≠ []) : socket.conn.Closed := by
  have hone : ∀ {tid : Nat}, woken.map Wakeup.tid = [tid].filter (· ≠ 0) → False := by
    intro tid hwoken
    have hlength := congrArg List.length hwoken
    have hfilter := List.length_filter_le (fun tid : Nat => decide (tid ≠ 0)) [tid]
    have htwo := List.length_pos_iff.mpr htail
    rw [List.length_map] at hlength
    rw [List.length_tail] at htwo
    rw [List.length_singleton] at hfilter
    omega
  cases h with
  | closes hclosed => exact hclosed
  | receives bytes buffer hwoken => exact (hone hwoken).elim
  | written hpending hwoken => exact (hone hwoken).elim
  | connected hreq hwoken => exact (hone hwoken).elim
  | stays | restarts | readsNothing | readWaits | writeWaits => exact absurd rfl htail

/-- No thread has the id zero. -/
theorem Effect.blocked_zero {s socket : Socket} {threads : Threads} {e : ConnEvent}
    {woken : List Wakeup} {suspended : Option (Nat × Op)}
    (h : Effect s e socket woken suspended) (hzero : threads.blocked 0 = none) :
    ((threads.issue woken).suspend suspended).blocked 0 = none := by
  have hissue : (threads.issue woken).blocked 0 = none := by
    rw [Threads.issue_blocked, hzero]
    exact ite_self none
  cases h with
  | readWaits readTimeout htid _ _ => exact (Function.update_of_ne htid.symm ..).trans hissue
  | writeWaits buff writeTimeout htid _ => exact (Function.update_of_ne htid.symm ..).trans hissue
  | _ => exact hissue

/-- Resumes are left to be made only by a function that has closed the connection. -/
theorem WaitState.closed_of_resumes {s s' : WaitState} (hwf : s.socket.conn.Wf)
    (hclosed : s.threads.resumes ≠ [] → s.socket.conn.Closed)
    (hs' : s.step (.conn e) = some s') : s'.threads.resumes ≠ [] → s'.socket.conn.Closed := by
  obtain ⟨-, socket, woken, suspended, hstep, rfl⟩ := WaitState.step_conn hs'
  show ((s.threads.issue woken).suspend suspended).resumes ≠ [] → socket.conn.Closed
  rw [Threads.suspend_resumes, Threads.issue_resumes]
  intro hne
  by_cases hnone : s.threads.resumes = []
  · rw [hnone, List.append_nil] at hne
    obtain ⟨hopen, hhandle⟩ | hclosed := hwf
    · exact (Socket.step_open hopen hhandle hstep).closed_of_tail hne
    · exact (Socket.step_closed hclosed hstep).1
  · exact (Socket.step_closed (hclosed hnone) hstep).1

end Resumes

/-- What `client_connect` has created: a connection that is closed again, or one that waits for its
connect request. -/
theorem clientConnect_cases {port : Int} {tid : Nat} {connectTimeout : Int} {ip4Addr : Bool}
    {request : UvRequest} {conn : Connection} {started : Bool}
    (h : clientConnect port tid connectTimeout ip4Addr request = (some conn, started)) :
    tid ≠ 0 ∧ ((started = false ∧ conn.Closed) ∨
      (started = true ∧ conn = { newConnection with
        luaWriterTid := tid
        writeTimer := startTimer newConnection.writeTimer connectTimeout })) := by
  unfold clientConnect at h
  split at h
  · cases h
  · split at h
    · cases h
    · next htid =>
      refine ⟨htid, ?_⟩
      split at h
      · cases h
      · cases request with
        | noMemory =>
          cases h
          exact .inl ⟨rfl, (closeConnection_open rfl rfl _).1⟩
        | refused e =>
          cases h
          exact .inl ⟨rfl, (closeConnection_open rfl rfl _).1⟩
        | accepted =>
          cases h
          exact .inr ⟨rfl, rfl⟩

end Luaw.Tcp
