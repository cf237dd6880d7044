import Luaw.Tcp.Library

/-!
# A thread that waits is going to be resumed

`connect` suspends its thread also when `client_connect` has failed, `read` and `write` record a
thread over another one that waits, and `on_client_connect` leaves an id behind. Without these,
each suspended thread is recorded for exactly one wake-up.
-/

namespace Luaw.Tcp

open Transition LibState

/-- Each suspended thread is recorded for one wake-up. -/
def PendingOnce (s : LibState) : Prop :=
  ∀ tid, s.threads.blocked tid ≠ none → s.sources.count tid = 1

/-- The call does not write over the id of a thread that waits, and suspends no thread whose id is
recorded somewhere else. -/
def ConnWaitsOnce (s : LibState) (conn : Connection) : ConnEvent → Prop
  | .startReading _ => s.threads.blocked conn.luaReaderTid = none
  | .read tid _ =>
    tid ≠ 0 → conn.handle.active = true → conn.readLen = 0 →
      s.threads.blocked conn.luaReaderTid = none ∧
        s.sources.count tid = if conn.luaReaderTid = tid then 1 else 0
  | .write tid buff _ none =>
    tid ≠ 0 → buff ≠ [] →
      s.threads.blocked conn.luaWriterTid = none ∧
        s.sources.count tid = if conn.luaWriterTid = tid then 1 else 0
  | .close =>
    s.threads.blocked conn.luaReaderTid = none ∧ s.threads.blocked conn.luaWriterTid = none
  | _ => True

/-- A thread whose connect fails is recorded for one wake-up all the same: for one that
`on_client_connect` has left. -/
def WaitsOnce (s : LibState) : LibEvent → Prop
  | .resolveDNS tid request => request = .accepted → s.sources.count tid = 0
  | .connect tid port _ ip4Addr request =>
    s.sources.count tid = if port ≠ 0 ∧ ip4Addr = true ∧ request = .accepted then 0 else 1
  | .conn c e =>
    ∀ socket, s.sockets[c]? = some socket → socket.conn.luaRef = true →
      ConnWaitsOnce s socket.conn e
  | _ => True

structure PendingInvariant (s : LibState) : Prop where
  pending : PendingOnce s
  wf : ∀ socket ∈ s.sockets, socket.conn.Wf
  zero : s.threads.blocked 0 = none

section Counts

variable {tid : Nat}

theorem count_slot (h : tid ≠ 0) (slot : Nat) :
    ([slot].filter (· ≠ 0)).count tid = if slot = tid then 1 else 0 := by
  by_cases hslot : slot = 0
  · rw [hslot, if_neg h.symm]
    rfl
  · rw [List.filter_cons_of_pos (by simpa using hslot), List.filter_nil, List.count_singleton]
    simp only [beq_iff_eq]

theorem count_ids (h : tid ≠ 0) (conn : Connection) :
    conn.ids.count tid = (if conn.luaReaderTid = tid then 1 else 0) +
      if conn.luaWriterTid = tid then 1 else 0 := by
  have hids : conn.ids = [conn.luaReaderTid].filter (· ≠ 0) ++
      [conn.luaWriterTid].filter (· ≠ 0) :=
    List.filter_append [conn.luaReaderTid] [conn.luaWriterTid]
  rw [hids, List.count_append, count_slot h, count_slot h]

theorem count_tail {l : List Nat} (h : l.head? ≠ some tid) : l.tail.count tid = l.count tid := by
  cases l with
  | nil => rfl
  | cons first l =>
    rw [List.tail_cons, List.count_cons_of_ne]
    rintro rfl
    exact h rfl

end Counts

section Steps

variable {s : LibState} {c : Nat} {e : ConnEvent} {socket socket' : Socket} {woken : List Wakeup}

/-- The count of an id when a connection is replaced, and wake-ups are issued. -/
theorem count_sources_issue (hsocket : s.sockets[c]? = some socket) (socket' : Socket)
    (suspended : Option (Nat × Op)) {tid : Nat}
    (hhead : (woken.map Wakeup.tid).head? ≠ some tid) :
    ({ s with
        sockets := s.sockets.set c socket'
        threads := (s.threads.issue woken).suspend suspended } : LibState).sources.count tid +
        (socketSources socket).count tid =
      s.sources.count tid + (socketSources socket').count tid +
        (woken.map Wakeup.tid).count tid := by
  have hset := count_flatMap_set hsocket socket' tid
  have htail := count_tail hhead
  rw [count_sources, count_sources]
  show s.resolvers.count tid + ((s.sockets.set c socket').flatMap socketSources).count tid +
    (((s.threads.issue woken).suspend suspended).resumes.map Wakeup.tid).count tid + _ = _
  rw [Threads.suspend_resumes, Threads.issue_resumes, List.map_append, List.map_tail,
    List.count_append]
  omega

theorem PendingInvariant.ne_zero (h : PendingInvariant s) {tid : Nat}
    (hblocked : s.threads.blocked tid ≠ none) : tid ≠ 0 := by
  rintro rfl
  exact hblocked h.zero

/-- Every thread that waits afterwards has waited before, and is recorded as often. -/
theorem PendingOnce.of_count {s s' : LibState} (h : PendingOnce s)
    (hkept : ∀ tid, s'.threads.blocked tid ≠ none →
      s.threads.blocked tid ≠ none ∧ s'.sources.count tid = s.sources.count tid) :
    PendingOnce s' := by
  intro tid hblocked
  obtain ⟨hblocked, hcount⟩ := hkept tid hblocked
  rw [hcount]
  exact h tid hblocked

/-- A thread is suspended, and then recorded for one wake-up. -/
theorem PendingOnce.of_suspend {s s' : LibState} (h : PendingOnce s) {caller : Nat} {op : Op}
    (hblocked : s'.threads.blocked = Function.update s.threads.blocked caller (some op))
    (hone : s'.sources.count caller = 1)
    (hkept : ∀ tid, tid ≠ caller → s.threads.blocked tid ≠ none →
      s'.sources.count tid = s.sources.count tid) : PendingOnce s' := by
  intro tid htid
  by_cases hcaller : tid = caller
  · rw [hcaller]
    exact hone
  · rw [hblocked, Function.update_of_ne hcaller] at htid
    rw [hkept tid hcaller htid]
    exact h tid htid

/-- A step that suspends nobody: what was recorded for a thread that goes on waiting is recorded
for it afterwards, or it is being resumed. -/
theorem PendingInvariant.issue (h : PendingInvariant s) (hsocket : s.sockets[c]? = some socket)
    (hcount : ∀ tid, s.threads.blocked tid ≠ none → (woken.map Wakeup.tid).head? ≠ some tid →
      (socketSources socket').count tid + (woken.map Wakeup.tid).count tid =
        (socketSources socket).count tid) :
    PendingOnce { s with
      sockets := s.sockets.set c socket'
      threads := (s.threads.issue woken).suspend none } := by
  apply h.pending.of_count
  intro tid hblocked
  have hblocked' : (s.threads.issue woken).blocked tid ≠ none := hblocked
  rw [Threads.issue_blocked] at hblocked'
  split at hblocked'
  · exact absurd rfl hblocked'
  · next hhead =>
    have hsources := count_sources_issue hsocket socket' none (Ne.symm hhead)
    have hkept := hcount tid hblocked' (Ne.symm hhead)
    refine ⟨hblocked', ?_⟩
    omega

/-- A step that suspends its caller, and writes its id over another one. -/
theorem PendingInvariant.suspend (h : PendingInvariant s) (hsocket : s.sockets[c]? = some socket)
    {caller slot : Nat} (op : Op) (hcaller : caller ≠ 0)
    (hslot : s.threads.blocked slot = none)
    (hone : s.sources.count caller = if slot = caller then 1 else 0)
    (hcount : ∀ tid, tid ≠ 0 → (socketSources socket').count tid + (if slot = tid then 1 else 0) =
      (socketSources socket).count tid + if caller = tid then 1 else 0) :
    PendingOnce { s with
      sockets := s.sockets.set c socket'
      threads := (s.threads.issue []).suspend (some (caller, op)) } := by
  have hsources := fun tid =>
    @count_sources_issue s c socket [] hsocket socket' (some (caller, op)) tid nofun
  simp only [List.map_nil, List.count_nil] at hsources
  apply h.pending.of_suspend rfl
  · have hcaller' := hsources caller
    have hkept := hcount caller hcaller
    rw [if_pos rfl] at hkept
    omega
  · intro tid htid hblocked
    have hne : tid ≠ 0 := h.ne_zero hblocked
    have hslot' : slot ≠ tid := by
      rintro rfl
      exact hblocked hslot
    have hkept := hcount tid hne
    rw [if_neg htid.symm, if_neg hslot'] at hkept
    have hother := hsources tid
    omega

/-- What a connection has recorded for a thread. -/
theorem count_socketSources {tid : Nat} (hne : tid ≠ 0) (hopen : socket.conn.luaRef = true) :
    (socketSources socket).count tid = (if socket.conn.luaReaderTid = tid then 1 else 0) +
      if socket.conn.luaWriterTid = tid then 1 else 0 := by
  rw [socketSources, if_pos hopen, count_ids hne]

theorem count_socketSources_closed {tid : Nat} (hclosed : socket.conn.Closed) :
    (socketSources socket).count tid = 0 := by
  rw [socketSources, if_neg (by simp [hclosed.luaRef])]
  rfl

theorem count_socketSources_le (socket : Socket) {tid : Nat} (hne : tid ≠ 0) :
    (socketSources socket).count tid ≤ (if socket.conn.luaReaderTid = tid then 1 else 0) +
      if socket.conn.luaWriterTid = tid then 1 else 0 := by
  rw [← count_ids hne, socketSources]
  split
  · exact Nat.le_refl _
  · exact Nat.zero_le _

theorem count_le_sources (hsocket : s.sockets[c]? = some socket) (tid : Nat) :
    (socketSources socket).count tid ≤ s.sources.count tid := by
  have hsub : (socketSources socket).Sublist (s.sockets.flatMap socketSources) :=
    List.sublist_flatten_of_mem (List.mem_map_of_mem (List.mem_of_getElem? hsocket))
  have hle := hsub.count_le tid
  rw [count_sources]
  omega

/-- A connection that is closed resumes the threads that it had recorded, except for those that the
caller has dropped; and none of these waits. -/
theorem count_resumed {tid : Nat} (hne : tid ≠ 0) (hblocked : s.threads.blocked tid ≠ none)
    (hc : ConnWaitsOnce s socket.conn e) :
    (e.resumed socket.conn).count tid = socket.conn.ids.count tid := by
  have hslot : ∀ {slot}, s.threads.blocked slot = none → slot ≠ tid := by
    rintro _ hslot rfl
    exact hblocked hslot
  cases e with
  | close =>
    rw [count_ids hne, if_neg (hslot hc.1), if_neg (hslot hc.2)]
    rfl
  | startReading r =>
    show ({ socket.conn with luaReaderTid := 0 } : Connection).ids.count tid = _
    rw [count_ids hne, count_ids hne, if_neg (hslot hc), if_neg hne.symm]
  | _ => rfl

theorem PendingInvariant.conn_open (h : PendingInvariant s) (hsocket : s.sockets[c]? = some socket)
    (hopen : socket.conn.luaRef = true) (hc : ConnWaitsOnce s socket.conn e)
    {suspended : Option (Nat × Op)} (heffect : Effect socket e socket' woken suspended) :
    PendingOnce { s with
      sockets := s.sockets.set c socket'
      threads := (s.threads.issue woken).suspend suspended } := by
  have hne : ∀ {tid}, s.threads.blocked tid ≠ none → tid ≠ 0 := h.ne_zero
  have hcount : ∀ {tid}, tid ≠ 0 → (socketSources socket).count tid =
      (if socket.conn.luaReaderTid = tid then 1 else 0) +
        if socket.conn.luaWriterTid = tid then 1 else 0 :=
    fun hne => count_socketSources hne hopen
  have hcount' : ∀ {tid}, tid ≠ 0 → socket'.conn.luaRef = true →
      (socketSources socket').count tid = (if socket'.conn.luaReaderTid = tid then 1 else 0) +
        if socket'.conn.luaWriterTid = tid then 1 else 0 :=
    fun hne hopen' => count_socketSources hne hopen'
  cases heffect with
  | stays | readsNothing => exact h.issue hsocket fun tid _ _ => rfl
  | closes hclosed hreq hwoken =>
    refine h.issue hsocket fun tid hblocked _ => ?_
    rw [hwoken, count_resumed (hne hblocked) hblocked hc, count_socketSources_closed hclosed,
      hcount (hne hblocked), count_ids (hne hblocked), Nat.zero_add]
  | restarts =>
    refine h.issue hsocket fun tid hblocked _ => ?_
    have hslot : socket.conn.luaReaderTid ≠ tid := by
      rintro rfl
      exact hblocked hc
    rw [hcount (hne hblocked), hcount' (hne hblocked) hopen, if_neg hslot]
    exact congrArg (· + _ + 0) (if_neg (hne hblocked).symm)
  | receives bytes buffer hwoken =>
    refine h.issue hsocket fun tid hblocked _ => ?_
    rw [hwoken, count_slot (hne hblocked), hcount (hne hblocked), hcount' (hne hblocked) hopen]
    show (if 0 = tid then 1 else 0) + (if socket.conn.luaWriterTid = tid then 1 else 0) +
      (if socket.conn.luaReaderTid = tid then 1 else 0) = _
    rw [if_neg (hne hblocked).symm]
    omega
  | written hpending hwoken =>
    refine h.issue hsocket fun tid hblocked _ => ?_
    rw [hwoken, count_slot (hne hblocked), hcount (hne hblocked), hcount' (hne hblocked) hopen]
    show (if socket.conn.luaReaderTid = tid then 1 else 0) + (if 0 = tid then 1 else 0) +
      (if socket.conn.luaWriterTid = tid then 1 else 0) = _
    rw [if_neg (hne hblocked).symm]
    omega
  | connected hreq hwoken =>
    -- the id stays in the connection, and its thread does not wait any longer
    refine h.issue hsocket fun tid hblocked hhead => ?_
    rw [hwoken] at hhead ⊢
    have hslot : socket.conn.luaWriterTid ≠ tid := by
      rintro rfl
      rw [List.filter_cons_of_pos (by simpa using hne hblocked)] at hhead
      exact hhead rfl
    rw [count_slot (hne hblocked), if_neg hslot]
    rfl
  | @readWaits caller readTimeout htid hactive hlen =>
    obtain ⟨hslot, hone⟩ := hc htid hactive hlen
    refine h.suspend hsocket .read htid hslot hone fun tid hne => ?_
    rw [hcount hne, hcount' hne hopen]
    show (if caller = tid then 1 else 0) + (if socket.conn.luaWriterTid = tid then 1 else 0) + _ = _
    omega
  | @writeWaits caller buff writeTimeout htid hbuff =>
    obtain ⟨hslot, hone⟩ := hc htid hbuff
    refine h.suspend hsocket .write htid hslot hone fun tid hne => ?_
    rw [hcount hne, hcount' hne hopen]
    show (if socket.conn.luaReaderTid = tid then 1 else 0) + (if caller = tid then 1 else 0) + _ = _
    omega

theorem PendingInvariant.conn (h : PendingInvariant s) (hc : WaitsOnce s (.conn c e))
    {s' : LibState} (hs' : s.step (.conn c e) = some s') : PendingInvariant s' := by
  obtain ⟨socket, hsocket, hadmits, socket', woken, suspended, hstep, rfl⟩ := step_conn hs'
  have hwf := h.wf socket (List.mem_of_getElem? hsocket)
  have hwf' : ∀ other ∈ s.sockets.set c socket', other.conn.Wf := by
    intro other hother
    obtain hother | rfl := List.mem_or_eq_of_mem_set hother
    · exact h.wf other hother
    · exact Socket.step_wf hwf hstep
  obtain ⟨hopen, hhandle⟩ | hclosed := hwf
  · have heffect := Socket.step_open hopen hhandle hstep
    exact ⟨h.conn_open hsocket hopen (hc socket hsocket hopen) heffect, hwf',
      heffect.blocked_zero h.zero⟩
  · obtain ⟨hclosed', -, rfl, rfl⟩ := Socket.step_closed hclosed hstep
    refine ⟨h.issue hsocket fun tid _ _ => ?_, hwf', h.zero⟩
    rw [count_socketSources_closed hclosed, count_socketSources_closed hclosed']
    rfl

theorem dnsResolve_eq_true {tid : Nat} {request : UvRequest} (htid : tid ≠ 0) :
    dnsResolve tid request = true ↔ request = .accepted := by
  simp only [dnsResolve, if_neg htid]
  cases request with
  | accepted => exact iff_of_true rfl rfl
  | noMemory => exact iff_of_false nofun nofun
  | refused e => exact iff_of_false nofun nofun

/-- A request for one more thread. -/
theorem count_sources_resolver (s : LibState) (caller : Nat) (op : Op) (tid : Nat) :
    ({ s with
        resolvers := caller :: s.resolvers
        threads := s.threads.suspend (some (caller, op)) } : LibState).sources.count tid =
      s.sources.count tid + if caller = tid then 1 else 0 := by
  rw [count_sources, count_sources]
  show (caller :: s.resolvers).count tid + _ + (s.threads.resumes.map Wakeup.tid).count tid = _
  rw [List.count_cons]
  simp only [beq_iff_eq]
  omega

/-- One more connection. -/
theorem count_sources_sockets (s : LibState) (sockets : List Socket)
    (suspended : Option (Nat × Op)) (tid : Nat) :
    ({ s with
        sockets := s.sockets ++ sockets
        threads := s.threads.suspend suspended } : LibState).sources.count tid =
      s.sources.count tid + (sockets.flatMap socketSources).count tid := by
  rw [count_sources, count_sources]
  show s.resolvers.count tid + ((s.sockets ++ sockets).flatMap socketSources).count tid +
    ((s.threads.suspend suspended).resumes.map Wakeup.tid).count tid = _
  rw [Threads.suspend_resumes, List.flatMap_append, List.count_append]
  omega

theorem PendingInvariant.resolveDNS (h : PendingInvariant s) {tid : Nat} {request : UvRequest}
    (hc : WaitsOnce s (.resolveDNS tid request)) {s' : LibState}
    (hs' : s.step (.resolveDNS tid request) = some s') : PendingInvariant s' := by
  rw [LibState.step] at hs'
  split at hs'
  · next hrun =>
    cases hs'
    split
    · next hresolve =>
      have hnone := hc ((dnsResolve_eq_true hrun.1).mp hresolve)
      have hzero : Function.update s.threads.blocked tid (some .connect) 0 = none :=
        (Function.update_of_ne hrun.1.symm ..).trans h.zero
      refine ⟨h.pending.of_suspend rfl ?_ ?_, h.wf, hzero⟩
      · rw [count_sources_resolver, hnone, if_pos rfl]
      · intro other hother _
        rw [count_sources_resolver, if_neg hother.symm]
        rfl
    · exact h
  · cases hs'

/-- What `client_connect` has recorded. -/
theorem count_clientConnect {tid : Nat} (htid : tid ≠ 0) (port connectTimeout : Int)
    (ip4Addr : Bool) (request : UvRequest) :
    let r := clientConnect port tid connectTimeout ip4Addr request
    (∀ conn : Connection, r.1 = some conn → conn.Wf) ∧ ∀ other,
      ((r.1.toList.map fun conn => (⟨conn, r.2⟩ : Socket)).flatMap socketSources).count other =
        if (port ≠ 0 ∧ ip4Addr = true ∧ request = .accepted) ∧ tid = other then 1 else 0 := by
  have hfailed : ∀ e, (∀ conn, some (closeConnection newConnection e).1 = some conn → conn.Wf) ∧
      ∀ other, (([(closeConnection newConnection e).1].map fun conn =>
        (⟨conn, false⟩ : Socket)).flatMap socketSources).count other = 0 := by
    intro e
    have hclosed := (@closeConnection_open newConnection rfl rfl e).1
    refine ⟨fun conn hconn => .inr (Option.some.inj hconn ▸ hclosed), fun other => ?_⟩
    rw [List.map_singleton, List.flatMap_singleton]
    exact count_socketSources_closed hclosed
  have hnone : ∀ conn : Connection, none = some conn → conn.Wf := fun _ hconn => by cases hconn
  unfold clientConnect
  by_cases hport : port = 0
  · rw [if_pos hport]
    exact ⟨hnone, fun other => (if_neg fun hstarted => hstarted.1.1 hport).symm⟩
  · rw [if_neg hport, if_neg htid]
    cases ip4Addr with
    | false => exact ⟨hnone, fun other => (if_neg fun hstarted => by cases hstarted.1.2.1).symm⟩
    | true =>
      cases request with
      | noMemory =>
        obtain ⟨hwf, hcount⟩ := hfailed (.other 12)
        exact ⟨hwf, fun other =>
          (hcount other).trans (if_neg fun hstarted => by cases hstarted.1.2.2).symm⟩
      | refused e =>
        obtain ⟨hwf, hcount⟩ := hfailed e
        exact ⟨hwf, fun other =>
          (hcount other).trans (if_neg fun hstarted => by cases hstarted.1.2.2).symm⟩
      | accepted =>
        refine ⟨fun conn hconn => .inl (Option.some.inj hconn ▸ ⟨rfl, rfl⟩), fun other => ?_⟩
        have hids : [0, tid].filter (· ≠ 0) = [tid] := by
          rw [List.filter_cons_of_neg (by simp), List.filter_cons_of_pos (by simpa using htid)]
          rfl
        show (([0, tid].filter (· ≠ 0)) ++ []).count other = _
        rw [hids, List.append_nil, List.count_singleton]
        simp [hport]

theorem PendingInvariant.connect (h : PendingInvariant s) {tid : Nat} {port connectTimeout : Int}
    {ip4Addr : Bool} {request : UvRequest}
    (hc : WaitsOnce s (.connect tid port connectTimeout ip4Addr request)) {s' : LibState}
    (hs' : s.step (.connect tid port connectTimeout ip4Addr request) = some s') :
    PendingInvariant s' := by
  obtain ⟨htid, rfl⟩ := step_connect hs'
  obtain ⟨hwf, hcount⟩ := count_clientConnect htid port connectTimeout ip4Addr request
  have hzero : Function.update s.threads.blocked tid (some .connect) 0 = none :=
    (Function.update_of_ne htid.symm ..).trans h.zero
  refine ⟨h.pending.of_suspend rfl ?_ ?_, ?_, hzero⟩
  · rw [count_sources_sockets, hcount, hc]
    split
    · next hstarted => rw [if_pos ⟨hstarted, rfl⟩]
    · next hfailed => rw [if_neg fun hstarted => hfailed hstarted.1]
  · intro other hother _
    rw [count_sources_sockets, hcount, if_neg fun hstarted => hother hstarted.2.symm]
    rfl
  · intro socket hsocket
    obtain hsocket | hsocket := List.mem_append.mp hsocket
    · exact h.wf socket hsocket
    · obtain ⟨conn, hconn, rfl⟩ := List.mem_map.mp hsocket
      exact hwf conn (Option.mem_toList.mp hconn)

theorem PendingInvariant.onServerConnect (h : PendingInvariant s) {s' : LibState}
    (hs' : s.step .onServerConnect = some s') : PendingInvariant s' := by
  rw [LibState.step] at hs'
  split at hs'
  · cases hs'
    refine ⟨h.pending.of_count fun tid hblocked => ⟨hblocked, ?_⟩, ?_, h.zero⟩
    · exact count_sources_sockets s [⟨newConnection, false⟩] none tid
    · intro socket hsocket
      obtain hsocket | hsocket := List.mem_append.mp hsocket
      · exact h.wf socket hsocket
      · rw [List.mem_singleton.mp hsocket]
        exact .inl ⟨rfl, rfl⟩
  · cases hs'

theorem PendingInvariant.onResolved (h : PendingInvariant s) {tid : Nat}
    {resolved : Except UvError Bytes} {s' : LibState}
    (hs' : s.step (.onResolved tid resolved) = some s') : PendingInvariant s' := by
  rw [LibState.step] at hs'
  split at hs'
  · cases hs'
    have hwoken : (Tcp.onResolved tid resolved).map Wakeup.tid = [tid].filter (· ≠ 0) := by
      cases resolved with
      | error e => exact map_tid_resumeLuaThread ..
      | ok ip => exact map_tid_resumeLuaThread ..
    have hzero : (s.threads.issue (Tcp.onResolved tid resolved)).blocked 0 = none := by
      rw [Threads.issue_blocked, h.zero]
      exact ite_self none
    refine ⟨h.pending.of_count fun other hblocked => ?_, h.wf, hzero⟩
    have hblocked' : (s.threads.issue (Tcp.onResolved tid resolved)).blocked other ≠ none :=
      hblocked
    have hne : other ≠ 0 := by
      rintro rfl
      exact hblocked' hzero
    rw [Threads.issue_blocked] at hblocked'
    split at hblocked'
    · exact absurd rfl hblocked'
    · next hhead =>
      refine ⟨hblocked', ?_⟩
      -- a thread that is still suspended is not the one that this callback resumes
      have htid : other ≠ tid := by
        rintro rfl
        rw [hwoken, List.filter_cons_of_pos (by simpa using hne)] at hhead
        exact hhead rfl
      have htail := count_tail (Ne.symm hhead)
      rw [hwoken, count_slot hne, if_neg htid.symm, ← hwoken] at htail
      rw [count_sources, count_sources]
      show (s.resolvers.erase tid).count other + _ +
        ((s.threads.issue _).resumes.map Wakeup.tid).count other = _
      rw [List.count_erase_of_ne htid, Threads.issue_resumes, List.map_append, List.map_tail,
        List.count_append, htail, Nat.zero_add]
  · cases hs'

theorem PendingInvariant.resume (h : PendingInvariant s) {s' : LibState}
    (hs' : s.step .resume = some s') : PendingInvariant s' := by
  rw [LibState.step] at hs'
  split at hs'
  · cases hs'
  · next w resumes hresumes =>
    cases hs'
    have hblocked : ∀ other, (Threads.wake { s.threads with resumes } w).blocked other =
        if other = w.tid then none else s.threads.blocked other :=
      fun other => Threads.wake_blocked _ w other
    refine ⟨h.pending.of_count fun other hother => ?_, h.wf, ?_⟩
    · have hother' : (Threads.wake { s.threads with resumes } w).blocked other ≠ none := hother
      rw [hblocked] at hother'
      split at hother'
      · exact absurd rfl hother'
      · next hne =>
        refine ⟨hother', ?_⟩
        rw [count_sources, count_sources]
        show _ + _ + ((Threads.wake { s.threads with resumes } w).resumes.map Wakeup.tid).count
          other = _
        rw [Threads.wake_resumes, hresumes, List.map_cons, List.count_cons_of_ne (Ne.symm hne)]
    · show (Threads.wake { s.threads with resumes } w).blocked 0 = none
      rw [hblocked, h.zero]
      exact ite_self none

/-- A thread goes on waiting, and what a connection had recorded for it is gone. -/
theorem PendingInvariant.not_kept (h : PendingInvariant s) (hsocket : s.sockets[c]? = some socket)
    (hopen : socket.conn.luaRef = true) {tid : Nat} {suspended : Option (Nat × Op)}
    (hblocked : s.threads.blocked tid ≠ none)
    (hafter : ((s.threads.issue woken).suspend suspended).blocked tid ≠ none)
    (hhead : (woken.map Wakeup.tid).head? ≠ some tid)
    (hlost : (socketSources socket').count tid + (woken.map Wakeup.tid).count tid <
      (if socket.conn.luaReaderTid = tid then 1 else 0) +
        if socket.conn.luaWriterTid = tid then 1 else 0) :
    ¬PendingOnce { s with
      sockets := s.sockets.set c socket'
      threads := (s.threads.issue woken).suspend suspended } := by
  intro hpending
  have hne : tid ≠ 0 := h.ne_zero hblocked
  have hsources := count_sources_issue hsocket socket' suspended hhead
  have hbefore := h.pending tid hblocked
  have hone := hpending tid hafter
  rw [count_socketSources hne hopen] at hsources
  omega

/-- A thread is suspended that is recorded somewhere else. -/
theorem PendingInvariant.not_alone (hsocket : s.sockets[c]? = some socket)
    (hopen : socket.conn.luaRef = true) {caller slot other : Nat} {op : Op} (hcaller : caller ≠ 0)
    (hslots : (if socket.conn.luaReaderTid = caller then 1 else 0) +
      (if socket.conn.luaWriterTid = caller then 1 else 0) =
        (if slot = caller then 1 else 0) + if other = caller then 1 else 0)
    (hafter : (socketSources socket').count caller = 1 + if other = caller then 1 else 0)
    (hcount : s.sources.count caller ≠ if slot = caller then 1 else 0) :
    ¬PendingOnce { s with
      sockets := s.sockets.set c socket'
      threads := (s.threads.issue []).suspend (some (caller, op)) } := by
  intro hpending
  have hblocked : Function.update s.threads.blocked caller (some op) caller ≠ none := by
    rw [Function.update_self]
    exact Option.some_ne_none op
  have hone := hpending caller hblocked
  have hhead : (([] : List Wakeup).map Wakeup.tid).head? ≠ some caller := nofun
  have hsources := count_sources_issue hsocket socket' (some (caller, op)) hhead
  rw [List.map_nil, List.count_nil, count_socketSources hcaller hopen, hafter, hone] at hsources
  omega

/-- `close` forgets a thread that waits. -/
theorem PendingInvariant.not_pending_close (h : PendingInvariant s)
    (hsocket : s.sockets[c]? = some socket) (hopen : socket.conn.luaRef = true)
    (hhandle : socket.conn.handle.closing = false) (hc : ¬ConnWaitsOnce s socket.conn .close)
    {suspended : Option (Nat × Op)}
    (hstep : socket.step .close = some (socket', woken, suspended)) :
    ¬PendingOnce { s with
      sockets := s.sockets.set c socket'
      threads := (s.threads.issue woken).suspend suspended } := by
  obtain ⟨hclosed, rfl, rfl⟩ := Socket.step_close hopen hhandle hstep
  obtain hblocked | hblocked := Classical.not_and_iff_not_or_not.mp hc
  · refine h.not_kept hsocket hopen hblocked hblocked nofun ?_
    rw [count_socketSources_closed hclosed, if_pos rfl]
    exact Nat.lt_add_right _ Nat.zero_lt_one
  · refine h.not_kept hsocket hopen hblocked hblocked nofun ?_
    rw [count_socketSources_closed hclosed, if_pos rfl]
    exact Nat.lt_add_left _ Nat.zero_lt_one

/-- `startReading` forgets a reader that waits. -/
theorem PendingInvariant.not_pending_startReading (h : PendingInvariant s)
    (hsocket : s.sockets[c]? = some socket) (hopen : socket.conn.luaRef = true)
    (hhandle : socket.conn.handle.closing = false) {r : Option UvError}
    (hc : ¬ConnWaitsOnce s socket.conn (.startReading r)) {suspended : Option (Nat × Op)}
    (hstep : socket.step (.startReading r) = some (socket', woken, suspended)) :
    ¬PendingOnce { s with
      sockets := s.sockets.set c socket'
      threads := (s.threads.issue woken).suspend suspended } := by
  obtain ⟨hreader, rfl, hafter⟩ := Socket.step_startReading hopen hhandle hstep
  have hpending := h.pending _ hc
  -- the reader is recorded once, so it is not the writer as well
  have hother : socket.conn.luaWriterTid ≠ socket.conn.luaReaderTid := by
    intro heq
    have hle := count_le_sources hsocket socket.conn.luaReaderTid
    rw [count_socketSources (h.ne_zero hc) hopen, if_pos rfl, if_pos heq] at hle
    omega
  have hlost := count_socketSources_le socket' (h.ne_zero hc)
  rw [hreader, if_neg (h.ne_zero hc).symm] at hlost
  obtain ⟨hwriter, rfl⟩ | ⟨hclosed, hwoken⟩ := hafter
  · refine h.not_kept hsocket hopen hc hc nofun ?_
    rw [hwriter, if_neg hother] at hlost
    rw [if_pos rfl, if_neg hother]
    exact Nat.lt_of_le_of_lt hlost Nat.zero_lt_one
  · have hhead : (woken.map Wakeup.tid).head? ≠ some socket.conn.luaReaderTid := by
      intro hhead
      rw [hwoken] at hhead
      have hmem := (List.mem_filter.mp (List.mem_of_head? hhead)).1
      exact hother (List.mem_singleton.mp hmem).symm
    refine h.not_kept hsocket hopen hc ?_ hhead ?_
    · show (s.threads.issue woken).blocked _ ≠ none
      rw [Threads.issue_blocked_of_ne _ hhead]
      exact hc
    · rw [count_socketSources_closed hclosed, hwoken, count_slot (h.ne_zero hc), if_neg hother,
        if_pos rfl]
      exact Nat.zero_lt_one

/-- A read takes the place of another reader, or of its own id. -/
theorem PendingInvariant.not_pending_read (h : PendingInvariant s)
    (hsocket : s.sockets[c]? = some socket) (hopen : socket.conn.luaRef = true)
    {tid : Nat} {readTimeout : Int} (hc : ¬ConnWaitsOnce s socket.conn (.read tid readTimeout))
    (hadmits : s.threads.Admits (.read tid readTimeout)) {suspended : Option (Nat × Op)}
    (hstep : socket.step (.read tid readTimeout) = some (socket', woken, suspended)) :
    ¬PendingOnce { s with
      sockets := s.sockets.set c socket'
      threads := (s.threads.issue woken).suspend suspended } := by
  obtain ⟨htid, hc⟩ := Classical.not_imp.mp hc
  obtain ⟨hactive, hc⟩ := Classical.not_imp.mp hc
  obtain ⟨hlen, hc⟩ := Classical.not_imp.mp hc
  obtain ⟨hopen', hreader, hwriter, rfl, rfl⟩ : socket'.conn.luaRef = true ∧
      socket'.conn.luaReaderTid = tid ∧
      socket'.conn.luaWriterTid = socket.conn.luaWriterTid ∧ woken = [] ∧
      suspended = some (tid, .read) := by
    rw [Socket.step_read hopen htid hactive hlen] at hstep
    cases hstep
    exact ⟨hopen, rfl, rfl, rfl, rfl⟩
  -- the id that is overwritten is of a thread that waits, or the caller is recorded elsewhere
  by_cases hblocked : s.threads.blocked socket.conn.luaReaderTid = none
  · refine PendingInvariant.not_alone hsocket hopen htid rfl ?_ fun hone => hc ⟨hblocked, hone⟩
    rw [count_socketSources htid hopen', hreader, hwriter, if_pos rfl]
  · have hcaller : socket.conn.luaReaderTid ≠ tid := by
      rintro rfl
      exact hblocked (hadmits.1 _ rfl)
    refine h.not_kept hsocket hopen hblocked ?_ nofun ?_
    · exact ne_of_eq_of_ne (Function.update_of_ne hcaller ..) hblocked
    · rw [count_socketSources (h.ne_zero hblocked) hopen', hreader, hwriter, if_neg hcaller.symm,
        if_pos rfl, Nat.zero_add]
      exact Nat.lt_add_of_pos_left Nat.zero_lt_one

theorem PendingInvariant.not_pending_write (h : PendingInvariant s)
    (hsocket : s.sockets[c]? = some socket) (hopen : socket.conn.luaRef = true)
    {tid : Nat} {buff : Bytes} {writeTimeout : Int}
    (hc : ¬ConnWaitsOnce s socket.conn (.write tid buff writeTimeout none))
    (hadmits : s.threads.Admits (.write tid buff writeTimeout none))
    {suspended : Option (Nat × Op)}
    (hstep : socket.step (.write tid buff writeTimeout none) = some (socket', woken, suspended)) :
    ¬PendingOnce { s with
      sockets := s.sockets.set c socket'
      threads := (s.threads.issue woken).suspend suspended } := by
  obtain ⟨htid, hc⟩ := Classical.not_imp.mp hc
  obtain ⟨hbuff, hc⟩ := Classical.not_imp.mp hc
  obtain ⟨hopen', hreader, hwriter, rfl, rfl⟩ : socket'.conn.luaRef = true ∧
      socket'.conn.luaReaderTid = socket.conn.luaReaderTid ∧
      socket'.conn.luaWriterTid = tid ∧ woken = [] ∧ suspended = some (tid, .write) := by
    rw [Socket.step_write hopen htid hbuff] at hstep
    cases hstep
    exact ⟨hopen, rfl, rfl, rfl, rfl⟩
  by_cases hblocked : s.threads.blocked socket.conn.luaWriterTid = none
  · refine PendingInvariant.not_alone hsocket hopen htid (Nat.add_comm _ _) ?_
      fun hone => hc ⟨hblocked, hone⟩
    rw [count_socketSources htid hopen', hreader, hwriter, if_pos rfl, Nat.add_comm]
  · have hcaller : socket.conn.luaWriterTid ≠ tid := by
      rintro rfl
      exact hblocked (hadmits.1 _ rfl)
    refine h.not_kept hsocket hopen hblocked ?_ nofun ?_
    · exact ne_of_eq_of_ne (Function.update_of_ne hcaller ..) hblocked
    · rw [count_socketSources (h.ne_zero hblocked) hopen', hreader, hwriter, if_neg hcaller.symm,
        if_pos rfl]
      exact Nat.lt_add_one _

theorem PendingInvariant.not_pending_conn (h : PendingInvariant s)
    (hsocket : s.sockets[c]? = some socket) (hopen : socket.conn.luaRef = true)
    (hc : ¬ConnWaitsOnce s socket.conn e) (hadmits : s.threads.Admits e)
    {suspended : Option (Nat × Op)} (hstep : socket.step e = some (socket', woken, suspended)) :
    ¬PendingOnce { s with
      sockets := s.sockets.set c socket'
      threads := (s.threads.issue woken).suspend suspended } := by
  have hhandle : socket.conn.handle.closing = false := by
    obtain ⟨-, hhandle⟩ | hclosed := h.wf socket (List.mem_of_getElem? hsocket)
    · exact hhandle
    · rw [hclosed.luaRef] at hopen
      cases hopen
  cases e with
  | close => exact h.not_pending_close hsocket hopen hhandle hc hstep
  | startReading r => exact h.not_pending_startReading hsocket hopen hhandle hc hstep
  | read tid readTimeout => exact h.not_pending_read hsocket hopen hc hadmits hstep
  | write tid buff writeTimeout r =>
    cases r with
    | some e => exact absurd trivial hc
    | none => exact h.not_pending_write hsocket hopen hc hadmits hstep
  | _ => exact absurd trivial hc

theorem PendingInvariant.not_pending (h : PendingInvariant s) {e : LibEvent} {s' : LibState}
    (hc : ¬WaitsOnce s e) (hs' : s.step e = some s') : ¬PendingOnce s' := by
  have hsuspended : ∀ {tid : Nat},
      Function.update s.threads.blocked tid (some .connect) tid ≠ none := by
    intro tid
    rw [Function.update_self]
    exact nofun
  cases e with
  | resolveDNS tid request =>
    obtain ⟨haccepted, hcount⟩ := Classical.not_imp.mp hc
    rw [LibState.step] at hs'
    split at hs'
    · next hrun =>
      rw [if_pos ((dnsResolve_eq_true hrun.1).mpr haccepted)] at hs'
      cases hs'
      intro hpending
      have hone := hpending tid hsuspended
      rw [count_sources_resolver, if_pos rfl] at hone
      omega
    · cases hs'
  | connect tid port connectTimeout ip4Addr request =>
    obtain ⟨htid, rfl⟩ := step_connect hs'
    obtain ⟨-, hcount⟩ := count_clientConnect htid port connectTimeout ip4Addr request
    intro hpending
    have hone := hpending tid hsuspended
    rw [count_sources_sockets, hcount] at hone
    apply hc
    show s.sources.count tid = _
    split
    · next hstarted =>
      rw [if_pos ⟨hstarted, rfl⟩] at hone
      omega
    · next hfailed =>
      rw [if_neg fun hstarted => hfailed hstarted.1] at hone
      exact hone
  | conn c e =>
    obtain ⟨socket, hsocket, hadmits, socket', woken, suspended, hstep, rfl⟩ := step_conn hs'
    have hc' : ¬(socket.conn.luaRef = true → ConnWaitsOnce s socket.conn e) := by
      intro hwaits
      refine hc fun other hother => ?_
      cases hsocket.symm.trans hother
      exact hwaits
    obtain ⟨hopen, hc'⟩ := Classical.not_imp.mp hc'
    exact h.not_pending_conn hsocket hopen hc' hadmits hstep
  | _ => exact absurd trivial hc

theorem PendingInvariant.step (h : PendingInvariant s) {e : LibEvent} {s' : LibState}
    (hc : WaitsOnce s e) (hs' : s.step e = some s') : PendingInvariant s' := by
  cases e with
  | resolveDNS tid request => exact h.resolveDNS hc hs'
  | onResolved tid resolved => exact h.onResolved hs'
  | connect tid port connectTimeout ip4Addr request => exact h.connect hc hs'
  | onServerConnect => exact h.onServerConnect hs'
  | conn c e => exact h.conn hc hs'
  | resume => exact h.resume hs'

end Steps

/-- Along a run each suspended thread is recorded for exactly one wake-up, exactly when no thread is
suspended by a connect that fails or while it is recorded somewhere else, and none is dropped. -/
theorem pending_once_iff (es : List LibEvent) :
    Always LibState.step PendingOnce .start es ↔ Guarded LibState.step WaitsOnce .start es := by
  have hstart : PendingInvariant .start :=
    ⟨fun tid hblocked => absurd rfl hblocked, fun _ hmem => absurd hmem List.not_mem_nil, rfl⟩
  exact always_iff_guarded hstart (fun s h => h.pending) (fun s e s' h hc hs' => h.step hc hs')
    (fun s e s' h hc hs' => h.not_pending hc hs')

/-- `client_connect` returns an error, and `connect` waits for its callback. -/
theorem failed_connect_waits : ¬∀ es, Always LibState.step PendingOnce .start es := by
  intro h
  have hrun := h [.connect 7 80 8000 true (.refused (.other 13))]
  have hone := (hrun.2 _ rfl).head 7 nofun
  cases hone

end Luaw.Tcp
