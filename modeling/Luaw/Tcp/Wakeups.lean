import Mathlib.Data.List.Nodup
import Luaw.Tcp.Waiting

/-!
# Wake-ups find their thread waiting

`on_client_connect` leaves the id of the thread it resumes in `lua_writer_tid`. A run in which it
does so for no thread resumes only threads that are suspended on the connection.
-/

namespace Luaw.Tcp

open Transition

/-- The recorded threads are suspended in the operation they are recorded for, and each resume that
was or will be made is for a thread that is suspended on the connection. -/
structure WakesWaiting (s : WaitState) : Prop where
  reader : s.socket.conn.luaReaderTid ≠ 0 →
    s.threads.blocked s.socket.conn.luaReaderTid = some .read
  writer : s.socket.conn.luaWriterTid ≠ 0 →
    s.threads.blocked s.socket.conn.luaWriterTid = some .connect ∨
      s.threads.blocked s.socket.conn.luaWriterTid = some .write
  resumes : ∀ tid ∈ s.threads.resumes.map Wakeup.tid, s.threads.blocked tid ≠ none
  once : (s.threads.resumes.map Wakeup.tid).Nodup
  strays : s.threads.strays = []

/-- No thread waits for a connect that succeeds. -/
def ConnectUnwaited (s : WaitState) (e : WaitEvent) : Prop :=
  e = .conn (.onClientConnect none) → s.socket.conn.luaWriterTid = 0

/-- `WakesWaiting`, and what keeps it: resumes are left to be made only when the connection was
closed. -/
structure WakesInvariant (s : WaitState) : Prop where
  wakes : WakesWaiting s
  wf : s.socket.conn.Wf
  closed : s.threads.resumes ≠ [] → s.socket.conn.Closed

section Ids

variable {s : WaitState}

theorem WakesWaiting.reader_blocked (h : WakesWaiting s) :
    ∀ tid ∈ [s.socket.conn.luaReaderTid].filter (· ≠ 0), s.threads.blocked tid = some .read := by
  intro tid htid
  obtain ⟨hmem, hne⟩ := List.mem_filter.mp htid
  rw [List.mem_singleton.mp hmem] at hne ⊢
  exact h.reader (by simpa using hne)

theorem WakesWaiting.writer_blocked (h : WakesWaiting s) :
    ∀ tid ∈ [s.socket.conn.luaWriterTid].filter (· ≠ 0),
      s.threads.blocked tid = some .connect ∨ s.threads.blocked tid = some .write := by
  intro tid htid
  obtain ⟨hmem, hne⟩ := List.mem_filter.mp htid
  rw [List.mem_singleton.mp hmem] at hne ⊢
  exact h.writer (by simpa using hne)

theorem resumed_sublist (conn : Connection) (e : ConnEvent) :
    (e.resumed conn).Sublist conn.ids := by
  cases e with
  | close => exact List.nil_sublist _
  | startReading r =>
    have hwriter : ({ conn with luaReaderTid := 0 } : Connection).ids =
        [conn.luaWriterTid].filter (· ≠ 0) := rfl
    show ({ conn with luaReaderTid := 0 } : Connection).ids.Sublist conn.ids
    rw [hwriter]
    exact (List.sublist_cons_self conn.luaReaderTid [conn.luaWriterTid]).filter _
  | _ => exact List.Sublist.refl _

theorem ids_eq (conn : Connection) :
    conn.ids = [conn.luaReaderTid].filter (· ≠ 0) ++ [conn.luaWriterTid].filter (· ≠ 0) :=
  List.filter_append [conn.luaReaderTid] [conn.luaWriterTid]

/-- The reader and the writer are two threads. -/
theorem WakesWaiting.ids (h : WakesWaiting s) :
    (∀ tid ∈ s.socket.conn.ids, s.threads.blocked tid ≠ none) ∧ s.socket.conn.ids.Nodup := by
  rw [ids_eq, List.nodup_append]
  refine ⟨?_, (List.nodup_singleton _).filter _, (List.nodup_singleton _).filter _, ?_⟩
  · intro tid htid
    obtain htid | htid := List.mem_append.mp htid
    · rw [h.reader_blocked tid htid]
      exact Option.some_ne_none _
    · obtain hblocked | hblocked := h.writer_blocked tid htid
      · rw [hblocked]
        exact Option.some_ne_none _
      · rw [hblocked]
        exact Option.some_ne_none _
  · intro reader hreader writer hwriter heq
    have hread := h.reader_blocked reader hreader
    rw [heq] at hread
    obtain hblocked | hblocked := h.writer_blocked writer hwriter
    · rw [hblocked] at hread
      cases hread
    · rw [hblocked] at hread
      cases hread

end Ids

section Steps

variable {s : WaitState} {e : ConnEvent} {socket : Socket} {woken : List Wakeup}
  {suspended : Option (Nat × Op)}

/-- The recorded threads, or some of them, are resumed: they all wait, and they are different. -/
theorem WakesWaiting.issue (h : WakesWaiting s) (hnone : s.threads.resumes = [])
    (hwoken : (woken.map Wakeup.tid).Sublist s.socket.conn.ids) :
    (∀ tid ∈ (s.threads.issue woken).resumes.map Wakeup.tid,
      (s.threads.issue woken).blocked tid ≠ none) ∧
    ((s.threads.issue woken).resumes.map Wakeup.tid).Nodup ∧
    (s.threads.issue woken).strays = [] := by
  have hblocked : ∀ tid ∈ woken.map Wakeup.tid, s.threads.blocked tid ≠ none :=
    fun tid htid => h.ids.1 tid (hwoken.subset htid)
  have hnodup := h.ids.2.sublist hwoken
  have hstrays : (s.threads.issue woken).strays = [] := by
    rw [Threads.issue_strays _ fun w hw => hblocked _ (List.mem_map_of_mem hw), h.strays]
  rw [Threads.issue_resumes, hnone, List.append_nil]
  cases woken with
  | nil => exact ⟨nofun, List.nodup_nil, hstrays⟩
  | cons w woken =>
    obtain ⟨hfirst, hnodup⟩ := List.nodup_cons.mp hnodup
    refine ⟨?_, hnodup, hstrays⟩
    intro tid htid
    rw [Threads.issue_blocked_of_ne]
    · exact hblocked tid (List.mem_cons_of_mem _ htid)
    · rintro ⟨⟩
      exact hfirst htid

/-- The reader is resumed; the writer stays suspended. -/
theorem WakesWaiting.writer_after (h : WakesWaiting s)
    (hwoken : woken.map Wakeup.tid = [s.socket.conn.luaReaderTid].filter (· ≠ 0))
    (hwriter : s.socket.conn.luaWriterTid ≠ 0) :
    (s.threads.issue woken).blocked s.socket.conn.luaWriterTid = some .connect ∨
      (s.threads.issue woken).blocked s.socket.conn.luaWriterTid = some .write := by
  rw [Threads.issue_blocked_of_ne]
  · exact h.writer hwriter
  · intro hhead
    rw [hwoken] at hhead
    have hread := h.reader_blocked _ (List.mem_of_head? hhead)
    obtain hblocked | hblocked := h.writer hwriter
    · rw [hblocked] at hread
      cases hread
    · rw [hblocked] at hread
      cases hread

theorem WakesWaiting.reader_after (h : WakesWaiting s)
    (hwoken : woken.map Wakeup.tid = [s.socket.conn.luaWriterTid].filter (· ≠ 0))
    (hreader : s.socket.conn.luaReaderTid ≠ 0) :
    (s.threads.issue woken).blocked s.socket.conn.luaReaderTid = some .read := by
  rw [Threads.issue_blocked_of_ne]
  · exact h.reader hreader
  · intro hhead
    rw [hwoken] at hhead
    have hread := h.reader hreader
    obtain hblocked | hblocked := h.writer_blocked _ (List.mem_of_head? hhead)
    · rw [hblocked] at hread
      cases hread
    · rw [hblocked] at hread
      cases hread

/-- A thread that calls a method is not one of those that are suspended. -/
theorem Threads.Admits.caller_ne {threads : Threads} {tid other : Nat} {op : Op}
    (h : threads.Admits e) (hcaller : e.caller = some tid)
    (hother : threads.blocked other = some op) : other ≠ tid := by
  rintro rfl
  rw [h.1 other hcaller] at hother
  cases hother

theorem WakesInvariant.step_open (h : WakesInvariant s) (hadmits : s.threads.Admits e)
    (hopen : s.socket.conn.luaRef = true) (hc : ConnectUnwaited s (.conn e))
    (heffect : Effect s.socket e socket woken suspended) :
    WakesWaiting ⟨socket, (s.threads.issue woken).suspend suspended⟩ := by
  obtain ⟨hwakes, -, hclosed⟩ := h
  have hnone : s.threads.resumes = [] := by
    by_contra hne
    have hclosed := (hclosed hne).luaRef
    rw [hopen] at hclosed
    cases hclosed
  have hissue := @WakesWaiting.issue s woken hwakes hnone
  rw [ids_eq] at hissue
  obtain ⟨hreader, hwriter, hresumes, honce, hstrays⟩ := id hwakes
  cases heffect with
  | stays | readsNothing => exact ⟨hreader, hwriter, hresumes, honce, hstrays⟩
  | restarts => exact ⟨fun hne => absurd rfl hne, hwriter, hresumes, honce, hstrays⟩
  | closes hclosed hreq hwoken =>
    rw [hwoken, ← ids_eq] at hissue
    obtain ⟨hresumes, honce, hstrays⟩ := hissue (resumed_sublist _ _)
    exact ⟨fun hne => absurd hclosed.reader hne, fun hne => absurd hclosed.writer hne, hresumes,
      honce, hstrays⟩
  | receives bytes buffer hwoken =>
    obtain ⟨hresumes, honce, hstrays⟩ := hissue (hwoken ▸ List.sublist_append_left _ _)
    exact ⟨fun hne => absurd rfl hne, hwakes.writer_after hwoken, hresumes, honce, hstrays⟩
  | written hpending hwoken =>
    obtain ⟨hresumes, honce, hstrays⟩ := hissue (hwoken ▸ List.sublist_append_right _ _)
    exact ⟨hwakes.reader_after hwoken, fun hne => absurd rfl hne, hresumes, honce, hstrays⟩
  | connected hreq hwoken =>
    -- nobody is resumed
    rw [hc rfl] at hwoken
    rw [List.map_eq_nil_iff.mp hwoken]
    exact ⟨hreader, hwriter, hresumes, honce, hstrays⟩
  | readWaits readTimeout htid _ _ =>
    refine ⟨fun _ => Function.update_self .., fun hne => ?_, ?_, honce, hstrays⟩
    · show Function.update _ _ _ _ = _ ∨ Function.update _ _ _ _ = _
      rw [Function.update_of_ne]
      · exact hwriter hne
      · obtain hblocked | hblocked := hwriter hne
        · exact hadmits.caller_ne rfl hblocked
        · exact hadmits.caller_ne rfl hblocked
    · show ∀ tid ∈ s.threads.resumes.map Wakeup.tid, _
      rw [hnone]
      exact nofun
  | writeWaits buff writeTimeout htid _ =>
    refine ⟨fun hne => ?_, fun _ => .inr (Function.update_self ..), ?_, honce, hstrays⟩
    · show Function.update _ _ _ _ = _
      rw [Function.update_of_ne]
      · exact hreader hne
      · exact hadmits.caller_ne rfl (hreader hne)
    · show ∀ tid ∈ s.threads.resumes.map Wakeup.tid, _
      rw [hnone]
      exact nofun

/-- Nothing happens at a closed connection. -/
theorem WakesInvariant.step_closed (h : WakesInvariant s) (hclosed : s.socket.conn.Closed)
    (hstep : s.socket.step e = some (socket, woken, suspended)) :
    WakesWaiting ⟨socket, (s.threads.issue woken).suspend suspended⟩ ∧ socket.conn.Closed := by
  obtain ⟨hafter, -, rfl, rfl⟩ := Socket.step_closed hclosed hstep
  exact ⟨⟨fun hne => absurd hafter.reader hne, fun hne => absurd hafter.writer hne,
    h.wakes.resumes, h.wakes.once, h.wakes.strays⟩, hafter⟩

theorem WakesInvariant.conn (h : WakesInvariant s) (hc : ConnectUnwaited s (.conn e))
    {s' : WaitState} (hs' : s.step (.conn e) = some s') : WakesInvariant s' := by
  have hafter := WaitState.closed_of_resumes h.wf h.closed hs'
  obtain ⟨hadmits, socket, woken, suspended, hstep, rfl⟩ := WaitState.step_conn hs'
  have hwf := Socket.step_wf h.wf hstep
  obtain ⟨hopen, hhandle⟩ | hclosed := h.wf
  · have heffect := Socket.step_open hopen hhandle hstep
    exact ⟨h.step_open hadmits hopen hc heffect, hwf, hafter⟩
  · exact ⟨(h.step_closed hclosed hstep).1, hwf, hafter⟩

theorem WakesInvariant.resume (h : WakesInvariant s) {s' : WaitState}
    (hs' : s.step .resume = some s') : WakesInvariant s' := by
  obtain ⟨w, resumes, hresumes, rfl⟩ := WaitState.step_resume hs'
  have hclosed := h.closed (hresumes ▸ List.cons_ne_nil _ _)
  obtain ⟨⟨-, -, hblocked, honce, hstrays⟩, hwf, -⟩ := h
  rw [hresumes] at hblocked honce
  obtain ⟨hfirst, honce⟩ := List.nodup_cons.mp honce
  obtain ⟨hwaits, hblocked⟩ := List.forall_mem_cons.mp hblocked
  have hafter : (Threads.wake { s.threads with resumes } w).resumes = resumes :=
    Threads.wake_resumes _ w
  refine ⟨⟨fun hne => absurd hclosed.reader hne, fun hne => absurd hclosed.writer hne, ?_, ?_, ?_⟩,
    hwf, fun _ => hclosed⟩
  · show ∀ tid ∈ (Threads.wake { s.threads with resumes } w).resumes.map Wakeup.tid, _
    rw [hafter]
    intro tid htid
    rw [Threads.wake_blocked, if_neg]
    · exact hblocked tid htid
    · rintro rfl
      exact hfirst htid
  · show ((Threads.wake { s.threads with resumes } w).resumes.map Wakeup.tid).Nodup
    rw [hafter]
    exact honce
  · exact (Threads.wake_strays ⟨s.threads.blocked, resumes, s.threads.strays⟩ hwaits).trans hstrays

theorem wakesInvariant_starts {connectTimeout : Int} (h : Starts connectTimeout s) :
    WakesInvariant s := by
  cases h with
  | accept =>
    exact ⟨⟨fun hne => absurd rfl hne, fun hne => absurd rfl hne, nofun, List.nodup_nil, rfl⟩,
      .inl ⟨rfl, rfl⟩, fun hne => absurd rfl hne⟩
  | @connect _ tid _ _ _ _ hconnect =>
    obtain ⟨htid, ⟨-, hclosed⟩ | ⟨-, rfl⟩⟩ := clientConnect_cases hconnect
    · exact ⟨⟨fun hne => absurd hclosed.reader hne, fun hne => absurd hclosed.writer hne, nofun,
        List.nodup_nil, rfl⟩, .inr hclosed, fun hne => absurd rfl hne⟩
    · have hblocked : Function.update (fun _ => none) tid (some Op.connect) tid = some .connect :=
        Function.update_self ..
      exact ⟨⟨fun hne => absurd rfl hne, fun _ => .inl hblocked, nofun, List.nodup_nil, rfl⟩,
        .inl ⟨rfl, rfl⟩, fun hne => absurd rfl hne⟩

/-- A thread whose connect succeeds is resumed, and stays recorded. -/
theorem not_wakesWaiting {s' : WaitState} (hwriter : s.socket.conn.luaWriterTid ≠ 0)
    (hs' : s.step (.conn (.onClientConnect none)) = some s') : ¬WakesWaiting s' := by
  obtain ⟨-, socket, woken, suspended, hstep, rfl⟩ := WaitState.step_conn hs'
  rw [Socket.step] at hstep
  split at hstep
  · cases hstep
    intro hwakes
    have hresumed : (s.threads.issue (resumeLuaThread s.socket.conn.luaWriterTid true .nil)).blocked
        s.socket.conn.luaWriterTid = none := by
      rw [Threads.issue_blocked, resumeLuaThread, if_neg hwriter]
      exact if_pos rfl
    obtain hblocked | hblocked := hwakes.writer hwriter
    · cases hresumed.symm.trans hblocked
    · cases hresumed.symm.trans hblocked
  · cases hstep

end Steps

/-- Along a run every resume is for a thread that waits, and recorded threads wait, exactly when no
thread waits for a connect that succeeds. -/
theorem wakes_waiting_iff {connectTimeout : Int} {s : WaitState} (hs : Starts connectTimeout s)
    (es : List WaitEvent) :
    Always WaitState.step WakesWaiting s es ↔ Guarded WaitState.step ConnectUnwaited s es := by
  refine always_iff_guarded (wakesInvariant_starts hs) (fun s h => h.wakes) ?_ ?_
  · intro s e s' h hc hs'
    cases e with
    | conn e => exact h.conn hc hs'
    | resume => exact h.resume hs'
  · intro s e s' _ hc hs'
    obtain ⟨rfl, hwriter⟩ := Classical.not_imp.mp hc
    exact not_wakesWaiting hwriter hs'

theorem wakes_waiting_read : Always WaitState.step WakesWaiting
    ⟨⟨newConnection, false⟩, ⟨fun _ => none, [], []⟩⟩
    [.conn (.startReading none), .conn (.read 7 3000), .conn (.data [71]), .conn .timeout] :=
  (wakes_waiting_iff (@Starts.accept 0) _).mpr
    fun _ _ => ⟨nofun, fun _ _ => ⟨nofun, fun _ _ => ⟨nofun, fun _ _ => ⟨nofun, trivial⟩⟩⟩⟩

/-- Thread 7 has called `connect`. -/
def connecting : WaitState :=
  ⟨⟨{ newConnection with
      luaWriterTid := 7
      writeTimer := startTimer newConnection.writeTimer 8000 }, true⟩,
    ⟨Function.update (fun _ => none) 7 (some .connect), [], []⟩⟩

theorem connecting_starts : Starts 8000 connecting :=
  .connect (rfl : clientConnect 80 7 8000 true .accepted = (some _, true))

theorem connected_stays_recorded :
    ¬∀ (connectTimeout : Int) (s : WaitState) (es : List WaitEvent),
      Starts connectTimeout s → Always WaitState.step WakesWaiting s es := by
  intro h
  have hrun := h 8000 connecting [.conn (.onClientConnect none)] connecting_starts
  have hwriter : connecting.socket.conn.luaWriterTid ≠ 0 := by decide
  exact not_wakesWaiting hwriter rfl (hrun.2 _ rfl).head

end Luaw.Tcp
