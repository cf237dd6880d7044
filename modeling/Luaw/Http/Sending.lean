import Luaw.Http.Message

/-!
# What sending does

The lemmas about buffers, writes and the header block on which the results about whole messages
rest.
-/

namespace Luaw.Http

open Lua Program

theorem concatFrom_strs (i : Nat) (strs : List Bytes) :
    concatFrom i (strs.map .str) = .ok strs.flatten := by
  induction strs generalizing i with
  | nil => rfl
  | cons s strs ih => rw [List.map_cons, concatFrom, ih, List.flatten_cons, Except.map]

namespace Buffer

/-- The buffer has exactly these strings, and counts them correctly. -/
structure Holds (buffer : Buffer) (strs : List Bytes) : Prop where
  parts : buffer.parts = strs.map .str
  len : buffer.len = strs.flatten.length

/-- `buffer.len` is the total length of the parts. -/
def Counted (buffer : Buffer) : Prop := buffer.len = (buffer.parts.map Element.length).sum

theorem Holds.counted {buffer : Buffer} {strs : List Bytes} (h : buffer.Holds strs) :
    buffer.Counted := by
  rw [Counted, h.parts, h.len, List.length_flatten, List.map_map]
  rfl

theorem Holds.append {buffer : Buffer} {strs : List Bytes} (h : buffer.Holds strs) (s : Bytes) :
    (buffer.append (.str s)).Holds (strs ++ [s]) := by
  refine ⟨?_, ?_⟩
  · simp [Buffer.append, h.parts]
  · simp [Buffer.append, h.len, Element.length]

theorem Holds.concat {buffer : Buffer} {strs : List Bytes} (h : buffer.Holds strs) :
    buffer.concat = .ok strs.flatten := by
  rw [Buffer.concat, h.parts, tableConcat, concatFrom_strs]

theorem holds_new : newBuffer.Holds [] := ⟨rfl, rfl⟩

theorem holds_reset (buffer : Buffer) : buffer.reset.Holds [] := ⟨rfl, rfl⟩

end Buffer

/-- A write only changes the connection: it takes the string, or it raises and nothing can be
written any more. -/
theorem write_cases (str : Bytes) (m : Message) :
    (∃ conn, exec (write str) m = (.ok (), { m with conn }) ∧
      conn.written = m.conn.written ++ str ∧ (m.conn.Accepts → conn.Accepts)) ∨
    (∃ e conn, exec (write str) m = (.error (.raised e), { m with conn }) ∧
      conn.closed = true ∧ conn.written = m.conn.written ∧ ¬m.conn.Accepts) := by
  have hrun : exec (write str) m =
      (exec (ofExcept (m.conn.write str).1 : MessageM Unit) { m with conn := (m.conn.write str).2 }) :=
    rfl
  rcases hwrite : m.conn.write str with ⟨result, conn⟩
  rw [hwrite] at hrun
  cases result with
  | ok _ =>
    refine .inl ⟨conn, hrun, Conn.write_ok hwrite, fun hacc => ?_⟩
    obtain ⟨conn', hok, hacc', -⟩ := hacc.write str
    rw [hwrite] at hok
    cases hok
    exact hacc'
  | error e =>
    obtain ⟨hclosed, hsame⟩ := Conn.write_error hwrite
    refine .inr ⟨e, conn, hrun, hclosed, hsame, fun hacc => ?_⟩
    obtain ⟨conn', hok, -⟩ := hacc.write str
    rw [hwrite] at hok
    cases hok

theorem write_closed {m : Message} (h : m.conn.closed = true) (str : Bytes) :
    exec (write str) m = (.error (.raised (text "Connection closed")), m) := by
  rw [write, exec_bind_ok (exec_get m), Conn.write_closed h]
  rfl

theorem exec_sendBuffer {buffer : Buffer} {strs : List Bytes} (h : buffer.Holds strs)
    (store : Message → Buffer → Message) (isChunked : Bool) (m : Message) :
    exec (sendBuffer buffer store isChunked) m =
      exec (write (if isChunked then ChunkedCoding.chunk strs.flatten else strs.flatten))
        (store m buffer.reset) := by
  rw [sendBuffer, h.concat]
  rfl

/-- One line of the header block. -/
def headerLine (field : Bytes × Bytes) : Bytes := field.1 ++ text ": " ++ field.2 ++ CRLF

def Headers.entries (headers : Headers) : List (Bytes × Bytes) :=
  headers.flatMap fun (name, value) => value.values.map fun v => (name, v)

/-- The fields of the header block, in the order in which they are sent. -/
def Headers.fields (rt : Runtime) (headers : Headers) : List (Bytes × Bytes) :=
  Headers.entries (rt.pairs headers)

/-- Everything up to the body. -/
def headerBlock (rt : Runtime) (line : Bytes) (headers : Headers) : Bytes :=
  line ++ (headers.fields rt).flatMap headerLine ++ CRLF

theorem bufferHeader_holds {buffer : Buffer} {strs : List Bytes} (h : buffer.Holds strs)
    (name value : Bytes) :
    ∃ strs', (bufferHeader buffer name value).Holds strs' ∧
      strs'.flatten = strs.flatten ++ headerLine (name, value) := by
  refine ⟨_, (((h.append name).append (text ": ")).append value).append CRLF, ?_⟩
  simp [headerLine]

theorem bufferValues_holds (name : Bytes) (values : List Bytes) {buffer : Buffer}
    {strs : List Bytes} (h : buffer.Holds strs) :
    ∃ strs', (values.foldl (fun buffer v => bufferHeader buffer name v) buffer).Holds strs' ∧
      strs'.flatten = strs.flatten ++ (values.map fun v => (name, v)).flatMap headerLine := by
  induction values generalizing buffer strs with
  | nil => exact ⟨strs, h, by simp⟩
  | cons v values ih =>
    obtain ⟨strs', h', hstrs'⟩ := bufferHeader_holds h name v
    obtain ⟨strs'', h'', hstrs''⟩ := ih h'
    refine ⟨strs'', h'', ?_⟩
    rw [hstrs'', hstrs', List.map_cons, List.flatMap_cons, List.append_assoc]

theorem bufferHeaders_holds (rt : Runtime) (headers : Headers) {buffer : Buffer}
    {strs : List Bytes} (h : buffer.Holds strs) :
    ∃ strs', (bufferHeaders rt headers buffer).Holds strs' ∧
      strs'.flatten = headerBlock rt strs.flatten headers := by
  suffices ∀ entries : Headers, ∀ {buffer strs}, Buffer.Holds buffer strs →
      ∃ strs', (entries.foldl (fun buffer (name, value) =>
        value.values.foldl (fun buffer v => bufferHeader buffer name v) buffer) buffer).Holds strs' ∧
        strs'.flatten = strs.flatten ++ (entries.flatMap fun (name, value) =>
          value.values.map fun v => (name, v)).flatMap headerLine by
    obtain ⟨strs', h', hstrs'⟩ := this (rt.pairs headers) h
    refine ⟨_, h'.append CRLF, ?_⟩
    rw [List.flatten_append, hstrs', List.flatten_singleton, headerBlock, Headers.fields,
      Headers.entries]
  intro entries
  induction entries with
  | nil => exact fun h => ⟨_, h, by simp⟩
  | cons entry entries ih =>
    intro buffer strs h
    obtain ⟨strs', h', hstrs'⟩ := bufferValues_holds entry.1 entry.2.values h
    obtain ⟨strs'', h'', hstrs''⟩ := ih h'
    refine ⟨strs'', h'', ?_⟩
    rw [hstrs'', hstrs', List.flatMap_cons, List.flatMap_append, List.append_assoc]

/-- Without a start line nothing is sent and nothing changes. -/
theorem sendHeaders_error {rt : Runtime} {m : Message} {e : LuaError}
    (h : m.firstLine rt = .error e) : exec (sendHeaders rt) m = (.error (.raised e), m) := by
  rw [sendHeaders, exec_bind_ok (exec_get m), h]
  rfl

theorem sendHeaders_ok {rt : Runtime} {m : Message} {line : Bytes} (h : m.firstLine rt = .ok line) :
    exec (sendHeaders rt) m =
      exec (write (headerBlock rt line m.headers)) { m with headers := [] } := by
  obtain ⟨strs, hstrs, hflatten⟩ := bufferHeaders_holds rt m.headers (Buffer.holds_new.append line)
  have hline : ([] ++ [line]).flatten = line := by simp
  rw [hline] at hflatten
  rw [sendHeaders, exec_bind_ok (exec_get m), h, exec_bind_ok (exec_ofExcept_ok line m),
    exec_bind_ok (exec_modify _ m), exec_sendBuffer hstrs, hflatten]
  rfl

/-- Sending the header block takes the headers out of the message. -/
theorem sendHeaders_returns {rt : Runtime} {m m' : Message}
    (h : exec (sendHeaders rt) m = (.ok (), m')) :
    ∃ conn, m' = { m with headers := [], conn } := by
  rcases hline : m.firstLine rt with e | line
  · rw [sendHeaders_error hline] at h
    cases h
  · rw [sendHeaders_ok hline] at h
    obtain ⟨conn, hok, -⟩ | ⟨e, conn, herror, -⟩ :=
      write_cases (headerBlock rt line m.headers) { m with headers := [] }
    · exact ⟨conn, congrArg Prod.snd (h.symm.trans hok)⟩
    · cases h.symm.trans herror

end Luaw.Http
