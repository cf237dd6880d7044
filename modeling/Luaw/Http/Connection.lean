import Luaw.Lua.Value

/-!
# A connection as the HTTP code sees it

`conn:read` and `conn:write` block their thread until libuv calls back; what the callbacks will
bring is part of the state here. A failed read or write closes the connection for good.
-/

namespace Luaw.Http

open Lua

/-- `incoming` has the results of the next reads, after which the peer is gone; `faults` what
becomes of the next writes, which succeed when it is used up. -/
structure Conn where
  closed : Bool
  incoming : List (Except LuaError Bytes)
  written : Bytes
  faults : List (Option LuaError)

namespace Conn

def close (conn : Conn) : Conn := { conn with closed := true }

def read (conn : Conn) : Except LuaError Bytes × Conn :=
  if conn.closed then (.error (text "Connection closed"), conn)
  else
    match conn.incoming with
    | [] => (.error (text "EOF"), conn.close)
    | .ok str :: incoming => (.ok str, { conn with incoming })
    | .error mesg :: incoming => (.error mesg, { conn with incoming }.close)

/-- Nothing is handed to libuv for an empty string. -/
def write (conn : Conn) (str : Bytes) : Except LuaError Unit × Conn :=
  if conn.closed then (.error (text "Connection closed"), conn)
  else if str = [] then (.ok (), conn)
  else
    match conn.faults with
    | some mesg :: faults => (.error mesg, { conn with faults }.close)
    | none :: faults => (.ok (), { conn with faults, written := conn.written ++ str })
    | [] => (.ok (), { conn with written := conn.written ++ str })

/-- No write fails. -/
structure Accepts (conn : Conn) : Prop where
  opened : conn.closed = false
  faults : conn.faults = []

theorem write_ok {conn conn' : Conn} {str : Bytes} (h : conn.write str = (.ok (), conn')) :
    conn'.written = conn.written ++ str := by
  rw [write] at h
  split at h
  · cases h
  · split at h
    · next hnil =>
      cases h
      rw [hnil, List.append_nil]
    · split at h
      · cases h
      · cases h
        rfl
      · cases h
        rfl

theorem write_error {conn conn' : Conn} {str : Bytes} {e : LuaError}
    (h : conn.write str = (.error e, conn')) :
    conn'.closed = true ∧ conn'.written = conn.written := by
  rw [write] at h
  split at h
  · next hclosed =>
    cases h
    exact ⟨hclosed, rfl⟩
  · split at h
    · cases h
    · split at h
      · cases h
        exact ⟨rfl, rfl⟩
      · cases h
      · cases h

theorem write_closed {conn : Conn} (h : conn.closed = true) (str : Bytes) :
    conn.write str = (.error (text "Connection closed"), conn) := by
  rw [write, if_pos h]

theorem Accepts.write {conn : Conn} (h : conn.Accepts) (str : Bytes) :
    ∃ conn', conn.write str = (.ok (), conn') ∧ conn'.Accepts ∧ conn'.incoming = conn.incoming := by
  rw [Conn.write, h.opened, if_neg Bool.false_ne_true, h.faults]
  split
  · exact ⟨conn, rfl, h, rfl⟩
  · exact ⟨_, rfl, ⟨rfl, rfl⟩, rfl⟩

end Conn

end Luaw.Http
