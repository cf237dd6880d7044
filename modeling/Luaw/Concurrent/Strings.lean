import Luaw.Foundations.Routine
import Luaw.Http.Multipart
import Luaw.Http.Request
import Luaw.LuaPack.Reader

/-!
# What coroutines of the server share

The globals that the library assigns without having declared them, and the strings. Equal strings
are one object to the VM, so `luaw_url_decode`, which decodes its argument in place, changes a
string wherever it is kept: in the messages and the local variables of all coroutines. Coroutines
also share the stack that `hex_ch` is left on, so that what a string is decoded to may depend on who
has run before.
-/

namespace Luaw.Lua

namespace LuaValue

mutual

/-- The strings in a value. -/
def strings : LuaValue → List Bytes
  | str s => [s]
  | table xs entries => listStrings xs ++ entriesStrings entries
  | sparse _ entries => entriesStrings entries
  | nil | bool _ | num _ | other _ => []

def listStrings : List LuaValue → List Bytes
  | [] => []
  | x :: xs => x.strings ++ listStrings xs

def entriesStrings : List (LuaValue × LuaValue) → List Bytes
  | [] => []
  | (k, v) :: entries => k.strings ++ v.strings ++ entriesStrings entries

end

mutual

/-- The value with all its strings changed. -/
def mapStrings (f : Bytes → Bytes) : LuaValue → LuaValue
  | str s => str (f s)
  | table xs entries => table (listMapStrings f xs) (entriesMapStrings f entries)
  | sparse n entries => sparse n (entriesMapStrings f entries)
  | nil => nil
  | bool b => bool b
  | num x => num x
  | other type => other type

def listMapStrings (f : Bytes → Bytes) : List LuaValue → List LuaValue
  | [] => []
  | x :: xs => x.mapStrings f :: listMapStrings f xs

def entriesMapStrings (f : Bytes → Bytes) :
    List (LuaValue × LuaValue) → List (LuaValue × LuaValue)
  | [] => []
  | (k, v) :: entries => (k.mapStrings f, v.mapStrings f) :: entriesMapStrings f entries

end

mutual

theorem mapStrings_eq {f : Bytes → Bytes} (v : LuaValue) (h : ∀ s ∈ v.strings, f s = s) :
    v.mapStrings f = v := by
  cases v with
  | nil | bool | num | other => rfl
  | str s => exact congrArg str (h s List.mem_cons_self)
  | table xs entries =>
    rw [mapStrings, listMapStrings_eq xs fun s hs => h s (List.mem_append_left _ hs),
      entriesMapStrings_eq entries fun s hs => h s (List.mem_append_right _ hs)]
  | sparse n entries => rw [mapStrings, entriesMapStrings_eq entries h]

theorem listMapStrings_eq {f : Bytes → Bytes} (xs : List LuaValue)
    (h : ∀ s ∈ listStrings xs, f s = s) : listMapStrings f xs = xs := by
  cases xs with
  | nil => rfl
  | cons x xs =>
    rw [listMapStrings, mapStrings_eq x fun s hs => h s (List.mem_append_left _ hs),
      listMapStrings_eq xs fun s hs => h s (List.mem_append_right _ hs)]

theorem entriesMapStrings_eq {f : Bytes → Bytes} (entries : List (LuaValue × LuaValue))
    (h : ∀ s ∈ entriesStrings entries, f s = s) : entriesMapStrings f entries = entries := by
  cases entries with
  | nil => rfl
  | cons entry entries =>
    obtain ⟨k, v⟩ := entry
    rw [entriesMapStrings,
      mapStrings_eq k fun s hs => h s (List.mem_append_left _ (List.mem_append_left _ hs)),
      mapStrings_eq v fun s hs => h s (List.mem_append_left _ (List.mem_append_right _ hs)),
      entriesMapStrings_eq entries fun s hs => h s (List.mem_append_right _ hs)]

end

end LuaValue

end Luaw.Lua

namespace Luaw.Concurrent

open Lua Http LuaPack

/-- The names that are assigned without a `local`. -/
inductive Global where
  | v1
  | v2
  | conn
  | matchedStr
  | oldValue
  | val
  deriving DecidableEq

/-- The first value that a handler returns. A number is a status; of what is neither a number nor
a string only what `tostring` makes of it is used. -/
inductive Result where
  | nothing
  | status (code : Nat)
  | str (s : Bytes)
  | other (shown : Bytes)

/-- The values of a global; `none` is the nil that it is at first. -/
def Global.Val : Global → Type
  | v1 => Result
  | v2 => LuaValue
  | conn => Option Conn
  | matchedStr => Option Bytes
  | oldValue => Option HeaderValue
  | val => LuaValue

/-- All of them are nil when the server starts. -/
def Global.initial : ∀ x : Global, x.Val
  | v1 => Result.nothing
  | v2 => LuaValue.nil
  | conn | matchedStr | oldValue => none
  | val => LuaValue.nil

/-- A coroutine writes to the connection that it serves, and to those of its client requests. -/
inductive Peer where
  | served
  | client (n : Nat)
  deriving DecidableEq

/-- What can be seen of a coroutine: the strings that it hands to libuv, the parts that an
iteration over a multipart request yields, and the responses that `execute` returns. A client
request that is connected again has a new connection. -/
inductive Observation where
  | connected (peer : Peer)
  | sent (peer : Peer) (str : Bytes)
  | part (part : Option Multipart.Yield)
  | response (resp : Request)

/-- A string that is decoded is asked for what it decodes to. -/
@[reducible] def lua : Sharing where
  Var := Global
  Val := Global.Val
  Obs := Observation
  Kept := Bytes
  Change := Overwriting
  act x := textAfter (some x)
  Query := Bytes
  Answer := Except (LuaError × UrlDecoder) UrlDecoder

/-- A function of the library on a state that belongs to the coroutine. -/
abbrev LuaM (σ : Type) := Routine lua LuaError σ

def readGlobal {σ : Type} (x : Global) : LuaM σ x.Val := Routine.read (S := lua) x

theorem readGlobal_owns {σ : Type} {W : Set Global} {x : Global} (hx : x ∈ W) :
    Routine.Owns W (readGlobal x : LuaM σ x.Val) W := Routine.Owns.read (S := lua) hx

/-- `luaw_url_decode`, with what `hex_ch` holds when it is called for the nth time. -/
def decoding (hexCh : ℕ → Nat → Bool → UInt8) (n : ℕ) (data : Bytes) :
    Except (LuaError × UrlDecoder) UrlDecoder :=
  luawUrlDecode (hexCh n) data

section Retained

open Retains

instance : Retains Bytes LuaValue where
  held := LuaValue.strings
  map := LuaValue.mapStrings
  map_eq {_ v} h := v.mapStrings_eq h

instance : Retains Bytes HeaderValue where
  held := HeaderValue.values
  map f
    | .single value => .single (f value)
    | .list values => .list (values.map f)
  map_eq {f value} h := by
    cases value with
    | single value => exact congrArg HeaderValue.single (h value List.mem_cons_self)
    | list values =>
      exact congrArg HeaderValue.list ((List.map_congr_left h).trans (List.map_id values))

instance : Retains Bytes Element where
  held
    | .nil => []
    | .str s => [s]
    | .list strs => strs
  map f
    | .nil => .nil
    | .str s => .str (f s)
    | .list strs => .list (strs.map f)
  map_eq {f element} h := by
    cases element with
    | nil => rfl
    | str s => exact congrArg Element.str (h s List.mem_cons_self)
    | list strs => exact congrArg Element.list ((List.map_congr_left h).trans (List.map_id strs))

instance : Retains Bytes Buffer :=
  .fields Buffer.parts (fun parts buffer => { buffer with parts }) fun _ => rfl

instance : Retains Bytes ParsedURL :=
  .fields (fun parsedURL => (parsedURL.path, parsedURL.queryString))
    (fun (path, queryString) _ => { path, queryString }) fun _ => rfl

instance : Retains Bytes Request :=
  .fields
    (fun req => (req.headers, req.accHeaderName, req.accHeaderValue, req.bodyParts, req.body,
      req.url, req.method, req.statusMesg, req.parsedURL, req.params))
    (fun (headers, accHeaderName, accHeaderValue, bodyParts, body, url, method, statusMesg,
        parsedURL, params) req =>
      { req with
        headers, accHeaderName, accHeaderValue, bodyParts, body, url, method, statusMesg,
        parsedURL, params })
    fun _ => rfl

instance {τ : Type} : Retains Bytes (Session τ) :=
  .fields (fun session => (session.req, session.unread))
    (fun (req, unread) session => { session with req, unread }) fun _ => rfl

instance : Retains Bytes Message :=
  .fields
    (fun m => (m.method, m.url, m.params, m.statusMesg, m.headers, m.bodyParts))
    (fun (method, url, params, statusMesg, headers, bodyParts) m =>
      { m with method, url, params, statusMesg, headers, bodyParts })
    fun _ => rfl

instance : Retains Bytes Reader :=
  .fields (fun lpack => (lpack.chunks, lpack.buffer, lpack.dictionary))
    (fun (chunks, buffer, dictionary) lpack => { lpack with chunks, buffer, dictionary })
    fun _ => rfl

instance : Retains Bytes Container where
  held
    | .none => []
    | .array xs => held xs
    | .map entries => held entries
  map f
    | .none => .none
    | .array xs => .array (map f xs)
    | .map entries => .map (map f entries)
  map_eq {f container} h := by
    cases container with
    | none => rfl
    | array xs => exact congrArg Container.array (map_eq h)
    | map entries => exact congrArg Container.map (map_eq h)

instance : Retains Bytes Frame :=
  .fields (fun fr => (fr.container, fr.key, fr.val, fr.dictionary))
    (fun (container, key, val, dictionary) fr => { fr with container, key, val, dictionary })
    fun _ => rfl

end Retained

end Luaw.Concurrent
