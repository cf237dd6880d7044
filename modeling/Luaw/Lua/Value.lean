import Luaw.Lua.Number

/-!
# Lua values

A table is a value without identity here: the elements from `t[1]` to the one before the first
nil, and the other entries in the order in which `pairs` visits them. Where `t[1]` is nil `#t` need
not be 0: it may be any `n` with `t[n]` not nil and `t[n + 1]` nil, as the table is laid out in
memory. A function, a userdata or a thread is only told apart by its type.
-/

namespace Luaw.Lua

inductive LuaValue where
  | nil
  | bool (b : Bool)
  | num (x : Number)
  | str (s : Bytes)
  | table (array : List LuaValue) (hash : List (LuaValue × LuaValue))
  /-- Without `t[1]`, and with `n + 2` for `#t`. -/
  | sparse (n : Nat) (hash : List (LuaValue × LuaValue))
  | other (type : String)

/-- The text of an error; `error` puts the position in the source before it. -/
abbrev LuaError := Bytes

namespace LuaValue

def isNil : LuaValue → Bool
  | nil => true
  | _ => false

/-- `if not v`. -/
def isFalsy : LuaValue → Bool
  | nil | bool false => true
  | _ => false

/-- An integer as a Lua number. -/
def int (n : Int) : LuaValue := num (.finite n)

/-- Equality of table keys; two tables are never the same object here. -/
def sameKey : LuaValue → LuaValue → Bool
  | bool a, bool b => a = b
  | num a, num b => a = b
  | str a, str b => a = b
  | _, _ => false

end LuaValue

/-- `t[key]` in the entries of a table. -/
def lookup (key : LuaValue) : List (LuaValue × LuaValue) → Option LuaValue
  | [] => none
  | (k, v) :: entries => if k.sameKey key then some v else lookup key entries

/-- `t[key] = value`, for a key that is neither nil nor NaN: nil takes the entry away. -/
def assign (key value : LuaValue) : List (LuaValue × LuaValue) → List (LuaValue × LuaValue)
  | [] => if value.isNil then [] else [(key, value)]
  | (k, v) :: entries =>
    if k.sameKey key then if value.isNil then entries else (key, value) :: entries
    else (k, v) :: assign key value entries

/-- `container[key] = value` with its errors. -/
def rawset (key value : LuaValue) (entries : List (LuaValue × LuaValue)) :
    Except LuaError (List (LuaValue × LuaValue)) :=
  match key with
  | .nil => .error (text "table index is nil")
  | .num .nan => .error (text "table index is NaN")
  | key => .ok (assign key value entries)

mutual

/-- Structural equality: the same scalars, arrays equal element by element, and tables with as
many entries whose values under the same keys are equal. -/
def LuaValue.structEq : LuaValue → LuaValue → Bool
  | .nil, .nil => true
  | .bool a, .bool b => a = b
  | .num a, .num b => a = b
  | .str a, .str b => a = b
  | .table xs entries, .table ys entries' =>
    listEq xs ys && entries.length = entries'.length && entriesEq entries entries'
  | .sparse _ entries, .sparse _ entries' | .sparse _ entries, .table [] entries'
  | .table [] entries, .sparse _ entries' =>
    entries.length = entries'.length && entriesEq entries entries'
  | _, _ => false

def listEq : List LuaValue → List LuaValue → Bool
  | [], [] => true
  | x :: xs, y :: ys => x.structEq y && listEq xs ys
  | _, _ => false

def entriesEq : List (LuaValue × LuaValue) → List (LuaValue × LuaValue) → Bool
  | [], _ => true
  | (k, v) :: entries, others =>
    (match lookup k others with
      | some w => v.structEq w
      | none => false) && entriesEq entries others

end

end Luaw.Lua
