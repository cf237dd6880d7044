import Luaw.Bytes

/-!
# Loading a startup file, `luaw_server.c`

`lua_load` reads the configuration and the scripts through `lua_file_reader`, which hands out the
file in blocks and then the epilogue of its caller. The end-of-file flag of a stream lags behind:
it is set by the read that finds nothing more, not by the one that takes the last byte.
-/

namespace Luaw.Server

/-- A stream of C stdio: what is left to read, and the end-of-file flag. -/
structure FILE where
  rest : Bytes
  eof : Bool

def fopen (content : Bytes) : FILE := ⟨content, false⟩

def feof (file : FILE) : Bool := file.eof

/-- A full block while enough bytes remain; a shorter one has hit the end. -/
def fread (n : Nat) (file : FILE) : Bytes × FILE :=
  (file.rest.take n, ⟨file.rest.drop n, file.eof || decide (file.rest.length < n)⟩)

/-- The bytes of a C string, up to the NUL that ends it. -/
structure CString where
  bytes : Bytes
  noNul : 0 ∉ bytes

def strlen (s : CString) : Nat := s.bytes.length

def LUA_LOAD_FILE_BUFF_SIZE : Nat := 1024

/-- `file` is NULL after `fclose`. -/
structure LuaLoadBuffer where
  file : Option FILE
  epilogue : Option CString

/-- The block a call returns, which is its first `size` bytes, or NULL. -/
def luaFileReader (lb : LuaLoadBuffer) : Option Bytes × LuaLoadBuffer :=
  match lb.file with
  | none => (none, lb)
  | some file =>
    if feof file then
      (lb.epilogue.map fun epilogue => epilogue.bytes.take (strlen epilogue),
        { lb with file := none })
    else
      let (buff, file) := fread LUA_LOAD_FILE_BUFF_SIZE file
      (some buff, { lb with file := some file })

/-- The calls `lua_load` makes before the first end signal, at most `fuel` of them, with the
blocks they return. -/
def luaLoad : Nat → LuaLoadBuffer → Option (List Bytes × LuaLoadBuffer)
  | 0, _ => none
  | fuel + 1, lb =>
    match luaFileReader lb with
    | (none, lb') => some ([], lb')
    | (some [], lb') => some ([], lb')
    | (some block, lb') => (luaLoad fuel lb').map fun (blocks, lb'') => (block :: blocks, lb'')

/-- The buffer `run_lua_file` gives to `lua_load`. -/
def runLuaFile (content : Bytes) (epilogue : Option CString) : LuaLoadBuffer :=
  ⟨some (fopen content), epilogue⟩

def epilogueBytes (epilogue : Option CString) : Bytes := epilogue.elim [] CString.bytes

/-- Before the first end signal `lua_load` gets the file and the epilogue, and the file has been
closed by then. -/
def Delivers (content : Bytes) (epilogue : Option CString) : Prop :=
  ∃ fuel blocks lb, luaLoad fuel (runLuaFile content epilogue) = some (blocks, lb) ∧
    blocks.flatten = content ++ epilogueBytes epilogue ∧ lb.file = none

section Steps

variable {fuel : Nat} {rest : Bytes} {epilogue : Option CString}

/-- A load that has ended does not depend on the fuel. -/
theorem luaLoad_mono {fuel fuel' : Nat} {lb : LuaLoadBuffer} {r : List Bytes × LuaLoadBuffer}
    (h : luaLoad fuel lb = some r) (hle : fuel ≤ fuel') : luaLoad fuel' lb = some r := by
  induction fuel generalizing fuel' lb r with
  | zero => cases h
  | succ fuel ih =>
    obtain ⟨fuel', rfl⟩ : ∃ k, fuel' = k + 1 := ⟨fuel' - 1, by omega⟩
    rw [luaLoad] at h ⊢
    split at h
    · exact h
    · exact h
    · obtain ⟨r', hr', rfl⟩ := Option.map_eq_some_iff.mp h
      rw [ih hr' (by omega)]
      rfl

/-- A block of the file goes before everything that is still to come. -/
theorem luaLoad_block (hrest : rest ≠ []) :
    luaLoad (fuel + 1) ⟨some ⟨rest, false⟩, epilogue⟩ =
      (luaLoad fuel ⟨some ⟨rest.drop LUA_LOAD_FILE_BUFF_SIZE,
        decide (rest.length < LUA_LOAD_FILE_BUFF_SIZE)⟩, epilogue⟩).map
          fun r => (rest.take LUA_LOAD_FILE_BUFF_SIZE :: r.1, r.2) := by
  cases rest with
  | nil => exact absurd rfl hrest
  | cons b rest => rfl

/-- Nothing was left, but the flag was not set: the empty block is the end signal. -/
theorem luaLoad_lagging :
    luaLoad (fuel + 1) ⟨some ⟨[], false⟩, epilogue⟩ =
      some ([], ⟨some ⟨[], true⟩, epilogue⟩) := rfl

/-- With the flag set, the epilogue is the last block. -/
theorem luaLoad_eof (fuel : Nat) (rest : Bytes) (epilogue : Option CString) : ∃ blocks : List Bytes,
    luaLoad (fuel + 2) ⟨some ⟨rest, true⟩, epilogue⟩ = some (blocks, ⟨none, epilogue⟩) ∧
      blocks.flatten = epilogueBytes epilogue := by
  cases epilogue with
  | none => exact ⟨[], rfl, rfl⟩
  | some epilogue =>
    obtain ⟨bytes, hnul⟩ := epilogue
    cases bytes with
    | nil => exact ⟨[], rfl, rfl⟩
    | cons b bytes =>
      refine ⟨[b :: bytes], ?_, List.append_nil _⟩
      have htake : (b :: bytes).take (strlen ⟨b :: bytes, hnul⟩) = b :: bytes :=
        List.take_length
      simp only [luaLoad, luaFileReader, feof, if_true, Option.map_some, htake]

/-- The epilogue follows the file, and the file is closed, unless the last block is a full one. -/
theorem luaLoad_file (epilogue : Option CString) (hfuel : rest.length + 3 ≤ fuel) : ∃ blocks lb,
    luaLoad fuel ⟨some ⟨rest, false⟩, epilogue⟩ = some (blocks, lb) ∧
      blocks.flatten = rest ++
        (if rest.length % LUA_LOAD_FILE_BUFF_SIZE = 0 then [] else epilogueBytes epilogue) ∧
      (lb.file = none ↔ rest.length % LUA_LOAD_FILE_BUFF_SIZE ≠ 0) := by
  induction fuel generalizing rest with
  | zero => omega
  | succ fuel ih =>
    have hsize : LUA_LOAD_FILE_BUFF_SIZE = 1024 := rfl
    by_cases hrest : rest = []
    · subst hrest
      exact ⟨[], _, luaLoad_lagging, rfl, by simp⟩
    have hlen : 0 < rest.length := List.length_pos_iff.mpr hrest
    rw [luaLoad_block hrest]
    by_cases hshort : rest.length < LUA_LOAD_FILE_BUFF_SIZE
    · -- the last block is short, so the read has hit the end
      obtain ⟨fuel, rfl⟩ : ∃ k, fuel = k + 2 := ⟨fuel - 2, by omega⟩
      obtain ⟨blocks, hload, hflat⟩ := luaLoad_eof fuel
        (rest.drop LUA_LOAD_FILE_BUFF_SIZE) epilogue
      have hmod : rest.length % LUA_LOAD_FILE_BUFF_SIZE ≠ 0 := by
        rw [Nat.mod_eq_of_lt hshort]
        omega
      rw [decide_eq_true hshort, hload]
      refine ⟨_, _, rfl, ?_, iff_of_true rfl hmod⟩
      rw [if_neg hmod, List.flatten_cons, hflat, List.take_of_length_le (by omega)]
    · have hdrop : (rest.drop LUA_LOAD_FILE_BUFF_SIZE).length % LUA_LOAD_FILE_BUFF_SIZE =
          rest.length % LUA_LOAD_FILE_BUFF_SIZE := by
        rw [List.length_drop, ← Nat.mod_eq_sub_mod (by omega)]
      have hfewer : (rest.drop LUA_LOAD_FILE_BUFF_SIZE).length + 3 ≤ fuel := by
        rw [List.length_drop]
        omega
      obtain ⟨blocks, lb, hload, hflat, hclosed⟩ := ih hfewer
      rw [decide_eq_false hshort, hload]
      refine ⟨_, _, rfl, ?_, hdrop ▸ hclosed⟩
      rw [List.flatten_cons, hflat, hdrop, ← List.append_assoc, List.take_append_drop]

end Steps

/-- The file and its epilogue reach Lua exactly when the file does not end with a full block. -/
theorem delivers_iff (content : Bytes) (epilogue : Option CString) :
    Delivers content epilogue ↔ content.length % LUA_LOAD_FILE_BUFF_SIZE ≠ 0 := by
  obtain ⟨blocks, lb, hload, hflat, hclosed⟩ :=
    luaLoad_file epilogue (Nat.le_refl (content.length + 3))
  constructor
  · rintro ⟨fuel, blocks', lb', hload', -, hfile⟩
    have hsame := (luaLoad_mono hload (Nat.le_max_left _ fuel)).symm.trans
      (luaLoad_mono hload' (Nat.le_max_right _ _))
    cases hsame
    exact hclosed.mp hfile
  · intro hmod
    rw [if_neg hmod] at hflat
    exact ⟨_, blocks, lb, hload, hflat, hclosed.mpr hmod⟩

/-- An empty configuration file loses its epilogue, which loads the server. -/
theorem not_delivers_empty :
    ¬Delivers [] (some ⟨text "\ninit = require(\"luaw_init\")\n", by decide⟩) := by
  rintro ⟨fuel, blocks, lb, hload, -, hfile⟩
  cases fuel with
  | zero => cases hload
  | succ fuel =>
    cases hload
    cases hfile

end Luaw.Server
