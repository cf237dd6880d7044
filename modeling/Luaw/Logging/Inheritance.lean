import Luaw.Foundations.Transition
import Luaw.Logging.Loggers
import Mathlib.Data.List.Infix

/-!
# Levels are inherited along dotted names

As long as no part of a name is found where it should be missing, in an ancestor or among the
fields that are no children, the loggers form the tree of the names, and each has the level that
was configured last for the longest prefix of its name.
-/

namespace Luaw.Logging

open Lua Program Transition

section Prefixes

variable {α β : Type}

/-- The value at the longest prefix of a list that has one. -/
def nearest (f : List α → Option β) (path : List α) : Option β := path.inits.reverse.findSome? f

theorem nearest_nil (f : List α → Option β) : nearest f [] = f [] := by
  cases h : f [] <;> simp [nearest, h]

theorem nearest_append (f : List α → Option β) (path : List α) (a : α) :
    nearest f (path ++ [a]) = (f (path ++ [a])).or (nearest f path) := by
  have hinits : (path ++ [a]).inits = path.inits ++ [path ++ [a]] := by
    rw [List.inits_append]
    simp
  rw [nearest, hinits, List.reverse_append, List.reverse_singleton, List.singleton_append,
    List.findSome?_cons]
  cases f (path ++ [a]) <;> rfl

/-- The value changes only where what has changed is a prefix. -/
theorem nearest_congr {f g : List α → Option β} {path : List α}
    (h : ∀ init, init <+: path → f init = g init) : nearest f path = nearest g path := by
  induction path using List.reverseRecOn with
  | nil => rw [nearest_nil, nearest_nil, h [] (List.prefix_refl [])]
  | append_singleton path a ih =>
    rw [nearest_append, nearest_append, h _ (List.prefix_refl _),
      ih fun init hinit => h init (hinit.trans (List.prefix_append path [a]))]

end Prefixes

/-- The fields that hold something else than a child. -/
def valueKeys : List Bytes := [text "FILE", text "SYSLOG", text "facility"]

theorem LogType.key_mem (logType : LogType) : logType.key ∈ valueKeys := by
  cases logType <;> decide

namespace Loggers

/-- Going down the parts from a logger, each is a child of the logger reached, or nothing is found
under it and a child is made. -/
def Resolves (s : Loggers) : LoggerTable → List Bytes → Prop
  | _, [] => True
  | l, part :: parts => part ∉ valueKeys ∧
    match s.fields l part with
    | some (.logger l') => Resolves s l' parts
    | _ => s.index l part = none ∧ Resolves (s.create l part) (.child s.created l) parts

/-- The logger that is reached through children only. -/
def descend (s : Loggers) : LoggerTable → List Bytes → Option LoggerTable
  | l, [] => some l
  | l, part :: parts =>
    match s.fields l part with
    | some (.logger l') => descend s l' parts
    | _ => none

/-- The logger is one of those that have been made. -/
def Known (s : Loggers) : LoggerTable → Prop
  | .root => True
  | .child id _ => id < s.created

structure Tree (s : Loggers) : Prop where
  child : ∀ {l part l'}, s.fields l part = some (.logger l') →
    part ∉ valueKeys ∧ ∃ id, id < s.created ∧ l' = .child id l
  unique : ∀ {l part l' part'}, s.fields l part = some (.logger l') →
    s.fields l part' = some (.logger l') → part = part'
  fresh : ∀ l key, ¬s.Known l → s.fields l key = none

variable {s : Loggers} {l l' : LoggerTable} {part : Bytes} {parts parts' : List Bytes}

theorem Tree.known (h : s.Tree) (hdescend : s.descend l parts = some l') (hl : s.Known l) :
    s.Known l' := by
  induction parts generalizing l with
  | nil =>
    cases hdescend
    exact hl
  | cons part parts ih =>
    rw [descend] at hdescend
    split at hdescend
    · next l₁ hfield =>
      obtain ⟨-, id, hid, rfl⟩ := h.child hfield
      exact ih hdescend hid
    · cases hdescend

theorem descend_append (s : Loggers) (l : LoggerTable) (parts parts' : List Bytes) :
    s.descend l (parts ++ parts') = (s.descend l parts).bind fun l' => s.descend l' parts' := by
  induction parts generalizing l with
  | nil => rfl
  | cons part parts ih =>
    rw [List.cons_append, descend, descend]
    split
    · exact ih _
    · rfl

theorem descend_one (hfield : s.fields l part = some (.logger l')) :
    s.descend l [part] = some l' := by
  rw [descend, hfield]
  rfl

/-- The last part of a path. -/
theorem descend_last (h : s.descend l (parts ++ [part]) = some l') :
    ∃ parent, s.descend l parts = some parent ∧ s.fields parent part = some (.logger l') := by
  rw [descend_append] at h
  obtain ⟨parent, hparent, hlast⟩ := Option.bind_eq_some_iff.mp h
  refine ⟨parent, hparent, ?_⟩
  rw [descend] at hlast
  split at hlast
  · next hfield =>
    cases hlast
    exact hfield
  · cases hlast

/-- Different lists of parts lead to different loggers. -/
theorem Tree.descend_injective (h : s.Tree) (hdescend : s.descend .root parts = some l)
    (hdescend' : s.descend .root parts' = some l) : parts = parts' := by
  induction parts using List.reverseRecOn generalizing parts' l with
  | nil =>
    cases hdescend
    obtain rfl | ⟨init, part, rfl⟩ := List.eq_nil_or_concat parts'
    · rfl
    · rw [List.concat_eq_append] at hdescend'
      obtain ⟨parent, -, hfield⟩ := descend_last hdescend'
      obtain ⟨-, id, -, hroot⟩ := h.child hfield
      cases hroot
  | append_singleton init part ih =>
    obtain ⟨parent, hparent, hfield⟩ := descend_last hdescend
    obtain ⟨-, id, -, rfl⟩ := h.child hfield
    obtain rfl | ⟨init', part', rfl⟩ := List.eq_nil_or_concat parts'
    · cases hdescend'
    · rw [List.concat_eq_append] at hdescend' ⊢
      obtain ⟨parent', hparent', hfield'⟩ := descend_last hdescend'
      obtain ⟨-, id', -, hchild⟩ := h.child hfield'
      cases hchild
      rw [ih hparent hparent', h.unique hfield hfield']

/-! ### A new child -/

theorem create_new (s : Loggers) (l : LoggerTable) (part key : Bytes) :
    (s.create l part).fields (.child s.created l) key = none := if_pos rfl

theorem create_field (hne : l ≠ .child s.created l) :
    (s.create l part).fields l part = some (.logger (.child s.created l)) :=
  (if_neg hne).trans (if_pos ⟨rfl, rfl⟩)

theorem create_other {x : LoggerTable} {key : Bytes} (hnew : x ≠ .child s.created l)
    (h : ¬(x = l ∧ key = part)) : (s.create l part).fields x key = s.fields x key :=
  (if_neg hnew).trans (if_neg h)

theorem known_root : s.Known .root := trivial

theorem Known.ne_new {x : LoggerTable} (h : s.Known x) : x ≠ .child s.created l := by
  rintro rfl
  exact Nat.lt_irrefl s.created h

theorem Known.create {x : LoggerTable} (h : s.Known x) : (s.create l part).Known x := by
  cases x with
  | root => trivial
  | child id parent => exact Nat.lt_succ_of_lt h

/-- A child that is found stays found. -/
theorem Tree.descend_create (h : s.Tree) (hnone : s.fields l part = none) {x y : LoggerTable}
    (hx : s.Known x) (hdescend : s.descend x parts = some y) :
    (s.create l part).descend x parts = some y := by
  induction parts generalizing x with
  | nil => exact hdescend
  | cons part' parts ih =>
    rw [descend] at hdescend ⊢
    split at hdescend
    · next x' hfield =>
      have hother : ¬(x = l ∧ part' = part) := by
        rintro ⟨rfl, rfl⟩
        exact nomatch hnone.symm.trans hfield
      obtain ⟨-, id, hid, rfl⟩ := h.child hfield
      rw [create_other hx.ne_new hother, hfield]
      exact ih hid hdescend
    · cases hdescend

/-- Nothing new is found but the new child. -/
theorem Tree.descend_of_create (h : s.Tree) {x y : LoggerTable} (hx : s.Known x)
    (hdescend : (s.create l part).descend x parts = some y) :
    s.descend x parts = some y ∨ y = .child s.created l := by
  induction parts generalizing x with
  | nil => exact .inl hdescend
  | cons part' parts ih =>
    rw [descend] at hdescend
    split at hdescend
    · next x' hfield =>
      by_cases hother : x = l ∧ part' = part
      · obtain ⟨rfl, rfl⟩ := hother
        cases hfield.symm.trans (create_field hx.ne_new)
        -- the new child has no children
        cases parts with
        | nil =>
          cases hdescend
          exact .inr rfl
        | cons part'' parts =>
          rw [descend, create_new] at hdescend
          cases hdescend
      · rw [create_other hx.ne_new hother] at hfield
        obtain ⟨-, id, hid, rfl⟩ := h.child hfield
        rw [descend, hfield]
        exact ih hid hdescend
    · cases hdescend

theorem Tree.create (h : s.Tree) (hl : s.Known l) (hpart : part ∉ valueKeys)
    (hnone : s.fields l part = none) : (s.create l part).Tree := by
  -- a field with a logger is an old one or the new one
  have hcases : ∀ {x key y}, (s.create l part).fields x key = some (.logger y) →
      (x = l ∧ key = part ∧ y = .child s.created l) ∨ s.fields x key = some (.logger y) := by
    intro x key y hfield
    by_cases hnew : x = .child s.created l
    · rw [hnew, create_new] at hfield
      cases hfield
    · by_cases hother : x = l ∧ key = part
      · obtain ⟨rfl, rfl⟩ := hother
        cases hfield.symm.trans (create_field hnew)
        exact .inl ⟨rfl, rfl, rfl⟩
      · exact .inr ((create_other hnew hother).symm.trans hfield)
  have hold : ∀ {x key}, s.fields x key ≠ some (.logger (.child s.created l)) := by
    intro x key hfield
    obtain ⟨-, id, hid, hchild⟩ := h.child hfield
    cases hchild
    exact Nat.lt_irrefl _ hid
  refine ⟨fun hfield => ?_, fun hfield hfield' => ?_, fun x key hx => ?_⟩
  · obtain ⟨rfl, rfl, rfl⟩ | hfield := hcases hfield
    · exact ⟨hpart, s.created, Nat.lt_succ_self _, rfl⟩
    · obtain ⟨hkey, id, hid, rfl⟩ := h.child hfield
      exact ⟨hkey, id, Nat.lt_succ_of_lt hid, rfl⟩
  · obtain ⟨rfl, rfl, rfl⟩ | hfield := hcases hfield <;>
      obtain ⟨-, hkey, hchild⟩ | hfield' := hcases hfield'
    · exact hkey.symm
    · exact absurd hfield' hold
    · exact absurd (hchild ▸ hfield) hold
    · exact h.unique hfield hfield'
  · by_cases hnew : x = .child s.created l
    · rw [hnew, create_new]
    · have hunknown : ¬s.Known x := fun hknown => hx hknown.create
      rw [create_other hnew fun hother => hunknown (hother.1 ▸ hl)]
      exact h.fresh x key hunknown

/-! ### Levels -/

/-- What has been configured, for the parts of the names, is what the loggers have. -/
structure Matches (s : Loggers) (configured : LogType → List Bytes → Option Int) : Prop where
  set : ∀ {parts l}, s.descend .root parts = some l → ∀ logType,
    s.fields l logType.key = (configured logType parts).map .number
  reached : ∀ {logType parts}, configured logType parts ≠ none →
    ∃ l, s.descend .root parts = some l

variable {configured : LogType → List Bytes → Option Int}

/-- The level of a logger is the nearest one. -/
theorem Matches.index (hm : s.Matches configured) (h : s.Tree)
    (hdescend : s.descend .root parts = some l) (logType : LogType) :
    s.index l logType.key = (nearest (configured logType) parts).map .number := by
  induction parts using List.reverseRecOn generalizing l with
  | nil =>
    cases hdescend
    rw [nearest_nil]
    exact hm.set rfl logType
  | append_singleton init part ih =>
    obtain ⟨parent, hparent, hfield⟩ := descend_last hdescend
    obtain ⟨-, id, -, rfl⟩ := h.child hfield
    rw [Loggers.index, hm.set hdescend logType, ih hparent, nearest_append]
    cases configured logType (init ++ [part]) <;> rfl

theorem Matches.create (hm : s.Matches configured) (h : s.Tree)
    (hnone : s.fields l part = none) (hpart : part ∉ valueKeys) :
    (s.create l part).Matches configured := by
  refine ⟨fun {parts x} hdescend logType => ?_, fun hne => ?_⟩
  · by_cases hnew : x = .child s.created l
    · -- no level has been configured for a new logger
      rw [hnew, create_new]
      cases hlevel : configured logType parts with
      | none => rfl
      | some level =>
        obtain ⟨y, hy⟩ := hm.reached (hlevel ▸ Option.some_ne_none level)
        have hkept := h.descend_create hnone known_root hy
        rw [hdescend, hnew] at hkept
        exact absurd (Option.some.inj hkept).symm (h.known hy known_root).ne_new
    · have hold := (h.descend_of_create known_root hdescend).resolve_right hnew
      have hother : ¬(x = l ∧ logType.key = part) := by
        rintro ⟨-, rfl⟩
        exact hpart logType.key_mem
      rw [create_other hnew hother]
      exact hm.set hold logType
  · obtain ⟨x, hx⟩ := hm.reached hne
    exact ⟨x, h.descend_create hnone known_root hx⟩

/-- `index` finds at least what the logger itself has. -/
theorem fields_of_index (h : s.index l part = none) : s.fields l part = none := by
  cases l with
  | root => exact h
  | child id parent => exact (Option.or_eq_none_iff.mp h).1

theorem index_of_fields {value : LogValue} (h : s.fields l part = some value) :
    s.index l part = some value := by
  cases l with
  | root => exact h
  | child id parent => rw [index, h, Option.some_or]

/-- What the loop of `getLogger` leaves behind: the logger is found under its parts, and the
others where they were. -/
structure Reaches (s : Loggers) (configured : LogType → List Bytes → Option Int)
    (parts : List Bytes) (l : LoggerTable) (s' : Loggers) : Prop where
  tree : s'.Tree
  levels : s'.Matches configured
  found : s'.descend .root parts = some l
  kept : ∀ {path x}, s.descend .root path = some x → s'.descend .root path = some x

theorem getLoggerFrom_resolves (h : s.Tree) (hm : s.Matches configured)
    (hdescend : s.descend .root parts = some l) (hresolves : s.Resolves l parts') :
    ∃ l' s', exec (getLoggerFrom parts' (.logger l)) s = (.ok (.logger l'), s') ∧
      Reaches s configured (parts ++ parts') l' s' := by
  induction parts' generalizing s l parts with
  | nil => exact ⟨l, s, rfl, h, hm, by rwa [List.append_nil], id⟩
  | cons part parts' ih =>
    obtain ⟨hpart, hrest⟩ := hresolves
    rw [getLoggerFrom, exec_bind_ok (exec_get _), ← List.singleton_append, ← List.append_assoc]
    split at hrest
    · next l₁ hfield =>
      rw [index_of_fields hfield]
      refine ih h hm ?_ hrest
      rw [descend_append, hdescend]
      exact descend_one hfield
    · obtain ⟨hindex, hresolves⟩ := hrest
      have hnone := fields_of_index hindex
      have hl := h.known hdescend known_root
      have hkept : ∀ {path x}, s.descend .root path = some x →
          (s.create l part).descend .root path = some x :=
        fun hpath => h.descend_create hnone known_root hpath
      have hnew : (s.create l part).descend .root (parts ++ [part]) =
          some (.child s.created l) := by
        rw [descend_append, hkept hdescend]
        exact descend_one (create_field hl.ne_new)
      obtain ⟨l', s', hrun, hreaches⟩ :=
        ih (h.create hl hpart hnone) (hm.create h hnone hpart) hnew hresolves
      rw [hindex]
      exact ⟨l', s', hrun, hreaches.tree, hreaches.levels, hreaches.found,
        fun hpath => hreaches.kept (hkept hpath)⟩

/-! ### A field that holds no child -/

section Values

variable {key : Bytes} {value : Option LogValue}

theorem setField_same : (s.setField l key value).fields l key = value := if_pos ⟨rfl, rfl⟩

theorem setField_other {x : LoggerTable} {key' : Bytes} (h : ¬(x = l ∧ key' = key)) :
    (s.setField l key value).fields x key' = s.fields x key' := if_neg h

/-- The children stay the same. -/
theorem Tree.setField_logger (h : s.Tree) (hkey : key ∈ valueKeys)
    (hvalue : ∀ y, value ≠ some (.logger y)) {x y : LoggerTable} {key' : Bytes} :
    (s.setField l key value).fields x key' = some (.logger y) ↔
      s.fields x key' = some (.logger y) := by
  by_cases hother : x = l ∧ key' = key
  · obtain ⟨rfl, rfl⟩ := hother
    rw [setField_same]
    exact iff_of_false (hvalue y) fun hfield => (h.child hfield).1 hkey
  · rw [setField_other hother]

theorem Tree.setField (h : s.Tree) (hkey : key ∈ valueKeys)
    (hvalue : ∀ y, value ≠ some (.logger y)) (hl : s.Known l) : (s.setField l key value).Tree := by
  refine ⟨fun hfield => h.child ((h.setField_logger hkey hvalue).mp hfield),
    fun hfield hfield' => h.unique ((h.setField_logger hkey hvalue).mp hfield)
      ((h.setField_logger hkey hvalue).mp hfield'), fun x key' hx => ?_⟩
  have hother : ¬(x = l ∧ key' = key) := by
    rintro ⟨rfl, -⟩
    exact hx hl
  rw [setField_other hother]
  exact h.fresh x key' hx

theorem Tree.descend_setField (h : s.Tree) (hkey : key ∈ valueKeys)
    (hvalue : ∀ y, value ≠ some (.logger y)) (x : LoggerTable) (parts : List Bytes) :
    (s.setField l key value).descend x parts = s.descend x parts := by
  induction parts generalizing x with
  | nil => rfl
  | cons part parts ih =>
    rw [descend, descend]
    split
    · next y hfield =>
      rw [(h.setField_logger hkey hvalue).mp hfield]
      exact ih y
    · next hno =>
      split
      · next y hfield => exact absurd ((h.setField_logger hkey hvalue).mpr hfield) (hno y)
      · rfl

end Values

/-- The levels with one more configured. -/
def configure (configured : LogType → List Bytes → Option Int) (logType : LogType)
    (parts : List Bytes) (level : Int) : LogType → List Bytes → Option Int :=
  fun logType' parts' =>
    if logType' = logType ∧ parts' = parts then some level else configured logType' parts'

theorem Matches.setLevel (hm : s.Matches configured) (h : s.Tree)
    (hdescend : s.descend .root parts = some l) (logType : LogType) (level : Int) :
    (s.setField l logType.key (some (.number level))).Matches
      (configure configured logType parts level) := by
  have hpaths : ∀ path, (s.setField l logType.key (some (.number level))).descend .root path =
      s.descend .root path :=
    fun path => h.descend_setField logType.key_mem (by simp) .root path
  refine ⟨fun {path x} hpath logType' => ?_, fun {logType' path} hne => ?_⟩
  · rw [hpaths] at hpath
    by_cases hother : x = l ∧ logType'.key = logType.key
    · obtain ⟨rfl, hkey⟩ := hother
      obtain rfl : path = parts := h.descend_injective hpath hdescend
      obtain rfl : logType' = logType := by
        cases logType' <;> cases logType <;> first | rfl | exact absurd hkey (by decide)
      rw [setField_same, configure, if_pos ⟨rfl, rfl⟩]
      rfl
    · have hsame : ¬(logType' = logType ∧ path = parts) := by
        rintro ⟨rfl, rfl⟩
        exact hother ⟨Option.some.inj (hpath.symm.trans hdescend), rfl⟩
      rw [setField_other hother, configure, if_neg hsame]
      exact hm.set hpath logType'
  · rw [hpaths]
    by_cases hsame : logType' = logType ∧ path = parts
    · obtain ⟨-, rfl⟩ := hsame
      exact ⟨l, hdescend⟩
    · rw [configure, if_neg hsame] at hne
      exact hm.reached hne

theorem Matches.setFacility (hm : s.Matches configured) (h : s.Tree) (facility : Option Int) :
    (s.setField l (text "facility") (facility.map .number)).Matches configured := by
  have hvalue : ∀ y, facility.map LogValue.number ≠ some (.logger y) := by
    cases facility <;> exact nofun
  have hpaths : ∀ path, (s.setField l (text "facility") (facility.map .number)).descend .root path =
      s.descend .root path :=
    fun path => h.descend_setField (by decide) hvalue .root path
  refine ⟨fun {path x} hpath logType => ?_, fun hne => ?_⟩
  · rw [hpaths] at hpath
    rw [setField_other fun hother => absurd hother.2 (by cases logType <;> decide)]
    exact hm.set hpath logType
  · rw [hpaths]
    exact hm.reached hne

end Loggers

/-- The parts by which a name denotes a logger; `root` has none. -/
def nameParts (name : Option Bytes) : List Bytes :=
  if name = some (text "root") then [] else splitName name

theorem getLogger_eq (name : Option Bytes) :
    getLogger name = getLoggerFrom (nameParts name) (.logger .root) := by
  rw [getLogger, nameParts]
  split <;> rfl

theorem getLogger_resolves {s : Loggers} {configured : LogType → List Bytes → Option Int}
    {name : Option Bytes} (h : s.Tree) (hm : s.Matches configured)
    (hresolves : s.Resolves .root (nameParts name)) :
    ∃ l s', exec (getLogger name) s = (.ok (.logger l), s') ∧
      s.Reaches configured (nameParts name) l s' := by
  rw [getLogger_eq]
  have hroot : s.descend .root [] = some .root := rfl
  exact Loggers.getLoggerFrom_resolves h hm hroot hresolves

section Runs

inductive LogCall where
  | getLogger (name : Option Bytes)
  | file (logCfg : LogCfg)
  | syslog (logCfg : LogCfg)

/-- The level that the entry configures, and for which logger. -/
def LogCfg.config (logCfg : LogCfg) (logType : LogType) : Option (LogType × List Bytes × Int) :=
  match logCfg.name, logCfg.level with
  | some name, some level => some (logType, nameParts (some name), level)
  | _, _ => none

namespace LogCall

def run : LogCall → LoggersM Unit
  | getLogger name => do let _ ← Logging.getLogger name
  | file logCfg => Logging.file logCfg
  | syslog logCfg => Logging.syslog logCfg

def config : LogCall → Option (LogType × List Bytes × Int)
  | getLogger _ => none
  | file logCfg => logCfg.config .file
  | syslog logCfg => logCfg.config .syslog

end LogCall

/-- The loggers, with what has been configured so far. -/
structure LogSetup where
  loggers : Loggers
  configured : LogType → List Bytes → Option Int

namespace LogSetup

def start (facility : Int) : LogSetup := ⟨Loggers.start facility, fun _ _ => none⟩

/-- A call; one that raises may have made loggers before. -/
def step (s : LogSetup) (call : LogCall) : Option LogSetup :=
  match exec call.run s.loggers, call.config with
  | (.ok _, loggers), some (logType, parts, level) =>
    some ⟨loggers, Loggers.configure s.configured logType parts level⟩
  | (_, loggers), _ => some ⟨loggers, s.configured⟩

/-- The name denotes the logger of its parts. -/
def Resolves (s : LogSetup) (name : Option Bytes) : Prop :=
  s.loggers.Resolves .root (nameParts name)

/-- The name of the call does, unless the call fails before it is looked at. -/
def CallResolves (s : LogSetup) : LogCall → Prop
  | .getLogger name => s.Resolves name
  | .file logCfg | .syslog logCfg =>
    logCfg.level.isSome = true → ∀ name, logCfg.name = some name → s.Resolves (some name)

/-- The level in effect for a logger, which `getLogger` makes if it does not exist. -/
def levelOf (s : LogSetup) (name : Option Bytes) (logType : LogType) : Option LogValue :=
  match exec (getLogger name) s.loggers with
  | (.ok (.logger l), loggers) => some (loggers.level l logType)
  | _ => none

/-- The level that the names say: that of the longest prefix for which one is configured. -/
def inherited (s : LogSetup) (name : Option Bytes) (logType : LogType) : Int :=
  (nearest (s.configured logType) (nameParts name)).getD ERROR

/-- Loggers inherit along their names. -/
structure Inherits (s : LogSetup) : Prop where
  level : ∀ name logType, s.Resolves name →
    s.levelOf name logType = some (.number (s.inherited name logType))
  distinct : ∀ name name' l l' loggers loggers', s.Resolves name →
    exec (getLogger name) s.loggers = (.ok (.logger l), loggers) →
    (LogSetup.mk loggers s.configured).Resolves name' →
    exec (getLogger name') loggers = (.ok (.logger l'), loggers') →
    (l = l' ↔ nameParts name = nameParts name')
  others : ∀ call s', s.step call = some s' → s.CallResolves call → ∀ name, s.Resolves name →
    s'.Resolves name → (∀ config, call.config = some config → ¬config.2.1 <+: nameParts name) →
    ∀ logType, s'.levelOf name logType = s.levelOf name logType

/-- The loggers are the tree of the names, with the levels that have been configured. -/
structure Ordered (s : LogSetup) : Prop where
  tree : s.loggers.Tree
  levels : s.loggers.Matches s.configured

theorem ordered_start (facility : Int) : (start facility).Ordered := by
  have hfields : ∀ l key value, (start facility).loggers.fields l key = some value →
      value = .method ∨ value = .number facility := by
    intro l key value hfield
    change (if l = .root then _ else none) = some value at hfield
    split at hfield
    · split at hfield
      · exact .inl (Option.some.inj hfield).symm
      · split at hfield
        · exact .inr (Option.some.inj hfield).symm
        · cases hfield
    · cases hfield
  have hnone : ∀ {l key l'}, (start facility).loggers.fields l key ≠ some (.logger l') := by
    intro l key l' hfield
    obtain h | h := hfields _ _ _ hfield <;> cases h
  have hroot : ∀ {parts l}, (start facility).loggers.descend .root parts = some l →
      parts = [] ∧ l = .root := by
    intro parts l hdescend
    cases parts with
    | nil =>
      cases hdescend
      exact ⟨rfl, rfl⟩
    | cons part parts =>
      rw [Loggers.descend] at hdescend
      split at hdescend
      · next hfield => exact absurd hfield hnone
      · cases hdescend
  refine ⟨⟨fun hfield => absurd hfield hnone, fun hfield => absurd hfield hnone, ?_⟩, ?_, ?_⟩
  · intro l key hl
    cases l with
    | root => exact absurd trivial hl
    | child id parent => rfl
  · intro parts l hdescend logType
    obtain ⟨rfl, rfl⟩ := hroot hdescend
    cases logType <;> rfl
  · exact fun hne => absurd rfl hne

variable {s s' : LogSetup} {name : Option Bytes}

theorem Ordered.levelOf (h : s.Ordered) (hresolves : s.Resolves name) (logType : LogType) :
    s.levelOf name logType = some (.number (s.inherited name logType)) := by
  obtain ⟨l, loggers, hrun, hreaches⟩ := getLogger_resolves h.tree h.levels hresolves
  rw [LogSetup.levelOf, hrun]
  show some (loggers.level l logType) = _
  rw [Loggers.level, hreaches.levels.index hreaches.tree hreaches.found, inherited]
  cases nearest (s.configured logType) (nameParts name) <;> rfl

/-- Names with different parts denote different loggers. -/
theorem Ordered.distinct (h : s.Ordered) {name' : Option Bytes} {l l' : LoggerTable}
    {loggers loggers' : Loggers} (hresolves : s.Resolves name)
    (hrun : exec (getLogger name) s.loggers = (.ok (.logger l), loggers))
    (hresolves' : (LogSetup.mk loggers s.configured).Resolves name')
    (hrun' : exec (getLogger name') loggers = (.ok (.logger l'), loggers')) :
    l = l' ↔ nameParts name = nameParts name' := by
  obtain ⟨l₁, loggers₁, hrun₁, hreaches⟩ := getLogger_resolves h.tree h.levels hresolves
  cases hrun.symm.trans hrun₁
  obtain ⟨l₂, loggers₂, hrun₂, hreaches'⟩ :=
    getLogger_resolves hreaches.tree hreaches.levels hresolves'
  cases hrun'.symm.trans hrun₂
  have hkept := hreaches'.kept hreaches.found
  constructor
  · rintro rfl
    exact hreaches'.tree.descend_injective hkept hreaches'.found
  · intro hparts
    rw [hparts, hreaches'.found] at hkept
    exact (Option.some.inj hkept).symm

section Step

variable {logCfg : LogCfg} {logType : LogType}

theorem configureLogger_config {loggers : Loggers} {parts : List Bytes} {level : Int}
    {configured : LogType → List Bytes → Option Int} (h : loggers.Tree)
    (hm : loggers.Matches configured) (hconfig : logCfg.config logType = some (logType, parts, level))
    (hresolves : loggers.Resolves .root parts) :
    ∃ l loggers', exec (configureLogger logCfg logType) loggers =
        (.ok l, loggers'.setField l logType.key (some (.number level))) ∧
      loggers.Reaches configured parts l loggers' := by
  obtain ⟨_ | name, _ | level', facility⟩ := logCfg
  · cases hconfig
  · cases hconfig
  · cases hconfig
  · cases hconfig
    obtain ⟨l, loggers', hrun, hreaches⟩ := getLogger_resolves h hm hresolves
    refine ⟨l, loggers', ?_, hreaches⟩
    rw [configureLogger]
    show exec (getLogger (some name) >>= _) loggers = _
    rw [exec_bind_ok hrun]
    rfl

/-- Without a name or a level nothing happens. -/
theorem configureLogger_none (loggers : Loggers) (hconfig : logCfg.config logType = none) :
    ∃ e, exec (configureLogger logCfg logType) loggers = (.error (.raised e), loggers) := by
  obtain ⟨_ | name, _ | level, facility⟩ := logCfg
  · exact ⟨_, rfl⟩
  · exact ⟨_, rfl⟩
  · exact ⟨_, rfl⟩
  · cases hconfig

/-- The entry configures a level under its own type. -/
theorem config_cases (logCfg : LogCfg) (logType : LogType) :
    logCfg.config logType = none ∨ ∃ name level, logCfg.name = some name ∧
      logCfg.level = some level ∧
      logCfg.config logType = some (logType, nameParts (some name), level) := by
  obtain ⟨_ | name, _ | level, facility⟩ := logCfg
  · exact .inl rfl
  · exact .inl rfl
  · exact .inl rfl
  · exact .inr ⟨name, level, rfl, rfl, rfl⟩

/-- A call that raises at once has changed nothing. -/
theorem Ordered.refused {call : LogCall} {e : LuaError} (h : s.Ordered)
    (hexec : exec call.run s.loggers = (.error (.raised e), s.loggers))
    (hstep : s.step call = some s') : s'.Ordered := by
  rw [LogSetup.step, hexec] at hstep
  cases hstep
  exact h

theorem Ordered.step {call : LogCall} (h : s.Ordered) (hcall : s.CallResolves call)
    (hstep : s.step call = some s') : s'.Ordered := by
  cases call with
  | getLogger name =>
    obtain ⟨l, loggers, hrun, hreaches⟩ := getLogger_resolves h.tree h.levels hcall
    have hexec : exec (LogCall.getLogger name).run s.loggers = (.ok (), loggers) :=
      (exec_bind_ok hrun).trans rfl
    rw [LogSetup.step, hexec] at hstep
    cases hstep
    exact ⟨hreaches.tree, hreaches.levels⟩
  | file logCfg =>
    obtain hconfig | ⟨name, level, hname, hlevel, hconfig⟩ := config_cases logCfg .file
    · obtain ⟨e, hrun⟩ := configureLogger_none s.loggers hconfig
      exact h.refused (exec_bind_error hrun) hstep
    · obtain ⟨l, loggers, hrun, hreaches⟩ := configureLogger_config h.tree h.levels hconfig
        (hcall (by rw [hlevel]; rfl) name hname)
      have hexec : exec (LogCall.file logCfg).run s.loggers =
          (.ok (), loggers.setField l LogType.file.key (some (.number level))) :=
        (exec_bind_ok hrun).trans rfl
      have hconfig' : (LogCall.file logCfg).config = some (.file, nameParts (some name), level) :=
        hconfig
      rw [LogSetup.step, hexec, hconfig'] at hstep
      cases hstep
      have hl := hreaches.tree.known hreaches.found Loggers.known_root
      exact ⟨hreaches.tree.setField LogType.file.key_mem nofun hl,
        hreaches.levels.setLevel hreaches.tree hreaches.found .file level⟩
  | syslog logCfg =>
    obtain hconfig | ⟨name, level, hname, hlevel, hconfig⟩ := config_cases logCfg .syslog
    · obtain ⟨e, hrun⟩ := configureLogger_none s.loggers hconfig
      exact h.refused (exec_bind_error hrun) hstep
    · obtain ⟨l, loggers, hrun, hreaches⟩ := configureLogger_config h.tree h.levels hconfig
        (hcall (by rw [hlevel]; rfl) name hname)
      have hexec : exec (LogCall.syslog logCfg).run s.loggers = (.ok (),
          (loggers.setField l LogType.syslog.key (some (.number level))).setField l
            (text "facility") (logCfg.facility.map .number)) :=
        (exec_bind_ok hrun).trans rfl
      have hconfig' : (LogCall.syslog logCfg).config =
          some (.syslog, nameParts (some name), level) := hconfig
      rw [LogSetup.step, hexec, hconfig'] at hstep
      cases hstep
      have hl := hreaches.tree.known hreaches.found Loggers.known_root
      have htree : (loggers.setField l LogType.syslog.key (some (.number level))).Tree :=
        hreaches.tree.setField LogType.syslog.key_mem nofun hl
      have hvalue : ∀ y, logCfg.facility.map LogValue.number ≠ some (.logger y) := by
        cases logCfg.facility <;> exact nofun
      exact ⟨htree.setField (by decide) hvalue hl,
        (hreaches.levels.setLevel hreaches.tree hreaches.found .syslog level).setFacility htree _⟩

/-- Only a call that configures changes what has been configured. -/
theorem step_configured {call : LogCall} (hstep : s.step call = some s') :
    s'.configured = s.configured ∨ ∃ logType parts level,
      call.config = some (logType, parts, level) ∧
      s'.configured = Loggers.configure s.configured logType parts level := by
  rw [LogSetup.step] at hstep
  split at hstep
  · next loggers logType parts level _ hconfig =>
    cases hstep
    exact .inr ⟨logType, parts, level, hconfig, rfl⟩
  · cases hstep
    exact .inl rfl

theorem step_inherited {call : LogCall} (hstep : s.step call = some s')
    (hothers : ∀ config, call.config = some config → ¬config.2.1 <+: nameParts name)
    (logType : LogType) : s'.inherited name logType = s.inherited name logType := by
  obtain hsame | ⟨logType', parts, level, hconfig, hsame⟩ := step_configured hstep
  · rw [inherited, inherited, hsame]
  · rw [inherited, inherited]
    refine congrArg (Option.getD · ERROR) (nearest_congr fun init hinit => ?_)
    rw [hsame, Loggers.configure, if_neg]
    rintro ⟨-, rfl⟩
    exact hothers _ hconfig hinit

theorem Ordered.inherits (h : s.Ordered) : s.Inherits := by
  refine ⟨fun name logType hresolves => h.levelOf hresolves logType, ?_, ?_⟩
  · intro name name' l l' loggers loggers' hresolves hrun hresolves' hrun'
    exact h.distinct hresolves hrun hresolves' hrun'
  · intro call s' hstep hcall name hresolves hresolves' hothers logType
    rw [(h.step hcall hstep).levelOf hresolves' logType, h.levelOf hresolves logType,
      step_inherited hstep hothers]

end Step

/-- In every run whose names each denote the logger of its parts, loggers inherit along their
names at every moment. -/
theorem levels_inherited (facility : Int) {calls : List LogCall}
    (h : Guarded step CallResolves (start facility) calls) :
    Always step Inherits (start facility) calls :=
  (h.always (ordered_start facility) fun _ _ _ hs hcall hstep => hs.step hcall hstep).mono
    fun _ hs => hs.inherits

/-! ### An application -/

/-- `Resolves`, computed. -/
def resolvesFrom (loggers : Loggers) : LoggerTable → List Bytes → Bool
  | _, [] => true
  | l, part :: parts => decide (part ∉ valueKeys) &&
    match loggers.fields l part with
    | some (.logger l') => resolvesFrom loggers l' parts
    | _ => decide (loggers.index l part = none) &&
        resolvesFrom (loggers.create l part) (.child loggers.created l) parts

theorem resolves_of_resolvesFrom {loggers : Loggers} {l : LoggerTable} {parts : List Bytes}
    (h : resolvesFrom loggers l parts = true) : loggers.Resolves l parts := by
  induction parts generalizing loggers l with
  | nil => trivial
  | cons part parts ih =>
    rw [resolvesFrom.eq_def] at h
    dsimp only at h
    rw [Bool.and_eq_true, decide_eq_true_eq] at h
    refine ⟨h.1, ?_⟩
    have hrest := h.2
    split
    · next hfield =>
      rw [hfield] at hrest
      exact ih hrest
    · next hno =>
      split at hrest
      · next l' hfield => exact absurd hfield (hno l')
      · rw [Bool.and_eq_true, decide_eq_true_eq] at hrest
        exact ⟨hrest.1, ih hrest.2⟩

def callResolves (s : LogSetup) : LogCall → Bool
  | .getLogger name => resolvesFrom s.loggers .root (nameParts name)
  | .file logCfg | .syslog logCfg =>
    logCfg.name.all fun name => resolvesFrom s.loggers .root (nameParts (some name))

theorem callResolves_sound (s : LogSetup) (call : LogCall) (h : s.callResolves call = true) :
    s.CallResolves call := by
  cases call with
  | getLogger name => exact resolves_of_resolvesFrom h
  | file logCfg | syslog logCfg =>
    intro _ name hname
    rw [callResolves, hname] at h
    exact resolves_of_resolvesFrom h

/-- The default for everything, and a level for a part of the application. -/
def applicationCalls : List LogCall :=
  [.file ⟨some (text "root"), some 3, none⟩, .getLogger (some (text "com.myapp")),
    .file ⟨some (text "com"), some 6, none⟩]

theorem application_inherits : Always step Inherits (start 23) applicationCalls :=
  levels_inherited 23 (guarded_of_check callResolves_sound (by decide +kernel))

/-- A logger for all of `web` also serves as the part `web` of every logger made later. -/
def webCalls : List LogCall :=
  [.file ⟨some (text "root"), some 3, none⟩, .file ⟨some (text "web"), some 7, none⟩]

/-- The level of `admin.web` should be that of `root`, and is that of `web`. -/
theorem admin_web_level : ∃ s, exec step (start 23) webCalls = some s ∧
    s.inherited (some (text "admin.web")) .file = 3 ∧
    s.levelOf (some (text "admin.web")) .file = some (.number 7) := by
  have h : (exec step (start 23) webCalls).map (fun s =>
      (s.inherited (some (text "admin.web")) .file, s.levelOf (some (text "admin.web")) .file)) =
      some (3, some (.number 7)) := by decide +kernel
  obtain ⟨s, hs, hlevels⟩ := Option.map_eq_some_iff.mp h
  exact ⟨s, hs, congrArg Prod.fst hlevels, congrArg Prod.snd hlevels⟩

end LogSetup

end Runs

end Luaw.Logging
