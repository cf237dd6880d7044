import Luaw.Http.ReadFull

/-!
# A parser that works off a script

It knows where the callbacks of a request come, and waits for the bytes in between. It parses
every request of that length with the content that its events tell.
-/

namespace Luaw.Http

/-- The callbacks still to come, each with the number of bytes to take before it. -/
abbrev Script := List (Nat × Event)

namespace Script

def events (script : Script) : List Event := script.map Prod.snd

def size (script : Script) : Nat := (script.map Prod.fst).sum

/-- The last callback comes with the last byte. -/
def EndsWithByte (script : Script) : Prop := ∀ item ∈ script.getLast?, 0 < item.1

def execute (script : Script) (buf : Bytes) : Execution Script :=
  match script with
  | [] => ⟨[], 0, .failed 0, none⟩
  | (n, event) :: rest =>
    if n ≤ buf.length then ⟨rest, n, .paused, some event⟩
    else ⟨(n - buf.length, event) :: rest, buf.length, .ok, none⟩

theorem execute_nparsed_le (script : Script) (buf : Bytes) :
    (execute script buf).nparsed ≤ buf.length := by
  cases script with
  | nil => exact Nat.zero_le _
  | cons item rest =>
    rw [execute]
    split
    · assumption
    · exact le_rfl

def parser (script : Script) (parseURL : Bytes → Bool → Option ParsedURL) : HttpParser Script where
  init := script
  execute := execute
  nparsed_le := execute_nparsed_le
  parseURL := parseURL
  hexCh _ _ _ := 0
  interned _ := true

/-- With a byte to come at its end, a script has bytes to come as long as it has callbacks. -/
theorem size_eq_zero {script : Script} (h : script.EndsWithByte) (hsize : script.size = 0) :
    script = [] := by
  obtain rfl | ⟨rest, item, rfl⟩ := List.eq_nil_or_concat script
  · rfl
  · have hpos : 0 < item.1 := h item (by simp)
    simp only [size, List.concat_eq_append, List.map_append, List.sum_append, List.map_cons,
      List.sum_cons] at hsize
    omega

theorem EndsWithByte.tail {item : Nat × Event} {rest : Script}
    (h : EndsWithByte (item :: rest)) : EndsWithByte rest := by
  intro last hlast
  cases rest with
  | nil => cases hlast
  | cons next rest => exact h last (by rwa [List.getLast?_cons_cons])

theorem EndsWithByte.shorten {n m : Nat} {event : Event} {rest : Script}
    (h : EndsWithByte ((n, event) :: rest)) (hm : 0 < m) : EndsWithByte ((m, event) :: rest) := by
  intro last hlast
  cases rest with
  | nil =>
    cases hlast
    exact hm
  | cons next rest =>
    rw [List.getLast?_cons_cons] at hlast
    exact h last (by rwa [List.getLast?_cons_cons])

/-- The script's parser parses the requests of its size. -/
def parse {script : Script} {r : Bytes} {c : Content}
    (parseURL : Bytes → Bool → Option ParsedURL) (hsize : script.size = r.length)
    (hreports : c.Reports script.events) (hends : script.EndsWithByte) :
    Parse (script.parser parseURL) r c where
  At s q evs := s.size = q.length ∧ s.EndsWithByte ∧ evs ++ s.events = script.events
  rank s := s.length
  start := ⟨hsize, hends, rfl⟩
  step := by
    rintro s q evs buf ⟨hs, hlast, hevs⟩ hq hbuf -
    have hqpos : 0 < q.length := List.length_pos_iff.mpr hq
    have hbufpos : 0 < buf.length := List.length_pos_iff.mpr hbuf
    obtain - | ⟨⟨n, event⟩, rest⟩ := s
    · have : size [] = 0 := rfl
      omega
    · have hcons : n + size rest = q.length := by
        rw [← hs, size, size, List.map_cons, List.sum_cons]
      by_cases hn : n ≤ buf.length
      · have hrun : execute ((n, event) :: rest) buf = ⟨rest, n, .paused, some event⟩ :=
          if_pos hn
        simp only [parser, hrun]
        refine ⟨⟨?_, hlast.tail, ?_⟩, by omega, fun _ => trivial, fun _ => Nat.lt_succ_self _⟩
        · rw [List.length_drop]
          omega
        · rw [← hevs, Option.toList_some, List.append_assoc]
          rfl
      · have hrun : execute ((n, event) :: rest) buf =
            ⟨(n - buf.length, event) :: rest, buf.length, .ok, none⟩ := if_neg hn
        simp only [parser, hrun]
        refine ⟨⟨?_, hlast.shorten (by omega), ?_⟩, by omega, ?_, ?_⟩
        · have : size ((n - buf.length, event) :: rest) = n - buf.length + size rest := by
            rw [size, size, List.map_cons, List.sum_cons]
          rw [this, List.length_drop]
          omega
        · rw [← hevs, Option.toList_none, List.append_nil]
          rfl
        · intro hlt
          omega
        · intro hzero
          omega
  reported := by
    rintro s q evs ⟨hs, hlast, hevs⟩
    refine ⟨s.events, hevs ▸ hreports, ?_, ?_⟩
    · intro hq
      rw [hq] at hs
      rw [size_eq_zero hlast hs]
      rfl
    · intro hmore
      rw [List.map_eq_nil_iff.mp hmore] at hs
      exact List.length_eq_zero_iff.mp hs.symm

end Script

end Luaw.Http
