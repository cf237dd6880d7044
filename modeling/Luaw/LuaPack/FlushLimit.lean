import Luaw.LuaPack.WriteQueue

/-!
# The flush limit of the writer

The limit of a writer only decides into how many strings the output is cut, as long as no
automatic flush falls between a marker and its payload, or right after the last entry of a
value, where the final flush then finds an empty queue.
-/

namespace Luaw.LuaPack

open Lua Program

/-- Successive calls of `write`. -/
def writeEach : List LuaValue → WriterM Unit
  | [] => pure ()
  | v :: vs => do
    write v
    writeEach vs

/-- The calls raise no error and the strings passed to `writeFn` join up to `bytes`. -/
def WritesAs (limit : Nat) (vs : List LuaValue) (bytes : Bytes) : Prop :=
  ∃ w, exec (writeEach vs) (newLPackBufferWriter limit) = (.ok (), w) ∧ w.output.flatten = bytes

/-- The tokens of the values, one list for each. -/
def TokensOfEach (vs : List LuaValue) (tss : List (List Token)) : Prop :=
  List.Forall₂ (fun v ts => tokens v = some ts) vs tss

/-- A write whose tokens are flushed safely and with room leaves an empty queue and adds the
bytes of the value to the output. -/
theorem exec_write_safe {v : LuaValue} {ts : List Token} (h : tokens v = some ts) {w : Writer}
    (hw : w.dictionary = none) (hq : Queued w []) (hfit : FlushesFit w.flushLimit [] ts)
    (hsafe : FlushSafe w.flushLimit 0 ts) :
    ∃ strs, exec (write v) w = (.ok (), w.flushed strs) ∧ strs.flatten = bytesOf ts := by
  refine ⟨(flushes w.flushLimit [] ts).map bytesOf, ?_, ?_⟩
  · rw [exec_write h hw]
    obtain ⟨-, hok⟩ | ⟨hbad, -⟩ := writeTokens_cases ts hq
    · exact hok
    · exact absurd hfit (hbad hsafe)
  · rw [flatten_map_bytesOf, flatten_flushes, List.nil_append]

/-- A write whose tokens are not flushed safely raises. -/
theorem exec_write_unsafe {v : LuaValue} {ts : List Token} (h : tokens v = some ts) {w : Writer}
    (hw : w.dictionary = none) (hq : Queued w []) (hlimit : ¬FlushSafe w.flushLimit 0 ts) :
    ∃ e w', exec (write v) w = (.error (.raised e), w') := by
  rw [exec_write h hw]
  obtain ⟨hsafe, -⟩ | ⟨-, herror⟩ := writeTokens_cases ts hq
  · exact absurd hsafe hlimit
  · exact herror

/-- Below the limit everything is left to the final flush. -/
theorem flushes_unlimited {limit : Nat} {p ts : List Token}
    (h : queueSize (p ++ ts) < limit) (hne : p ++ ts ≠ []) :
    flushes limit p ts = [p ++ ts] ∧ FlushSafe limit (queueSize p) ts := by
  induction ts generalizing p with
  | nil =>
    rw [List.append_nil] at hne ⊢
    exact ⟨rfl, Nat.pos_of_ne_zero fun h0 => hne (queueSize_eq_zero.mp h0)⟩
  | cons t ts ih =>
    have happ : p ++ t :: ts = (p ++ [t]) ++ ts := by simp
    have hsize : queueSize (p ++ [t]) = queueSize p + t.size := by simp [queueSize]
    have htotal : queueSize ((p ++ [t]) ++ ts) = queueSize p + t.size + queueSize ts := by
      simp [queueSize, Nat.add_assoc]
    have hmarker : 1 ≤ t.size := Nat.le_add_right _ _
    rw [happ] at h
    obtain ⟨hflushes, hsafe⟩ := ih h (by simp)
    rw [htotal] at h
    refine ⟨?_, fun _ => by omega, ?_⟩
    · rw [flushes, hsize, if_neg (by omega), hflushes, happ]
    · rw [if_neg (by omega), ← hsize]
      exact hsafe

/-- Without an automatic flush a value is written as one string. -/
theorem exec_write_unlimited {v : LuaValue} {ts : List Token} (h : tokens v = some ts)
    {w : Writer} (hw : w.dictionary = none) (hq : Queued w []) (hts : ts ≠ [])
    (hroom : EnoughRoom (queueSize ts) (bytesOf ts)) (hlimit : queueSize ts < w.flushLimit) :
    exec (write v) w = (.ok (), w.flushed [bytesOf ts]) := by
  obtain ⟨hflushes, hsafe⟩ := @flushes_unlimited w.flushLimit [] ts hlimit hts
  rw [exec_write h hw]
  obtain ⟨-, hok⟩ | ⟨hbad, -⟩ := writeTokens_cases ts hq
  · rw [hok, hflushes]
    rfl
  · refine absurd ?_ (hbad hsafe)
    simpa [FlushesFit, hflushes] using hroom

theorem written_of_tokens {v : LuaValue} {ts : List Token} (h : tokens v = some ts)
    (hts : ts ≠ []) (hroom : EnoughRoom (queueSize ts) (bytesOf ts)) : Written v (bytesOf ts) := by
  have hrun := @exec_write_unlimited v ts h (newLPackBufferWriter (queueSize ts + 1)) rfl ⟨rfl, rfl⟩
    hts hroom (Nat.lt_succ_self _)
  exact ⟨_, _, hrun, by simp [Writer.flushed, newLPackBufferWriter]⟩

/-- The run of successive writes from any writer with an empty queue. -/
theorem writeEach_iff {vs : List LuaValue} {tss : List (List Token)} (h : TokensOfEach vs tss)
    {w : Writer} (hw : w.dictionary = none) (hq : Queued w [])
    (hfit : ∀ ts ∈ tss, FlushSafe w.flushLimit 0 ts → FlushesFit w.flushLimit [] ts) :
    (∃ w', exec (writeEach vs) w = (.ok (), w') ∧
      w'.output.flatten = w.output.flatten ++ bytesOf tss.flatten) ↔
    ∀ ts ∈ tss, FlushSafe w.flushLimit 0 ts := by
  induction h generalizing w with
  | nil => simp [writeEach, bytesOf]
  | @cons v ts vs tss hv _ ih =>
    by_cases hsafe : FlushSafe w.flushLimit 0 ts
    · obtain ⟨strs, hwrite, hstrs⟩ := exec_write_safe hv hw hq (hfit ts List.mem_cons_self hsafe) hsafe
      have hih := @ih (w.flushed strs) hw (Queued.flushed w strs)
        fun us hus => hfit us (List.mem_cons_of_mem _ hus)
      have hout : (w.flushed strs).output.flatten ++ bytesOf tss.flatten =
          w.output.flatten ++ bytesOf (ts :: tss).flatten := by
        simp [Writer.flushed, hstrs, bytesOf]
      rw [hout] at hih
      rw [writeEach, exec_bind_ok hwrite, hih]
      simp [Writer.flushed, hsafe]
    · obtain ⟨e, w', herror⟩ := exec_write_unsafe hv hw hq hsafe
      rw [writeEach, exec_bind_error herror]
      simp [hsafe]

/-- Writing is independent of the flush limit exactly when no automatic flush separates a
marker from its payload or leaves nothing for the final flush of a value. Room is only asked
for the flushes that do take place. -/
theorem writesAs_iff_flushSafe (limit : Nat) {vs : List LuaValue} {tss : List (List Token)}
    (h : TokensOfEach vs tss) (hroom : ∀ ts ∈ tss, FlushSafe limit 0 ts → FlushesFit limit [] ts) :
    WritesAs limit vs (bytesOf tss.flatten) ↔ ∀ ts ∈ tss, FlushSafe limit 0 ts :=
  @writeEach_iff vs tss h (newLPackBufferWriter limit) rfl ⟨rfl, rfl⟩ hroom

theorem numberMarker_seven : numberMarker (.finite 7) = .ok .uint8 := by decide +kernel

theorem writesAs_hundred :
    WritesAs 100 [.table [.int 7, .bool true] []]
      (bytesOf [[.plain .arrayStart rfl, .number .uint8 (.finite 7) numberMarker_seven,
        .plain .boolTrue rfl, .plain .recordEnd rfl]].flatten) ↔
    ∀ ts ∈ [[.plain .arrayStart rfl, .number .uint8 (.finite 7) numberMarker_seven,
      .plain .boolTrue rfl, .plain .recordEnd rfl]], FlushSafe 100 0 ts := by
  refine writesAs_iff_flushSafe 100 (.cons ?_ .nil) ?_
  · simp [tokens, tokensOfAll, LuaValue.int, tokens_num numberMarker_seven]
  · simp only [List.mem_singleton, forall_eq, FlushesFit]
    intro _
    decide +kernel

/-- With a limit of two an array that starts with a number is not written at all: the flush
comes when the marker of the number is the last entry of the queue. -/
theorem number_after_marker_raises :
    ¬WritesAs 2 [.table [.int 7] []] [2, 8, 7, 4] := by
  rintro ⟨w, hrun, -⟩
  have hraised :
      (exec (writeEach [.table [.int 7] []]) (newLPackBufferWriter 2)).1.toBool = false := by
    decide +kernel
  rw [hrun] at hraised
  cases hraised

end Luaw.LuaPack
