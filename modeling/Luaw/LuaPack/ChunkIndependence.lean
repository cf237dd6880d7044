import Luaw.LuaPack.FlushLimit
import Luaw.LuaPack.TokenReader

/-!
# Reading and the boundaries of the chunks

Successive `read` calls on a concatenation of encodings. Their results are those of the loop on
tokens, whatever the chunks, as long as no chunk arrives while the buffer is partly consumed.
After an error the next call starts in the middle of a value, so the streams to look at are
made of encodings and stray ends of records.
-/

namespace Luaw.LuaPack

open Lua Program

/-- The results of `k` calls of `read`, and the reader after them. -/
def readEach (fuel : Nat) : Nat → Reader → List (Except (Stop LuaError) LuaValue) × Reader
  | 0, r => ([], r)
  | k + 1, r =>
    let (result, r) := exec (read fuel) r
    let (results, r) := readEach fuel k r
    (result :: results, r)

/-- What may be left of a concatenation of encodings. -/
inductive Items : List Token → Prop where
  | nil : Items []
  | recordEnd {ts : List Token} : Items ts → Items (.plain .recordEnd rfl :: ts)
  | value {v : LuaValue} {tv ts : List Token} : tokens v = some tv → Items ts → Items (tv ++ ts)

theorem Items.all {xs : List LuaValue} {txs ts : List Token} (h : tokensOfAll xs = some txs)
    (hts : Items ts) : Items (txs ++ ts) := by
  induction xs generalizing txs with
  | nil =>
    cases h
    exact hts
  | cons x xs ih =>
    rw [tokensOfAll] at h
    obtain ⟨tx, hx, h⟩ := Option.bind_eq_some_iff.mp h
    obtain ⟨txs', hxs, rfl⟩ := Option.map_eq_some_iff.mp h
    rw [List.append_assoc]
    exact .value hx (ih hxs)

theorem Items.pairs {entries : List (LuaValue × LuaValue)} {tes ts : List Token}
    (h : tokensOfPairs entries = some tes) (hts : Items ts) : Items (tes ++ ts) := by
  induction entries generalizing tes with
  | nil =>
    cases h
    exact hts
  | cons entry entries ih =>
    rw [tokensOfPairs] at h
    obtain ⟨tk, hk, h⟩ := Option.bind_eq_some_iff.mp h
    obtain ⟨tv, hv, h⟩ := Option.bind_eq_some_iff.mp h
    obtain ⟨tes', hes, rfl⟩ := Option.map_eq_some_iff.mp h
    rw [List.append_assoc, List.append_assoc]
    exact .value hk (.value hv (ih hes))

/-- A reading step on tokens comes to an end: with a value, leaving `after`, or with an error,
leaving something that can still be read. -/
def Ends (size : Nat) (after : List Token) (result : TokenResult) : Prop :=
  (∃ val, result = some (.ok val, after)) ∨
    ∃ e rest, result = some (.error e, rest) ∧ Items rest ∧ rest.length ≤ size

/-- The loop ends on the stream, given at least as much fuel as there are tokens. -/
def Completes (fr : Frame) (stream after : List Token) : Prop :=
  ∀ n, stream.length ≤ n → Ends stream.length after (deserializeTokens n fr stream)

/-- So does the loop that has just read a value. -/
def Continues (fr : Frame) (stream after : List Token) : Prop :=
  ∀ val n, stream.length ≤ n →
    Ends stream.length after (acceptToken (deserializeTokens n) fr val stream)

theorem Ends.mono {size size' : Nat} {after : List Token} {result : TokenResult}
    (h : Ends size after result) (hle : size ≤ size') : Ends size' after result := by
  obtain hok | ⟨e, rest, hrest, hitems, hlen⟩ := h
  · exact .inl hok
  · exact .inr ⟨e, rest, hrest, hitems, by omega⟩

/-- The loop of a container goes on after every value. -/
theorem Completes.continues {stream after : List Token} (hitems : Items stream)
    (h : ∀ fr, fr.container ≠ .none → Completes fr stream after) {fr : Frame}
    (hfr : fr.container ≠ .none) : Continues fr stream after := by
  intro val n hn
  rw [acceptToken]
  split
  · next hnone => exact absurd hnone hfr
  · split
    · next fr' haccept =>
      refine h fr' ?_ n hn
      -- a container stays a container
      rw [Frame.accept] at haccept
      split at haccept
      · next hnone => exact absurd hnone hfr
      · cases haccept
        rintro ⟨⟩
      · split at haccept
        · cases haccept
          simpa using hfr
        · split at haccept
          · cases haccept
            rintro ⟨⟩
          · cases haccept
    · next e haccept => exact .inr ⟨e, stream, rfl, hitems, le_rfl⟩

theorem completes_recordEnd {ts : List Token} (hts : Items ts) {fr : Frame} :
    Completes fr (.plain .recordEnd rfl :: ts) ts := by
  intro n hn
  obtain ⟨n, rfl⟩ : ∃ m, n = m + 1 := ⟨n - 1, by simp only [List.length_cons] at hn; omega⟩
  simp only [deserializeTokens, Token.marker]
  split
  · exact .inr ⟨_, ts, rfl, hts, Nat.le_succ _⟩
  · exact .inl ⟨_, rfl⟩

theorem completes_scalar {t : Token} (ht : t.isScalar = true) {fr : Frame}
    {ts after : List Token} (h : Continues fr ts after) : Completes fr (t :: ts) after := by
  intro n hn
  rw [List.length_cons] at hn
  obtain ⟨n, rfl⟩ : ∃ m, n = m + 1 := ⟨n - 1, by omega⟩
  rw [deserializeTokens_scalar ht]
  exact (h t.value n (by omega)).mono (Nat.le_succ _)

/-- A container whose contents are read completely. -/
theorem completes_nested {m : Marker} {hm : m.isPlain = true} (container : Container)
    (hstart : ∀ n fr ts, deserializeTokens (n + 1) fr (.plain m hm :: ts) =
      nestedTokens (deserializeTokens n) fr container ts)
    {stream ts after : List Token} {fr : Frame} (hlen : ts.length ≤ stream.length)
    (hinner : Completes (.enter container none) stream ts) (h : Continues fr ts after) :
    Completes fr (.plain m hm :: stream) after := by
  intro n hn
  rw [List.length_cons] at hn ⊢
  obtain ⟨n, rfl⟩ : ∃ k, n = k + 1 := ⟨n - 1, by omega⟩
  rw [hstart, nestedTokens]
  rcases hinner n (by omega) with ⟨val, hok⟩ | ⟨e, rest, herror, hitems, hrest⟩
  · rw [hok]
    exact (h val n (by omega)).mono (by omega)
  · rw [herror]
    exact .inr ⟨e, rest, rfl, hitems, by omega⟩

mutual

theorem completes_value (v : LuaValue) {tv ts after : List Token} (hv : tokens v = some tv)
    (hts : Items ts) {fr : Frame} (hnext : Continues fr ts after)
    (hempty : tv = [] → Completes fr ts after) : Completes fr (tv ++ ts) after := by
  match v with
  | .nil =>
    cases hv
    exact completes_scalar rfl hnext
  | .bool true =>
    cases hv
    exact completes_scalar rfl hnext
  | .bool false =>
    cases hv
    exact completes_scalar rfl hnext
  | .num x =>
    rw [tokens] at hv
    split at hv
    · cases hv
      exact completes_scalar rfl hnext
    · cases hv
  | .str s =>
    rw [tokens] at hv
    split at hv
    · cases hv
      exact completes_scalar rfl hnext
    · cases hv
  | .table [] hash =>
    rw [tokens] at hv
    obtain ⟨tes, hes, rfl⟩ := Option.map_eq_some_iff.mp hv
    have hassoc : (tes ++ [Token.plain .recordEnd rfl]) ++ ts =
        tes ++ (.plain .recordEnd rfl :: ts) := by simp
    rw [List.cons_append, hassoc]
    refine completes_nested (.map []) (fun _ _ _ => rfl) (by simp; omega) ?_ hnext
    exact completes_pairs hash hes hts nofun
  | .table (x :: xs) _ =>
    rw [tokens] at hv
    obtain ⟨tx, hx, hv⟩ := Option.bind_eq_some_iff.mp hv
    obtain ⟨txs, hxs, rfl⟩ := Option.map_eq_some_iff.mp hv
    have hassoc : (tx ++ txs ++ [Token.plain .recordEnd rfl]) ++ ts =
        tx ++ (txs ++ (.plain .recordEnd rfl :: ts)) := by simp
    -- after the first element comes the rest of the array, and then its end
    have hrest := Items.all hxs (.recordEnd hts)
    have hall : ∀ fr, fr.container ≠ .none →
        Completes fr (txs ++ (.plain .recordEnd rfl :: ts)) ts :=
      fun fr hfr => completes_all xs hxs hts hfr
    rw [List.cons_append, hassoc]
    refine completes_nested (.array []) (fun _ _ _ => rfl) (by simp; omega) ?_ hnext
    exact completes_value x hx hrest (Completes.continues hrest hall nofun) fun _ => hall _ nofun
  | .sparse _ _ =>
    cases hv
    exact completes_nested (.array []) (fun _ _ _ => rfl) (by simp) (completes_recordEnd hts) hnext
  | .other _ =>
    cases hv
    -- a value of another kind writes no token
    exact hempty rfl

theorem completes_all (xs : List LuaValue) {txs ts : List Token} (hxs : tokensOfAll xs = some txs)
    (hts : Items ts) {fr : Frame} (hfr : fr.container ≠ .none) :
    Completes fr (txs ++ (.plain .recordEnd rfl :: ts)) ts := by
  match xs with
  | [] =>
    cases hxs
    exact completes_recordEnd hts
  | x :: xs =>
    rw [tokensOfAll] at hxs
    obtain ⟨tx, hx, hxs⟩ := Option.bind_eq_some_iff.mp hxs
    obtain ⟨txs', hxs', rfl⟩ := Option.map_eq_some_iff.mp hxs
    have hrest := Items.all hxs' (.recordEnd hts)
    have hall : ∀ fr, fr.container ≠ .none →
        Completes fr (txs' ++ (.plain .recordEnd rfl :: ts)) ts :=
      fun fr hfr => completes_all xs hxs' hts hfr
    rw [List.append_assoc]
    exact completes_value x hx hrest (Completes.continues hrest hall hfr) fun _ => hall _ hfr

theorem completes_pairs (entries : List (LuaValue × LuaValue)) {tes ts : List Token}
    (hes : tokensOfPairs entries = some tes) (hts : Items ts) {fr : Frame}
    (hfr : fr.container ≠ .none) :
    Completes fr (tes ++ (.plain .recordEnd rfl :: ts)) ts := by
  match entries with
  | [] =>
    cases hes
    exact completes_recordEnd hts
  | (k, v) :: entries =>
    rw [tokensOfPairs] at hes
    obtain ⟨tk, hk, hes⟩ := Option.bind_eq_some_iff.mp hes
    obtain ⟨tv, hv, hes⟩ := Option.bind_eq_some_iff.mp hes
    obtain ⟨tes', hes', rfl⟩ := Option.map_eq_some_iff.mp hes
    have hrest := Items.pairs hes' (.recordEnd hts)
    have hpairs : ∀ fr, fr.container ≠ .none →
        Completes fr (tes' ++ (.plain .recordEnd rfl :: ts)) ts :=
      fun fr hfr => completes_pairs entries hes' hts hfr
    have hval : ∀ fr, fr.container ≠ .none →
        Completes fr (tv ++ (tes' ++ (.plain .recordEnd rfl :: ts))) ts :=
      fun fr hfr => completes_value v hv hrest (Completes.continues hrest hpairs hfr)
        fun _ => hpairs _ hfr
    rw [List.append_assoc, List.append_assoc]
    exact completes_value k hk (.value hv hrest)
      (Completes.continues (.value hv hrest) hval hfr) fun _ => hval _ hfr

end

/-- A call of `read` on what is left of a concatenation of encodings. -/
theorem Items.read {ts : List Token} (h : Items ts) (hne : ts ≠ []) {n : Nat}
    (hn : ts.length ≤ n) :
    ∃ result rest, deserializeTokens n (.enter .none none) ts = some (result, rest) ∧
      Items rest ∧ rest.length ≤ ts.length := by
  induction h with
  | nil => exact absurd rfl hne
  | @recordEnd ts hts _ =>
    obtain ⟨val, hok⟩ | ⟨e, rest, herror, hitems, hlen⟩ := completes_recordEnd hts n hn
    · exact ⟨_, _, hok, hts, Nat.le_succ _⟩
    · exact ⟨_, _, herror, hitems, hlen⟩
  | @value v tv ts hv hts ih =>
    by_cases hempty : tv = []
    · subst hempty
      exact ih hne hn
    · have hnext : Continues (.enter .none none) ts ts := fun val m hm => .inl ⟨val, rfl⟩
      rcases completes_value v hv hts hnext (fun h0 => absurd h0 hempty) n hn with
        ⟨val, hok⟩ | ⟨e, rest, herror, hitems, hlen⟩
      · exact ⟨_, _, hok, hts, by simp⟩
      · exact ⟨_, _, herror, hitems, hlen⟩

/-- The results of `k` calls of `read`, from the tokens; nothing is left to read when there are
no more tokens. -/
def expectedReads (n : Nat) : Nat → List Token → List (Except LuaError LuaValue)
  | 0, _ => []
  | k + 1, [] => .ok .nil :: expectedReads n k []
  | k + 1, t :: ts =>
    match deserializeTokens n (.enter .none none) (t :: ts) with
    | some (result, rest) => result :: expectedReads n k rest
    | none => []

/-- The refill at the start of `read`. -/
theorem Holds.next {r : Reader} {p : Bytes} {c : Nat} (h : Holds r p c) :
    r.readNextBuffer.torn = true ∨ Holds r.readNextBuffer p c := by
  by_cases hmore : r.chunks = []
  · right
    have hnext : r.readNextBuffer = r ∨ r.readNextBuffer = { r with EOF := true } := by
      rw [Reader.readNextBuffer, hmore]
      split
      · exact .inl rfl
      · exact .inr rfl
    obtain hnext | hnext := hnext
    · rw [hnext]
      exact h
    · rw [hnext]
      exact ⟨h.bytes, h.bound, fun _ => hmore, h.small, h.count, h.nonempty, h.dictionary⟩
  · obtain htorn | ⟨h', -⟩ := h.readNextBuffer hmore
    · exact .inl htorn
    · exact .inr h'

/-- At the end of the input the refill finds nothing, and the loop is not entered. -/
theorem Holds.done_of_nil {r : Reader} {c : Nat} (h : Holds r [] c) :
    r.readNextBuffer.done = true := by
  have hbytes := List.append_eq_nil_iff.mp h.bytes
  have hmore : r.chunks = [] := by
    rcases hchunks : r.chunks with - | ⟨chunk, chunks⟩
    · rfl
    · have hne := h.nonempty chunk (by simp [hchunks])
      have hnil := hbytes.2
      rw [hchunks, List.flatten_cons, List.append_eq_nil_iff] at hnil
      exact absurd hnil.1 hne
  have hlen : r.buffer.length ≤ r.offset := List.drop_eq_nil_iff.mp hbytes.1
  rw [Reader.readNextBuffer, hmore]
  split
  · next heof => simp [Reader.done, heof, hlen]
  · simp [Reader.done, hlen]

theorem exec_read (fuel : Nat) (r : Reader) :
    exec (read fuel) r =
      exec (deserializeLoop fuel (.enter .none r.readNextBuffer.dictionary)) r.readNextBuffer := rfl

/-- The calls of `read` have the expected results, unless the run is torn. -/
theorem readEach_reads {c n fuel : Nat} (hfuel : c + n < fuel) (k : Nat) {ts : List Token}
    (hts : Items ts) (hn : ts.length ≤ n) {r : Reader} (h : Holds r (bytesOf ts) c) :
    (readEach fuel k r).2.torn = true ∨
      (readEach fuel k r).1 = (expectedReads n k ts).map fun result => result.mapError .raised := by
  have htornEach : ∀ k r, r.torn = true → (readEach fuel k r).2.torn = true := by
    intro k
    induction k with
    | zero => exact fun _ h => h
    | succ k ih => exact fun r h => ih _ (stable_torn.read fuel r h)
  induction k generalizing ts r with
  | zero => exact .inr rfl
  | succ k ih =>
    -- the chunk that `read` begins with may be the torn one
    obtain htorn | h' := h.next
    · exact .inl (htornEach k _ (stable_torn.deserializeLoop fuel _ _ htorn))
    · cases ts with
      | nil =>
        obtain ⟨f, rfl⟩ : ∃ f, fuel = f + 1 := ⟨fuel - 1, by omega⟩
        have hread : exec (read (f + 1)) r = (.ok .nil, r.readNextBuffer) := by
          rw [exec_read, deserializeLoop, exec_bind_ok (exec_get _), h.done_of_nil]
          rfl
        obtain htorn | hrest := ih hts hn h'
        · left
          rw [readEach, hread]
          exact htorn
        · right
          rw [readEach, hread, expectedReads]
          exact congrArg (_ :: ·) hrest
      | cons t ts =>
        obtain ⟨result, rest, htokens, hrest, hlen⟩ := hts.read (List.cons_ne_nil t ts) hn
        obtain htorn | ⟨r', hrun, hr'⟩ := deserializeLoop_reads n hfuel htokens r.readNextBuffer h'
        · left
          have hread : (exec (read fuel) r).2.torn = true := by
            rw [exec_read, h'.dictionary]
            exact htorn
          exact htornEach k _ hread
        · have hread : exec (read fuel) r = (result.mapError .raised, r') := by
            rw [exec_read, h'.dictionary]
            exact hrun
          rcases ih hrest (by omega) hr' with htorn | hresults
          · left
            rw [readEach, hread]
            exact htorn
          · right
            rw [readEach, hread, expectedReads, htokens]
            exact congrArg (_ :: ·) hresults

/-- The chunks of a file or a request: none of them is empty. -/
def Chunks (s : Bytes) (chunks : List Bytes) : Prop :=
  chunks.flatten = s ∧ ∀ chunk ∈ chunks, chunk ≠ []

theorem Chunks.holds {s : Bytes} {chunks : List Bytes} (h : Chunks s chunks)
    (hsmall : s.length < 2 ^ 31) : Holds (newLPackReader chunks) s chunks.length := by
  refine ⟨h.1, le_rfl, nofun, ?_, le_rfl, h.2, rfl⟩
  show 0 + chunks.flatten.length < 2 ^ 31
  rw [h.1]
  omega

/-- The bytes of values written one after the other. -/
def WrittenEach (vs : List LuaValue) (s : Bytes) : Prop :=
  ∃ ss, List.Forall₂ Written vs ss ∧ s = ss.flatten

theorem WrittenEach.items {vs : List LuaValue} {s : Bytes} (h : WrittenEach vs s) :
    ∃ ts, Items ts ∧ s = bytesOf ts := by
  obtain ⟨ss, hss, rfl⟩ := h
  induction hss with
  | nil => exact ⟨[], .nil, rfl⟩
  | @cons v s vs ss hv _ ih =>
    obtain ⟨tv, htv, rfl⟩ := hv.tokens
    obtain ⟨ts, hts, hflat⟩ := ih
    refine ⟨tv ++ ts, .value htv hts, ?_⟩
    rw [List.flatten_cons, hflat, bytesOf, bytesOf, bytesOf, List.flatMap_append]

/-- A reader that gets everything in one chunk, before or after that has come. -/
def OneChunk (s : Bytes) (r : Reader) : Prop :=
  r.torn = false ∧ ((r.chunks = [] ∧ r.buffer = s) ∨ (r.chunks = [s] ∧ r.buffer = []))

theorem stable_oneChunk (s : Bytes) : Stable (OneChunk s) := by
  refine ⟨fun r h => ?_, fun _ _ h => h, fun _ _ h => h⟩
  obtain ⟨htorn, ⟨hnil, hbuffer⟩ | ⟨hchunk, hbuffer⟩⟩ := h
  · rw [Reader.readNextBuffer, hnil]
    split
    · exact ⟨htorn, .inl ⟨hnil, hbuffer⟩⟩
    · exact ⟨htorn, .inl ⟨rfl, hbuffer⟩⟩
  · rw [Reader.readNextBuffer, hchunk]
    split
    · exact ⟨htorn, .inr ⟨hchunk, hbuffer⟩⟩
    · refine ⟨?_, .inl ⟨rfl, ?_⟩⟩
      · simp [Reader.refill, htorn, hbuffer]
      · simp [Reader.refill, hbuffer]

theorem oneChunk_new (s : Bytes) : OneChunk s (newLPackReader [s]) := ⟨rfl, .inr ⟨rfl, rfl⟩⟩

theorem readEach_one_chunk (fuel k : Nat) (s : Bytes) :
    (readEach fuel k (newLPackReader [s])).2.torn = false := by
  have hkeep : ∀ k r, OneChunk s r → OneChunk s (readEach fuel k r).2 := by
    intro k
    induction k with
    | zero => exact fun _ h => h
    | succ k ih => exact fun r h => ih _ ((stable_oneChunk s).read fuel r h)
  exact (hkeep k _ (oneChunk_new s)).1

/-- However a concatenation of encodings is cut into chunks, the calls of `read` return the
same results as on one chunk, as long as no chunk arrives while the buffer is partly consumed. -/
theorem readEach_independent_of_chunks {vs : List LuaValue} {s : Bytes} (h : WrittenEach vs s)
    (hsmall : s.length < 2 ^ 31) (k : Nat) :
    ∃ results : List (Except LuaError LuaValue),
      (∀ chunks, Chunks s chunks → ∃ N, ∀ fuel, N ≤ fuel →
        (readEach fuel k (newLPackReader chunks)).2.torn = false →
        (readEach fuel k (newLPackReader chunks)).1 =
          results.map fun result => result.mapError .raised) ∧
      (s ≠ [] → ∃ N, ∀ fuel, N ≤ fuel →
        (readEach fuel k (newLPackStringReader s)).1 =
          results.map fun result => result.mapError .raised) := by
  obtain ⟨ts, hts, rfl⟩ := h.items
  have hall : ∀ chunks, Chunks (bytesOf ts) chunks → ∀ fuel,
      chunks.length + ts.length + 1 ≤ fuel →
      (readEach fuel k (newLPackReader chunks)).2.torn = false →
      (readEach fuel k (newLPackReader chunks)).1 =
        (expectedReads ts.length k ts).map fun result => result.mapError .raised := by
    intro chunks hchunks fuel hfuel huntorn
    obtain htorn | hresults :=
      readEach_reads (Nat.lt_of_succ_le hfuel) k hts le_rfl (hchunks.holds hsmall)
    · rw [huntorn] at htorn
      cases htorn
    · exact hresults
  refine ⟨expectedReads ts.length k ts, fun chunks hchunks => ⟨_, hall chunks hchunks⟩,
    fun hne => ⟨1 + ts.length + 1, fun fuel hfuel => ?_⟩⟩
  have hone : Chunks (bytesOf ts) [bytesOf ts] := ⟨by simp, by simpa using hne⟩
  exact hall _ hone fuel hfuel (readEach_one_chunk fuel k _)

/-- The encoding of 1 followed by the encoding of 2. -/
theorem written_one_two : WrittenEach [.int 1, .int 2] [8, 1, 8, 2] := by
  have hone : numberMarker (.finite (1 : Int)) = .ok .uint8 := by decide +kernel
  have htwo : numberMarker (.finite (2 : Int)) = .ok .uint8 := by decide +kernel
  have hfirst : Written (.int 1) [8, 1] :=
    written_of_tokens (tokens_num hone) nofun (by decide +kernel +revert)
  have hsecond : Written (.int 2) [8, 2] :=
    written_of_tokens (tokens_num htwo) nofun (by decide +kernel +revert)
  exact ⟨[[8, 1], [8, 2]], .cons hfirst (.cons hsecond .nil), rfl⟩

theorem readEach_one_two :
    ∃ results : List (Except LuaError LuaValue),
      (∀ chunks, Chunks [8, 1, 8, 2] chunks → ∃ N, ∀ fuel, N ≤ fuel →
        (readEach fuel 2 (newLPackReader chunks)).2.torn = false →
        (readEach fuel 2 (newLPackReader chunks)).1 =
          results.map fun result => result.mapError .raised) ∧
      ([8, 1, 8, 2] ≠ ([] : Bytes) → ∃ N, ∀ fuel, N ≤ fuel →
        (readEach fuel 2 (newLPackStringReader [8, 1, 8, 2])).1 =
          results.map fun result => result.mapError .raised) :=
  readEach_independent_of_chunks written_one_two (by decide) 2

/-- Cut after the third byte, the second call gets its chunk while the marker of the second
number is still in the buffer, and sees the byte before it again. -/
theorem torn_chunk_changes_results :
    ¬∃ N, ∀ fuel, N ≤ fuel →
      (readEach fuel 2 (newLPackReader [[8, 1, 8], [2]])).1 =
        (readEach fuel 2 (newLPackReader [[8, 1, 8, 2]])).1 := by
  rintro ⟨N, h⟩
  have hagree := h (N + 12) (Nat.le_add_right N 12)
  have htwo : (readEach (N + 12) 2 (newLPackReader [[8, 1, 8, 2]])).1 =
      [.ok (.int 1), .ok (.int 2)] := by rfl
  have hnil : (readEach (N + 12) 2 (newLPackReader [[8, 1, 8], [2]])).1 =
      [.ok (.int 1), .ok .nil] := by rfl
  rw [htwo, hnil] at hagree
  simp [LuaValue.int] at hagree

end Luaw.LuaPack
