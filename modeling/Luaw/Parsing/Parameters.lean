import Luaw.Http.FormCoding
import Luaw.Parsing.Exchange

/-!
# The parameters of a GET

A client encodes the parameters of a GET into the query of its URL. The parser of the server takes
that URL, its query is found again, and the decoder leaves the same parameters with the server.
-/

namespace Luaw.Parsing

open Http Lua Program

section Query

/-- The encoder writes bytes that may stand in a query. -/
theorem urlEncodeByte_urlChar (ch : UInt8) : ∀ c ∈ urlEncodeByte ch, isUrlChar c = true := by
  have hall : ∀ ch : UInt8, (urlEncodeByte ch).all isUrlChar = true :=
    forall_byte (by decide +kernel)
  exact fun c hc => List.all_eq_true.mp (hall ch) c hc

theorem urlEncode_urlChar {str : Bytes} : ∀ c ∈ urlEncode str, isUrlChar c = true := by
  intro c hc
  obtain ⟨ch, -, hc⟩ := List.mem_flatMap.mp hc
  exact urlEncodeByte_urlChar ch c hc

theorem joinPairs_urlChar (pairs : List (Bytes × Bytes)) :
    ∀ c ∈ joinPairs pairs, isUrlChar c = true := by
  intro c hc
  obtain ⟨piece, hpiece, hc⟩ := List.mem_flatten.mp hc
  obtain ⟨⟨key, val⟩, -, hpiece⟩ := List.mem_flatMap.mp (List.mem_of_mem_dropLast hpiece)
  simp only [List.mem_cons, List.not_mem_nil, or_false] at hpiece
  obtain rfl | rfl | rfl | rfl := hpiece
  · exact urlEncode_urlChar c hc
  · obtain rfl : c = 61 := by simpa [text] using hc
    decide
  · exact urlEncode_urlChar c hc
  · obtain rfl : c = 38 := by simpa [text] using hc
    decide

variable {rt : Runtime} {m : Message} {path : Bytes} {params : List (Bytes × Bytes)}

/-- The URL of a GET. -/
def getTarget (rt : Runtime) (path : Bytes) (params : List (Bytes × Bytes)) : OriginForm :=
  ⟨path, if params = [] then none else some (joinPairs (rt.pairs params)), none⟩

theorem buildURL_get (hmethod : m.method = some (text "GET")) (hurl : m.url = some path)
    (hparams : m.params = some params) :
    buildURL rt m = .ok (some (getTarget rt path params).text) := by
  rw [buildURL, if_pos hmethod, hparams, hurl, getTarget, OriginForm.text]
  cases params with
  | nil =>
    have hnil : rt.pairs ([] : List (Bytes × Bytes)) = [] := List.perm_nil.mp (rt.pairs_perm _)
    rw [urlEncodeParams, hnil]
    exact congrArg (fun url => Except.ok (some url)) (List.append_nil path).symm
  | cons param rest =>
    have hne : rt.pairs (param :: rest) ≠ [] := fun hnil =>
      List.cons_ne_nil param rest (List.nil_perm.mp (hnil ▸ rt.pairs_perm _))
    obtain ⟨entry, entries, hentries⟩ := List.exists_cons_of_ne_nil hne
    rw [urlEncodeParams, if_pos (by simp [hentries]), if_neg (List.cons_ne_nil param rest)]
    show (tableConcat ((path :: text "?" :: _).map Element.str)).map some = _
    rw [tableConcat, concatFrom_strs]
    show Except.ok (some (path ++ (text "?" ++ joinPairs (rt.pairs (param :: rest))))) = _
    exact congrArg (fun query => Except.ok (some (path ++ query))) (List.append_nil _).symm

theorem getTarget_wellFormed
    (hpath : ∃ ch rest, path = ch :: rest ∧ (ch = 47 ∨ ch = 42) ∧ ∀ c ∈ rest, isUrlChar c = true) :
    (getTarget rt path params).WellFormed := by
  refine ⟨hpath, ?_, by rintro f ⟨⟩⟩
  intro q hq c hc
  unfold getTarget at hq
  dsimp only at hq
  split at hq
  · cases hq
  · cases hq
    exact .inl (joinPairs_urlChar _ c hc)

/-- The query of a GET is decoded to the table of its parameters. -/
theorem decodes_target {σ : Type} (P : HttpParser σ) (rt : Runtime)
    (hpath : ∃ ch rest, path = ch :: rest ∧ (ch = 47 ∨ ch = 42) ∧ ∀ c ∈ rest, isUrlChar c = true)
    (hdistinct : (params.map Prod.fst).Nodup) (hpairs : ∀ p ∈ params, p.1 ≠ [] ∧ p.2 ≠ []) :
    ∃ table left, queryParams P ⟨some (pathOf (getTarget rt path params).text),
        queryOf (getTarget rt path params).text⟩ = .ok (table, left) ∧
      ∀ name value, Headers.get? name table = some value ↔
        ∃ v, (name, v) ∈ params ∧ value = .single v := by
  have hperm := rt.pairs_perm params
  have hpairs' : ∀ p ∈ rt.pairs params, p.1 ≠ [] ∧ p.2 ≠ [] :=
    fun p hp => hpairs p (hperm.mem_iff.mp hp)
  have hnodup : ((rt.pairs params).map Prod.fst).Nodup :=
    (hperm.map Prod.fst).nodup_iff.mpr hdistinct
  -- no query comes of no parameters
  obtain ⟨left, hdecode⟩ : ∃ left, queryParams P ⟨some (pathOf (getTarget rt path params).text),
      queryOf (getTarget rt path params).text⟩ =
        .ok (storeHttpParams [] (rt.pairs params), left) := by
    obtain ⟨left, hdecode⟩ := urlDecode_joinPairs (P.hexCh (joinPairs (rt.pairs params))) hpairs' []
    rw [(getTarget_wellFormed hpath).queryOf_text, getTarget, queryParams]
    by_cases hnil : params = []
    · subst hnil
      rw [List.perm_nil.mp (rt.pairs_perm [])]
      exact ⟨none, rfl⟩
    · by_cases hempty : joinPairs (rt.pairs params) = []
      · rw [hempty] at hdecode
        have hnone : ([] : Params) = storeHttpParams [] (rt.pairs params) :=
          congrArg Prod.fst (Except.ok.inj hdecode)
        simp only [hnil, if_false, Option.getD_some, hempty, if_true]
        exact ⟨none, by rw [← hnone]⟩
      · simp only [hnil, if_false, Option.getD_some, hempty, hdecode]
        exact ⟨_, rfl⟩
  rw [storeHttpParams_new (by simpa using hnodup), List.nil_append] at hdecode
  refine ⟨_, left, hdecode, fun name value => ⟨fun hget => ?_, ?_⟩⟩
  · obtain ⟨p, hp, heq⟩ := List.mem_map.mp (get?_mem hget)
    cases heq
    exact ⟨p.2, hperm.mem_iff.mp hp, rfl⟩
  · rintro ⟨v, hp, rfl⟩
    refine get?_of_mem ?_ (List.mem_map.mpr ⟨(name, v), hperm.mem_iff.mpr hp, rfl⟩)
    rwa [List.map_map]

end Query

section Received

variable {rt : Runtime} {m m' : Message} {fields : List (Bytes × Bytes)} {parts : List Bytes}
  {path : Bytes} {params : List (Bytes × Bytes)}

/-- A GET of a client with a table of parameters. -/
structure GetRequest (rt : Runtime) (m : Message) (path : Bytes) (params : List (Bytes × Bytes))
    (fields : List (Bytes × Bytes)) (parts : List Bytes) : Prop where
  composed : Composed m fields parts
  mesgType : m.mesgType = .creq
  version : m.majorVersion = 1 ∧ m.minorVersion = 1
  methodSet : m.method = some (text "GET")
  urlSet : m.url = some path
  paramsSet : m.params = some params
  startsPath : ∃ ch rest, path = ch :: rest ∧ (ch = 47 ∨ ch = 42) ∧ ∀ c ∈ rest, isUrlChar c = true
  distinct : (params.map Prod.fst).Nodup
  pairs : ∀ p ∈ params, p.1 ≠ [] ∧ p.2 ≠ []
  short : (getTarget rt path params).text.length < 65536
  sendable : Sendable fields
  stays : ∀ f ∈ fields, closes f = false
  length : LengthFits parts.flatten.length
  room : (requestLine .get (getTarget rt path params).text 1 1).length +
    ((contentLength parts.flatten :: fields).flatMap headerLine).length + 3 ≤ httpMaxHeaderSize
  ordinary : ∀ block : List (Bytes × Bytes), block.Perm (contentLength parts.flatten :: fields) →
    getMultipartBoundary (addFields block []) = .ok none ∧
      isLuaPackMesg (addFields block []) = false ∧ FormFree (addFields block [])
  apart : ∀ query, queryOf (getTarget rt path params).text = some query →
    query ≠ path ∧ ∀ f ∈ fields, f.1 ≠ query ∧ f.2 ≠ query

theorem GetRequest.client (h : GetRequest rt m path params fields parts) :
    ClientRequest rt m .get (getTarget rt path params).text fields parts where
  composed := h.composed
  mesgType := h.mesgType
  version := h.version
  methodSet := h.methodSet
  urlBuilt := buildURL_get h.methodSet h.urlSet h.paramsSet
  noPost hpost := by
    have hget : (some (text "GET") : Option Bytes) = some (text "POST") :=
      h.methodSet.symm.trans hpost.1
    exact absurd hget (by decide)
  url := (getTarget_wellFormed h.startsPath).valid (by decide)
  connect := by decide
  sendable := h.sendable
  stays := h.stays
  length := h.length
  room := h.room
  ordinary := h.ordinary
  apart query hquery := by
    rw [(getTarget_wellFormed h.startsPath).pathOf_text]
    exact h.apart query hquery

/-- A server reads the GET that a client has flushed, with its path and with the table of its
parameters, from whatever strings its bytes come in. -/
theorem GetRequest.params_read (h : GetRequest rt m path params fields parts) (platform : Platform)
    (unknown : Bytes → Bool → Option ParsedURL) (hflush : exec (flush rt) m = (.ok (), m')) :
    ∃ (target : Bytes) (block : List (Bytes × Bytes)) (bytes : Bytes),
      block.Perm (contentLength parts.flatten :: fields) ∧
      m'.conn.written = m.conn.written ++ bytes ∧
      ∀ (conn : Conn) (chunks : List Bytes) (more : List (Except LuaError Bytes)) (extra : Bytes),
        conn.Supply chunks more (bytes ++ extra) →
        ∃ N s chunks' table, (∀ fuel, exec (readFull (serverParser platform unknown) (fuel + N))
            (newSession (serverParser platform unknown) conn) = (.ok (), s)) ∧
          Read s .get target table block parts.flatten ∧
          s.req.parsedURL.bind ParsedURL.path = some path ∧
          (∀ name value, Headers.get? name table = some value ↔
            ∃ v, (name, v) ∈ params ∧ value = .single v) ∧
          s.consumed = bytes ∧ s.Supply chunks' more extra := by
  have hwell : (getTarget rt path params).WellFormed := getTarget_wellFormed h.startsPath
  have hfirst : (getTarget rt path params).text.head? = some 47 ∨
      (getTarget rt path params).text.head? = some 42 := by
    obtain ⟨ch, rest, rfl, hch, -⟩ := h.startsPath
    exact hch.imp (congrArg some) (congrArg some)
  obtain ⟨table, left, hdecode, htable⟩ :=
    decodes_target (serverParser platform unknown) rt h.startsPath h.distinct h.pairs
  obtain ⟨block, bytes, hblock, hwritten, hread⟩ :=
    h.client.read_by_server hfirst h.short platform unknown hflush
  refine ⟨(getTarget rt path params).text, block, bytes, hblock, hwritten,
    fun conn chunks more extra hsupply => ?_⟩
  have hsession := hread conn chunks more extra hsupply
  rw [hdecode] at hsession
  obtain ⟨N, s, chunks', hrun, hs, hconsumed, hleft⟩ := hsession
  refine ⟨N, s, chunks', table, hrun, hs, ?_, htable, hconsumed, hleft⟩
  rw [hs.path, hwell.pathOf_text]
  rfl

/-- A GET with one parameter, whose value has to be encoded. -/
def findOne : Message :=
  (Origin.request (some (text "GET")) (some (text "/find"))
    (some [(text "q", text "1 & 2")])).message

theorem findOne_request :
    GetRequest .default findOne (text "/find") [(text "q", text "1 & 2")] [] [] where
  composed := (Origin.request _ _ _).composed
  mesgType := rfl
  version := ⟨rfl, rfl⟩
  methodSet := rfl
  urlSet := rfl
  paramsSet := rfl
  startsPath := ⟨47, text "find", rfl, .inl rfl,
    List.all_eq_true.mp (by decide : (text "find").all isUrlChar = true)⟩
  distinct := by decide
  pairs := by decide
  short := by decide
  sendable := by simp [Sendable]
  stays := by simp
  length := Nat.zero_le _
  room := by decide
  ordinary block hblock := by
    obtain rfl := List.perm_singleton.mp hblock
    exact ⟨rfl, rfl, by rintro value ⟨⟩⟩
  apart := by
    rintro query ⟨⟩
    exact ⟨by decide, fun field hfield => absurd hfield List.not_mem_nil⟩

theorem findOne_params_read (platform : Platform) :
    ∃ (target : Bytes) (block : List (Bytes × Bytes)) (bytes : Bytes),
      block.Perm [contentLength []] ∧
      (exec (flush .default) findOne).2.conn.written = bytes ∧
      ∀ (conn : Conn) (chunks : List Bytes) (more : List (Except LuaError Bytes)) (extra : Bytes),
        conn.Supply chunks more (bytes ++ extra) →
        ∃ N s chunks' table, (∀ fuel, exec (readFull (serverParser platform fun _ _ => none) (fuel + N))
            (newSession (serverParser platform fun _ _ => none) conn) = (.ok (), s)) ∧
          Read s .get target table block [] ∧
          s.req.parsedURL.bind ParsedURL.path = some (text "/find") ∧
          (∀ name value, Headers.get? name table = some value ↔
            ∃ v, (name, v) ∈ [(text "q", text "1 & 2")] ∧ value = .single v) ∧
          s.consumed = bytes ∧ s.Supply chunks' more extra :=
  findOne_request.params_read platform (fun _ _ => none)
    (show exec (flush .default) findOne = (.ok (), (exec (flush .default) findOne).2) from rfl)

end Received

end Luaw.Parsing
