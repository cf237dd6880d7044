import Luaw.Webapp.RouteTree

/-!
# Which route is found

The lookup takes at each segment the child of that name if there is one, and the child for path
parameters only if there is none. It does not come back to a parameter when the literal segment
leads nowhere.
-/

namespace Luaw.Webapp

open Lua Trie

/-- A segment of a resource's path. -/
inductive Segment where
  | literal (pseg : Bytes)
  | param
  deriving DecidableEq

def Segment.ofBytes (pseg : Bytes) : Segment := if isPathParam pseg then .param else .literal pseg

def Segment.key : Segment → Bytes
  | literal pseg => pseg
  | param => pathParamKey

def Segment.Matches : Segment → Bytes → Prop
  | literal pseg, pseg' => pseg = pseg'
  | param, _ => True

/-- From the patterns of `P`, the one that the segments lead to: at each segment those that have
it literally are preferred to those that have a parameter there. -/
inductive Reaches : (List Segment → Prop) → List Bytes → List Segment → Prop where
  | nil {P : List Segment → Prop} : Reaches P [] []
  | literal {P : List Segment → Prop} {pseg : Bytes} {psegs : List Bytes} {ps : List Segment}
      (h : Reaches (fun ps => P (.literal pseg :: ps)) psegs ps) :
      Reaches P (pseg :: psegs) (.literal pseg :: ps)
  | param {P : List Segment → Prop} {pseg : Bytes} {psegs : List Bytes} {ps : List Segment}
      (hnone : ∀ ps, ¬P (.literal pseg :: ps)) (h : Reaches (fun ps => P (.param :: ps)) psegs ps) :
      Reaches P (pseg :: psegs) (.param :: ps)

theorem Reaches.matches {P : List Segment → Prop} {psegs : List Bytes} {ps : List Segment}
    (h : Reaches P psegs ps) : List.Forall₂ Segment.Matches ps psegs := by
  induction h with
  | nil => exact .nil
  | literal _ ih => exact .cons rfl ih
  | param _ _ ih => exact .cons trivial ih

theorem exists_reaches_literal {P Q : List Segment → Prop} {pseg : Bytes} {psegs : List Bytes}
    (hsome : ∃ ps, P (.literal pseg :: ps)) :
    (∃ ps, Reaches P (pseg :: psegs) ps ∧ Q ps) ↔
      ∃ ps, Reaches (fun ps => P (.literal pseg :: ps)) psegs ps ∧ Q (.literal pseg :: ps) := by
  constructor
  · rintro ⟨ps, hreaches, hQ⟩
    cases hreaches with
    | literal h => exact ⟨_, h, hQ⟩
    | param hnone _ => exact absurd hsome (not_exists.mpr hnone)
  · rintro ⟨ps, h, hQ⟩
    exact ⟨_, .literal h, hQ⟩

theorem exists_reaches_param {P Q : List Segment → Prop} {pseg : Bytes} {psegs : List Bytes}
    (hnone : ∀ ps, ¬P (.literal pseg :: ps)) (hQP : ∀ ps, Q ps → P ps) :
    (∃ ps, Reaches P (pseg :: psegs) ps ∧ Q ps) ↔
      ∃ ps, Reaches (fun ps => P (.param :: ps)) psegs ps ∧ Q (.param :: ps) := by
  constructor
  · rintro ⟨ps, hreaches, hQ⟩
    cases hreaches with
    | literal => exact absurd (hQP _ hQ) (hnone _)
    | param _ h => exact ⟨_, h, hQ⟩
  · rintro ⟨ps, h, hQ⟩
    exact ⟨_, .param hnone h, hQ⟩

section Resources

variable {H : Type}

def Resource.pattern (r : Resource H) : List Segment := r.segments.map Segment.ofBytes

/-- The request leads to the resource's path among those of all resources. -/
def Reached (resources : List (Resource H)) (psegs : List Bytes) (r : Resource H) : Prop :=
  Reaches (fun ps => ∃ r' ∈ resources, r'.pattern = ps) psegs r.pattern

/-- The rules that a trie of routes has been built from. -/
abbrev Rules (H : Type) := List Segment → Bytes → H → Prop

/-- No literal segment is the key for path parameters. -/
def Unreserved (ps : List Segment) : Prop := .literal pathParamKey ∉ ps

/-- The nodes are those on the way to the paths of the rules, and have their actions. -/
structure Built (route : Route H) (rules : Rules H) : Prop where
  unreserved : ∀ {ps m h}, rules ps m h → Unreserved ps
  nodes : ∀ ks, (route.valAt ks).isSome ↔
    ks = [] ∨ ∃ ps m h, rules ps m h ∧ ks <+: ps.map Segment.key
  actions : ∀ ps, Unreserved ps → ∀ m h,
    (route.valAt (ps.map Segment.key)).bind (fun v => v.actions.lookup m) = some h ↔ rules ps m h
  params : ∀ ks v, route.valAt (ks ++ [pathParamKey]) = some v →
    v.pathParamType.isSome ∧ v.pathParam.isSome

theorem Segment.param_ne : param ≠ .literal pathParamKey := nofun

theorem Segment.key_inj {p q : Segment} (hp : p ≠ .literal pathParamKey)
    (hq : q ≠ .literal pathParamKey) (h : p.key = q.key) : p = q := by
  cases p with
  | param =>
    cases q with
    | param => rfl
    | literal pseg => exact absurd (congrArg Segment.literal h.symm) hq
  | literal pseg =>
    cases q with
    | param => exact absurd (congrArg Segment.literal h) hp
    | literal pseg' => exact congrArg Segment.literal h

theorem keys_inj {ps qs : List Segment} (hps : Unreserved ps) (hqs : Unreserved qs)
    (h : ps.map Segment.key = qs.map Segment.key) : ps = qs := by
  induction ps generalizing qs with
  | nil => exact (List.map_eq_nil_iff.mp h.symm).symm
  | cons p ps ih =>
    cases qs with
    | nil => cases h
    | cons q qs =>
      obtain ⟨hkey, hkeys⟩ := List.cons.inj h
      obtain rfl := Segment.key_inj (List.ne_of_not_mem_cons hps).symm
        (List.ne_of_not_mem_cons hqs).symm hkey
      rw [ih (List.not_mem_of_not_mem_cons hps) (List.not_mem_of_not_mem_cons hqs) hkeys]

theorem segmentRoute_fst (pseg : Bytes) :
    (segmentRoute pseg : Bytes × RouteFields H).1 = (Segment.ofBytes pseg).key := by
  rw [segmentRoute, Segment.ofBytes]
  cases isPathParam pseg <;> rfl

theorem segmentRoute_params {pseg : Bytes} (hkey : (segmentRoute pseg : Bytes × RouteFields H).1 =
    pathParamKey) (hliteral : Segment.ofBytes pseg ≠ .literal pathParamKey) :
    (segmentRoute pseg : Bytes × RouteFields H).2.pathParamType.isSome ∧
      (segmentRoute pseg : Bytes × RouteFields H).2.pathParam.isSome := by
  rw [segmentRoute_fst] at hkey
  rw [Segment.ofBytes] at hkey hliteral
  rw [segmentRoute]
  cases hparam : isPathParam pseg with
  | true => exact ⟨rfl, rfl⟩
  | false =>
    rw [hparam] at hkey hliteral
    exact absurd (congrArg Segment.literal hkey) hliteral

namespace Built

variable {route route' : Route H} {rules : Rules H}

theorem child (hbuilt : Built route rules) {p : Segment} (hp : p ≠ .literal pathParamKey)
    (hchild : route.child p.key = some route') : Built route' fun ps => rules (p :: ps) := by
  have hvalAt : ∀ ks, route'.valAt ks = route.valAt (p.key :: ks) := by
    intro ks
    rw [valAt_cons, hchild, Option.bind_some]
  refine ⟨fun h => List.not_mem_of_not_mem_cons (hbuilt.unreserved h), fun ks => ?_,
    fun ps hps m h => ?_, fun ks v hv => ?_⟩
  · cases ks with
    | nil => simp
    | cons k ks =>
      rw [hvalAt, hbuilt.nodes]
      simp only [List.cons_ne_nil, false_or]
      constructor
      · rintro ⟨ps, m, h, hrule, hprefix⟩
        cases ps with
        | nil => exact absurd (List.prefix_nil.mp hprefix) (List.cons_ne_nil _ _)
        | cons q ps =>
          obtain ⟨hkey, hrest⟩ := List.cons_prefix_cons.mp hprefix
          have hq := (List.ne_of_not_mem_cons (hbuilt.unreserved hrule)).symm
          obtain rfl := Segment.key_inj hp hq hkey
          exact ⟨ps, m, h, hrule, hrest⟩
      · rintro ⟨ps, m, h, hrule, hprefix⟩
        exact ⟨p :: ps, m, h, hrule, List.cons_prefix_cons.mpr ⟨rfl, hprefix⟩⟩
  · rw [hvalAt, ← hbuilt.actions (p :: ps) (List.not_mem_cons_of_ne_of_not_mem hp.symm hps)]
    rfl
  · rw [hvalAt] at hv
    exact hbuilt.params (p.key :: ks) v hv

theorem child_none (hbuilt : Built route rules) {p : Segment}
    (hchild : route.child p.key = none) (ps : List Segment) (m : Bytes) (h : H) :
    ¬rules (p :: ps) m h := by
  intro hrule
  have hnode := (hbuilt.nodes ((p :: ps).map Segment.key)).mpr
    (.inr ⟨p :: ps, m, h, hrule, List.prefix_refl _⟩)
  rw [List.map_cons, valAt_cons, hchild] at hnode
  cases hnode

/-- A child for a segment is there for a rule that begins with it. -/
theorem exists_rule (hbuilt : Built route rules) {pseg : Bytes}
    (hliteral : Segment.literal pseg ≠ .literal pathParamKey)
    (hchild : route.child pseg = some route') : ∃ ps m h, rules (.literal pseg :: ps) m h := by
  have hnode : (route.valAt [pseg]).isSome := by
    rw [valAt_cons, hchild]
    rfl
  obtain ⟨ps, m, h, hrule, hstarts⟩ :=
    ((hbuilt.nodes [pseg]).mp hnode).resolve_left (List.cons_ne_nil _ _)
  cases ps with
  | nil => exact absurd (List.prefix_nil.mp hstarts) (List.cons_ne_nil _ _)
  | cons p ps =>
    have hp := (List.ne_of_not_mem_cons (hbuilt.unreserved hrule)).symm
    obtain rfl := Segment.key_inj hliteral hp (List.cons_prefix_cons.mp hstarts).1
    exact ⟨ps, m, h, hrule⟩

theorem child_params (hbuilt : Built route rules)
    (hchild : route.child pathParamKey = some route') :
    ∃ pathParamType pathParam, route'.val.pathParamType = some pathParamType ∧
      route'.val.pathParam = some pathParam := by
  have hval : route.valAt ([] ++ [pathParamKey]) = some route'.val := by
    rw [List.nil_append, valAt_cons, hchild]
    rfl
  obtain ⟨htype, hname⟩ := hbuilt.params [] _ hval
  obtain ⟨pathParamType, htype⟩ := Option.isSome_iff_exists.mp htype
  obtain ⟨pathParam, hname⟩ := Option.isSome_iff_exists.mp hname
  exact ⟨pathParamType, pathParam, htype, hname⟩

end Built

/-- The rules of the resources that have been registered. -/
def rulesOf (resources : List (Resource H)) : Rules H := fun ps m h =>
  ∃ r ∈ resources, r.pattern = ps ∧ r.methodOf = m ∧ r.handler = some h

theorem unreserved_pattern {r : Resource H} (h : pathParamKey ∉ r.segments) :
    Unreserved r.pattern := by
  intro hmem
  obtain ⟨pseg, hpseg, heq⟩ := List.mem_map.mp hmem
  rw [Segment.ofBytes] at heq
  split at heq
  · cases heq
  · exact h (Segment.literal.inj heq ▸ hpseg)

theorem keys_eq (r : Resource H) : r.keys = r.pattern.map Segment.key := by
  rw [Resource.keys, Resource.pattern, List.map_map]
  exact List.map_congr_left fun pseg _ => segmentRoute_fst pseg

/-- The routes of a web application are those of its resources, which all have handlers. -/
theorem registerAll_built {path : Bytes} {webapp : WebApp H} {resources : List (Resource H)}
    (hreserved : ∀ r ∈ resources, pathParamKey ∉ r.segments)
    (h : registerAll (newWebApp path) resources = .ok webapp) :
    Built webapp.root (rulesOf resources) ∧ ∀ r ∈ resources, r.handler.isSome := by
  have hlaid := registerAll_laid h
  refine ⟨⟨?_, fun ks => ?_, fun ps hps m h => ?_, fun ks v hv => ?_⟩, hlaid.handlers⟩
  · rintro ps m h ⟨r, hr, rfl, -⟩
    exact unreserved_pattern (hreserved r hr)
  · rw [hlaid.nodes]
    refine or_congr_right ⟨?_, ?_⟩
    · rintro ⟨r, hr, hpre⟩
      obtain ⟨h, hh⟩ := Option.isSome_iff_exists.mp (hlaid.handlers r hr)
      exact ⟨r.pattern, r.methodOf, h, ⟨r, hr, rfl, rfl, hh⟩, keys_eq r ▸ hpre⟩
    · rintro ⟨ps, m, h, ⟨r, hr, rfl, -⟩, hpre⟩
      exact ⟨r, hr, keys_eq r ▸ hpre⟩
  · rw [hlaid.actions]
    refine exists_congr fun r => and_congr_right fun hr => and_congr_left fun _ => ?_
    constructor
    · intro hkeys
      exact keys_inj (unreserved_pattern (hreserved r hr)) hps ((keys_eq r).symm.trans hkeys)
    · rintro rfl
      exact keys_eq r
  · -- the declaration that was kept is that of a parameter
    obtain ⟨pseg, hkept, hname, htype⟩ := hlaid.params _ v (by simp) hv
    obtain ⟨r, hr, hpre, hpseg⟩ := exists_of_keptSegment hkept
    have hkey : (segmentRoute (H := H) pseg).1 = pathParamKey := by
      have hlast := List.prefix_iff_getElem?.mp hpre ((ks ++ [pathParamKey]).length - 1) (by simp)
      rw [Resource.keys, List.getElem?_map, hpseg] at hlast
      simpa using hlast
    have hmem : pseg ∈ r.segments := List.mem_of_getElem? hpseg
    rw [hname, htype]
    refine segmentRoute_params hkey fun hliteral => ?_
    exact unreserved_pattern (hreserved r hr)
      (hliteral ▸ List.mem_map_of_mem hmem)

/-- The lookup does not fail, and ends where the segments lead to. -/
theorem Built.findRoute {route : Route H} {rules : Rules H} (tonumber : Bytes → LuaValue)
    (hbuilt : Built route rules) (psegs : List Bytes) (pathParams : PathParams) :
    ∃ found, Webapp.findRoute tonumber psegs route pathParams = .ok found ∧ ∀ m h,
      (found.bind fun f => f.1.val.actions.lookup m) = some h ↔
        ∃ ps, Reaches (fun ps => ∃ m h, rules ps m h) psegs ps ∧ rules ps m h := by
  induction psegs generalizing route rules pathParams with
  | nil =>
    refine ⟨some (route, pathParams), rfl, fun m h => ?_⟩
    rw [Option.bind_some]
    have hactions := hbuilt.actions [] List.not_mem_nil m h
    refine Iff.trans hactions ⟨fun h => ⟨[], .nil, h⟩, ?_⟩
    rintro ⟨ps, hreaches, hrule⟩
    cases hreaches
    exact hrule
  | cons pseg psegs ih =>
    have hrule : ∀ ps, (∃ m h, rules ps m h) → Unreserved ps := fun ps ⟨m, h, hrule⟩ =>
      hbuilt.unreserved hrule
    obtain hchild | ⟨nextRoute, hchild⟩ := Option.eq_none_or_eq_some (route.child pseg)
    · have hnone := hbuilt.child_none (p := .literal pseg) hchild
      obtain hparam | ⟨nextRoute, hparam⟩ := Option.eq_none_or_eq_some (route.child pathParamKey)
      · refine ⟨none, by simp only [Webapp.findRoute, hchild, hparam], fun m h => ?_⟩
        rw [exists_reaches_param (fun ps ⟨m, h, hrule⟩ => hnone ps m h hrule)
          fun ps hrule => ⟨m, h, hrule⟩]
        refine iff_of_false (nofun) fun ⟨ps, _, hrule⟩ => ?_
        exact hbuilt.child_none (p := .param) hparam ps m h hrule
      · obtain ⟨pathParamType, pathParam, htype, hname⟩ := hbuilt.child_params hparam
        obtain ⟨found, hfound, hactions⟩ := ih (hbuilt.child (p := .param) Segment.param_ne hparam)
          (assign (.str pathParam) (pathParamType.valueOf tonumber pseg) pathParams)
        refine ⟨found, ?_, fun m h => ?_⟩
        · simp only [Webapp.findRoute, hchild, hparam, htype, hname]
          exact hfound
        · rw [exists_reaches_param (fun ps ⟨m, h, hrule⟩ => hnone ps m h hrule)
            fun ps hrule => ⟨m, h, hrule⟩]
          exact hactions m h
    · by_cases hkey : pseg = pathParamKey
      · -- the segment is the key for path parameters, which no rule has literally
        subst hkey
        obtain ⟨found, hfound, hactions⟩ :=
          ih (hbuilt.child (p := .param) Segment.param_ne hchild) pathParams
        refine ⟨found, ?_, fun m h => ?_⟩
        · simp only [Webapp.findRoute, hchild]
          exact hfound
        · rw [exists_reaches_param (fun ps hps => hrule _ hps List.mem_cons_self)
            fun ps hrule => ⟨m, h, hrule⟩]
          exact hactions m h
      · have hne : Segment.literal pseg ≠ .literal pathParamKey :=
          fun heq => hkey (Segment.literal.inj heq)
        obtain ⟨found, hfound, hactions⟩ := ih (hbuilt.child hne hchild) pathParams
        refine ⟨found, ?_, fun m h => ?_⟩
        · simp only [Webapp.findRoute, hchild]
          exact hfound
        · rw [exists_reaches_literal (hbuilt.exists_rule hne hchild)]
          exact hactions m h

/-- The action for a request is the handler of the resource that the request leads to, if it is
registered for the method, and otherwise if it is registered for all. -/
theorem findAction_iff (tonumber : Bytes → LuaValue) {resources : List (Resource H)}
    {webapp : WebApp H} (hregister : registerAll (newWebApp webapp.path) resources = .ok webapp)
    (hreserved : ∀ r ∈ resources, pathParamKey ∉ r.segments)
    {registeredWebApps : List (Bytes × WebApp H)} {path pseg : Bytes} {psegs : List Bytes}
    (hpath : splitPath path = pseg :: psegs)
    (hwebapp : registeredWebApps.lookup pseg = some webapp) (method : RequestMethod) :
    ∃ found, findAction tonumber registeredWebApps method path = .ok found ∧
      ∀ handlerFn, (found.bind fun f => f.2.1) = some handlerFn ↔
        ∃ r ∈ resources, r.handler = some handlerFn ∧
          List.Forall₂ Segment.Matches r.pattern psegs ∧ Reached resources psegs r ∧
          (r.methodOf = method ∨ r.methodOf = SERVICE ∧
            ∀ r' ∈ resources, Reached resources psegs r' → r'.methodOf ≠ method) := by
  obtain ⟨hbuilt, hhandlers⟩ := registerAll_built hreserved hregister
  obtain ⟨found, hfound, hactions⟩ := hbuilt.findRoute tonumber psegs []
  have hpatterns : (fun ps => ∃ m h, rulesOf resources ps m h) = fun ps =>
      ∃ r ∈ resources, r.pattern = ps := by
    funext ps
    refine propext ⟨fun ⟨m, h, r, hr, hps, _⟩ => ⟨r, hr, hps⟩, fun ⟨r, hr, hps⟩ => ?_⟩
    obtain ⟨h, hh⟩ := Option.isSome_iff_exists.mp (hhandlers r hr)
    exact ⟨_, h, r, hr, hps, rfl, hh⟩
  -- the actions at the node that the lookup finds are those of the resources that are reached
  have hreached : ∀ m h, (found.bind fun f => f.1.val.actions.lookup m) = some h ↔
      ∃ r ∈ resources, r.handler = some h ∧ Reached resources psegs r ∧ r.methodOf = m := by
    intro m h
    rw [hactions m h, hpatterns]
    constructor
    · rintro ⟨_, hreaches, r, hr, rfl, hm, hh⟩
      exact ⟨r, hr, hh, hreaches, hm⟩
    · rintro ⟨r, hr, hh, hreaches, hm⟩
      exact ⟨_, hreaches, r, hr, rfl, hm, hh⟩
  refine ⟨found.map fun f => (webapp, (f.1.val.actions.lookup method.val).or
    (f.1.val.actions.lookup SERVICE), f.2), ?_, fun handlerFn => ?_⟩
  · simp only [findAction, hpath, hwebapp, Option.some_or, hfound]
    cases found <;> rfl
  · have hselect : ((found.map fun f => (webapp, (f.1.val.actions.lookup method.val).or
        (f.1.val.actions.lookup SERVICE), f.2)).bind fun f => f.2.1) =
        (found.bind fun f => f.1.val.actions.lookup method.val).or
          (found.bind fun f => f.1.val.actions.lookup SERVICE) := by
      cases found <;> rfl
    rw [hselect, Option.or_eq_some_iff, hreached, hreached]
    constructor
    · rintro (⟨r, hr, hh, hreach, hm⟩ | ⟨hnone, r, hr, hh, hreach, hm⟩)
      · exact ⟨r, hr, hh, Reaches.matches hreach, hreach, .inl hm⟩
      · refine ⟨r, hr, hh, Reaches.matches hreach, hreach, .inr ⟨hm, fun r' hr' hreach' hm' => ?_⟩⟩
        obtain ⟨h', hh'⟩ := Option.isSome_iff_exists.mp (hhandlers r' hr')
        have hsome := (hreached _ h').mpr ⟨r', hr', hh', hreach', hm'⟩
        rw [hnone] at hsome
        cases hsome
    · rintro ⟨r, hr, hh, -, hreach, hm | ⟨hm, hothers⟩⟩
      · exact .inl ⟨r, hr, hh, hreach, hm⟩
      · refine .inr ⟨Option.eq_none_iff_forall_ne_some.mpr fun h' hsome => ?_,
          r, hr, hh, hreach, hm⟩
        obtain ⟨r', hr', -, hreach', hm'⟩ := (hreached _ h').mp hsome
        exact hothers r' hr' hreach' hm'

/-- Two routes, of which the first takes all requests that begin with its literal segment. -/
def literalFirst : List (Resource Nat) :=
  [⟨some (text "a/b"), some 1, some (text "GET")⟩, ⟨some (text ":x/c"), some 2, some (text "GET")⟩]

def literalFirstWebApp : WebApp Nat :=
  ⟨text "app", .node ⟨none, none, []⟩
    [(text "a", .node ⟨none, none, []⟩ [(text "b", .node ⟨none, none, [(text "GET", 1)]⟩ [])]),
      (pathParamKey, .node ⟨some (text "x"), some .string, []⟩
        [(text "c", .node ⟨none, none, [(text "GET", 2)]⟩ [])])]⟩

theorem findAction_literalFirst :
    ∃ found, findAction (fun _ => .nil) [(text "app", literalFirstWebApp)] GET (text "/app/z/c") =
        .ok found ∧
      ∀ handlerFn, (found.bind fun f => f.2.1) = some handlerFn ↔
        ∃ r ∈ literalFirst, r.handler = some handlerFn ∧
          List.Forall₂ Segment.Matches r.pattern [text "z", text "c"] ∧
          Reached literalFirst [text "z", text "c"] r ∧
          (r.methodOf = GET ∨ r.methodOf = SERVICE ∧
            ∀ r' ∈ literalFirst, Reached literalFirst [text "z", text "c"] r' →
              r'.methodOf ≠ GET) :=
  findAction_iff (fun _ => .nil)
    (rfl : registerAll (newWebApp literalFirstWebApp.path) literalFirst = .ok literalFirstWebApp)
    (by decide)
    (rfl : splitPath (text "/app/z/c") = text "app" :: [text "z", text "c"]) rfl GET

/-- The request matches the second route, and gets no action. -/
theorem matching_not_found :
    ¬∀ (resources : List (Resource Nat)) (webapp : WebApp Nat),
      registerAll (newWebApp webapp.path) resources = .ok webapp →
      ∀ (registeredWebApps : List (Bytes × WebApp Nat)) (path pseg : Bytes) (psegs : List Bytes),
      splitPath path = pseg :: psegs → registeredWebApps.lookup pseg = some webapp →
      ∀ method : RequestMethod,
        (∃ found handlerFn, findAction (fun _ => .nil) registeredWebApps method path = .ok found ∧
            (found.bind fun f => f.2.1) = some handlerFn) ↔
          ∃ r ∈ resources, List.Forall₂ Segment.Matches r.pattern psegs ∧
            (r.methodOf = method ∨ r.methodOf = SERVICE) := by
  intro h
  have hiff := h literalFirst literalFirstWebApp rfl [(text "app", literalFirstWebApp)]
    (text "/app/a/c") (text "app") [text "a", text "c"] rfl rfl GET
  obtain ⟨found, handlerFn, hfound, hsome⟩ := hiff.mpr
    ⟨⟨some (text ":x/c"), some 2, some (text "GET")⟩, by simp [literalFirst],
      .cons trivial (.cons rfl .nil), .inl rfl⟩
  have hnone : findAction (fun _ => .nil) [(text "app", literalFirstWebApp)] GET
      (text "/app/a/c") = .ok none := rfl
  cases hnone.symm.trans hfound
  cases hsome

end Resources

end Luaw.Webapp
