import Luaw.Lua.Assignments
import Luaw.Webapp.RouteTree

/-!
# Path parameters

A node of the routes keeps one declaration, that of the first resource that passed it. A request
gets the parameters that the nodes on its way declare, which may be others than those of the
resource that it leads to.
-/

namespace Luaw.Webapp

open Lua Trie

variable {H : Type}

/-- The parameter that a segment of a resource's path declares. -/
def declaration (pseg : Bytes) : Option (Bytes × PathParamType) :=
  if isPathParam pseg then
    some (pseg.drop 1, if pseg.head? = some PathParamType.num.start then .num else .string)
  else none

theorem declaredBy_iff {pseg : Bytes} {v : RouteFields H} :
    DeclaredBy pseg v ↔ v.pathParam = (declaration pseg).map Prod.fst ∧
      v.pathParamType = (declaration pseg).map Prod.snd := by
  rw [DeclaredBy, segmentRoute, declaration]
  cases isPathParam pseg <;> rfl

section Requests

variable (resources : List (Resource H))

/-- The key of the node that the next segment leads to: the segment itself if a resource goes on
with it. -/
def takenKey (passed : List Bytes) (pseg : Bytes) : Bytes :=
  if resources.any fun r => (passed ++ [pseg]).isPrefixOf r.keys then pseg else pathParamKey

/-- The keys that the segments of a request lead through. -/
def takenKeys : List Bytes → List Bytes → List Bytes
  | _, [] => []
  | passed, pseg :: psegs =>
    takenKey resources passed pseg :: takenKeys (passed ++ [takenKey resources passed pseg]) psegs

/-- The resource is the one for the request: the request's segments lead to it, and it is of the
request's method, or of SERVICE if none there is of the method. -/
def Answers (psegs : List Bytes) (method : Bytes) (r : Resource H) : Prop :=
  r ∈ resources ∧ r.keys = takenKeys resources [] psegs ∧
    (r.methodOf = method ∨ r.methodOf = SERVICE ∧
      ∀ r' ∈ resources, r'.keys = r.keys → r'.methodOf ≠ method)

variable (tonumber : Bytes → LuaValue)

/-- What a declaration makes of a segment of the request. -/
def bindingOf (declared : Option (Bytes × PathParamType)) (pseg : Bytes) : PathParams :=
  match declared with
  | some (pathParam, pathParamType) => [(.str pathParam, pathParamType.valueOf tonumber pseg)]
  | none => []

/-- The parameters that the resource declares, with the request's segments at their places. -/
def ownParams (r : Resource H) (psegs : List Bytes) : PathParams :=
  (r.segments.zip psegs).flatMap fun (own, pseg) => bindingOf tonumber (declaration own) pseg

/-- The parameters that the nodes under the keys declare. A segment that is the key by itself is
not for a parameter. -/
def keptParamsFrom : List Bytes → List Bytes → List Bytes → PathParams
  | passed, k :: ks, pseg :: psegs =>
    (if pseg = k then []
      else bindingOf tonumber ((keptSegment resources (passed ++ [k])).bind declaration) pseg) ++
      keptParamsFrom (passed ++ [k]) ks psegs
  | _, _, _ => []

/-- The parameters that the nodes on the way to the resource declare. -/
def keptParams (r : Resource H) (psegs : List Bytes) : PathParams :=
  keptParamsFrom resources tonumber [] r.keys psegs

/-- The names that the resource declares are bound, each to what it makes of the segment at its
place, and no others. -/
def BindsOwn (r : Resource H) (psegs : List Bytes) (pathParams : PathParams) : Prop :=
  (∀ e ∈ ownParams tonumber r psegs, lookup e.1 pathParams = some e.2) ∧
    ∀ name value, lookup name pathParams = some value →
      ∃ e ∈ ownParams tonumber r psegs, e.1.sameKey name = true

/-- For each parameter of the resource the last declaration of its name on the way makes the same
of its segment, and that is not nil; whatever else is declared on the way comes to nil. -/
def KeepsOwn (r : Resource H) (psegs : List Bytes) : Prop :=
  (∀ e ∈ ownParams tonumber r psegs, e.2.isNil = false ∧
      lookup e.1 (keptParams resources tonumber r psegs).reverse = some e.2) ∧
    ∀ name value, lookup name (keptParams resources tonumber r psegs).reverse = some value →
      value.isNil = false → ∃ e ∈ ownParams tonumber r psegs, e.1.sameKey name = true

end Requests

/-- The parameters are right exactly if the declarations that were kept are. -/
theorem bindsOwn_iff_keepsOwn (tonumber : Bytes → LuaValue) (resources : List (Resource H))
    (r : Resource H) (psegs : List Bytes) :
    BindsOwn tonumber r psegs (assignAll (keptParams resources tonumber r psegs) []) ↔
      KeepsOwn resources tonumber r psegs := by
  have hlookup : ∀ name value,
      lookup name (assignAll (keptParams resources tonumber r psegs) []) = some value ↔
        value.isNil = false ∧
          lookup name (keptParams resources tonumber r psegs).reverse = some value := by
    intro name value
    rw [lookup_assignAll, Option.filter_eq_some_iff, Bool.not_eq_true', and_comm]
  simp only [BindsOwn, KeepsOwn, hlookup, and_imp]
  refine and_congr_right fun _ => ?_
  exact ⟨fun h name value hvalue hnil => h name value hnil hvalue,
    fun h name value hnil hvalue => h name value hvalue hnil⟩

namespace Laid

variable {root route route' : Route H} {resources : List (Resource H)}

/-- A child is there exactly if a resource goes on with its key. -/
theorem child_isSome (hlaid : Laid root resources) {passed : List Bytes}
    (hroute : root.walk passed = some route) (k : Bytes) :
    (route.child k).isSome ↔ ∃ r ∈ resources, passed ++ [k] <+: r.keys := by
  have hvalAt : root.valAt (passed ++ [k]) = (route.child k).map val := by
    rw [valAt, walk_append, hroute, Option.bind_some, walk]
    cases route.child k <;> rfl
  have hnode := hlaid.nodes (passed ++ [k])
  rw [hvalAt, Option.isSome_map] at hnode
  rw [hnode]
  simp

theorem takenKey_of_child (hlaid : Laid root resources) {passed : List Bytes}
    (hroute : root.walk passed = some route) {pseg : Bytes} :
    takenKey resources passed pseg =
      if (route.child pseg).isSome then pseg else pathParamKey := by
  have hany : (resources.any fun r => (passed ++ [pseg]).isPrefixOf r.keys) =
      (route.child pseg).isSome := by
    rw [Bool.eq_iff_iff, hlaid.child_isSome hroute, List.any_eq_true]
    simp only [List.isPrefixOf_iff_prefix]
  rw [takenKey, hany]

/-- The declaration of the child for path parameters. -/
theorem child_declared (hlaid : Laid root resources) {passed : List Bytes}
    (hroute : root.walk passed = some route) {k : Bytes} (hchild : route.child k = some route') :
    ∃ pseg, keptSegment resources (passed ++ [k]) = some pseg ∧ DeclaredBy pseg route'.val := by
  refine hlaid.params (passed ++ [k]) route'.val (by simp) ?_
  rw [valAt, walk_append, hroute, Option.bind_some, walk, hchild]
  rfl

/-- The lookup goes through the taken keys and assigns what the nodes there declare. -/
theorem findRoute (hlaid : Laid root resources) (tonumber : Bytes → LuaValue)
    {passed psegs : List Bytes} (hroute : root.walk passed = some route)
    {pathParams pathParams' : PathParams}
    (h : Webapp.findRoute tonumber psegs route pathParams = .ok (some (route', pathParams'))) :
    route.walk (takenKeys resources passed psegs) = some route' ∧
      pathParams' = assignAll (keptParamsFrom resources tonumber passed
        (takenKeys resources passed psegs) psegs) pathParams := by
  induction psegs generalizing passed route pathParams with
  | nil =>
    cases h
    exact ⟨rfl, rfl⟩
  | cons pseg psegs ih =>
    rw [takenKeys, keptParamsFrom, walk, hlaid.takenKey_of_child hroute]
    have hnext : ∀ {k nextRoute}, route.child k = some nextRoute →
        root.walk (passed ++ [k]) = some nextRoute := by
      intro k nextRoute hchild
      rw [walk_append, hroute, Option.bind_some, walk, hchild]
      rfl
    rw [Webapp.findRoute] at h
    cases hchild : route.child pseg with
    | some nextRoute =>
      rw [hchild] at h
      obtain ⟨hwalk, hparams⟩ := ih (hnext hchild) h
      simp only [Option.isSome_some, if_true, hchild, Option.bind_some, List.nil_append]
      exact ⟨hwalk, hparams⟩
    | none =>
      -- without a literal child the segment is taken by the path parameter, if there is one
      have hne : pseg ≠ pathParamKey ∨ route.child pathParamKey = none := by
        by_cases hkey : pseg = pathParamKey
        · exact .inr (hkey ▸ hchild)
        · exact .inl hkey
      rw [hchild] at h
      simp only [Option.isSome_none, Bool.false_eq_true, if_false]
      cases hparam : route.child pathParamKey with
      | none =>
        rw [hparam] at h
        cases h
      | some nextRoute =>
        have hother : pseg ≠ pathParamKey := hne.resolve_right (by rw [hparam]; rintro ⟨⟩)
        -- the node declares what the first resource that passed here declared
        obtain ⟨kept, hkept, hdeclared⟩ := hlaid.child_declared hroute hparam
        obtain ⟨hname, htype⟩ := declaredBy_iff.mp hdeclared
        rw [hparam] at h
        simp only [hname, htype] at h
        cases hdecl : declaration kept with
        | none =>
          rw [hdecl] at h
          cases h
        | some declared =>
          obtain ⟨pathParam, pathParamType⟩ := declared
          rw [hdecl] at h
          obtain ⟨hwalk, hparams⟩ := ih (hnext hparam) h
          have hbind : (some kept).bind declaration = some (pathParam, pathParamType) := hdecl
          rw [if_neg hother, hkept, hbind]
          exact ⟨hwalk, hparams⟩

end Laid

/-- Two resources do not answer one request. -/
theorem Answers.unique {root : Route H} {resources : List (Resource H)}
    (hlaid : Laid root resources) {psegs : List Bytes} {method : Bytes} {r r' : Resource H}
    (h : Answers resources psegs method r) (h' : Answers resources psegs method r') : r' = r := by
  obtain ⟨hr, hkeys, hmethod⟩ := h
  obtain ⟨hr', hkeys', hmethod'⟩ := h'
  have hsame : r'.keys = r.keys := hkeys'.trans hkeys.symm
  refine hlaid.once r' hr' r hr hsame ?_
  obtain hmethod | ⟨hservice, hnone⟩ := hmethod
  · obtain hmethod' | ⟨-, hnone'⟩ := hmethod'
    · rw [hmethod, hmethod']
    · exact absurd hmethod (hnone' r hr hsame.symm)
  · obtain hmethod' | ⟨hservice', -⟩ := hmethod'
    · exact absurd hmethod' (hnone r' hr' hsame)
    · rw [hservice, hservice']

/-- When a request gets an action, that is the handler of the one resource that answers it, and the
path parameters are the resource's own exactly if the declarations that were kept on the way to it
make the same of the request. -/
theorem findAction_params_iff (tonumber : Bytes → LuaValue) {resources : List (Resource H)}
    {webapp : WebApp H} (hregister : registerAll (newWebApp webapp.path) resources = .ok webapp)
    {registeredWebApps : List (Bytes × WebApp H)} {path pseg : Bytes} {psegs : List Bytes}
    (hpath : splitPath path = pseg :: psegs)
    (hwebapp : (registeredWebApps.lookup pseg).or (registeredWebApps.lookup (text "/")) =
      some webapp)
    {method : RequestMethod} {handlerFn : H} {pathParams : PathParams}
    (hfound : findAction tonumber registeredWebApps method path =
      .ok (some (webapp, some handlerFn, pathParams))) :
    ∃ r, Answers resources psegs method r ∧ r.handler = some handlerFn ∧
      (∀ r', Answers resources psegs method r' → r' = r) ∧
      (BindsOwn tonumber r psegs pathParams ↔ KeepsOwn resources tonumber r psegs) := by
  have hlaid := registerAll_laid hregister
  simp only [findAction, hpath, hwebapp] at hfound
  cases hroute : Webapp.findRoute tonumber psegs webapp.root [] with
  | error e =>
    rw [hroute] at hfound
    cases hfound
  | ok found =>
    rw [hroute] at hfound
    cases found with
    | none => cases hfound
    | some found =>
      obtain ⟨route, params⟩ := found
      injection hfound with hfound
      injection hfound with hfound
      injection hfound with hsame hfound
      injection hfound with haction hsame'
      subst hsame'
      have hroot : webapp.root.walk [] = some webapp.root := rfl
      obtain ⟨hwalk, rfl⟩ := hlaid.findRoute tonumber hroot hroute
      have hvalAt : webapp.root.valAt (takenKeys resources [] psegs) = some route.val := by
        rw [valAt, hwalk]
        rfl
      have hactions : ∀ m h, route.val.actions.lookup m = some h ↔ ∃ r ∈ resources,
          r.keys = takenKeys resources [] psegs ∧ r.methodOf = m ∧ r.handler = some h := by
        intro m h
        rw [← hlaid.actions, hvalAt]
        rfl
      have hanswers : ∃ r, Answers resources psegs method r ∧ r.handler = some handlerFn := by
        -- the action is the one of the method, or in default of that the one for all methods
        obtain hmethod | ⟨hnone, hservice⟩ := Option.or_eq_some_iff.mp haction
        · obtain ⟨r, hr, hkeys, hm, hh⟩ := (hactions _ _).mp hmethod
          exact ⟨r, ⟨hr, hkeys, .inl hm⟩, hh⟩
        · obtain ⟨r, hr, hkeys, hm, hh⟩ := (hactions _ _).mp hservice
          refine ⟨r, ⟨hr, hkeys, .inr ⟨hm, fun r' hr' hkeys' hm' => ?_⟩⟩, hh⟩
          obtain ⟨h', hh'⟩ := Option.isSome_iff_exists.mp (hlaid.handlers r' hr')
          have hlookup := (hactions _ h').mpr ⟨r', hr', hkeys'.trans hkeys, hm', hh'⟩
          rw [hnone] at hlookup
          cases hlookup
      obtain ⟨r, hr, hh⟩ := hanswers
      refine ⟨r, hr, hh, fun r' hr' => hr.unique hlaid hr', ?_⟩
      rw [← hr.2.1]
      exact bindsOwn_iff_keepsOwn tonumber resources r psegs

/-- `tonumber` of a string. -/
def tonumber (s : Bytes) : LuaValue := (stringToNumber s).elim .nil .num

/-- Two routes that name their first parameter differently. -/
def namedTwice : List (Resource Nat) :=
  [⟨some (text ":x/a"), some 1, some (text "GET")⟩, ⟨some (text ":y/b"), some 2, some (text "GET")⟩]

def namedTwiceWebApp : WebApp Nat :=
  ⟨text "app", .node ⟨none, none, []⟩
    [(pathParamKey, .node ⟨some (text "x"), some .string, []⟩
      [(text "a", .node ⟨none, none, [(text "GET", 1)]⟩ []),
        (text "b", .node ⟨none, none, [(text "GET", 2)]⟩ [])])]⟩

/-- The request for the first route gets its parameter. -/
theorem findAction_params_namedTwice :
    ∃ r, Answers namedTwice [text "1", text "a"] GET r ∧ r.handler = some 1 ∧
      (∀ r', Answers namedTwice [text "1", text "a"] GET r' → r' = r) ∧
      (BindsOwn tonumber r [text "1", text "a"] [(.str (text "x"), .str (text "1"))] ↔
        KeepsOwn namedTwice tonumber r [text "1", text "a"]) :=
  findAction_params_iff tonumber
    (rfl : registerAll (newWebApp namedTwiceWebApp.path) namedTwice = .ok namedTwiceWebApp)
    (rfl : splitPath (text "/app/1/a") = text "app" :: [text "1", text "a"])
    (rfl : ([(text "app", namedTwiceWebApp)].lookup (text "app")).or _ = some namedTwiceWebApp)
    (rfl : findAction tonumber [(text "app", namedTwiceWebApp)] GET (text "/app/1/a") =
      .ok (some (namedTwiceWebApp, some 1, [(.str (text "x"), .str (text "1"))])))

/-- The request for the second route gets its segment under the name of the first. -/
theorem bound_to_other_name :
    ¬∀ (resources : List (Resource Nat)) (webapp : WebApp Nat),
      registerAll (newWebApp webapp.path) resources = .ok webapp →
      ∀ (registeredWebApps : List (Bytes × WebApp Nat)) (path pseg : Bytes) (psegs : List Bytes),
      splitPath path = pseg :: psegs →
      (registeredWebApps.lookup pseg).or (registeredWebApps.lookup (text "/")) = some webapp →
      ∀ (method : RequestMethod) (handlerFn : Nat) (pathParams : PathParams),
      findAction tonumber registeredWebApps method path =
        .ok (some (webapp, some handlerFn, pathParams)) →
      ∀ r, Answers resources psegs method r → BindsOwn tonumber r psegs pathParams := by
  intro h
  have hanswers : Answers namedTwice [text "1", text "b"] GET
      ⟨some (text ":y/b"), some 2, some (text "GET")⟩ :=
    ⟨by simp [namedTwice], rfl, .inl rfl⟩
  have hbinds := h namedTwice namedTwiceWebApp rfl [(text "app", namedTwiceWebApp)]
    (text "/app/1/b") (text "app") [text "1", text "b"] rfl rfl GET 2
    [(.str (text "x"), .str (text "1"))] rfl _ hanswers
  have hown := hbinds.1 (.str (text "y"), .str (text "1")) (List.mem_singleton.mpr rfl)
  cases hown

end Luaw.Webapp
