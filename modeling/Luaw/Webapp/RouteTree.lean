import Luaw.Webapp.Routes

/-!
# What the routes hold after the registrations

The nodes are those on the way to the paths of the resources. Each has the actions of the
resources that end there, and the declaration of the first resource that passed.
-/

namespace Luaw.Webapp

open Lua Trie

variable {H : Type}

def Resource.segments (r : Resource H) : List Bytes := (r.path.map splitPath).getD []

def Resource.methodOf (r : Resource H) : Bytes := r.method.getD SERVICE

/-- The keys of the nodes on the way to the resource. -/
def Resource.keys (r : Resource H) : List Bytes :=
  r.segments.map fun pseg => (segmentRoute (H := H) pseg).1

/-- The segment that declares what the node under the keys is: that of the first resource that has
them. -/
def keptSegment (resources : List (Resource H)) (ks : List Bytes) : Option Bytes :=
  (resources.find? fun r => ks.isPrefixOf r.keys).bind fun r => r.segments[ks.length - 1]?

/-- The node has the parameter that the segment declares. -/
def DeclaredBy (pseg : Bytes) (v : RouteFields H) : Prop :=
  v.pathParam = (segmentRoute (H := H) pseg).2.pathParam ∧
    v.pathParamType = (segmentRoute (H := H) pseg).2.pathParamType

structure Laid (root : Route H) (resources : List (Resource H)) : Prop where
  handlers : ∀ r ∈ resources, r.handler.isSome
  once : ∀ r ∈ resources, ∀ r' ∈ resources, r.keys = r'.keys → r.methodOf = r'.methodOf → r = r'
  nodes : ∀ ks, (root.valAt ks).isSome ↔ ks = [] ∨ ∃ r ∈ resources, ks <+: r.keys
  actions : ∀ ks m h, (root.valAt ks).bind (fun v => v.actions.lookup m) = some h ↔
    ∃ r ∈ resources, r.keys = ks ∧ r.methodOf = m ∧ r.handler = some h
  params : ∀ ks v, ks ≠ [] → root.valAt ks = some v →
    ∃ pseg, keptSegment resources ks = some pseg ∧ DeclaredBy pseg v

theorem segmentRoute_actions (pseg : Bytes) :
    (segmentRoute pseg : Bytes × RouteFields H).2.actions = [] := by
  rw [segmentRoute]
  cases isPathParam pseg <;> rfl

theorem setAction_eq {method : Bytes} {handlerFn : H} {v v' : RouteFields H}
    (h : setAction method handlerFn v = some v') :
    v.actions.lookup method = none ∧
      v' = { v with actions := (method, handlerFn) :: v.actions } := by
  rw [setAction] at h
  split at h
  · cases h
  · next hlookup =>
    cases h
    exact ⟨Option.not_isSome_iff_eq_none.mp hlookup, rfl⟩

/-- What a successful registration has done. -/
theorem registerResource_ok {webapp webapp' : WebApp H} {r : Resource H}
    (h : registerResource webapp r = .ok webapp') :
    ∃ handlerFn, r.handler = some handlerFn ∧
      webapp.root.alter (setAction r.methodOf handlerFn) (r.segments.map segmentRoute) =
        some webapp'.root := by
  rw [registerResource] at h
  split at h
  · cases h
  · cases h
  · next path handlerFn hpath hhandler =>
    refine ⟨handlerFn, hhandler, ?_⟩
    rw [Resource.methodOf, Resource.segments, hpath, Option.map_some, Option.getD_some]
    by_cases hmethod : r.method.getD SERVICE ∈ HTTP_METHODS
    · simp only [if_pos hmethod] at h
      split at h
      · next root halter =>
        cases h
        exact halter
      · cases h
    · simp only [if_neg hmethod] at h
      cases h

theorem map_segmentRoute (r : Resource H) :
    (r.segments.map (segmentRoute (H := H))).map Prod.fst = r.keys := by
  rw [List.map_map]
  rfl

/-- A node that is made has no actions. -/
theorem grown_actions (root : Route H) (r : Resource H) (ks : List Bytes) (m : Bytes) :
    (grown (r.segments.map segmentRoute) ks root).bind (fun v => v.actions.lookup m) =
      (root.valAt ks).bind (fun v => v.actions.lookup m) := by
  rw [grown]
  cases root.valAt ks with
  | some v => rfl
  | none =>
    cases hnew : freshAt ks (r.segments.map (segmentRoute (H := H))) with
    | none => rfl
    | some v =>
      have hkeys := (freshAt_isSome ks (r.segments.map (segmentRoute (H := H)))).mp
        (by rw [hnew]; rfl)
      rw [freshAt_of_keys hkeys.1 hkeys.2, List.getElem?_map, Option.map_map] at hnew
      obtain ⟨pseg, -, rfl⟩ := Option.map_eq_some_iff.mp hnew
      simp [segmentRoute_actions]

theorem exists_of_keptSegment {resources : List (Resource H)} {ks : List Bytes} {pseg : Bytes}
    (h : keptSegment resources ks = some pseg) :
    ∃ r ∈ resources, ks <+: r.keys ∧ r.segments[ks.length - 1]? = some pseg := by
  obtain ⟨r, hr, hpseg⟩ := Option.bind_eq_some_iff.mp h
  have hfound : ks.isPrefixOf r.keys = true :=
    List.find?_some (p := fun r : Resource H => ks.isPrefixOf r.keys) hr
  exact ⟨r, List.mem_of_find?_eq_some hr, List.isPrefixOf_iff_prefix.mp hfound, hpseg⟩

/-- A declaration that is kept stays. -/
theorem keptSegment_append {resources : List (Resource H)} {ks : List Bytes} {pseg : Bytes}
    (h : keptSegment resources ks = some pseg) (others : List (Resource H)) :
    keptSegment (resources ++ others) ks = some pseg := by
  obtain ⟨r, hr, hpseg⟩ := Option.bind_eq_some_iff.mp h
  rw [keptSegment, List.find?_append, hr]
  exact hpseg

theorem keptSegment_new {resources : List (Resource H)} {ks : List Bytes}
    (hnone : ∀ r ∈ resources, ¬ks <+: r.keys) {r : Resource H} (hr : ks <+: r.keys) :
    keptSegment (resources ++ [r]) ks = r.segments[ks.length - 1]? := by
  have hold : resources.find? (fun r => ks.isPrefixOf r.keys) = none := by
    refine List.find?_eq_none.mpr fun r' hr' hpre => hnone r' hr' ?_
    exact List.isPrefixOf_iff_prefix.mp hpre
  have hnew : ks.isPrefixOf r.keys = true := List.isPrefixOf_iff_prefix.mpr hr
  rw [keptSegment, List.find?_append, hold, Option.none_or]
  simp [hnew]

namespace Laid

variable {root root' : Route H} {resources : List (Resource H)}

theorem init (path : Bytes) : Laid (newWebApp (H := H) path).root [] where
  handlers := nofun
  once := nofun
  nodes ks := by cases ks <;> simp [newWebApp, valAt_cons, child]
  actions ks m h := by cases ks <;> simp [newWebApp, valAt_cons, child, val]
  params ks v hks h := by
    cases ks with
    | nil => exact absurd rfl hks
    | cons k ks => simp [newWebApp, valAt_cons, child] at h

/-- What a node says that is there or is made for the resource. -/
theorem grown_params (hlaid : Laid root resources) {r : Resource H} {ks : List Bytes}
    (hks : ks ≠ []) {v : RouteFields H}
    (h : grown (r.segments.map segmentRoute) ks root = some v) :
    ∃ pseg, keptSegment (resources ++ [r]) ks = some pseg ∧ DeclaredBy pseg v := by
  obtain hold | ⟨hnone, hnew⟩ := Option.or_eq_some_iff.mp h
  · obtain ⟨pseg, hkept, hdeclared⟩ := hlaid.params ks v hks hold
    exact ⟨pseg, keptSegment_append hkept [r], hdeclared⟩
  · have hkeys := (freshAt_isSome ks (r.segments.map (segmentRoute (H := H)))).mp
      (by rw [hnew]; rfl)
    rw [freshAt_of_keys hkeys.1 hkeys.2, List.getElem?_map, Option.map_map] at hnew
    obtain ⟨pseg, hpseg, rfl⟩ := Option.map_eq_some_iff.mp hnew
    rw [map_segmentRoute] at hkeys
    refine ⟨pseg, ?_, rfl, rfl⟩
    rw [keptSegment_new (fun r' hr' hpre => ?_) hkeys.2, hpseg]
    have hnode := (hlaid.nodes ks).mpr (.inr ⟨r', hr', hpre⟩)
    rw [hnone] at hnode
    cases hnode

/-- Registering a resource adds it. -/
theorem register (hlaid : Laid root resources) {r : Resource H} {handlerFn : H}
    (hhandler : r.handler = some handlerFn)
    (halter : root.alter (setAction r.methodOf handlerFn) (r.segments.map segmentRoute) =
      some root') : Laid root' (resources ++ [r]) := by
  have hvalAt := valAt_alter halter
  obtain ⟨v, v', hgrown, hset⟩ := grown_of_alter halter
  rw [map_segmentRoute] at hvalAt hgrown
  obtain ⟨hnone, hv'⟩ := setAction_eq hset
  have hold : ∀ m h, v.actions.lookup m = some h ↔
      ∃ r' ∈ resources, r'.keys = r.keys ∧ r'.methodOf = m ∧ r'.handler = some h := by
    intro m h
    rw [← hlaid.actions r.keys m h, ← grown_actions root r, hgrown]
    rfl
  -- no other resource has the keys and the method
  have hfree : ∀ r' ∈ resources, r'.keys = r.keys → r'.methodOf ≠ r.methodOf := by
    intro r' hr' hkeys hmethod
    obtain ⟨h, hh⟩ := Option.isSome_iff_exists.mp (hlaid.handlers r' hr')
    have hlookup := (hold r.methodOf h).mpr ⟨r', hr', hkeys, hmethod, hh⟩
    rw [hnone] at hlookup
    cases hlookup
  refine ⟨?_, ?_, fun ks => ?_, fun ks m h => ?_, fun ks w hks hw => ?_⟩
  · intro r' hr'
    obtain hr' | hr' := List.mem_append.mp hr'
    · exact hlaid.handlers r' hr'
    · rw [List.mem_singleton.mp hr', hhandler]
      rfl
  · intro r₁ hr₁ r₂ hr₂ hkeys hmethod
    obtain hold₁ | hnew₁ := List.mem_append.mp hr₁ <;>
      obtain hold₂ | hnew₂ := List.mem_append.mp hr₂
    · exact hlaid.once r₁ hold₁ r₂ hold₂ hkeys hmethod
    · obtain rfl := List.mem_singleton.mp hnew₂
      exact absurd hmethod (hfree r₁ hold₁ hkeys)
    · obtain rfl := List.mem_singleton.mp hnew₁
      exact absurd hmethod.symm (hfree r₂ hold₂ hkeys.symm)
    · rw [List.mem_singleton.mp hnew₁, List.mem_singleton.mp hnew₂]
  · rw [hvalAt ks]
    by_cases hks : ks = r.keys
    · rw [if_pos hks, hks, hgrown, Option.bind_some, hset]
      exact iff_of_true rfl (.inr ⟨r, by simp, List.prefix_rfl⟩)
    · rw [if_neg hks, grown, Option.isSome_or, Bool.or_eq_true, hlaid.nodes, freshAt_isSome,
        map_segmentRoute]
      constructor
      · rintro ((hnil | ⟨r', hr', hpre⟩) | ⟨-, hpre⟩)
        · exact .inl hnil
        · exact .inr ⟨r', List.mem_append_left _ hr', hpre⟩
        · exact .inr ⟨r, by simp, hpre⟩
      · rintro (hnil | ⟨r', hr', hpre⟩)
        · exact .inl (.inl hnil)
        · obtain hr' | hr' := List.mem_append.mp hr'
          · exact .inl (.inr ⟨r', hr', hpre⟩)
          · obtain rfl := List.mem_singleton.mp hr'
            by_cases hnil : ks = []
            · exact .inl (.inl hnil)
            · exact .inr ⟨hnil, hpre⟩
  · rw [hvalAt]
    simp only [List.mem_append, List.mem_singleton, or_and_right, exists_or, exists_eq_left]
    by_cases hks : ks = r.keys
    · subst hks
      rw [if_pos rfl, hgrown, Option.bind_some, hset, Option.bind_some, hv', ← hold]
      show ((r.methodOf, handlerFn) :: v.actions).lookup m = some h ↔ _
      by_cases hm : m = r.methodOf
      · subst hm
        rw [List.lookup_cons_self, hnone, hhandler]
        simp
      · rw [List.lookup_cons, beq_false_of_ne hm]
        simp [Ne.symm hm]
    · rw [if_neg hks, grown_actions, hlaid.actions]
      simp [Ne.symm hks]
  · rw [hvalAt] at hw
    split at hw
    · next heq =>
      rw [heq, hgrown, Option.bind_some, hset, hv'] at hw
      cases hw
      have hparams : ∃ pseg, keptSegment (resources ++ [r]) ks = some pseg ∧ DeclaredBy pseg v :=
        hlaid.grown_params hks (heq ▸ hgrown)
      exact hparams
    · exact hlaid.grown_params hks hw

end Laid

/-- The routes of a web application after its resources have been registered. -/
theorem registerAll_laid {path : Bytes} {webapp : WebApp H} {resources : List (Resource H)}
    (h : registerAll (newWebApp path) resources = .ok webapp) : Laid webapp.root resources := by
  have hfold : ∀ (rest done : List (Resource H)) (webapp₀ : WebApp H), Laid webapp₀.root done →
      registerAll webapp₀ rest = .ok webapp → Laid webapp.root (done ++ rest) := by
    intro rest
    induction rest with
    | nil =>
      intro done webapp₀ hlaid h
      cases h
      rwa [List.append_nil]
    | cons r rest ih =>
      intro done webapp₀ hlaid h
      rw [registerAll, List.foldlM_cons] at h
      cases hregister : registerResource webapp₀ r with
      | error e =>
        rw [hregister] at h
        cases h
      | ok webapp₁ =>
        rw [hregister] at h
        obtain ⟨handlerFn, hhandler, halter⟩ := registerResource_ok hregister
        rw [List.append_cons]
        exact ih _ webapp₁ (hlaid.register hhandler halter) h
  exact hfold resources [] (newWebApp path) (Laid.init path) h

end Luaw.Webapp
