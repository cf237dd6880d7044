import Luaw.Foundations.Trie
import Luaw.Lua.Value
import Luaw.Utils.Splitter

/-!
# The routes of a web application

`registerResource` and `findAction` of `luaw_webapp.lua`. The routes are a trie of path
segments; all path parameters of a node share one child, under a key of its own.
-/

namespace Luaw.Webapp

open Lua

/-- `http_methods`, the names that the parser gives to the methods of requests. -/
def http_methods : List Bytes :=
  ["DELETE", "GET", "HEAD", "POST", "PUT", "CONNECT", "OPTIONS", "TRACE", "COPY", "LOCK", "MKCOL",
    "MOVE", "PROPFIND", "PROPPATCH", "SEARCH", "UNLOCK", "REPORT", "MKACTIVITY", "CHECKOUT",
    "MERGE", "M-SEARCH", "NOTIFY", "SUBSCRIBE", "UNSUBSCRIBE", "PATCH", "PURGE"].map text

abbrev RequestMethod := { method : Bytes // method ∈ http_methods }

def GET : RequestMethod := ⟨text "GET", by decide⟩

/-- The methods that a resource may be registered for. -/
def HTTP_METHODS : List Bytes :=
  ["GET", "POST", "PUT", "DELETE", "HEAD", "OPTIONS", "TRACE", "CONNECT", "SERVICE"].map text

def SERVICE : Bytes := text "SERVICE"

/-- The key of the child for path parameters. -/
def pathParamKey : Bytes := text "_path_param_"

inductive PathParamType where
  | string
  | num

def PathParamType.start : PathParamType → UInt8
  | string => 58
  | num => 35

def PathParamType.valueOf (tonumber : Bytes → LuaValue) : PathParamType → Bytes → LuaValue
  | string, pseg => .str pseg
  | num, pseg => tonumber pseg

/-- The fields of a node of the routes, its children apart. -/
structure RouteFields (H : Type) where
  pathParam : Option Bytes
  pathParamType : Option PathParamType
  actions : List (Bytes × H)

abbrev Route (H : Type) := Trie Bytes (RouteFields H)

structure WebApp (H : Type) where
  path : Bytes
  root : Route H

/-- A definition that a handler file registers. -/
structure Resource (H : Type) where
  path : Option Bytes
  handler : Option H
  method : Option Bytes

abbrev PathParams := List (LuaValue × LuaValue)

/-- The segments that the iterator `splitter(separator)` returns; `seg` has been passed since
the last separator. -/
def segments (separator : UInt8) (seg : Bytes) : Bytes → List Bytes
  | [] => if seg = [] then [] else [seg]
  | ch :: str =>
    if ch = separator then
      if seg = [] then segments separator [] str else seg :: segments separator [] str
    else segments separator (seg ++ [ch]) str

def splitPath (path : Bytes) : List Bytes := segments 47 [] path

section Iterator

variable {separator : UInt8} {str : Bytes}

theorem drop_cons_of_byte {pos : Nat} {ch : UInt8} (hpos : 1 ≤ pos)
    (hch : Utils.byte str pos = some ch) : str.drop (pos - 1) = ch :: str.drop pos := by
  obtain ⟨hlt, hget⟩ := List.getElem?_eq_some_iff.mp hch
  rw [List.drop_eq_getElem_cons hlt, hget, Nat.sub_add_cancel hpos]

/-- What the loop of the iterator finds is the next segment. -/
theorem segments_scan {start pos : Nat} (hstart : 1 ≤ start) (hle : start ≤ pos)
    (hpos : pos ≤ str.length + 1 ∨ start = pos) :
    segments separator ((str.take (pos - 1)).drop (start - 1)) (str.drop (pos - 1)) =
      match Utils.scan separator str start pos with
      | none => []
      | some (pos', seg) => seg :: segments separator [] (str.drop pos') := by
  fun_induction Utils.scan separator str start pos with
  | case1 start pos hlen hsep hlt =>
    have hne : (str.take (pos - 1)).drop (start - 1) ≠ [] := by
      rw [Ne, List.drop_eq_nil_iff, List.length_take]
      omega
    rw [drop_cons_of_byte (hstart.trans hle) hsep, segments, if_pos rfl, if_neg hne]
    rfl
  | case2 start pos hlen hsep hlt ih =>
    obtain rfl : start = pos := by omega
    have hnil : ∀ n, (str.take n).drop n = [] := fun n =>
      List.drop_eq_nil_of_le (List.length_take_le n str)
    rw [drop_cons_of_byte hstart hsep, hnil, segments, if_pos rfl, if_pos rfl]
    rw [← ih (by omega) (Nat.le_refl _) (.inr rfl), Nat.add_sub_cancel, hnil]
  | case3 start pos hlen hsep ih =>
    obtain ⟨ch, hch⟩ : ∃ ch, Utils.byte str pos = some ch :=
      ⟨_, List.getElem?_eq_getElem (by omega)⟩
    have hne : ¬ch = separator := fun heq => hsep (heq ▸ hch)
    have htake : (str.take pos).drop (start - 1) =
        (str.take (pos - 1)).drop (start - 1) ++ [ch] := by
      have hsucc : str.take pos = str.take (pos - 1) ++ [ch] := by
        conv_lhs => rw [← Nat.sub_add_cancel (hstart.trans hle)]
        rw [List.take_add_one, show str[pos - 1]? = some ch from hch]
        rfl
      rw [hsucc, List.drop_append_of_le_length (by rw [List.length_take]; omega)]
    rw [drop_cons_of_byte (hstart.trans hle) hch, segments, if_neg hne, ← htake]
    exact ih hstart (by omega) (.inl (by omega))
  | case4 start pos hlen hlt =>
    have hpos : pos ≤ str.length + 1 := hpos.resolve_right (by omega)
    have hne : str.drop (start - 1) ≠ [] := by
      rw [Ne, List.drop_eq_nil_iff]
      omega
    show _ = Utils.sub str start pos :: segments separator [] (str.drop pos)
    rw [Utils.sub, List.take_of_length_le (show str.length ≤ pos - 1 by omega),
      List.take_of_length_le (show str.length ≤ pos by omega),
      List.drop_eq_nil_of_le (show str.length ≤ pos - 1 by omega),
      List.drop_eq_nil_of_le (show str.length ≤ pos by omega), segments, if_neg hne, segments,
      if_pos rfl]
  | case5 start pos hlen hlt =>
    rw [List.drop_eq_nil_of_le (show str.length ≤ pos - 1 by omega), segments, if_pos]
    rw [List.drop_eq_nil_iff, List.length_take]
    omega

/-- The loop over the iterator goes through these segments. -/
theorem iterates_segments (separator : UInt8) (str : Bytes) (pos : Nat) : ∃ yields,
    Utils.Iterates (Utils.splitter separator str) pos yields ∧
      yields.map Prod.snd = segments separator [] (str.drop pos) := by
  induction hn : str.length + 1 - pos using Nat.strongRecOn generalizing pos with
  | _ n ih =>
    have hscan : segments separator ((str.take pos).drop pos) (str.drop pos) = _ :=
      segments_scan (Nat.le_add_left 1 pos) (Nat.le_refl _) (.inr rfl)
    rw [List.drop_eq_nil_of_le (List.length_take_le pos str)] at hscan
    rw [hscan]
    cases hnext : Utils.scan separator str (pos + 1) (pos + 1) with
    | none => exact ⟨[], .done hnext, rfl⟩
    | some found =>
      have hbehind := Utils.splitter_lt hnext
      obtain ⟨rest, hiter, hrest⟩ :=
        ih (str.length + 1 - found.1) (by omega) found.1 rfl
      exact ⟨found :: rest, .step hnext hiter, congrArg (found.2 :: ·) hrest⟩

end Iterator

section Routes

variable {H : Type}

def isPathParam (pseg : Bytes) : Bool :=
  pseg.head? = some PathParamType.string.start ∨ pseg.head? = some PathParamType.num.start

/-- The key of a segment of a resource's path, and the node that is made for it. -/
def segmentRoute (pseg : Bytes) : Bytes × RouteFields H :=
  if isPathParam pseg then
    (pathParamKey, {
      pathParam := some (pseg.drop 1)
      pathParamType := some (if pseg.head? = some PathParamType.num.start then .num else .string)
      actions := [] })
  else (pseg, ⟨none, none, []⟩)

/-- `route[method] = {handler = handlerFn}`, if there is none. -/
def setAction (method : Bytes) (handlerFn : H) (route : RouteFields H) : Option (RouteFields H) :=
  if (route.actions.lookup method).isSome then none
  else some { route with actions := (method, handlerFn) :: route.actions }

def registerResource (webapp : WebApp H) (resource : Resource H) :
    Except LuaError (WebApp H) :=
  match resource.path, resource.handler with
  | none, _ => .error (text "Handler definition is missing value for 'path'")
  | some _, none => .error (text "Handler definition is missing 'handler' function")
  | some path, some handlerFn =>
    let method := resource.method.getD SERVICE
    if method ∈ HTTP_METHODS then
      match webapp.root.alter (setAction method handlerFn) ((splitPath path).map segmentRoute) with
      | some root => .ok { webapp with root }
      | none => .error (text "Handler already registered for " ++ method ++ text " for path \"/" ++
          webapp.path ++ text "/" ++ path ++ text "\"")
    else .error (method ++ text " is not a valid HTTP method")

/-- `app.root` as `loadWebApp` makes it. -/
def newWebApp (path : Bytes) : WebApp H := ⟨path, .node ⟨none, none, []⟩ []⟩

/-- The handler files of a web application are loaded one after the other. -/
def registerAll (webapp : WebApp H) (resources : List (Resource H)) : Except LuaError (WebApp H) :=
  resources.foldlM registerResource webapp

variable (tonumber : Bytes → LuaValue)

/-- The loop of `findAction` after its first iteration. -/
def findRoute : List Bytes → Route H → PathParams →
    Except LuaError (Option (Route H × PathParams))
  | [], route, pathParams => .ok (some (route, pathParams))
  | pseg :: psegs, route, pathParams =>
    match route.child pseg with
    | some nextRoute => findRoute psegs nextRoute pathParams
    | none =>
      match route.child pathParamKey with
      | none => .ok none
      | some nextRoute =>
        match nextRoute.val.pathParamType, nextRoute.val.pathParam with
        | some pathParamType, some pathParam =>
          findRoute psegs nextRoute
            (assign (.str pathParam) (pathParamType.valueOf tonumber pseg) pathParams)
        | none, _ => .error (text "attempt to index a nil value (field 'pathParamType')")
        | some _, none => .error (text "index is nil")

/-- The web application, the action and the path parameters for a request. -/
def findAction (registeredWebApps : List (Bytes × WebApp H)) (method : RequestMethod)
    (path : Bytes) : Except LuaError (Option (WebApp H × Option H × PathParams)) :=
  match splitPath path with
  | [] => .ok none
  | pseg :: psegs =>
    match (registeredWebApps.lookup pseg).or (registeredWebApps.lookup (text "/")) with
    | none => .ok none
    | some webApp => do
      match ← findRoute tonumber psegs webApp.root [] with
      | none => pure none
      | some (route, pathParams) =>
        let action := (route.val.actions.lookup method.val).or (route.val.actions.lookup SERVICE)
        pure (some (webApp, action, pathParams))

end Routes

end Luaw.Webapp
