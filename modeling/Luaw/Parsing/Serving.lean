import Luaw.Http.KeepAlive
import Luaw.Parsing.Requests

/-!
# Serving well-formed requests

What `serviceHTTP` makes of the requests on a connection rests on how their bytes are parsed. The
parser reads every well-formed request, so it holds of all of these.
-/

namespace Luaw.Parsing

open Http Lua

namespace WireRequest

def sent (r : WireRequest) : Sent := ⟨r.bytes, r.content⟩

variable {r : WireRequest} {env : Env ValidParser} {platform : Platform}
  {parseURL : Bytes → Bool → Option ParsedURL}

theorem WellFormed.servable (h : r.WellFormed) (hkeep : r.content.keepAlive = true)
    (hkeepEnd : r.content.keepAliveEnd = true) (hordinary : r.content.Ordinary) :
    r.sent.Servable (httpParser .request platform parseURL) :=
  ⟨h.parse platform parseURL, hkeep, hkeepEnd, hordinary⟩

/-- Well-formed requests that keep the connection alive are all dispatched exactly under the
conditions that `DispatchedWhen` names. -/
theorem dispatchedWhen_wellFormed (henv : env.parser = httpParser .request platform parseURL)
    {rs : List WireRequest} (hrs : ∀ r ∈ rs, r.WellFormed ∧ r.content.keepAlive = true ∧
      r.content.keepAliveEnd = true ∧ r.content.Ordinary) {conn : Conn} (haccepts : conn.Accepts)
    {chunks : List Bytes} {more : List (Except LuaError Bytes)}
    (hmore : ∀ result ∈ more, ∃ mesg, result = .error mesg)
    (hsupply : conn.Supply chunks more (rs.map bytes).flatten) :
    DispatchedWhen env conn chunks (rs.map sent) := by
  have hbytes : (rs.map sent).map Sent.bytes = rs.map bytes := by
    rw [List.map_map]
    rfl
  refine dispatchedWhen env (rs.map sent) (fun m hm => ?_) haccepts hmore (hbytes ▸ hsupply)
  obtain ⟨r, hr, rfl⟩ := List.mem_map.mp hm
  obtain ⟨hwell, hkeep, hkeepEnd, hordinary⟩ := hrs r hr
  rw [henv]
  exact hwell.servable hkeep hkeepEnd hordinary

/-- A well-formed request whose version and headers do not keep the connection alive has no
answer. -/
theorem WellFormed.dropped (h : r.WellFormed)
    (henv : env.parser = httpParser .request platform parseURL)
    (hclose : if 0 < r.httpMajor ∧ 0 < r.httpMinor then r.head.flags.connectionClose = true
      else r.head.flags.connectionKeepAlive = false) {conn : Conn} {block : List Bytes}
    {more : List (Except LuaError Bytes)} {extra : Bytes}
    (hsupply : conn.Supply block more (r.bytes ++ extra)) :
    ∃ (N : Nat) (served : Served), (∀ fuel, serviceHTTP env (fuel + N) conn = served) ∧
      Dropped conn served := by
  have hkeep : r.content.keepAlive = false := by
    rw [r.keepAlive_eq]
    split at hclose
    · next hversion => rw [if_pos hversion, hclose]; rfl
    · next hversion => rw [if_neg hversion, hclose]
  obtain ⟨parse⟩ : Nonempty (Parse env.parser r.bytes r.content) := by
    rw [henv]
    exact h.parse platform parseURL
  refine closing_request_dropped parse ?_ ?_ hsupply
  · rw [hkeep, Bool.false_and]
  · rw [hkeep]
    rintro ⟨⟨⟩, -⟩

end WireRequest

end Luaw.Parsing
