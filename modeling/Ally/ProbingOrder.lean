import Ally.ConsentGating

/-!
# Probing before the checks

`open_app` looks at the machine to choose between a launch and a web search, and only then
checks the capability and the arguments.
-/

namespace Ally.Companion

open Agent (truthy)
open Interaction
open PCAgentBridge (Json)

variable {F : Type} [PyFloat F]

/-- A subprocess, a lookup on the machine, a request to the web, or a launch. -/
def probes : Effect → Bool
  | .pathExists _ | .which _ | .getStartApps | .urlopen _ | .webbrowserOpen _ | .startfile _
  | .popen _ => true
  | _ => false

/-- The capability is not `True`, or `validate_action` rejects the arguments. -/
def Forbidden (host : Host) (agent : LocalAgent F) (params : Json) : Prop :=
  agent.capabilities.lookup "open_apps" ≠ some (.bool true) ∨
    validateAction F host.isAbsolute "open_app" params ≠ .ok ()

/-- The name alone shows that no web search is needed. -/
def NameSettles (host : Host) (agent : LocalAgent F) (name : List Char) : Prop :=
  name = [] ∨ (∃ e ∈ agent.appAliases,
    host.python.unicode.casefold e.1.toList = host.python.unicode.casefold name) ∨
    looksLikeUrl name = true

/-- The arguments alone decide between the search and the launch. -/
def Settled (host : Host) (agent : LocalAgent F) : Json → Prop
  | .object fields =>
      (truthyKey fields "search_query").isSome ∨ ∀ value, firstTruthy fields appParamKeys = some value →
        NameSettles host agent (launchName (host.python.str value))
  | _ => True

variable {host : Host} {agent : LocalAgent F} {params : Json}

/-- What is forbidden is refused without asking for anything. -/
theorem precheck_of_forbidden (h : Forbidden host agent params) :
    ∃ exn, (precheck host agent "open_apps" "open_app" params).run = .done (.error exn) := by
  unfold precheck
  split_ifs with hcapability
  · exact ⟨_, rfl⟩
  · have htrue : agent.capabilities.lookup "open_apps" = some (.bool true) := by
      rw [Bool.not_eq_true', Bool.not_eq_false] at hcapability
      obtain ⟨value, hvalue, htrue⟩ := (Option.any_eq_true _ _).mp hcapability
      rw [hvalue, eq_true_of_isTrue htrue]
    have hvalid := h.resolve_left (not_not.mpr htrue)
    cases hresult : validateAction F host.isAbsolute "open_app" params with
    | error exn => exact ⟨exn, rfl⟩
    | ok done => exact absurd hresult hvalid

theorem require_of_forbidden (h : Forbidden host agent params) (context : Option ApprovalContext) :
    ∃ exn, (require' host agent "open_apps" "open_app" params context).run = .done (.error exn) := by
  obtain ⟨exn, hexn⟩ := precheck_of_forbidden h
  exact ⟨exn, run_bind_of_error hexn _⟩

theorem openBySearch_of_forbidden (h : Forbidden host agent params) (searchQuery : String) :
    ∃ exn, (openBySearch host agent params searchQuery).run = .done (.error exn) := by
  obtain ⟨exn, hexn⟩ := precheck_of_forbidden h
  exact ⟨exn, run_bind_of_error hexn _⟩

omit [PyFloat F] in
/-- A settled name leaves nothing to look up. -/
theorem needsWebSearch_of_settled {target : String}
    (h : NameSettles host agent (launchName target)) :
    (needsWebSearch host target agent.appAliases : LocalAction F Bool).run = .done (.ok false) := by
  unfold needsWebSearch
  dsimp only
  by_cases hnil : (launchName target).isEmpty = true
  · rw [if_pos hnil]
    rfl
  rw [if_neg hnil]
  by_cases halias : agent.appAliases.any (fun e => decide (host.python.unicode.casefold e.1.toList =
      host.python.unicode.casefold (launchName target))) = true
  · rw [if_pos halias]
    rfl
  rw [if_neg halias]
  rcases h with h | ⟨e, he, hkey⟩ | hurl
  · exact absurd (by rw [h]; rfl) hnil
  · exact absurd (List.any_eq_true.mpr ⟨e, he, decide_eq_true hkey⟩) halias
  · rw [if_pos hurl]
    rfl

omit [PyFloat F] in
/-- Any other name is first looked up in the file system. -/
theorem needsWebSearch_of_not_settled {target : String}
    (h : ¬ NameSettles host agent (launchName target)) :
    ∃ next, (needsWebSearch host target agent.appAliases : LocalAction F Bool).run =
      .ask (.pathExists (String.ofList (launchName target))) next := by
  unfold NameSettles at h
  rw [not_or, not_or] at h
  obtain ⟨hne, halias, hurl⟩ := h
  have hany : ¬ agent.appAliases.any (fun e => decide (host.python.unicode.casefold e.1.toList =
      host.python.unicode.casefold (launchName target))) = true := by
    intro hany
    obtain ⟨e, he, hkey⟩ := List.any_eq_true.mp hany
    exact halias ⟨e, he, of_decide_eq_true hkey⟩
  unfold needsWebSearch
  rw [if_neg (by simpa using hne), if_neg hany, if_neg hurl]
  exact ⟨_, rfl⟩

theorem openApp_of_settled (h : Forbidden host agent params) (hsettled : Settled host agent params) :
    ∃ exn, (openApp host agent params).run = .done (.error exn) := by
  unfold openApp
  cases params with
  | object fields =>
      dsimp only
      cases hvalue : firstTruthy fields appParamKeys with
      | none => exact ⟨_, rfl⟩
      | some value =>
          dsimp only
          by_cases hquery : (truthyKey fields "search_query").isSome = true
          · rw [searchFirst, if_pos hquery]
            obtain ⟨exn, hexn⟩ := openBySearch_of_forbidden h _
            exact ⟨exn, hexn⟩
          · have hname := hsettled.resolve_left hquery value hvalue
            obtain ⟨exn, hexn⟩ := require_of_forbidden h none
            rw [searchFirst, if_neg hquery, run_bind_of_ok (needsWebSearch_of_settled hname)]
            exact ⟨exn, run_bind_of_error hexn _⟩
  | _ => exact ⟨_, rfl⟩

theorem openApp_of_not_settled (hsettled : ¬ Settled host agent params) :
    ∃ name next, (openApp host agent params).run = .ask (.pathExists name) next := by
  cases params with
  | object fields =>
      simp only [Settled, not_or, not_forall] at hsettled
      obtain ⟨hquery, value, hvalue, hname⟩ := hsettled
      obtain ⟨next, hnext⟩ := needsWebSearch_of_not_settled hname
      unfold openApp
      dsimp only
      rw [hvalue]
      dsimp only
      rw [searchFirst, if_neg hquery]
      obtain ⟨next', hnext'⟩ := run_bind_of_ask hnext _
      exact ⟨_, next', hnext'⟩
  | _ => exact absurd trivial hsettled

/-- Everything is disabled. -/
def lockedAgent : LocalAgent ℚ where
  capabilities := []
  allowedFolders := []
  appAliases := []
  approver := false
  deadline := none

/-- A machine without the file and the program that are looked up. -/
def bareMachine (_ : LocalTrace ℚ) : (e : Effect) → Option (Effect.Answer ℚ e)
  | .pathExists _ => some (.ok false)
  | .which _ => some (.ok none)
  | .startAppsCache => some (.ok none)
  | _ => none

end Ally.Companion
