import Ally.Bridge
import Ally.Text
import Mathlib.Data.Finset.Basic

/-!
# Credentials and the tool policy
-/

namespace Ally

open PCAgentBridge (Json)

def knownScopes : Finset String :=
  {"documents:ingest", "documents:read", "chat:use", "chat:history", "tools:read", "tools:write",
    "pc:connect", "pc:execute", "accounts:manage"}

/-- A tenant credential. -/
structure Principal where
  tenantId : String
  credentialId : String
  scopes : Finset String
  tenantId_filled : Text.blank tenantId = false
  credentialId_filled : Text.blank credentialId = false
  scopes_known : scopes ⊆ knownScopes

/-- `Principal(...)`, which raises a `ValueError` for an empty identity or an unknown
scope. -/
def Principal.make (tenantId credentialId : String) (scopes : Finset String) : Option Principal :=
  if ht : Text.blank tenantId = false then
    if hc : Text.blank credentialId = false then
      if hs : scopes ⊆ knownScopes then some ⟨tenantId, credentialId, scopes, ht, hc, hs⟩
      else none
    else none
  else none

theorem Principal.make_some {tenantId credentialId : String} {scopes : Finset String}
    {p : Principal} (h : Principal.make tenantId credentialId scopes = some p) :
    p.tenantId = tenantId ∧ p.credentialId = credentialId ∧ p.scopes = scopes := by
  unfold Principal.make at h
  split_ifs at h
  cases h
  exact ⟨rfl, rfl, rfl⟩

/-- `require` succeeds. -/
def Principal.permits (p : Principal) (scopes : Finset String) : Bool := decide (scopes ⊆ p.scopes)

inductive AgentExn
  | toolError (message : String)
  | authorizationDenied (message : String)
  | other (type : String)
  deriving DecidableEq, Repr

/-- `_TOOL_SCOPES`. -/
def toolScopes : List (String × List (String × String)) :=
  [("jira", [("create_ticket", "tools:write"), ("search_tickets", "tools:read"),
      ("get_ticket", "tools:read"), ("add_comment", "tools:write")]),
    ("drive", [("search_files", "tools:read"), ("get_file", "tools:read"),
      ("create_file", "tools:write")]),
    ("calendar", [("list_events", "tools:read"), ("create_event", "tools:write"),
      ("delete_event", "tools:write")]),
    ("local_pc", ["open_app", "list_windows", "focus_window", "close_window", "read_file",
      "write_file", "list_directory", "run_command", "move_mouse", "move_mouse_to_corner",
      "click", "type_text", "press_key"].map fun action => (action, "pc:execute"))]

/-- The scope the policy requires for an action of a tool. -/
def toolScope (tool action : String) : Option String :=
  (toolScopes.lookup tool).bind (List.lookup action)

/-- `_TOOL_SCOPES.get(tool, {}).get(action)`; a list or a dict cannot be looked up. -/
def requiredScope (tool : String) : Json → Except AgentExn (Option String)
  | .string action => .ok (toolScope tool action)
  | .array _ | .object _ => .error (.other "TypeError")
  | _ => .ok none

def authorizeTool (principal : Option Principal) (tenantId tool : String) (action : Json) :
    Except AgentExn Unit :=
  match requiredScope tool action with
  | .error e => .error e
  | .ok required =>
      match principal, required with
      | some p, some scope =>
          if p.tenantId ≠ tenantId then
            .error (.authorizationDenied "Tool operation is not authorized")
          else if p.permits {scope} then .ok ()
          else .error (.authorizationDenied
            "Credential is not permitted to perform this operation")
      | _, _ => .error (.authorizationDenied "Tool operation is not authorized")

/-- The principal is present, of the tenant, and holds the scope of the action. -/
def Authorized (principal : Option Principal) (tenantId tool : String) (action : Json) : Prop :=
  ∃ p a scope, principal = some p ∧ p.tenantId = tenantId ∧ action = .string a ∧
    toolScope tool a = some scope ∧ scope ∈ p.scopes

theorem authorizeTool_ok {principal : Option Principal} {tenantId tool : String} {action : Json}
    (h : authorizeTool principal tenantId tool action = .ok ()) :
    Authorized principal tenantId tool action := by
  unfold authorizeTool at h
  cases hrequired : requiredScope tool action with
  | error e => simp [hrequired] at h
  | ok required =>
      cases principal with
      | none => simp [hrequired] at h
      | some p =>
          cases required with
          | none => simp [hrequired] at h
          | some scope =>
              simp only [hrequired] at h
              split_ifs at h with htenant hpermits
              cases action with
              | string a =>
                  refine ⟨p, a, scope, rfl, of_not_not htenant, rfl, Except.ok.inj hrequired, ?_⟩
                  have hsub : {scope} ⊆ p.scopes := of_decide_eq_true hpermits
                  exact hsub (Finset.mem_singleton_self scope)
              | null => simp [requiredScope] at hrequired
              | bool value => simp [requiredScope] at hrequired
              | number literal => simp [requiredScope] at hrequired
              | array items => simp [requiredScope] at hrequired
              | object fields => simp [requiredScope] at hrequired

end Ally
