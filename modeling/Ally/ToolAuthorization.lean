import Ally.AgentGraph

/-!
# Tool execution is authorised and faithful
-/

namespace Ally.Agent

open PCAgentBridge (Json)
open Commands (ParsedCommand parseCommand)
open Interaction

abbrev AgentTrace := Trace Effect.Answer

/-- A call of `tool.execute`. -/
structure Execution where
  tool : String
  tenantId : String
  action : Json
  params : Params

def executionOf : (Σ e, Effect.Answer e) → Option Execution
  | ⟨.execute tool tenantId action params, _⟩ => some ⟨tool, tenantId, action, params⟩
  | _ => none

/-- The executions of a run, in order. -/
def executions (t : AgentTrace) : List Execution := t.filterMap executionOf

def isClassify : (Σ e, Effect.Answer e) → Bool
  | ⟨.classify _ _, _⟩ => true
  | _ => false

/-- The classifier was asked. -/
def classified (t : AgentTrace) : Bool := t.any isClassify

theorem executions_append (s t : AgentTrace) :
    executions (s ++ t) = executions s ++ executions t :=
  List.filterMap_append

/-! ### Classification executes nothing -/

theorem wp_describeTools (principal : Principal) (tools : List Tool) (past : AgentTrace) :
    wp (describeTools principal tools).run (fun t _ => executions t = executions past) past := by
  induction tools generalizing past with
  | nil => rfl
  | cons tool tools ih =>
      unfold describeTools
      dsimp only
      split_ifs
      · exact ih past
      · rw [wp_run_bind, wp_call]
        intro available
        have hpast : executions (past ++ [⟨.available tool.name principal.tenantId, available⟩]) =
            executions past := by
          rw [executions_append]
          exact List.append_nil _
        cases available with
        | error e => exact hpast
        | ok available =>
            dsimp only [id]
            rw [wp_run_bind]
            refine wp_mono (fun t r ht => ?_) (ih _)
            cases r with
            | error e => exact ht.trans hpast
            | ok lines => exact ht.trans hpast

theorem wp_toolsBlock (registry : ToolRegistry) (principal : Option Principal)
    (past : AgentTrace) :
    wp (toolsBlock registry principal).run (fun t _ => executions t = executions past) past := by
  unfold toolsBlock
  cases principal with
  | none => rfl
  | some p =>
      dsimp only
      split_ifs
      · unfold describeForPrincipal
        rw [wp_run_bind]
        refine wp_mono (fun t r ht => ?_) (wp_describeTools p registry past)
        cases r with
        | error e => exact ht
        | ok lines => exact ht
      · rfl

/-- What classification does: an explicit command is taken without any effect. -/
theorem wp_classifyNode (python : Python) (registry : ToolRegistry) (query : String)
    (principal : Option Principal) :
    wp (classifyNode python registry query principal).run (fun t r => executions t = [] ∧
      ∀ command, parseCommand python.unicode query = some command →
        t = [] ∧ r = .ok (commandIntent command)) [] := by
  unfold classifyNode
  cases parseCommand python.unicode query with
  | some command =>
      refine ⟨rfl, fun command' h => ?_⟩
      cases h
      exact ⟨rfl, rfl⟩
  | none =>
      dsimp only
      rw [wp_run_bind]
      refine wp_mono (fun t r ht => ?_) (wp_toolsBlock registry principal [])
      cases r with
      | error e => exact ⟨ht, by simp⟩
      | ok block =>
          dsimp only
          rw [wp_run_bind, wp_call]
          intro intent
          have hpast : executions (t ++ [⟨.classify query block, intent⟩]) = [] := by
            rw [executions_append, ht]
            rfl
          cases intent with
          | error e => exact ⟨hpast, by simp⟩
          | ok intent => exact ⟨hpast, by simp⟩

/-! ### The tool node -/

/-- The one execution a tool node may perform for an intent. -/
structure Permitted (python : Python) (registry : ToolRegistry) (tenantId query : String)
    (principal : Option Principal) (intent : Intent) (x : Execution) : Prop where
  authorized : Authorized principal tenantId x.tool x.action
  tenant : x.tenantId = tenantId
  tool : intent.toolName = .string x.tool
  action : x.action = intent.action
  params : ∃ params, toDict intent.params = .ok params ∧
    x.params = addSearchPhrase python query x.tool intent.action params

/-- The trace has grown by at most one execution, and that one is permitted. -/
def Executes (python : Python) (registry : ToolRegistry) (tenantId query : String)
    (principal : Option Principal) (intent : Intent) (past t : AgentTrace) : Prop :=
  t = past ∨ ∃ event x, t = past ++ [event] ∧ executionOf event = some x ∧
    isClassify event = false ∧ Permitted python registry tenantId query principal intent x

theorem wp_executeTool (python : Python) (registry : ToolRegistry) (tenantId query : String)
    (principal : Option Principal) (tool : Tool) (intent : Intent)
    (htool : intent.toolName = .string tool.name) (past : AgentTrace) :
    wp (executeTool python tenantId query principal tool intent).run
      (fun t _ => Executes python registry tenantId query principal intent past t) past := by
  unfold executeTool
  rw [wp_run_bind, wp_fromExcept]
  cases hauth : authorizeTool principal tenantId tool.name intent.action with
  | error e => exact Or.inl rfl
  | ok _ =>
      dsimp only
      rw [wp_run_bind, wp_fromExcept]
      cases validateExplicitPcCommand python query tool.name intent.action intent.params with
      | error e => exact Or.inl rfl
      | ok _ =>
          dsimp only
          rw [wp_run_bind, wp_fromExcept]
          cases hparams : toDict intent.params with
          | error e => exact Or.inl rfl
          | ok params =>
              intro answer
              refine Or.inr ⟨_, ⟨tool.name, tenantId, intent.action,
                addSearchPhrase python query tool.name intent.action params⟩, rfl, rfl, rfl, ?_⟩
              exact ⟨authorizeTool_ok hauth, rfl, htool, rfl, params, hparams, rfl⟩

theorem lookupTool_some {registry : ToolRegistry} {name : Json} {tool : Tool}
    (h : lookupTool registry name = .ok (some tool)) : name = .string tool.name := by
  unfold lookupTool at h
  split_ifs at h
  · cases name with
    | string s =>
        have hfind : registry.find? (·.name = s) = some tool := Except.ok.inj h
        have hname := List.find?_some hfind
        rw [of_decide_eq_true hname]
    | null => cases h
    | bool value => cases h
    | number literal => cases h
    | array items => cases h
    | object fields => cases h
  · cases h

theorem wp_toolNode (python : Python) (registry : ToolRegistry) (tenantId query : String)
    (principal : Option Principal) (intent : Intent) (past : AgentTrace) :
    wp (toolNode python registry tenantId query principal intent).run
      (fun t _ => Executes python registry tenantId query principal intent past t) past := by
  unfold toolNode
  rw [wp_run_bind, wp_fromExcept]
  cases hlookup : lookupTool registry intent.toolName with
  | error e => exact Or.inl rfl
  | ok tool =>
      cases tool with
      | none => exact Or.inl rfl
      | some tool =>
          dsimp only
          split
          · exact Or.inl rfl
          · exact Or.inl rfl
          next tool' heq _ =>
            cases heq
            rw [wp_run_tryCatch, wp_run_bind]
            have hexecute := wp_executeTool python registry tenantId query principal tool intent
              (lookupTool_some hlookup) past
            refine wp_mono (fun t' r ht' => ?_) hexecute
            cases r with
            | error e => exact ht'
            | ok result => exact ht'

/-! ### The graph -/

/-- A run of the graph classifies first and then executes at most once; with an explicit
command it only executes, for the intent of the command. -/
theorem wp_runGraph (python : Python) (registry : ToolRegistry) (tenantId query : String)
    (principal : Option Principal) :
    wp (runGraph python registry tenantId query principal).run (fun t _ =>
      ∃ past intent, executions past = [] ∧
        Executes python registry tenantId query principal intent past t ∧
        ∀ command, parseCommand python.unicode query = some command →
          past = [] ∧ intent = commandIntent command) [] := by
  unfold runGraph
  rw [wp_run_bind]
  refine wp_mono (fun past r hpast => ?_) (wp_classifyNode python registry query principal)
  obtain ⟨hnone, hcommand⟩ := hpast
  cases r with
  | error e =>
      refine ⟨past, ⟨"", .null, .null, .null⟩, hnone, Or.inl rfl, fun command h => ?_⟩
      exact nomatch (hcommand command h).2
  | ok intent =>
      have hintent : ∀ command, parseCommand python.unicode query = some command →
          past = [] ∧ intent = commandIntent command :=
        fun command h => ⟨(hcommand command h).1, Except.ok.inj (hcommand command h).2⟩
      dsimp only
      split
      · rw [wp_run_bind]
        refine wp_mono (fun t r ht => ?_)
          (wp_toolNode python registry tenantId query principal intent past)
        cases r with
        | error e => exact ⟨past, intent, hnone, ht, hintent⟩
        | ok outcome => exact ⟨past, intent, hnone, ht, hintent⟩
      · exact ⟨past, intent, hnone, Or.inl rfl, hintent⟩
      · exact ⟨past, intent, hnone, Or.inl rfl, hintent⟩
      · exact ⟨past, intent, hnone, Or.inl rfl, hintent⟩

theorem addSearchPhrase_of_command {python : Python} {query toolName : String} {action : Json}
    {params : Params} {command : ParsedCommand}
    (h : parseCommand python.unicode query = some command) :
    addSearchPhrase python query toolName action params = params := by
  unfold addSearchPhrase
  rw [h]
  simp

/-- One run of the graph executes at most one tool, only for an authorised principal of the
turn's tenant; an explicit command is executed as parsed and keeps the classifier out. -/
theorem tool_execution_authorised (python : Python) (registry : ToolRegistry)
    (tenantId query : String) (principal : Option Principal) {t : AgentTrace}
    {r : Except AgentExn FinalState}
    (h : Runs (runGraph python registry tenantId query principal).run t r) :
    (executions t).length ≤ 1 ∧
    (∀ x ∈ executions t, x.tenantId = tenantId ∧
      Authorized principal tenantId x.tool x.action) ∧
    ∀ command, parseCommand python.unicode query = some command →
      classified t = false ∧ ∀ x ∈ executions t, x.tool = command.toolName ∧
        x.action = .string command.action ∧
        x.params = command.params.map fun e => (.string e.1, .string e.2) := by
  obtain ⟨past, intent, hpast, hexecutes, hcommand⟩ :=
    runs_of_wp (wp_runGraph python registry tenantId query principal) h
  rcases hexecutes with rfl | ⟨event, x, rfl, hx, hclassify, hpermitted⟩
  · rw [hpast]
    refine ⟨Nat.zero_le _, nofun, fun command hc => ⟨?_, nofun⟩⟩
    rw [(hcommand command hc).1]
    rfl
  · have hlist : executions (past ++ [event]) = [x] := by
      rw [executions_append, hpast]
      simp [executions, hx]
    rw [hlist]
    refine ⟨le_rfl, ?_, fun command hc => ⟨?_, ?_⟩⟩
    · intro y hy
      rw [List.mem_singleton.mp hy]
      exact ⟨hpermitted.tenant, hpermitted.authorized⟩
    · rw [(hcommand command hc).1]
      simp [classified, hclassify]
    · intro y hy
      rw [List.mem_singleton.mp hy]
      obtain ⟨-, rfl⟩ := hcommand command hc
      obtain ⟨params, hparams, hx⟩ := hpermitted.params
      rw [addSearchPhrase_of_command hc] at hx
      refine ⟨(Json.string.inj hpermitted.tool).symm, hpermitted.action, ?_⟩
      rw [hx, ← Except.ok.inj hparams]
      simp

/-- ASCII text, and no value but strings. -/
def asciiPython : Python where
  unicode := ⟨fun c => c.isAlphanum || c = '_', List.map Char.toLower⟩
  repr := fun _ => ""

def jiraRegistry : ToolRegistry :=
  ToolRegistry.register [] ⟨"jira", "Tickets", ["get_ticket", "create_ticket"]⟩

def jiraPrincipal : Principal where
  tenantId := "t"
  credentialId := "k"
  scopes := {"tools:read"}
  tenantId_filled := by decide
  credentialId_filled := by decide
  scopes_known := by decide

/-- Every tool is available and succeeds; the classifier would answer from documents. -/
def willingAnswer (_ : AgentTrace) : (e : Effect) → Effect.Answer e
  | .available _ _ => .ok true
  | .classify _ _ => .ok ⟨"rag", .null, .null, .object []⟩
  | .execute _ _ _ _ => .ok ⟨true, "done", []⟩

def jiraQuery : String := "/jira.get_ticket key=\"AB-1\""

theorem jiraQuery_executes :
    (executions (play willingAnswer (runGraph asciiPython jiraRegistry "t" jiraQuery
      (some jiraPrincipal)).run []).1).map Execution.tool = ["jira"] := by decide +kernel

theorem tool_execution_authorised_jiraQuery :
    ∃ x ∈ executions (play willingAnswer (runGraph asciiPython jiraRegistry "t" jiraQuery
      (some jiraPrincipal)).run []).1,
      x.tool = "jira" ∧ Authorized (some jiraPrincipal) "t" x.tool x.action := by
  obtain ⟨x, hx, htool⟩ := List.mem_map.mp (jiraQuery_executes ▸ List.mem_singleton_self "jira")
  obtain ⟨-, hauthorized, -⟩ := tool_execution_authorised asciiPython jiraRegistry "t" jiraQuery
    (some jiraPrincipal) (runs_play willingAnswer _ [])
  exact ⟨x, hx, htool, (hauthorized x hx).2⟩

end Ally.Agent
