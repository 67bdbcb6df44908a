import Ally.Commands
import Ally.Interaction
import Ally.PcIntent
import Ally.Principal

/-!
# The agent graph

One message is classified and, when it asks for a tool, the tool is executed. The
classifier, the availability checks and the tools are the environment of the program.
-/

namespace Ally.Agent

open PCAgentBridge (Json Message)
open Commands (ParsedCommand parseCommand)
open Interaction
open Text (Unicode)

/-- The parts of the language that need tables: Unicode and `repr`. -/
structure Python where
  unicode : Unicode
  repr : Json → String

structure ToolResult where
  success : Bool
  summary : String
  details : Message

structure Tool where
  name : String
  description : String
  actions : List String

/-- The tools of a `ToolRegistry`, which are keyed by their names. -/
abbrev ToolRegistry := List Tool

def ToolRegistry.register (registry : ToolRegistry) (tool : Tool) : ToolRegistry :=
  if registry.any (·.name = tool.name) then
    registry.map fun t => if t.name = tool.name then tool else t
  else registry ++ [tool]

/-- `registry.get(name)`; a list or a dict is no key. -/
def ToolRegistry.get (registry : ToolRegistry) : Json → Except AgentExn (Option Tool)
  | .string name => .ok (registry.find? (·.name = name))
  | .array _ | .object _ => .error (.other "TypeError")
  | _ => .ok none

/-- The argument of `execute`: a dict, whose keys need not be strings. -/
abbrev Params := List (Json × Json)

inductive Effect
  | available (tool tenantId : String)
  | classify (query toolsBlock : String)
  | execute (tool tenantId : String) (action : Json) (params : Params)

@[reducible] def Effect.Answer : Effect → Type
  | .available _ _ => Except AgentExn Bool
  | .classify _ _ => Except AgentExn Intent
  | .execute _ _ _ _ => Except AgentExn ToolResult

abbrev AgentAction := Action Effect Effect.Answer AgentExn

/-! ### Classification -/

def permittedActions (principal : Principal) (tool : Tool) : List String :=
  tool.actions.filter fun action =>
    (authorizeTool (some principal) principal.tenantId tool.name (.string action)).toBool

def describeTool (tool : Tool) (actions : List String) : String :=
  "- " ++ tool.name ++ ": " ++ tool.description ++
    " (actions: " ++ ", ".intercalate actions ++ ")"

/-- The lines of `describe_for_principal`. -/
def describeTools (principal : Principal) : List Tool → AgentAction (List String)
  | [] => pure []
  | tool :: tools => do
      let actions := permittedActions principal tool
      if actions.isEmpty then describeTools principal tools
      else
        let available ← call (.available tool.name principal.tenantId) id
        let lines ← describeTools principal tools
        return if available then describeTool tool actions :: lines else lines

def describeForPrincipal (registry : ToolRegistry) (principal : Principal) :
    AgentAction String := do
  let lines ← describeTools principal registry
  return if lines.isEmpty then "(no tools are authorized and connected for this credential)"
    else "\n".intercalate lines

def toolsBlock (registry : ToolRegistry) (principal : Option Principal) : AgentAction String :=
  let none := pure "(no tools are authorized for this credential)"
  match principal with
  | .some p =>
      if (p.scopes ∩ {"tools:read", "tools:write", "pc:execute"}).Nonempty then
        describeForPrincipal registry p
      else none
  | .none => none

/-- The intent of an explicit command. -/
def commandIntent (command : ParsedCommand) : Intent where
  kind := "tool"
  toolName := .string command.toolName
  action := .string command.action
  params := .object (command.params.map fun e => (e.1, .string e.2))

/-- A clear PC request takes the place of the classifier's answer, a tool request only when
the PC tool is listed. -/
def overrideIntent (local? : Option Intent) (block : String) (intent : Intent) : Intent :=
  match local? with
  | some localIntent =>
      if localIntent.kind = "conversational" ∨
          Text.contains "- local_pc:".toList block.toList = true then localIntent
      else intent
  | none => intent

def classifyNode (python : Python) (registry : ToolRegistry) (query : String)
    (principal : Option Principal) : AgentAction Intent :=
  match parseCommand python.unicode query with
  | some command => pure (commandIntent command)
  | none => do
      let block ← toolsBlock registry principal
      let intent ← call (.classify query block) id
      return overrideIntent (inferLocalPcIntent python.unicode query) block intent

/-! ### Tool execution -/

/-- Python's truth value of a JSON value. -/
def truthy : Json → Bool
  | .null => false
  | .bool b => b
  | .number literal =>
      (literal.toList.takeWhile fun c => c ≠ 'e' && c ≠ 'E').any fun c => c.isDigit && c ≠ '0'
  | .string s => !s.isEmpty
  | .array items => !items.isEmpty
  | .object fields => !fields.isEmpty

/-- Equality of a dict of strings with a decoded value. -/
def sameParams (params : List (String × String)) : Json → Bool
  | .object fields =>
      (fields.all fun e => match e.2 with
        | .string s => params.lookup e.1 = some s
        | _ => false) &&
      params.all fun e => fields.any fun f => f.1 = e.1
  | _ => false

def isString (s : String) : Json → Bool
  | .string a => a = s
  | _ => false

def validateExplicitPcCommand (python : Python) (query toolName : String)
    (action params : Json) : Except AgentExn Unit :=
  if toolName ≠ "local_pc" then .ok ()
  else match parseCommand python.unicode query with
    | none => .ok ()
    | some command =>
        if command.toolName ≠ toolName || !isString command.action action ||
            !sameParams command.params params then
          .error (.toolError "The selected PC action does not match the explicit command.")
        else .ok ()

/-- One entry of `dict(...)` of a list: a pair, in any of the ways JSON can spell one. -/
def pairOf : Json → Except AgentExn (Json × Json)
  | .array [.array _, _] | .array [.object _, _] => .error (.other "TypeError")
  | .array [k, v] => .ok (k, v)
  | .object [(k, _), (v, _)] => .ok (.string k, .string v)
  | .string s =>
      match s.toList with
      | [k, v] => .ok (.string (String.ofList [k]), .string (String.ofList [v]))
      | _ => .error (.other "ValueError")
  | .array _ | .object _ => .error (.other "ValueError")
  | _ => .error (.other "TypeError")

def sameKey : Json → Json → Bool
  | .string a, .string b => a = b
  | .number a, .number b => a = b
  | .bool a, .bool b => a = b
  | .null, .null => true
  | _, _ => false

def Params.set (params : Params) (key value : Json) : Params :=
  if params.any (sameKey key ·.1) then
    params.map fun e => if sameKey key e.1 then (e.1, value) else e
  else params ++ [(key, value)]

/-- `dict(params)`. -/
def toDict : Json → Except AgentExn Params
  | .object fields => .ok (fields.map fun e => (.string e.1, e.2))
  | .array items => do
      let pairs ← items.mapM pairOf
      return pairs.foldl (fun params e => Params.set params e.1 e.2) []
  | .string s => if s.isEmpty then .ok [] else .error (.other "ValueError")
  | _ => .error (.other "TypeError")

def Params.get (params : Params) (key : String) : Json :=
  ((params.find? fun e => isString key e.1).map Prod.snd).getD .null

def targetKeys : List String :=
  ["app_name", "app", "name", "application", "target", "url", "program"]

/-- `str(value)`. -/
def Python.str (python : Python) : Json → String
  | .string s => s
  | value => python.repr value

/-- The search phrase of a natural-language request joins the parameters of `open_app`. -/
def addSearchPhrase (python : Python) (query toolName : String) (action : Json)
    (params : Params) : Params :=
  if toolName = "local_pc" && isString "open_app" action &&
      (parseCommand python.unicode query).isNone then
    let target := (((targetKeys.map params.get).find? truthy).map python.str).getD ""
    match webSearchPhrase python.unicode query target with
    | some phrase =>
        if phrase.isEmpty then params else params.set (.string "search_query") (.string phrase)
    | none => params
  else params

/-- The two keys a tool node may set. -/
inductive ToolOutcome
  | result (r : ToolResult)
  | error (message : String)

/-- What the `except` clauses of the node make of an exception. -/
def errorMessage : AgentExn → String
  | .toolError message | .authorizationDenied message => message
  | .other _ => "The requested tool failed unexpectedly. Please try again later."

/-- The body of the `try`. -/
def executeTool (python : Python) (tenantId query : String) (principal : Option Principal)
    (tool : Tool) (intent : Intent) : AgentAction ToolResult := do
  fromExcept (authorizeTool principal tenantId tool.name intent.action)
  fromExcept (validateExplicitPcCommand python query tool.name intent.action intent.params)
  let params ← fromExcept (toDict intent.params)
  call (.execute tool.name tenantId intent.action
    (addSearchPhrase python query tool.name intent.action params)) id

/-- The tool of an intent that names one. -/
def lookupTool (registry : ToolRegistry) (name : Json) : Except AgentExn (Option Tool) :=
  if truthy name then registry.get name else .ok none

def toolNode (python : Python) (registry : ToolRegistry) (tenantId query : String)
    (principal : Option Principal) (intent : Intent) : AgentAction ToolOutcome := do
  let tool ← fromExcept (lookupTool registry intent.toolName)
  match tool, intent.action with
  | none, _ => return .error ("Unknown tool " ++ python.repr intent.toolName ++ ".")
  | some _, .null =>
      return .error ("No action specified for tool " ++ python.repr intent.toolName ++ ".")
  | some tool, _ =>
      tryCatch
        (do
          let result ← executeTool python tenantId query principal tool intent
          return .result result)
        fun e => pure (.error (errorMessage e))

/-! ### The graph -/

structure FinalState where
  intent : Intent
  outcome : Option ToolOutcome

/-- One run of the graph; an unknown route has no edge. -/
def runGraph (python : Python) (registry : ToolRegistry) (tenantId query : String)
    (principal : Option Principal) : AgentAction FinalState := do
  let intent ← classifyNode python registry query principal
  match intent.kind with
  | "tool" =>
      let outcome ← toolNode python registry tenantId query principal intent
      return ⟨intent, some outcome⟩
  | "rag" | "conversational" => return ⟨intent, none⟩
  | _ => throw (.other "KeyError")

/-- `route_message`. -/
def routeMessage (python : Python) (registry : ToolRegistry) (tenantId query : String)
    (principal : Option Principal) : AgentAction FinalState :=
  if principal.any (·.tenantId ≠ tenantId) then
    throw (.authorizationDenied "Principal tenant does not match the requested tenant")
  else runGraph python registry tenantId query principal

end Ally.Agent
