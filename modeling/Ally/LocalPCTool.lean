import Ally.LocalAgent

/-!
# The local PC tool

`LocalPCTool.execute`, the server's side of a PC action: it normalises the numbers of a
command, sends it over the bridge and reports what came back.
-/

namespace Ally.Companion

open Agent (Params Python ToolResult isString truthy)
open Interaction
open PCAgentBridge (BridgeError Json Message)

/-- `_ACTION_CAPABILITY`. -/
def PcAction.capability : PcAction → String
  | .openApp | .listWindows | .focusWindow | .closeWindow => "open_apps"
  | .readFile | .writeFile | .listDirectory => "file_rw"
  | .runCommand => "shell_exec"
  | .moveMouse | .moveMouseToCorner | .click | .typeText | .pressKey => "mouse_keyboard_control"

/-- How the texts of numbers are read and written. -/
structure NumberTexts (F : Type) where
  /-- `int(text)`. -/
  intOfText : String → Option ℤ
  /-- `float(text)`. -/
  floatOfText : String → Option F
  /-- The JSON literal of a float. -/
  floatLiteral : F → String

inductive BridgeCall
  | sendCommand (tenantId capability action : String) (params : Params)

@[reducible] def BridgeCall.Answer : BridgeCall → Type
  | .sendCommand .. => Except BridgeError Message

abbrev ToolAction := Action BridgeCall BridgeCall.Answer AgentExn

/-- `_ACTION_CAPABILITY.get(action)`; a list or a dict is no key. -/
def findAction (python : Python) (action : Json) : Except AgentExn PcAction :=
  let unknown := AgentExn.toolError ("Unknown local PC action " ++ python.repr action ++
    ". Known actions: " ++ python.repr (jsonStrings (PcAction.all.map PcAction.text)))
  match action with
  | .string name =>
      match PcAction.all.find? (·.text = name) with
      | some found => .ok found
      | none => .error unknown
  | .array _ | .object _ => .error (.other "TypeError")
  | _ => .error unknown

def invalidNumber : AgentExn := .toolError "Invalid numeric PC action arguments."

section Numbers

variable {F : Type} [PyFloat F] (texts : NumberTexts F)

omit [PyFloat F] in
def normalizeCoordinate (params : Params) (key : String) : Except AgentExn Params :=
  match params.get key with
  | .number literal =>
      if (intOfLiteral literal).isSome then .ok params else .error invalidNumber
  | .string text =>
      match texts.intOfText text with
      | some n => .ok (params.set (.string key) (jsonOfInt n))
      | none => .error invalidNumber
  | _ => .error invalidNumber

/-- `float(value)`; an overflow is not caught. -/
def timeoutOf (value : Json) : Except AgentExn F :=
  match value with
  | .string text =>
      match texts.floatOfText text with
      | some x => .ok x
      | none => .error invalidNumber
  | value =>
      match (number? value : Option (Number F)) with
      | some n =>
          match n.toFloat with
          | .ok x => .ok x
          | .error _ => .error (.other "OverflowError")
      | none => .error invalidNumber

def normalizeTimeout (params : Params) : Except AgentExn Params := do
  let timeout ← timeoutOf texts (params.get "timeout_seconds")
  if !PyFloat.isFinite timeout || !(Number.float timeout).within 0 120 then .error invalidNumber
  else return params.set (.string "timeout_seconds") (.number (texts.floatLiteral timeout))

def normalizeNumbers (action : PcAction) (params : Params) : Except AgentExn Params := do
  let params ← if action = .moveMouse then
      (do normalizeCoordinate texts (← normalizeCoordinate texts params "x") "y")
    else .ok params
  if action = .runCommand && params.any (fun e => isString "timeout_seconds" e.1) then
    normalizeTimeout texts params
  else return params

end Numbers

/-- `details.get(key)`. -/
def detail (details : Message) (key : String) : Json := (details.lookup key).getD .null

/-- `len(value)`. -/
def lengthOf : Json → Except AgentExn ℕ
  | .array items => .ok items.length
  | .object fields => .ok fields.length
  | .string s => .ok s.length
  | _ => .error (.other "TypeError")

/-- A parameter as it reads in a sentence. -/
def paramText (python : Python) (params : Params) (key default : String) : String :=
  if params.any (fun e => isString key e.1) then python.str (params.get key) else default

/-- The words for each outcome that is no exit. -/
def outcomeLabels : List (String × String) :=
  [("timed_out", "timed out"), ("cancelled", "was cancelled"),
    ("output_limit", "reached its output limit"), ("startup_failed", "could not start"),
    ("runtime_error", "encountered an execution error")]

def summarizeCommand (python : Python) (details : Message) : String :=
  let outcome := match detail details "outcome" with
    | .string s => s
    | _ => ""
  let summary :=
    if outcome = "exited" && (int? (detail details "returncode")).isSome then
      "Shell exited with code " ++ python.str (detail details "returncode") ++
        "; requested effects are unverified."
    else "Shell " ++ (outcomeLabels.lookup outcome).getD "status is unknown" ++
      "; effects may be partial. Inspect the device before retrying."
  let summary :=
    if isTrue (detail details "cleanup_confirmed") then summary
    else summary ++ " Child-process cleanup is unconfirmed."
  if isTrue (detail details "audit_recorded") then summary
  else summary ++ " Terminal audit is missing."

/-- `_summarize`. -/
def summarize (python : Python) (action : PcAction) (params : Params) (details : Message) :
    Except AgentExn String :=
  match action with
  | .openApp =>
      if isString "web_search" (detail details "method") then
        let text := fun key default => python.str ((details.lookup key).getD (.string default))
        .ok ("Opened search result: " ++ text "title" "website" ++ " (" ++
          text "launched" "URL unavailable" ++ ")")
      else .ok ("Opened " ++ paramText python params "app_name" "the application")
  | .runCommand => .ok (summarizeCommand python details)
  | .readFile => .ok ("Read " ++ paramText python params "path" "the file")
  | .writeFile => .ok ("Wrote to " ++ paramText python params "path" "the file")
  | .listDirectory => do
      let count ← lengthOf ((details.lookup "entries").getD (.array []))
      return "Listed " ++ paramText python params "path" "the directory" ++ " (" ++
        toString count ++ " entries)"
  | .listWindows => do
      let count ← lengthOf ((details.lookup "windows").getD (.array []))
      return "Found " ++ toString count ++ " open window(s)"
  | action => .ok ("Completed " ++ action.text)

/-- Whether the result of a command is a success. -/
def commandSucceeded (details : Message) : Bool :=
  isString "exited" (detail details "outcome") && int? (detail details "returncode") = some 0 &&
    isTrue (detail details "cleanup_confirmed") && isTrue (detail details "audit_recorded")

/-- What the tool makes of the details that came back. -/
def report (python : Python) (action : PcAction) (params : Params) (details : Message) :
    Except AgentExn ToolResult := do
  let summary ← summarize python action params details
  let summary :=
    if isTrue (detail details "truncated") then summary ++ " [partial result: output limit reached]"
    else summary
  return ⟨action ≠ .runCommand || commandSucceeded details, summary, details⟩

/-- `except PCAgentError`. -/
def bridgeFailure : BridgeError → AgentExn
  | .pcAgentError message => .toolError message
  | .valueError _ => .other "ValueError"
  | .cancelled => .other "CancelledError"

/-- `LocalPCTool.execute`. -/
def executeLocalPc {F : Type} [PyFloat F] (texts : NumberTexts F) (python : Python)
    (tenantId : String) (action : Json) (params : Params) : ToolAction ToolResult := do
  let found ← fromExcept (findAction python action)
  let params ← fromExcept (normalizeNumbers texts found params)
  let details ← call (.sendCommand tenantId found.capability found.text params)
    fun answer => answer.mapError bridgeFailure
  fromExcept (report python found params details)

end Ally.Companion
