import Ally.AppLauncher
import Ally.ShellRunner

/-!
# The local agent

The handlers of the thirteen actions, the execution audit, and `handle_command`.
-/

namespace Ally.Companion

open Agent (truthy)
open Interaction
open PCAgentBridge (Json)

variable {F : Type}

abbrev Details := List (String × Json)

/-! ### Execution audit -/

structure ExecutionAudit where
  executionId : String
  commandHash : String

def newAudit (host : Host) (command : String) : LocalAction F ExecutionAudit := do
  return ⟨← call .uuid4 id, host.sha256 command⟩

/-- `_append`; the record is durable once the `fsync` has returned. -/
def ExecutionAudit.append (audit : ExecutionAudit) (fields : AuditFields) :
    LocalAction F Unit := do
  let eventId ← call .uuid4 id
  let _ ← call .time id
  call .auditOpen id
  let written ← ExceptT.lift (ExceptT.run (do
    call (.auditWrite ⟨eventId, audit.executionId, audit.commandHash, fields⟩) id
    call .auditFlush id
    call .auditFsync id))
  -- The file is closed on every way out of the block.
  call .auditClose id
  fromExcept written

/-! ### Consent -/

structure LocalAgent (F : Type) where
  capabilities : List (String × Json)
  allowedFolders : List String
  appAliases : List (String × String)
  /-- An approver was given; otherwise the terminal is asked. -/
  approver : Bool
  deadline : Option F

section Clock

variable [PyFloat F]

/-- `_execution_allowed`. -/
def executionAllowed (deadline : Option F) : LocalAction F Bool := do
  if ← call .cancelIsSet id then return false
  else match deadline with
    | none => return true
    | some d => return decide ((← call .monotonic id) < d)

def disabledMessage (capability : String) : String :=
  "'" ++ capability ++ "' is disabled in this agent's local config.json."

/-- Whether the approver returned `True`. -/
def approval (agent : LocalAgent F) (action : String) (params : Json)
    (context : Option ApprovalContext) : LocalAction F Bool :=
  if agent.approver then do return isTrue (← call (.approve action params) id)
  else call (.approveLocally action params context) id

/-- The checks before anyone is asked. -/
def precheck (host : Host) (agent : LocalAgent F) (capability action : String) (params : Json) :
    LocalAction F Unit := do
  if !(agent.capabilities.lookup capability).any isTrue then
    throw (.capabilityDisabled (disabledMessage capability))
  else
    fromExcept (validateAction F host.isAbsolute action params)
    if ← executionAllowed agent.deadline then return ()
    else throw (.permissionError "Action expired or disconnected")

/-- `_require`. -/
def require' (host : Host) (agent : LocalAgent F) (capability action : String) (params : Json)
    (context : Option ApprovalContext) : LocalAction F Unit := do
  precheck host agent capability action params
  let approved ← approval agent action params context
  if approved then
    if ← executionAllowed agent.deadline then return ()
    else throw (.permissionError "Action was not approved on this device")
  else throw (.permissionError "Action was not approved on this device")

/-! ### open_apps -/

/-- `_APP_PARAM_KEYS`. -/
def appParamKeys : List String :=
  ["app", "app_name", "name", "application", "target", "url", "program"]

/-- The first truthy value under one of the keys. -/
def firstTruthy (fields : Details) : List String → Option Json
  | [] => none
  | key :: keys =>
      match fields.lookup key with
      | some value => if truthy value then some value else firstTruthy fields keys
      | none => firstTruthy fields keys

/-- `params.get(key)` where it is used only if it is truthy. -/
def truthyKey (fields : Details) (key : String) : Option Json :=
  (fields.lookup key).filter truthy

/-- The search branch of `open_app`. -/
def openBySearch (host : Host) (agent : LocalAgent F) (params : Json) (searchQuery : String) :
    LocalAction F Details := do
  precheck host agent "open_apps" "open_app" params
  match ← searchWeb host searchQuery with
  | none => throw (.valueError "Local web search found no result to suggest.")
  | some candidate => do
      require' host agent "open_apps" "open_app" params (some ⟨searchQuery, candidate⟩)
      openSearchResult host searchQuery candidate

/-- `search_query or needs_web_search(target, aliases)`. -/
def searchFirst (host : Host) (agent : LocalAgent F) (target : String)
    (searchQuery : Option Json) : LocalAction F Bool :=
  if searchQuery.isSome then return true else needsWebSearch host target agent.appAliases

def openApp (host : Host) (agent : LocalAgent F) (params : Json) : LocalAction F Details := do
  match params with
  | .object fields =>
      match firstTruthy fields appParamKeys with
      | none => throw (.valueError "open_app requires 'app' (an app or website name).")
      | some value =>
          let target := host.python.str value
          let searchQuery := truthyKey fields "search_query"
          if ← searchFirst host agent target searchQuery then
            openBySearch host agent params ((searchQuery.map host.python.str).getD target)
          else
            require' host agent "open_apps" "open_app" params none
            resolveAndLaunch host target agent.appAliases
  | _ => throw (.other "AttributeError")

def maxListEntries : ℕ := 200
def maxListChars : ℕ := 8192

/-- `_bounded_names`. -/
def boundedNames : List String → ℕ → ℕ → List String × Bool
  | [], _, _ => ([], false)
  | name :: names, entries, characters =>
      if maxListEntries ≤ entries ∨ maxListChars < characters + name.length then ([], true)
      else
        let rest := boundedNames names (entries + 1) (characters + name.length)
        (name :: rest.1, rest.2)

def jsonStrings (names : List String) : Json := .array (names.map .string)

/-- The import of an optional package. -/
def importing (e : LocalAction F Unit) (message : String) : LocalAction F Unit :=
  tryCatch e fun exn =>
    if exn = .other "ImportError" then throw (.runtimeError message) else throw exn

def windowsPackage (action : String) : String :=
  action ++ " requires the optional 'pygetwindow' package (pip install pygetwindow)."

def listWindows (host : Host) (agent : LocalAgent F) (params : Json) : LocalAction F Details := do
  require' host agent "open_apps" "list_windows" params none
  importing (call .importPygetwindow id) (windowsPackage "list_windows")
  let titles ← call .allWindowTitles id
  let (windows, truncated) := boundedNames (titles.filter (· ≠ "")) 0 0
  return [("windows", jsonStrings windows), ("truncated", .bool truncated)]

/-- What `focus_window` and `close_window` share; `act` is what is done to the window. -/
def withWindow (host : Host) (agent : LocalAgent F) (action done : String)
    (act : ℕ → LocalAction F Unit) (params : Json) : LocalAction F Details := do
  require' host agent "open_apps" action params none
  let value := (← fromExcept (getKey params "title")).getD .null
  if !truthy value then throw (.valueError (action ++ " requires 'title'."))
  else
    importing (call .importPygetwindow id) (windowsPackage action)
    let title ← fromExcept (asString value)
    match ← call (.windowsWithTitle title) id with
    | [] => throw (.valueError ("No window matching " ++ host.python.repr value ++ " found."))
    | window :: _ => do
        act window
        return [(done, .string (← call (.windowTitle window) id))]

def focusWindow (host : Host) (agent : LocalAgent F) : Json → LocalAction F Details :=
  withWindow host agent "focus_window" "focused" fun window => call (.activateWindow window) id

def closeWindow (host : Host) (agent : LocalAgent F) : Json → LocalAction F Details :=
  withWindow host agent "close_window" "closed" fun window => call (.closeWindow window) id

/-! ### file_rw -/

/-- `path == folder` for two paths. -/
def samePath (host : Host) (p q : Path) : Bool :=
  host.normcase p.anchor = host.normcase q.anchor &&
    p.parts.map host.normcase = q.parts.map host.normcase

/-- `path.parents`. -/
def Path.parents (p : Path) : List Path :=
  (List.range p.parts.length).reverse.map fun k => ⟨p.anchor, p.parts.take k⟩

/-- The loop of `_resolve_allowed_path`. -/
def findFolder (host : Host) (resolved : Path) : List String → LocalAction F Bool
  | [] => return false
  | folder :: folders => do
      let folderResolved ← call (.resolve folder) id
      if samePath host resolved folderResolved ||
          resolved.parents.any (samePath host folderResolved) then return true
      else findFolder host resolved folders

/-- `_resolve_allowed_path`. -/
def resolveAllowedPath (host : Host) (rawPath : String) (allowedFolders : List String) :
    LocalAction F Path := do
  let resolved ← call (.resolve rawPath) id
  if ← findFolder host resolved allowedFolders then return resolved
  else throw (.valueError (host.python.repr (.string rawPath) ++
    " is not inside any allowed folder. Allowed: " ++
    host.python.repr (jsonStrings allowedFolders)))

/-- How each handler of `file_rw` begins. -/
def withPath (host : Host) (agent : LocalAgent F) (action : String)
    (act : Path → Json → LocalAction F Details) (params : Json) : LocalAction F Details := do
  require' host agent "file_rw" action params none
  let raw ← fromExcept ((getKey params "path").bind fun path => asString (path.getD (.string "")))
  let path ← resolveAllowedPath host raw agent.allowedFolders
  act path params

def maxFileChars : ℕ := 8192

def readFile (host : Host) (agent : LocalAgent F) : Json → LocalAction F Details :=
  withPath host agent "read_file" fun path _ => do
    call (.openText path) id
    let content := (← call (.readText path (maxFileChars + 1)) id).toList
    return [("path", .string (host.pathText path)),
      ("content", .string (String.ofList (content.take maxFileChars))),
      ("truncated", .bool (decide (maxFileChars < content.length)))]

def writeFile (host : Host) (agent : LocalAgent F) : Json → LocalAction F Details :=
  withPath host agent "write_file" fun path params => do
    let content ← fromExcept
      ((getKey params "content").bind fun content => asString (content.getD (.string "")))
    call (.writeText path content) id
    return [("path", .string (host.pathText path)), ("bytes_written", jsonOfNat content.utf8ByteSize)]

def listDirectory (host : Host) (agent : LocalAgent F) : Json → LocalAction F Details :=
  withPath host agent "list_directory" fun path _ => do
    let (names, truncated) := boundedNames (← call (.scandir path) id) 0 0
    return [("path", .string (host.pathText path)),
      ("entries", jsonStrings (names.mergeSort fun a b => decide (a ≤ b))),
      ("truncated", .bool truncated)]

/-! ### shell_exec -/

/-- Whether the record was written; `except OSError`. -/
def recorded (p : LocalAction F Unit) : LocalAction F Bool :=
  tryCatch (do p; return true) fun exn => if exn.isOSError then pure false else throw exn

def optionalNat (n : Option ℕ) : Json := (n.map jsonOfNat).getD .null

/-- `asdict(result)`. -/
def ShellResult.asdict (r : ShellResult) : Details :=
  [("outcome", .string r.outcome.text), ("returncode", optionalNat r.returncode),
    ("stdout", .string r.stdout), ("stderr", .string r.stderr),
    ("stdout_bytes_observed", jsonOfNat r.stdoutBytesObserved),
    ("stderr_bytes_observed", jsonOfNat r.stderrBytesObserved),
    ("truncated", .bool r.truncated), ("started", .bool r.started),
    ("cleanup_confirmed", .bool r.cleanupConfirmed), ("duration_ms", jsonOfInt r.durationMs),
    ("error_code", (r.errorCode.map jsonOfInt).getD .null)]

def commandDetails (audit : ExecutionAudit) (result : ShellResult) (auditRecorded : Bool) :
    Details :=
  result.asdict ++ [("execution_id", .string audit.executionId),
    ("effect_outcome", .string (if result.started then "not_verified" else "not_started")),
    ("audit_recorded", .bool auditRecorded)]

/-- `run_command` once it was approved on the device. -/
def runApproved (host : Host) (fuel : ℕ) (deadline : Option F) (command : String)
    (cwd timeout : Json) : LocalAction F Details := do
  let audit ← newAudit host command
  audit.append .approved
  let result ← ExceptT.lift
    (runShell host fuel command cwd timeout deadline maxOutputBytesLimit).run
  match result with
  | .error exn => do
      let _ ← recorded (audit.append .unknown)
      throw exn
  | .ok result => do
      let auditRecorded ← recorded (audit.append (.finished result))
      return commandDetails audit result auditRecorded

def runCommand (host : Host) (fuel : ℕ) (agent : LocalAgent F) (params : Json) :
    LocalAction F Details := do
  require' host agent "shell_exec" "run_command" params none
  let command := (← fromExcept (getKey params "command")).getD .null
  if !truthy command then throw (.valueError "run_command requires 'command'.")
  else
    let command ← fromExcept (asString command)
    let cwd := (← fromExcept (getKey params "cwd")).getD .null
    let timeout := (← fromExcept (getKey params "timeout_seconds")).getD (.number "30")
    runApproved host fuel agent.deadline command cwd timeout

/-! ### mouse_keyboard_control -/

/-- How each handler of `mouse_keyboard_control` begins. -/
def withPyautogui (host : Host) (agent : LocalAgent F) (action : String)
    (act : Json → LocalAction F Details) (params : Json) : LocalAction F Details := do
  require' host agent "mouse_keyboard_control" action params none
  importing (call .importPyautogui id) ("mouse/keyboard actions require the optional " ++
    "'pyautogui' package (pip install pyautogui).")
  act params

/-- `value is None`. -/
def isNone : Json → Bool
  | .null => true
  | _ => false

def moveMouse (host : Host) (agent : LocalAgent F) : Json → LocalAction F Details :=
  withPyautogui host agent "move_mouse" fun params => do
    let x := (← fromExcept (getKey params "x")).getD .null
    let y := (← fromExcept (getKey params "y")).getD .null
    if isNone x || isNone y then throw (.valueError "move_mouse requires 'x' and 'y'.")
    else
      call (.moveTo x y) id
      return [("x", x), ("y", y)]

def moveMouseToCorner (host : Host) (agent : LocalAgent F) : Json → LocalAction F Details :=
  withPyautogui host agent "move_mouse_to_corner" fun params => do
    match ← fromExcept (getKey params "corner") with
    | none => throw (.other "KeyError")
    | some value => do
        let (width, height) ← call .screenSize id
        let corner ← fromExcept (asString value)
        let x := jsonOfInt (if "right".toList.isSuffixOf corner.toList then width - 1 else 0)
        let y := jsonOfInt (if "bottom".toList.isPrefixOf corner.toList then height - 1 else 0)
        call (.moveTo x y) id
        return [("corner", .string corner), ("x", x), ("y", y)]

def click (host : Host) (agent : LocalAgent F) : Json → LocalAction F Details :=
  withPyautogui host agent "click" fun params => do
    let button := (← fromExcept (getKey params "button")).getD (.string "left")
    call (.clickButton button) id
    return [("button", button)]

def typeText (host : Host) (agent : LocalAgent F) : Json → LocalAction F Details :=
  withPyautogui host agent "type_text" fun params => do
    let text ← fromExcept
      ((getKey params "text").bind fun text => asString (text.getD (.string "")))
    call (.typewrite text) id
    return [("characters_typed", jsonOfNat text.length)]

def pressKey (host : Host) (agent : LocalAgent F) : Json → LocalAction F Details :=
  withPyautogui host agent "press_key" fun params => do
    let key := (← fromExcept (getKey params "key")).getD .null
    if !truthy key then throw (.valueError "press_key requires 'key'.")
    else
      let name ← fromExcept (asString key)
      call (.press name) id
      return [("key", key)]

/-! ### Dispatch -/

inductive PcAction
  | openApp
  | listWindows
  | focusWindow
  | closeWindow
  | readFile
  | writeFile
  | listDirectory
  | runCommand
  | moveMouse
  | moveMouseToCorner
  | click
  | typeText
  | pressKey
  deriving DecidableEq, Repr

/-- The keys of `_HANDLERS`. -/
def PcAction.text : PcAction → String
  | .openApp => "open_app"
  | .listWindows => "list_windows"
  | .focusWindow => "focus_window"
  | .closeWindow => "close_window"
  | .readFile => "read_file"
  | .writeFile => "write_file"
  | .listDirectory => "list_directory"
  | .runCommand => "run_command"
  | .moveMouse => "move_mouse"
  | .moveMouseToCorner => "move_mouse_to_corner"
  | .click => "click"
  | .typeText => "type_text"
  | .pressKey => "press_key"

def PcAction.all : List PcAction :=
  [.openApp, .listWindows, .focusWindow, .closeWindow, .readFile, .writeFile, .listDirectory,
    .runCommand, .moveMouse, .moveMouseToCorner, .click, .typeText, .pressKey]

/-- `getattr(agent, _HANDLERS[action])`. -/
def handlerOf (host : Host) (fuel : ℕ) (agent : LocalAgent F) :
    PcAction → Json → LocalAction F Details
  | .openApp => openApp host agent
  | .listWindows => listWindows host agent
  | .focusWindow => focusWindow host agent
  | .closeWindow => closeWindow host agent
  | .readFile => readFile host agent
  | .writeFile => writeFile host agent
  | .listDirectory => listDirectory host agent
  | .runCommand => runCommand host fuel agent
  | .moveMouse => moveMouse host agent
  | .moveMouseToCorner => moveMouseToCorner host agent
  | .click => click host agent
  | .typeText => typeText host agent
  | .pressKey => pressKey host agent

/-- `_HANDLERS.get(action)`; a list or a dict is no key. -/
def findHandler (host : Host) : Json → Result PcAction
  | .string name =>
      match PcAction.all.find? (·.text = name) with
      | some action => .ok action
      | none => .error (.valueError
          ("Unknown action " ++ host.python.repr (.string name) ++ "."))
  | .array _ | .object _ => .error (.other "TypeError")
  | action => .error (.valueError ("Unknown action " ++ host.python.repr action ++ "."))

/-- The deadline of a command. -/
def commandDeadline (agent : LocalAgent F) (expiresAt : Option Json) :
    LocalAction F (Option F) := do
  match expiresAt with
  | none => return agent.deadline
  | some value =>
      match (number? value : Option (Number F)) with
      | none => throw (.valueError "Invalid command expiration")
      | some n => do
          if !(← fromExcept n.isFinite) then throw (.valueError "Invalid command expiration")
          else
            let expires ← fromExcept n.toFloat
            let now ← call .monotonic id
            let left := expires - (← call .time id)
            return some (now + if left < ((120 : ℤ) : F) then left else ((120 : ℤ) : F))

def handleCommand (host : Host) (fuel : ℕ) (agent : LocalAgent F) (action params : Json)
    (expiresAt : Option Json) : LocalAction F Details := do
  let handler ← fromExcept (findHandler host action)
  let deadline ← commandDeadline agent expiresAt
  handlerOf host fuel { agent with deadline } handler params

end Clock

end Ally.Companion
