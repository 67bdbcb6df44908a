import Ally.AgentGraph

/-!
# The companion's machine

What the local agent asks of the PC it runs on: clocks, the person at the terminal,
files, windows, programs, the Windows kernel and the audit log. Every answer may be an
exception instead.
-/

namespace Ally.Companion

open Agent (Python)
open Interaction
open PCAgentBridge (Json Message)

/-! ### Values -/

/-- The float operations of the companion. Nothing depends on their laws. -/
class PyFloat (F : Type) extends Add F, Sub F, Mul F, IntCast F, LT F, LE F where
  decLT : DecidableLT F
  decLE : DecidableLE F
  isFinite : F → Bool
  /-- `float(n)` does not overflow. -/
  holds : ℤ → Bool
  ofLiteral : String → F
  /-- `int(x)`. -/
  truncate : F → ℤ

attribute [reducible, instance] PyFloat.decLT PyFloat.decLE

/-- Exact arithmetic, with no literal but zero. -/
instance : PyFloat ℚ where
  decLT := inferInstance
  decLE := inferInstance
  isFinite _ := true
  holds _ := true
  ofLiteral _ := 0
  truncate x := x.num.tdiv x.den

inductive LocalExn
  | valueError (message : String)
  | permissionError (message : String)
  | capabilityDisabled (message : String)
  | runtimeError (message : String)
  | osError (errno : Option ℤ)
  /-- Any other `Exception`, by its class. -/
  | other (kind : String)
  /-- A `BaseException` that is no `Exception`. -/
  | base (kind : String)
  deriving DecidableEq, Repr

/-- `isinstance(exc, OSError)`. -/
def LocalExn.isOSError : LocalExn → Bool
  | .permissionError _ | .osError _ => true
  | _ => false

/-- `exc.errno`. -/
def LocalExn.errno : LocalExn → Option ℤ
  | .osError errno => errno
  | _ => none

/-- `isinstance(exc, Exception)`. -/
def LocalExn.isException : LocalExn → Bool
  | .base _ => false
  | _ => true

abbrev Result (α : Type) := Except LocalExn α

inductive Number (F : Type)
  | int (n : ℤ)
  | float (x : F)

def natOfDigits (digits : List Char) : Option ℕ :=
  if !digits.isEmpty && digits.all Char.isDigit then some (Nat.ofDigitChars 10 digits 0) else none

/-- The integer a JSON literal spells, if it spells one. -/
def intOfLiteral (literal : String) : Option ℤ :=
  match literal.toList with
  | '-' :: digits => (natOfDigits digits).map fun n => -(n : ℤ)
  | digits => (natOfDigits digits).map Int.ofNat

/-- `value` if `type(value) is int`. -/
def int? : Json → Option ℤ
  | .number literal => intOfLiteral literal
  | _ => none

def isTrue : Json → Bool
  | .bool true => true
  | _ => false

def jsonOfNat (n : ℕ) : Json := .number (Nat.repr n)

def jsonOfInt (n : ℤ) : Json := .number (Int.repr n)

section Numbers

variable {F : Type} [PyFloat F]

/-- `value` if `type(value) in (int, float)`. -/
def number? : Json → Option (Number F)
  | .number literal =>
      match intOfLiteral literal with
      | some n => some (.int n)
      | none => some (.float (PyFloat.ofLiteral literal))
  | _ => none

/-- `float(value)`. -/
def Number.toFloat : Number F → Result F
  | .int n => if PyFloat.holds F n then .ok (n : F) else .error (.other "OverflowError")
  | .float x => .ok x

/-- `math.isfinite(value)`. -/
def Number.isFinite (value : Number F) : Result Bool := do
  return PyFloat.isFinite (← value.toFloat)

/-- `low < value <= high`. -/
def Number.within (low high : ℤ) : Number F → Bool
  | .int n => low < n && n ≤ high
  | .float x => decide ((low : F) < x) && decide (x ≤ (high : F))

end Numbers

/-- `value.get(key)` of a decoded value. -/
def getKey (value : Json) (key : String) : Result (Option Json) :=
  match value with
  | .object fields => .ok (fields.lookup key)
  | _ => .error (.other "AttributeError")

/-- Where the code needs a string. -/
def asString : Json → Result String
  | .string s => .ok s
  | _ => .error (.other "TypeError")

/-! ### The host -/

/-- A resolved `pathlib.Path`. -/
structure Path where
  anchor : String
  parts : List String
  deriving DecidableEq, Repr

structure SplitUrl where
  scheme : String
  hostname : Option String
  path : String
  query : String
  username : Option String
  password : Option String

/-- What the code takes from the platform and from libraries without asking the machine. -/
structure Host where
  python : Python
  /-- `sys.platform == "win32"`. -/
  win32 : Bool
  /-- `os.name == "nt"`. -/
  nt : Bool
  hasStartfile : Bool
  /-- What opens a path where there is no `os.startfile`. -/
  opener : String
  /-- `Path(text).is_absolute()`. -/
  isAbsolute : String → Bool
  /-- `str(path)`. -/
  pathText : Path → String
  /-- How paths are compared. -/
  normcase : String → String
  urlsplit : String → Result SplitUrl
  /-- `parse_qs(query).get("uddg", [""])[0]`. -/
  uddg : String → String
  /-- `SequenceMatcher(None, a, b).ratio() >= 0.8`. -/
  similar : List Char → List Char → Bool
  /-- `difflib.get_close_matches(name, names, n=3, cutoff=0.5)`. -/
  closeMatches : String → List String → List String
  /-- The hexadecimal SHA-256 of a text in UTF-8. -/
  sha256 : String → String
  /-- `data.decode("utf-8", errors="replace")`. -/
  decode : List UInt8 → String

/-! ### Effects -/

structure StartApp where
  name : String
  appId : String
  deriving DecidableEq, Repr

inductive HtmlEvent
  | startTag (tag : String) (attrs : List (String × Option String))
  | data (text : String)
  | endTag (tag : String)

/-- A response body: its length as far as it was read, and what `HTMLParser` makes of it. -/
structure Page where
  bytes : ℕ
  events : List HtmlEvent

structure Candidate where
  title : String
  url : String
  deriving DecidableEq, Repr

structure ApprovalContext where
  query : String
  candidate : Candidate
  deriving DecidableEq, Repr

inductive Outcome
  | exited
  | timedOut
  | cancelled
  | outputLimit
  | startupFailed
  | runtimeError
  deriving DecidableEq, Repr

def Outcome.text : Outcome → String
  | .exited => "exited"
  | .timedOut => "timed_out"
  | .cancelled => "cancelled"
  | .outputLimit => "output_limit"
  | .startupFailed => "startup_failed"
  | .runtimeError => "runtime_error"

structure ShellResult where
  outcome : Outcome
  returncode : Option ℕ
  stdout : String
  stderr : String
  stdoutBytesObserved : ℕ
  stderrBytesObserved : ℕ
  truncated : Bool
  started : Bool
  cleanupConfirmed : Bool
  durationMs : ℤ
  errorCode : Option ℤ
  deriving DecidableEq, Repr

/-- The fields that tell the three kinds of audit record apart. -/
inductive AuditFields
  | approved
  | finished (result : ShellResult)
  | unknown
  deriving DecidableEq, Repr

structure AuditRecord where
  eventId : String
  executionId : String
  commandHash : String
  fields : AuditFields
  deriving DecidableEq, Repr

/-- The calls into `kernel32`; handles are numbers, a null or invalid one is `none`. -/
inductive KernelCall
  | load
  | lastError
  | createJobObject
  | setInformationJobObject (job : ℕ)
  | createPipe
  | setHandleInformation (handle : ℕ)
  | createFile
  | attributeListSize
  | initializeAttributeList
  | updateHandleList (handles : List ℕ)
  | updateJobList (job : ℕ)
  | getSystemDirectory
  | createProcess (executable commandLine : String) (cwd : Option String)
  | resumeThread (thread : ℕ)
  | waitForSingleObject (handle : ℕ)
  | getExitCodeProcess (process : ℕ)
  | peekNamedPipe (handle : ℕ)
  | readFile (handle size : ℕ)
  | queryJobMembers (job : ℕ)
  | openProcess (pid : ℕ)
  | isProcessInJob (handle job : ℕ)
  | terminateJobObject (job : ℕ)
  | queryJobAccounting (job : ℕ)

/-- What a kernel call returns, with the values it writes through its pointers. -/
@[reducible] def KernelCall.Answer : KernelCall → Type
  | .load => Unit
  | .lastError => ℤ
  | .createJobObject | .createFile | .openProcess _ => Option ℕ
  | .createPipe | .createProcess .. => Bool × Option ℕ × Option ℕ
  | .attributeListSize | .resumeThread _ | .waitForSingleObject _ => ℕ
  | .getSystemDirectory => ℕ × String
  | .getExitCodeProcess _ | .peekNamedPipe _ | .queryJobAccounting _ => Bool × ℕ
  | .readFile .. => Bool × List UInt8
  | .queryJobMembers _ => Bool × List ℕ
  | .isProcessInJob .. => Bool × Bool
  | .setInformationJobObject _ | .setHandleInformation _ | .initializeAttributeList
  | .updateHandleList _ | .updateJobList _ | .terminateJobObject _ => Bool

inductive Effect
  | cancelIsSet
  | cancelWait
  | monotonic
  | time
  | sleep
  /-- The approver the agent was built with. -/
  | approve (action : String) (params : Json)
  | approveLocally (action : String) (params : Json) (context : Option ApprovalContext)
  | pathExists (name : String)
  | which (name : String)
  | startAppsCache
  | setStartAppsCache (apps : List StartApp)
  /-- PowerShell's `Get-StartApps`, decoded. -/
  | getStartApps
  /-- The search request for a query. -/
  | urlopen (query : String)
  | webbrowserOpen (url : String)
  | startfile (path : String)
  | popen (args : List String)
  | importPygetwindow
  | allWindowTitles
  | windowsWithTitle (title : String)
  | windowTitle (window : ℕ)
  | activateWindow (window : ℕ)
  | closeWindow (window : ℕ)
  | resolve (path : String)
  | openText (path : Path)
  | readText (path : Path) (characters : ℕ)
  | writeText (path : Path) (content : String)
  | scandir (path : Path)
  | importPyautogui
  | screenSize
  | moveTo (x y : Json)
  | clickButton (button : Json)
  | typewrite (text : String)
  | press (key : String)
  | uuid4
  | auditOpen
  | auditWrite (record : AuditRecord)
  | auditFlush
  | auditFsync
  | auditClose
  | kernel (call : KernelCall)
  /-- A loop of the code goes on for longer than the model follows it. -/
  | beyond

variable {F : Type}

@[reducible] def Effect.Answer (F : Type) : Effect → Type
  | .cancelIsSet | .pathExists _ => Result Bool
  | .monotonic | .time => Result F
  | .approve .. | .getStartApps => Result Json
  | .approveLocally .. => Result Bool
  | .which _ => Result (Option String)
  | .startAppsCache => Result (Option (List StartApp))
  | .urlopen _ => Result Page
  | .allWindowTitles | .scandir _ => Result (List String)
  | .windowsWithTitle _ => Result (List ℕ)
  | .windowTitle _ | .readText .. | .uuid4 => Result String
  | .resolve _ => Result Path
  | .screenSize => Result (ℤ × ℤ)
  | .kernel call => Result call.Answer
  | .beyond => Empty
  | .cancelWait | .sleep | .setStartAppsCache _ | .webbrowserOpen _ | .startfile _ | .popen _
  | .importPygetwindow | .activateWindow _ | .closeWindow _ | .openText _ | .writeText ..
  | .importPyautogui | .moveTo .. | .clickButton _ | .typewrite _ | .press _ | .auditOpen
  | .auditWrite _ | .auditFlush | .auditFsync | .auditClose => Result Unit

abbrev LocalTrace (F : Type) := Trace (Effect.Answer F)

abbrev LocalAction (F : Type) := Action Effect (Effect.Answer F) LocalExn

/-- The model does not follow the program any further. -/
def beyond {α : Type} : LocalAction F α := call .beyond (fun e : Empty => nomatch e)

/-- What the `except Exception` clauses of the companion do. -/
def exceptException {α : Type} (body : LocalAction F α) (handle : LocalExn → LocalAction F α) :
    LocalAction F α :=
  tryCatch body fun exn => if exn.isException then handle exn else throw exn

end Ally.Companion
