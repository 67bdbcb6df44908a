import Ally.Companion

/-!
# The policy of PC actions

`validate_action`, which looks at the arguments of a command before anyone is asked to
approve it.
-/

namespace Ally.Companion

open Agent (truthy)
open PCAgentBridge (Json)
open Text (blank)

def maxTextChars : ℕ := 65536

/-- `_REQUIRED`. -/
def required : List (String × List String) :=
  [("open_app", []), ("list_windows", []), ("focus_window", ["title"]),
    ("close_window", ["title"]), ("read_file", ["path"]), ("write_file", ["path", "content"]),
    ("list_directory", ["path"]), ("run_command", ["command"]), ("move_mouse", ["x", "y"]),
    ("move_mouse_to_corner", ["corner"]), ("click", []), ("type_text", ["text"]),
    ("press_key", ["key"])]

/-- `_OPTIONAL`. -/
def optional : List (String × List String) :=
  [("open_app",
      ["app", "app_name", "name", "application", "target", "url", "program", "search_query"]),
    ("run_command", ["cwd", "timeout_seconds"]), ("click", ["button"]),
    ("move_mouse_to_corner", [])]

variable {F : Type} [PyFloat F]

def refuse (message : String) (condition : Bool) : Result Unit :=
  if condition then .error (.valueError message) else .ok ()

/-- One round of the loop over the arguments. -/
def checkArgument (F : Type) [PyFloat F] (key : String) (value : Json) : Result Unit :=
  if key = "x" ∨ key = "y" then
    refuse "Mouse coordinates must be bounded integers"
      !((int? value).any fun n => -100000 ≤ n && n ≤ 100000)
  else if key = "timeout_seconds" then
    match (number? value : Option (Number F)) with
    | none => .error (.valueError "Command timeout must be between 0 and 120 seconds")
    | some timeout => do
        let finite ← timeout.isFinite
        refuse "Command timeout must be between 0 and 120 seconds"
          (!finite || !timeout.within 0 120)
  else match value with
    | .string text => do
        refuse "Arguments must be bounded strings" (text.length > maxTextChars)
        refuse "Action argument must not be empty"
          (blank text && key ≠ "content" && key ≠ "text")
    | _ => .error (.valueError "Arguments must be bounded strings")

/-- `len(params[key])` and the like, for an argument that is a string by now. -/
def textOf (fields : List (String × Json)) (key : String) : Option String :=
  match fields.lookup key with
  | some (.string text) => some text
  | _ => none

def mouseButtons : List String := ["left", "right", "middle"]

def screenCorners : List String := ["top_left", "top_right", "bottom_left", "bottom_right"]

def checkAction (isAbsolute : String → Bool) (action : String) (fields : List (String × Json)) :
    Result Unit := do
  refuse "open_app requires an app or website name"
    (action = "open_app" && !fields.any fun e => truthy e.2)
  refuse "Shell command must be at most 8192 characters without NUL bytes"
    (action = "run_command" && (textOf fields "command").any fun command =>
      command.length > 8192 || command.toList.contains '\x00')
  refuse "Filesystem paths must be absolute"
    (["path", "cwd"].any fun key => (textOf fields key).any fun path => !isAbsolute path)
  refuse "Invalid mouse button"
    (action = "click" && !((textOf fields "button").getD "left" ∈ mouseButtons))
  refuse "Invalid screen corner"
    (action = "move_mouse_to_corner" && !(textOf fields "corner").any (· ∈ screenCorners))

def validateAction (F : Type) [PyFloat F] (isAbsolute : String → Bool) (action : String)
    (params : Json) : Result Unit :=
  match required.lookup action, params with
  | some needed, .object fields => do
      let allowed := needed ++ (optional.lookup action).getD []
      refuse "Missing or unsupported action arguments"
        (fields.any (fun e => e.1 ∉ allowed) || needed.any fun key => (fields.lookup key).isNone)
      fields.forM fun e => checkArgument F e.1 e.2
      checkAction isAbsolute action fields
  | _, _ => .error (.valueError "Invalid action or arguments")

end Ally.Companion
