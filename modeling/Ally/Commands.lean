import Ally.Text
import Mathlib.Tactic

/-!
# Slash commands

`parse_command` with its two patterns as scanners over code points.
-/

namespace Ally.Commands

open Text (Unicode)

structure ParsedCommand where
  toolName : String
  action : String
  params : List (String × String)
  deriving DecidableEq, Repr

/-- `d[k] = v` on the entries of a dict. -/
def assign {β : Type} (d : List (String × β)) (k : String) (v : β) : List (String × β) :=
  if d.any (·.1 = k) then d.map fun e => if e.1 = k then (k, v) else e else d ++ [(k, v)]

def isIdentStart (c : Char) : Bool := c.isAlpha || c = '_'

def isIdentChar (c : Char) : Bool := c.isAlphanum || c = '_'

/-- The longest identifier at the front, and the rest. -/
def identifier (s : List Char) : Option (List Char × List Char) :=
  match s with
  | c :: _ => if isIdentStart c then some (s.takeWhile isIdentChar, s.dropWhile isIdentChar) else none
  | [] => none

/-- `_COMMAND_RE` on the stripped text: tool, action and rest. -/
def commandParts (s : List Char) : Option (List Char × List Char × List Char) :=
  match s with
  | '/' :: s =>
      match identifier s with
      | some (tool, '.' :: s) =>
          (identifier s).map fun (action, s) => (tool, action, s.dropWhile Text.isSpace)
      | _ => none
  | _ => none

/-- The rest of a quoted value behind its opening quote, up to the closing one. A
backslash takes the next character with it, unless that is a newline. -/
def quotedRest : List Char → Option (List Char × List Char)
  | [] => none
  | '"' :: s => some (['"'], s)
  | ['\\'] => none
  | '\\' :: c :: s =>
      if c = '\n' then none
      else (quotedRest s).map fun (value, rest) => ('\\' :: c :: value, rest)
  | c :: s => (quotedRest s).map fun (value, rest) => (c :: value, rest)

/-- A run of characters that are no white space. -/
def bareValue (s : List Char) : Option (List Char × List Char) :=
  let value := s.takeWhile fun c => !Text.isSpace c
  if value.isEmpty then none else some (value, s.drop value.length)

/-- The value of a `key=value` fragment, as the pattern captures it. -/
def rawValue (s : List Char) : Option (List Char × List Char) :=
  match s with
  | '"' :: rest =>
      match quotedRest rest with
      | some (value, rest) => some ('"' :: value, rest)
      | none => bareValue s
  | _ => bareValue s

/-- `_KV_RE` at the front of the text. -/
def keyValue (unicode : Unicode) (s : List Char) :
    Option ((List Char × List Char) × List Char) :=
  let key := s.takeWhile unicode.isWord
  if key.isEmpty then none
  else match s.drop key.length with
    | '=' :: rest => (rawValue rest).map fun (value, rest) => ((key, value), rest)
    | _ => none

/-- `_KV_RE.findall`, with the length of the text as fuel. -/
def findKeyValues (unicode : Unicode) : ℕ → List Char → List (List Char × List Char)
  | 0, _ => []
  | _, [] => []
  | fuel + 1, c :: s =>
      match keyValue unicode (c :: s) with
      | some (found, rest) => found :: findKeyValues unicode fuel rest
      | none => findKeyValues unicode fuel s

/-- `value.replace('\\"', '"')`. -/
def unescape : List Char → List Char
  | '\\' :: '"' :: s => '"' :: unescape s
  | c :: s => c :: unescape s
  | [] => []

/-- A value in quotes loses them and its escapes. -/
def paramValue (value : List Char) : List Char :=
  if value.head? = some '"' && value.getLast? = some '"' then unescape (value.drop 1).dropLast
  else value

def parseCommand (unicode : Unicode) (text : String) : Option ParsedCommand :=
  (commandParts (Text.strip text.toList)).map fun (tool, action, rest) =>
    { toolName := String.ofList (tool.map Char.toLower)
      action := String.ofList (action.map Char.toLower)
      params := (findKeyValues unicode rest.length rest).foldl
        (fun params (key, value) =>
          assign params (String.ofList key) (String.ofList (paramValue value))) [] }

end Ally.Commands
