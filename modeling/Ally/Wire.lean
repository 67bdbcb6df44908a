import Ally.Companion
import Ally.Json

/-!
# Decoded values as text

The values of the bridge and of the companion, written by `json.dumps` and read by
`json.loads`.
-/

namespace Ally.PCAgentBridge

open Companion (intOfLiteral)

variable {F : Type} (fl : Json.Floats F)

/-- The number a literal spells; one that is too large for a float is infinite. -/
def numberValue (literal : String) : Json.Value F :=
  match intOfLiteral literal with
  | some n => .int n
  | none =>
      match fl.parse literal.toList with
      | some x => .float x
      | none =>
          if literal = "NaN" then .nonFinite .nan
          else if literal.toList.head? = some '-' then .nonFinite .negInfinity
          else .nonFinite .infinity

mutual
def Json.value : Json → Json.Value F
  | .null => .null
  | .bool b => .bool b
  | .number literal => numberValue fl literal
  | .string s => .string s.toList
  | .array items => .list (valueItems items)
  | .object fields => .dict (valueFields fields)

def valueItems : List Json → List (Json.Value F)
  | [] => []
  | v :: vs => v.value :: valueItems vs

def valueFields : List (String × Json) → List (List Char × Json.Value F)
  | [] => []
  | (key, v) :: fields => (key.toList, v.value) :: valueFields fields
end

/-- `json.dumps(v, ensure_ascii=False)`; `none` is its `ValueError`. -/
def dumps (v : Json) : Option (List Char) := Json.joinChunks (Json.chunks fl (v.value fl))

/-! ### Decoding -/

inductive DecodeError
  /-- `JSONDecodeError`, or the `ValueError` of an integer with too many digits. -/
  | valueError
  | recursionError
  deriving DecidableEq, Repr

/-- `json.loads` on a text. How deep a value may be is the interpreter's to say. -/
abbrev Decoder := String → Except DecodeError Json

mutual
def ofValue : Json.Value F → Json
  | .null => .null
  | .bool b => .bool b
  | .int n => .number (Int.repr n)
  | .float x => .number (String.ofList (fl.repr x))
  | .nonFinite x => .number (String.ofList x.text)
  | .string s => .string (String.ofList s)
  | .list items => .array (ofItems items)
  | .dict entries => .object (ofEntries entries)

def ofItems : List (Json.Value F) → List Json
  | [] => []
  | v :: vs => ofValue v :: ofItems vs

def ofEntries : List (List Char × Json.Value F) → List (String × Json)
  | [] => []
  | (key, v) :: entries => (String.ofList key, ofValue v) :: ofEntries entries
end

/-- The decoder of an interpreter that never runs out of stack. -/
def loads : Decoder := fun raw =>
  match Json.loads fl raw.toList with
  | some v => .ok (ofValue fl v)
  | none => .error .valueError

end Ally.PCAgentBridge
