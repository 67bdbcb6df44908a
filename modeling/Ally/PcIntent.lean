import Ally.Text
import Ally.Bridge

/-!
# Natural-language PC requests

`infer_local_pc_intent` and `web_search_phrase`. Their patterns only ask whether there
is a match, so a pattern is matched by the list of places where it may end.
-/

namespace Ally.Agent

open PCAgentBridge (Json)
open Text (Unicode)

inductive Pattern
  | literal (s : String)
  | one (p : Char → Bool)
  | many (p : Char → Bool)
  | optional (a : Pattern)
  | seq (a b : Pattern)
  | alt (a b : Pattern)
  | boundary

namespace Pattern

/-- A place in the text: the character before it and what follows. -/
abbrev Place := Option Char × List Char

def manyEnds (p : Char → Bool) : Option Char → List Char → List Place
  | before, [] => [(before, [])]
  | before, c :: s => (before, c :: s) :: if p c then manyEnds p (some c) s else []

def literalEnds : List Char → Option Char → List Char → List Place
  | [], before, s => [(before, s)]
  | c :: word, _, c' :: s => if c = c' then literalEnds word (some c') s else []
  | _ :: _, _, [] => []

def wordBefore (unicode : Unicode) (before : Option Char) : Bool :=
  (before.map unicode.isWord).getD false

/-- The places where a match that starts here may end. -/
def ends (unicode : Unicode) : Pattern → Place → List Place
  | literal s, (before, rest) => literalEnds s.toList before rest
  | one p, (_, c :: s) => if p c then [(some c, s)] else []
  | one _, (_, []) => []
  | many p, (before, s) => manyEnds p before s
  | optional a, place => place :: a.ends unicode place
  | seq a b, place => (a.ends unicode place).flatMap (b.ends unicode)
  | alt a b, place => a.ends unicode place ++ b.ends unicode place
  | boundary, (before, s) =>
      if wordBefore unicode before ≠ wordBefore unicode s.head? then [(before, s)] else []

def searchFrom (unicode : Unicode) (a : Pattern) : Option Char → List Char → Bool
  | before, [] => !(a.ends unicode (before, [])).isEmpty
  | before, c :: s =>
      !(a.ends unicode (before, c :: s)).isEmpty || searchFrom unicode a (some c) s

/-- `re.search(pattern, s)` finds a match. -/
def search (unicode : Unicode) (a : Pattern) (s : List Char) : Bool :=
  searchFrom unicode a none s

def oneOf : List Pattern → Pattern
  | [] => one fun _ => false
  | [a] => a
  | a :: as => alt a (oneOf as)

def words (ws : List String) : Pattern := oneOf (ws.map literal)

/-- `\s+` between two words. -/
def spaced (a b : String) : Pattern :=
  seq (literal a) (seq (one Text.isSpace) (seq (many Text.isSpace) (literal b)))

/-- `\s*` between two words. -/
def joined (a b : String) : Pattern :=
  seq (literal a) (seq (many Text.isSpace) (literal b))

def bounded (a : Pattern) : Pattern := seq boundary (seq a boundary)

/-- `.*` -/
def anything : Pattern := many (· ≠ '\n')

end Pattern

open Pattern

/-- What a classifier decides; the fields of a model's answer may hold any JSON value. -/
structure Intent where
  kind : String
  toolName : Json
  action : Json
  params : Json

def openRequestFiller : List String :=
  ["about", "at", "browser", "can", "command", "for", "go", "in", "launch", "me", "open", "on",
    "page", "please", "pls", "run", "search", "shell", "show", "site", "start", "the", "to",
    "using", "visit", "website", "with", "you"]

def specificWebTargets : List String :=
  ["channel", "clip", "episode", "movie", "playlist", "song", "video"]

def webPlatforms : List String :=
  ["youtube", "tiktok", "twitch", "vimeo", "instagram", "facebook", "reddit", "google"]

def filesPattern : Pattern :=
  bounded (oneOf [seq (literal "file") (optional (literal "s")),
    seq (literal "folder") (optional (literal "s")), literal "directories"])

def accessPattern : Pattern := bounded (words ["can", "could", "able", "access", "see", "read"])

def machinePattern : Pattern :=
  bounded (oneOf [spaced "my" "pc", spaced "my" "computer", spaced "my" "machine",
    spaced "this" "pc"])

def movePattern : Pattern :=
  seq (bounded (words ["move", "put", "place"]))
    (seq anything (bounded (words ["mouse", "cursor"])))

def cornerPattern : Pattern :=
  bounded (oneOf [literal "corner", joined "right" "most", joined "left" "most"])

def requestPattern : Pattern :=
  bounded (oneOf [literal "open", literal "launch", literal "visit", spaced "go" "to",
    literal "play", literal "watch", literal "find", literal "search"])

def sitePattern : Pattern :=
  bounded (words ["site", "website", "browser", "channel", "video", "clip", "playlist"])

/-- `[\w-]+` followed by a top-level domain. -/
def addressPattern (unicode : Unicode) : Pattern :=
  let inName := fun c => unicode.isWord c || c = '-'
  oneOf [seq (literal "http") (seq (optional (literal "s")) (literal "://")), literal "www.",
    seq boundary (seq (one inName) (seq (many inName)
      (seq (literal ".") (seq (words ["com", "org", "net", "tv", "io"]) boundary))))]

/-- `web_search_phrase`, `None` as `none`. -/
def webSearchPhrase (unicode : Unicode) (query target : String) : Option String :=
  let inWord := fun c => unicode.isWord c || c = '@' || c = '-'
  let queryWords := Text.runsOf inWord (unicode.casefold query.toList)
  let targetWords := Text.runsOf inWord (unicode.casefold target.toList)
  let remaining := queryWords.filter fun word =>
    word ∉ targetWords && word ∉ openRequestFiller.map String.toList
  if remaining.any (· ∈ specificWebTargets.map String.toList) || 2 ≤ remaining.length then
    some (String.ofList (Text.strip query.toList))
  else none

def inferLocalPcIntent (unicode : Unicode) (query : String) : Option Intent :=
  let normalized := unicode.casefold query.toList
  let found := fun pattern => search unicode pattern normalized
  if found filesPattern && found accessPattern && found machinePattern then
    some ⟨"conversational", .null, .null, .object []⟩
  else if found movePattern && found cornerPattern then
    let horizontal := if found (bounded (literal "left")) then "left" else "right"
    let vertical := if found (bounded (words ["bottom", "lower"])) then "bottom" else "top"
    some ⟨"tool", .string "local_pc", .string "move_mouse_to_corner",
      .object [("corner", .string (vertical ++ "_" ++ horizontal))]⟩
  else if !found requestPattern then none
  else if !(found sitePattern || found (bounded (words webPlatforms)) ||
      found (addressPattern unicode)) then none
  else
    let platform := webPlatforms.find? fun name => Text.contains name.toList normalized
    let target := platform.getD (String.ofList (Text.strip query.toList))
    let searchParams := match webSearchPhrase unicode query target with
      | some phrase => if phrase.isEmpty then [] else [("search_query", Json.string phrase)]
      | none => []
    some ⟨"tool", .string "local_pc", .string "open_app",
      .object (("app_name", .string target) :: searchParams)⟩

end Ally.Agent
