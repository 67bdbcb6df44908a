import Ally.Companion

/-!
# Launching applications

`app_launcher`: how a name becomes something to open, and the local web search for a
name that is nothing known.
-/

namespace Ally.Companion

open Agent (Pattern)
open Agent.Pattern (bounded literal oneOf seq)
open Interaction
open PCAgentBridge (Json)
open Text (Unicode isSpace strip)

variable {F : Type}

/-! ### Text -/

/-- `s.strip(c)`. -/
def stripChar (c : Char) (s : List Char) : List Char :=
  (s.dropWhile (· = c)).rdropWhile (· = c)

/-- `s.split()`. -/
def words (s : List Char) : List (List Char) :=
  (s.splitOnP isSpace).filter fun word => !word.isEmpty

/-- `[a-z]` where case is ignored; four letters outside ASCII belong to it. -/
def isLetter (c : Char) : Bool :=
  c.isAlpha || c ∈ ['\u0130', '\u0131', '\u017f', '\u212a']

def isLabelChar (c : Char) : Bool := isLetter c || c.isDigit || c = '-'

/-- `_SCHEME_RE.match`. -/
def hasScheme (s : List Char) : Bool :=
  let secure := s.take 4 |>.map Char.toLower
  let rest := s.drop 4
  let rest := match rest with
    | 's' :: tail | 'S' :: tail | '\u017f' :: tail => tail
    | _ => rest
  secure = ['h', 't', 't', 'p'] && [':', '/', '/'].isPrefixOf rest

/-- What the host part of `_DOMAIN_RE` matches. -/
def isHost (host : List Char) : Bool :=
  let labels := host.splitOnP (· = '.')
  2 ≤ labels.length && labels.all (fun label => !label.isEmpty && label.all isLabelChar) &&
    (labels.getLast?.any fun label => 2 ≤ label.length && label.all isLetter)

/-- `_DOMAIN_RE.match`; the end of the pattern may stand before a last line break. -/
def isDomain (s : List Char) : Bool :=
  let body := if s.getLast? = some '\n' then s.dropLast else s
  isHost (body.takeWhile (· ≠ '/')) && !(body.dropWhile (· ≠ '/')).any isSpace

/-- `_FILE_EXTENSIONS`. -/
def fileExtensions : List String :=
  ["exe", "lnk", "bat", "cmd", "msc", "ps1", "msi", "txt", "md", "py", "json", "csv", "log",
    "pdf", "doc", "docx", "xls", "xlsx", "ppt", "pptx", "zip", "dll", "ini", "cfg", "yml",
    "yaml"]

def looksLikeUrl (text : List Char) : Bool :=
  if hasScheme text then true
  else if text.contains ' ' || !isDomain text then false
  else
    let host := text.takeWhile (· ≠ '/')
    let extension := ((host.splitOnP (· = '.')).getLast?.getD []).flatMap Text.lower
    String.ofList extension ∉ fileExtensions

def normalizeUrl (text : List Char) : String :=
  if hasScheme text then String.ofList text else "https://" ++ String.ofList text

/-- `re.search(rf"\b{re.escape(q)}\b", name)`. -/
def wholeWord (unicode : Unicode) (q name : List Char) : Bool :=
  Pattern.search unicode (bounded (literal (String.ofList q))) name

/-- `_NOT_AN_APP_RE`. -/
def notAnAppPattern : Pattern :=
  bounded (oneOf [Pattern.words ["runtime", "redistributable", "uninstall", "updater", "update",
    "setup", "installer", "helper"], seq (literal "webview") (.optional (literal "2"))])

/-! ### Names -/

/-- `WEB_ALIASES`. -/
def webAliases : List (String × String) :=
  [("youtube", "https://www.youtube.com"), ("gmail", "https://mail.google.com"),
    ("google", "https://www.google.com"), ("google drive", "https://drive.google.com"),
    ("drive", "https://drive.google.com"), ("google calendar", "https://calendar.google.com"),
    ("calendar", "https://calendar.google.com"), ("google maps", "https://maps.google.com"),
    ("github", "https://github.com"), ("linkedin", "https://www.linkedin.com"),
    ("reddit", "https://www.reddit.com"), ("stackoverflow", "https://stackoverflow.com"),
    ("stack overflow", "https://stackoverflow.com"), ("hugging face", "https://huggingface.co"),
    ("huggingface", "https://huggingface.co"), ("chatgpt", "https://chatgpt.com"),
    ("claude", "https://claude.ai"), ("twitter", "https://x.com"), ("x", "https://x.com"),
    ("facebook", "https://www.facebook.com"), ("netflix", "https://www.netflix.com")]

/-- `target.strip().strip('"').strip("'")`. -/
def launchName (target : String) : List Char :=
  stripChar '\'' (stripChar '"' (strip target.toList))

/-- The rank of a Start Menu name, before background components are moved back. -/
def baseRank (host : Host) (q name : List Char) (exactOnly : Bool) : Option ℕ :=
  if name = q then some 0
  else if exactOnly then none
  else if q.isPrefixOf name || wholeWord host.python.unicode q name then some 1
  else if Text.contains q name then some 3
  else if host.similar q name then some 4
  else none

def rankOf (host : Host) (q name : List Char) (exactOnly : Bool) : Option ℕ :=
  (baseRank host q name exactOnly).map fun rank =>
    if rank ≠ 0 && Pattern.search host.python.unicode notAnAppPattern name then rank + 10 else rank

/-- One round of the loop of `match_app`. -/
def betterApp (host : Host) (q : List Char) (exactOnly : Bool)
    (best : Option (ℕ × ℕ × StartApp)) (app : StartApp) : Option (ℕ × ℕ × StartApp) :=
  let name := host.python.unicode.casefold app.name.toList
  match rankOf host q name exactOnly with
  | none => best
  | some rank =>
      match best with
      | none => some (rank, name.length, app)
      | some (r, l, _) =>
          if rank < r ∨ rank = r ∧ name.length < l then some (rank, name.length, app) else best

def matchApp (host : Host) (query : List Char) (apps : List StartApp) (exactOnly : Bool) :
    Option StartApp :=
  let q := strip (host.python.unicode.casefold query)
  if q.isEmpty then none
  else (apps.foldl (betterApp host q exactOnly) none).map fun best => best.2.2

/-! ### The machine -/

/-- One item of the decoded `Get-StartApps`. -/
def startAppOf (host : Host) (item : Json) : Result (Option StartApp) := do
  let name ← getKey item "Name"
  let appId ← getKey item "AppID"
  match name, appId with
  | some name, some appId =>
      if Agent.truthy name && Agent.truthy appId then
        .ok (some ⟨host.python.str name, host.python.str appId⟩)
      else .ok none
  | _, _ => .ok none

/-- The items Python finds when it iterates over a decoded value. -/
def itemsOf : Json → Result (List Json)
  | .array items => .ok items
  | .object fields => .ok [.object fields]
  | .string s => .ok (s.toList.map fun c => .string (String.ofList [c]))
  | _ => .error (.other "TypeError")

/-- The exceptions `list_start_apps` catches. -/
def noStartApps (exn : LocalExn) : Bool :=
  exn.isOSError || exn = .other "SubprocessError" || exn = .valueError "JSONDecodeError"

def listStartApps (host : Host) : LocalAction F (List StartApp) := do
  match ← call .startAppsCache id with
  | some apps => return apps
  | none =>
      if !host.win32 then return []
      else
        let data ← tryCatch (do return some (← call .getStartApps id)) fun exn =>
          if noStartApps exn then pure none else throw exn
        match data with
        | none => return []
        | some data => do
            let items ← fromExcept (itemsOf data)
            let apps ← fromExcept (items.mapM (startAppOf host))
            call (.setStartAppsCache (apps.filterMap id)) id
            return apps.filterMap id

/-- `shutil.which(name)`, where an empty path is no hit. -/
def onPath (name : String) : LocalAction F (Option String) := do
  let found ← call (.which name) id
  return found.filter fun path => !path.isEmpty

def needsWebSearch (host : Host) (target : String) (aliases : List (String × String)) :
    LocalAction F Bool := do
  let name := launchName target
  let key := host.python.unicode.casefold name
  if name.isEmpty then return false
  else if aliases.any fun e => host.python.unicode.casefold e.1.toList = key then return false
  else if looksLikeUrl name then return false
  else if ← call (.pathExists (String.ofList name)) id then return false
  else if webAliases.any fun e => e.1 = String.ofList key then return false
  else if (← onPath (String.ofList name)).isSome then return false
  else
    let apps ← listStartApps host
    return (matchApp host name apps false).isNone

def openPath (host : Host) (path : String) : LocalAction F Unit :=
  if host.hasStartfile then call (.startfile path) id
  else call (.popen [host.opener, path]) id

def launchStartApp (app : StartApp) : LocalAction F Unit :=
  call (.popen ["explorer.exe", "shell:AppsFolder\\" ++ app.appId]) id

def launchExecutable (path : String) : LocalAction F Unit := call (.popen [path]) id

def launched (what method : String) : List (String × Json) :=
  [("launched", .string what), ("method", .string method)]

def launchAliasValue (host : Host) (value : String) : LocalAction F (List (String × Json)) := do
  if looksLikeUrl value.toList then
    call (.webbrowserOpen (normalizeUrl value.toList)) id
    return launched (normalizeUrl value.toList) "user_alias_url"
  else if ← call (.pathExists value) id then
    openPath host value
    return launched value "user_alias_path"
  else
    match ← onPath value with
    | some found => do
        launchExecutable found
        return launched found "user_alias_executable"
    | none => throw (.valueError ("Your app_aliases entry points to " ++
        host.python.repr (.string value) ++ ", which couldn't be launched."))

def notFound (host : Host) (name key : String) (apps : List StartApp) : String :=
  let close := host.closeMatches name (apps.map StartApp.name)
  let hint := if close.isEmpty then ""
    else " Closest installed apps: " ++ ", ".intercalate close ++ "."
  "Couldn't find an app or website called " ++ host.python.repr (.string name) ++ "." ++ hint ++
    " You can map it yourself in config.json, e.g. \"app_aliases\": \x7b\"" ++ key ++
    "\": \"C:\\\\path\\\\to\\\\app.exe\"\x7d."

/-- The last steps of `resolve_and_launch`, from the Start Menu on. -/
def launchInstalled (host : Host) (name key : List Char) : LocalAction F (List (String × Json)) := do
  let apps ← listStartApps host
  match matchApp host name apps true with
  | some app => do
      launchStartApp app
      return launched app.name "start_menu_app"
  | none =>
      match webAliases.lookup (String.ofList key) with
      | some url => do
          call (.webbrowserOpen url) id
          return launched url "web_alias"
      | none => do
          match ← onPath (String.ofList name) with
          | some path => do
              launchExecutable path
              return launched path "path_executable"
          | none =>
              match matchApp host name apps false with
              | some app => do
                  launchStartApp app
                  return launched app.name "start_menu_app_fuzzy"
              | none => throw (.valueError
                  (notFound host (String.ofList name) (String.ofList key) apps))

/-- The last alias whose key reads the same, as in the dict the code builds. -/
def userAlias (host : Host) (aliases : List (String × String)) (key : List Char) :
    Option String :=
  (aliases.reverse.find? fun e => host.python.unicode.casefold e.1.toList = key).map Prod.snd

def resolveAndLaunch (host : Host) (target : String) (aliases : List (String × String)) :
    LocalAction F (List (String × Json)) := do
  let name := launchName target
  let key := host.python.unicode.casefold name
  if name.isEmpty then throw (.valueError "No app or website name was given.")
  else
    match userAlias host aliases key with
    | some value => launchAliasValue host value
    | none =>
        if looksLikeUrl name then do
          call (.webbrowserOpen (normalizeUrl name)) id
          return launched (normalizeUrl name) "url"
        else if ← call (.pathExists (String.ofList name)) id then
          openPath host (String.ofList name)
          return launched (String.ofList name) "path"
        else launchInstalled host name key

/-! ### Web search -/

def searchResponseLimit : ℕ := 1024 * 1024

def unwrapSearchUrl (host : Host) (href : String) : Result (Option String) := do
  let href := if "//".toList.isPrefixOf href.toList then "https:" ++ href else href
  let parsed ← host.urlsplit href
  let redirected := parsed.path = "/l/" &&
    parsed.hostname.any fun name => "duckduckgo.com".toList.isSuffixOf name.toList
  let href := if redirected then host.uddg parsed.query else href
  let parsed ← if redirected then host.urlsplit href else .ok parsed
  if (parsed.scheme ≠ "http" && parsed.scheme ≠ "https") || !parsed.hostname.any (· ≠ "") then
    .ok none
  else if parsed.username.isSome || parsed.password.isSome then .ok none
  else .ok (some href)

/-- `_SearchResults`. -/
structure SearchResults where
  results : List Candidate
  activeHref : Option String
  activeText : List String

/-- The value an attribute has in the dict of a tag's attributes. -/
def attribute? (attrs : List (String × Option String)) (name : String) : Option String :=
  ((attrs.reverse.lookup name).getD none).filter fun value => value ≠ ""

def SearchResults.handle (host : Host) (s : SearchResults) : HtmlEvent → Result SearchResults
  | .startTag tag attrs =>
      let classes := words ((attribute? attrs "class").getD "").toList
      match attribute? attrs "href" with
      | some href =>
          if tag = "a" ∧ "result__a".toList ∈ classes then
            .ok { s with activeHref := some href, activeText := [] }
          else .ok s
      | none => .ok s
  | .data text =>
      .ok (if s.activeHref.isSome then { s with activeText := s.activeText ++ [text] } else s)
  | .endTag tag =>
      match s.activeHref with
      | some href =>
          if tag = "a" then do
            let title := " ".intercalate ((words ("".intercalate s.activeText).toList).map
              String.ofList)
            let url ← unwrapSearchUrl host href
            let found := match url with
              | some url =>
                  if title ≠ "" && url ≠ "" then
                    [⟨String.ofList (title.toList.take 512), String.ofList (url.toList.take 2048)⟩]
                  else []
              | none => []
            .ok ⟨s.results ++ found, none, []⟩
          else .ok s
      | none => .ok s

def searchWeb (host : Host) (target : String) : LocalAction F (Option Candidate) := do
  let query := strip target.toList
  if query.isEmpty || query.length > 512 then
    throw (.valueError "Search query must be between 1 and 512 characters.")
  else do
    let page ← exceptException (call (.urlopen (String.ofList query)) id) fun _ =>
      throw (.runtimeError "Local web search failed. Check this PC's internet connection.")
    if page.bytes > searchResponseLimit then
      throw (.runtimeError "Local web search response exceeded its size limit.")
    else do
      let parser ← fromExcept (page.events.foldlM (SearchResults.handle host) ⟨[], none, []⟩)
      return parser.results.head?

def openSearchResult (host : Host) (query : String) (result : Candidate) :
    LocalAction F (List (String × Json)) := do
  let url ← fromExcept (unwrapSearchUrl host result.url)
  let title := String.ofList (strip result.title.toList)
  match url with
  | some url =>
      if title = "" || url = "" then
        throw (.valueError "The selected search result is invalid.")
      else do
        call (.webbrowserOpen url) id
        return [("launched", .string url), ("title", .string title),
          ("search_query", .string query), ("method", .string "web_search")]
  | none => throw (.valueError "The selected search result is invalid.")

/-! ### What the launcher asks for -/

/-- The effects that look at the machine or at the web. -/
def probe : Effect → Bool
  | .pathExists _ | .which _ | .startAppsCache | .setStartAppsCache _ | .getStartApps
  | .urlopen _ => true
  | _ => false

/-- Those, and the effects that open something. -/
def launch : Effect → Bool
  | .webbrowserOpen _ | .startfile _ | .popen _ => true
  | e => probe e

/-- The effects that look at the machine and not at the web. -/
def look : Effect → Bool
  | .urlopen _ => false
  | e => probe e

/-- Those, and the effects that open something. -/
def offline : Effect → Bool
  | .urlopen _ => false
  | e => launch e

theorem probe_of_look (e : Effect) (h : look e) : probe e := by
  cases e <;> first | rfl | cases h

theorem offline_of_look (e : Effect) (h : look e) : offline e := by
  cases e <;> first | rfl | cases h

abbrev ProbeOnly {α : Type} (p : LocalAction F α) : Prop := Only (fun e => probe e) p.run

abbrev LookOnly {α : Type} (p : LocalAction F α) : Prop := Only (fun e => look e) p.run

abbrev OfflineOnly {α : Type} (p : LocalAction F α) : Prop := Only (fun e => offline e) p.run

theorem lookOnly_listStartApps (host : Host) :
    LookOnly (listStartApps host : LocalAction F (List StartApp)) := by
  refine only_run_bind (only_call _ rfl) fun cached => ?_
  cases cached with
  | some apps => exact only_run_pure _
  | none =>
      dsimp only
      split_ifs
      · exact only_run_pure _
      refine only_run_bind (only_run_tryCatch ?_ fun exn => ?_) fun data => ?_
      · exact only_run_bind (only_call _ rfl) fun _ => only_run_pure _
      · split_ifs
        · exact only_run_pure _
        · exact only_run_throw _
      cases data with
      | none => exact only_run_pure _
      | some data =>
          refine only_run_bind (only_fromExcept _) fun items => ?_
          refine only_run_bind (only_fromExcept _) fun apps => ?_
          exact only_run_bind (only_call _ rfl) fun _ => only_run_pure _

theorem lookOnly_onPath (name : String) :
    LookOnly (onPath name : LocalAction F (Option String)) :=
  only_run_bind (only_call _ rfl) fun _ => only_run_pure _

theorem lookOnly_needsWebSearch (host : Host) (target : String)
    (aliases : List (String × String)) :
    LookOnly (needsWebSearch host target aliases : LocalAction F Bool) := by
  unfold needsWebSearch
  dsimp only
  generalize launchName target = name
  refine only_run_ite (only_run_pure _) ?_
  refine only_run_ite (only_run_pure _) ?_
  refine only_run_ite (only_run_pure _) ?_
  refine only_run_bind (only_call _ rfl) fun exists' => ?_
  refine only_run_ite (only_run_pure _) ?_
  refine only_run_ite (only_run_pure _) ?_
  refine only_run_bind (lookOnly_onPath _) fun found => ?_
  refine only_run_ite (only_run_pure _) ?_
  exact only_run_bind (lookOnly_listStartApps host) fun _ => only_run_pure _

theorem probeOnly_searchWeb (host : Host) (target : String) :
    ProbeOnly (searchWeb host target : LocalAction F (Option Candidate)) := by
  unfold searchWeb
  dsimp only
  split_ifs
  · exact only_run_throw _
  refine only_run_bind (only_run_tryCatch (only_call _ rfl) fun exn => ?_) fun page => ?_
  · split_ifs
    · exact only_run_throw _
    · exact only_run_throw _
  split_ifs
  · exact only_run_throw _
  · exact only_run_bind (only_fromExcept _) fun _ => only_run_pure _

theorem offlineOnly_openPath (host : Host) (path : String) :
    OfflineOnly (openPath host path : LocalAction F Unit) := by
  unfold openPath
  split_ifs
  · exact only_call _ rfl
  · exact only_call _ rfl

theorem offlineOnly_onPath (name : String) :
    OfflineOnly (onPath name : LocalAction F (Option String)) :=
  (lookOnly_onPath name).mono offline_of_look

theorem offlineOnly_launchAliasValue (host : Host) (value : String) :
    OfflineOnly (launchAliasValue host value : LocalAction F (List (String × Json))) := by
  refine only_run_ite ?_ ?_
  · exact only_run_bind (only_call _ rfl) fun _ => only_run_pure _
  refine only_run_bind (only_call _ rfl) fun exists' => ?_
  refine only_run_ite ?_ ?_
  · exact only_run_bind (offlineOnly_openPath ..) fun _ => only_run_pure _
  refine only_run_bind (offlineOnly_onPath _) fun found => ?_
  cases found with
  | none => exact only_run_throw _
  | some found => exact only_run_bind (only_call _ rfl) fun _ => only_run_pure _

theorem offlineOnly_launchInstalled (host : Host) (name key : List Char) :
    OfflineOnly (launchInstalled host name key : LocalAction F (List (String × Json))) := by
  refine only_run_bind ((lookOnly_listStartApps host).mono offline_of_look) fun apps => ?_
  cases matchApp host name apps true with
  | some app => exact only_run_bind (only_call _ rfl) fun _ => only_run_pure _
  | none =>
      dsimp only
      cases webAliases.lookup (String.ofList key) with
      | some url => exact only_run_bind (only_call _ rfl) fun _ => only_run_pure _
      | none =>
          refine only_run_bind (offlineOnly_onPath _) fun found => ?_
          cases found with
          | some path => exact only_run_bind (only_call _ rfl) fun _ => only_run_pure _
          | none =>
              dsimp only
              cases matchApp host name apps false with
              | some app => exact only_run_bind (only_call _ rfl) fun _ => only_run_pure _
              | none => exact only_run_throw _

theorem offlineOnly_resolveAndLaunch (host : Host) (target : String)
    (aliases : List (String × String)) :
    OfflineOnly (resolveAndLaunch host target aliases : LocalAction F (List (String × Json))) := by
  unfold resolveAndLaunch
  dsimp only
  generalize launchName target = name
  refine only_run_ite (only_run_throw _) ?_
  cases userAlias host aliases (host.python.unicode.casefold name) with
  | some value => exact offlineOnly_launchAliasValue host value
  | none =>
      refine only_run_ite ?_ ?_
      · exact only_run_bind (only_call _ rfl) fun _ => only_run_pure _
      refine only_run_bind (only_call _ rfl) fun exists' => ?_
      refine only_run_ite ?_ (offlineOnly_launchInstalled ..)
      exact only_run_bind (offlineOnly_openPath ..) fun _ => only_run_pure _

theorem offlineOnly_openSearchResult (host : Host) (query : String) (result : Candidate) :
    OfflineOnly (openSearchResult host query result : LocalAction F (List (String × Json))) := by
  refine only_run_bind (only_fromExcept _) fun url => ?_
  cases url with
  | none => exact only_run_throw _
  | some url =>
      dsimp only
      split_ifs
      · exact only_run_throw _
      · exact only_run_bind (only_call _ rfl) fun _ => only_run_pure _

end Ally.Companion
