import Ally.ConsentGating

/-!
# Search prediction and launch resolution

`needs_web_search` and `resolve_and_launch` look a name up in their own orders. On a machine
that stays as it is the first foretells the error of the second.
-/

namespace Ally.Companion

open Interaction
open PCAgentBridge (Json)

variable {F : Type}

/-! ### A machine that stays as it is -/

/-- What the machine answers to the lookups. -/
structure Lookups where
  pathExists : String → Bool
  which : String → Option String
  cached : Option (List StartApp)
  startApps : Result Json

namespace Lookups

def known (F : Type) (m : Lookups) : (e : Effect) → Option (Effect.Answer F e)
  | .pathExists name => some (.ok (m.pathExists name))
  | .which name => some (.ok (m.which name))
  | .startAppsCache => some (.ok m.cached)
  | .getStartApps => some m.startApps
  | .setStartAppsCache _ => some (.ok ())
  | _ => none

/-- An event of a run on this machine. -/
def Answered (m : Lookups) (x : Σ e, Effect.Answer F e) : Prop :=
  ∀ r, m.known F x.1 = some r → x.2 = r

/-- The applications in the decoded output of `Get-StartApps`. -/
def decoded (host : Host) (data : Json) : Result (List StartApp) := do
  let items ← itemsOf data
  let apps ← items.mapM (startAppOf host)
  return apps.filterMap id

/-- What `list_start_apps` returns. -/
def listed (host : Host) (m : Lookups) : Result (List StartApp) :=
  match m.cached with
  | some apps => .ok apps
  | none =>
      if !host.win32 then .ok []
      else match m.startApps with
        | .ok data => decoded host data
        | .error exn => if noStartApps exn then .ok [] else .error exn

/-- The machine once `list_start_apps` has filled its cache. -/
def afterListing (host : Host) (m : Lookups) : Lookups :=
  match m.cached, m.startApps with
  | none, .ok data =>
      if !host.win32 then m
      else match decoded host data with
        | .ok apps => { m with cached := some apps }
        | .error _ => m
  | _, _ => m

theorem listed_afterListing (host : Host) (m : Lookups) :
    (m.afterListing host).listed host = m.listed host := by
  unfold afterListing
  split
  next data hcached hdata =>
    split_ifs with hwin
    · rfl
    · cases hdecoded : decoded host data with
      | error exn => rfl
      | ok apps => simp only [listed, hcached, if_neg hwin, hdata, hdecoded]
  · rfl

theorem pathExists_afterListing (host : Host) (m : Lookups) :
    (m.afterListing host).pathExists = m.pathExists := by
  unfold afterListing
  repeat' split
  all_goals rfl

theorem which_afterListing (host : Host) (m : Lookups) :
    (m.afterListing host).which = m.which := by
  unfold afterListing
  repeat' split
  all_goals rfl

end Lookups

/-! ### The lookups on that machine -/

variable {host : Host} {m : Lookups}

theorem given_listStartApps :
    Action.given (m.known F) (listStartApps host) = fromExcept (m.listed host) := by
  unfold listStartApps Lookups.listed
  rw [action_given_bind, action_given_known rfl, id, fromExcept_ok_bind]
  cases m.cached with
  | some apps => rfl
  | none =>
      dsimp only
      split_ifs with hwin
      · rfl
      rw [action_given_bind, action_given_tryCatch, action_given_bind, action_given_known rfl]
      cases m.startApps with
      | error exn =>
          dsimp only [id]
          cases hexn : noStartApps exn with
          | true =>
              rw [if_pos rfl, fromExcept_error_bind]
              change Action.given (m.known F) (if noStartApps exn then _ else _) >>= _ = _
              rw [if_pos hexn]
              rfl
          | false =>
              rw [if_neg (by decide), fromExcept_error_bind]
              change Action.given (m.known F) (if noStartApps exn then _ else _) >>= _ = _
              rw [if_neg (by rw [hexn]; decide)]
              rfl
      | ok data =>
          change Action.given (m.known F) (fromExcept (itemsOf data) >>= _) =
            fromExcept (Lookups.decoded host data)
          rw [action_given_bind, action_given_fromExcept]
          unfold Lookups.decoded
          cases itemsOf data with
          | error exn => rfl
          | ok items =>
              rw [fromExcept_ok_bind, action_given_bind, action_given_fromExcept]
              change _ = fromExcept (items.mapM (startAppOf host) >>= _)
              cases items.mapM (startAppOf host) with
              | error exn => rfl
              | ok apps =>
                  rw [fromExcept_ok_bind, action_given_bind, action_given_known rfl]
                  rfl

/-- What `shutil.which` finds. -/
def Lookups.found (m : Lookups) (name : String) : Option String :=
  (m.which name).filter fun path => !path.isEmpty

theorem given_onPath (name : String) :
    Action.given (m.known F) (onPath name) = fromExcept (.ok (m.found name)) := by
  unfold onPath
  rw [action_given_bind, action_given_known rfl]
  rfl

theorem given_pathExists (name : String) :
    Action.given (m.known F) (call (.pathExists name) id : LocalAction F Bool) =
      fromExcept (.ok (m.pathExists name)) := action_given_known rfl _

/-! ### The matcher -/

theorem foldl_betterApp_isSome (q : List Char) (exactOnly : Bool)
    (best : Option (ℕ × ℕ × StartApp)) (apps : List StartApp) :
    (apps.foldl (betterApp host q exactOnly) best).isSome ↔ best.isSome ∨
      ∃ app ∈ apps, (rankOf host q (host.python.unicode.casefold app.name.toList) exactOnly).isSome := by
  induction apps generalizing best with
  | nil => simp
  | cons app apps ih =>
      rw [List.foldl_cons, ih]
      unfold betterApp
      dsimp only
      cases hrank : rankOf host q (host.python.unicode.casefold app.name.toList) exactOnly with
      | none => simp [hrank]
      | some rank =>
          refine ⟨fun _ => .inr ⟨app, List.mem_cons_self, by rw [hrank]; rfl⟩, fun _ => .inl ?_⟩
          rcases best with _ | ⟨r, l, b⟩
          · rfl
          · dsimp only
            split_ifs
            · rfl
            · rfl

theorem baseRank_of_exact {q name : List Char} (h : (baseRank host q name true).isSome)
    (exactOnly : Bool) : baseRank host q name exactOnly = some 0 := by
  unfold baseRank at h ⊢
  by_cases heq : name = q
  · exact if_pos heq
  · rw [if_neg heq, if_pos rfl] at h
    cases h

/-- An exact match is also found by the fuzzy search. -/
theorem matchApp_none_of_none {name : List Char} {apps : List StartApp}
    (h : matchApp host name apps false = none) : matchApp host name apps true = none := by
  unfold matchApp at h ⊢
  dsimp only at h ⊢
  split_ifs at h ⊢
  · rfl
  · rw [Option.map_eq_none_iff, ← Option.not_isSome_iff_eq_none, foldl_betterApp_isSome] at h ⊢
    rintro (hnone | ⟨app, happ, hrank⟩)
    · cases hnone
    · refine h (.inr ⟨app, happ, ?_⟩)
      rw [rankOf, Option.isSome_map] at hrank ⊢
      rw [baseRank_of_exact hrank]
      rfl

/-! ### The two functions -/

/-- Nothing that either function tries finds the name. -/
structure Unresolved (host : Host) (m : Lookups) (aliases : List (String × String))
    (target : String) (apps : List StartApp) : Prop where
  name : launchName target ≠ []
  unaliased : ∀ e ∈ aliases, host.python.unicode.casefold e.1.toList ≠
    host.python.unicode.casefold (launchName target)
  url : looksLikeUrl (launchName target) = false
  path : m.pathExists (String.ofList (launchName target)) = false
  website : ∀ e ∈ webAliases,
    e.1 ≠ String.ofList (host.python.unicode.casefold (launchName target))
  program : m.found (String.ofList (launchName target)) = none
  listed : m.listed host = .ok apps
  app : matchApp host (launchName target) apps false = none

/-- What `needs_web_search` returns on the machine. -/
theorem given_needsWebSearch (host : Host) (m : Lookups) (aliases : List (String × String))
    (target : String) : ∃ x : Result Bool,
      Action.given (m.known F) (needsWebSearch host target aliases) = fromExcept x ∧
        (x = .ok true ↔ ∃ apps, Unresolved host m aliases target apps) := by
  unfold needsWebSearch
  dsimp only
  by_cases hname : (launchName target).isEmpty = true
  · rw [if_pos hname]
    refine ⟨.ok false, rfl, nofun, fun ⟨apps, h⟩ => ?_⟩
    exact absurd (List.isEmpty_iff.mp hname) h.name
  rw [if_neg hname]
  by_cases halias : (aliases.any fun e => decide (host.python.unicode.casefold e.1.toList =
      host.python.unicode.casefold (launchName target))) = true
  · rw [if_pos halias]
    refine ⟨.ok false, rfl, nofun, fun ⟨apps, h⟩ => ?_⟩
    obtain ⟨e, he, hkey⟩ := List.any_eq_true.mp halias
    exact absurd (of_decide_eq_true hkey) (h.unaliased e he)
  rw [if_neg halias]
  by_cases hurl : looksLikeUrl (launchName target) = true
  · rw [if_pos hurl]
    refine ⟨.ok false, rfl, nofun, fun ⟨apps, h⟩ => ?_⟩
    rw [h.url] at hurl
    cases hurl
  rw [if_neg hurl, action_given_bind, given_pathExists, fromExcept_ok_bind]
  by_cases hpath : m.pathExists (String.ofList (launchName target)) = true
  · rw [if_pos hpath]
    refine ⟨.ok false, rfl, nofun, fun ⟨apps, h⟩ => ?_⟩
    rw [h.path] at hpath
    cases hpath
  rw [if_neg hpath]
  by_cases hweb : (webAliases.any fun e =>
      decide (e.1 = String.ofList (host.python.unicode.casefold (launchName target)))) = true
  · rw [if_pos hweb]
    refine ⟨.ok false, rfl, nofun, fun ⟨apps, h⟩ => ?_⟩
    obtain ⟨e, he, hkey⟩ := List.any_eq_true.mp hweb
    exact absurd (of_decide_eq_true hkey) (h.website e he)
  rw [if_neg hweb, action_given_bind, given_onPath, fromExcept_ok_bind]
  by_cases hfound : (m.found (String.ofList (launchName target))).isSome = true
  · rw [if_pos hfound]
    refine ⟨.ok false, rfl, nofun, fun ⟨apps, h⟩ => ?_⟩
    rw [h.program] at hfound
    cases hfound
  rw [if_neg hfound, action_given_bind, given_listStartApps]
  cases hlisted : m.listed host with
  | error exn =>
      refine ⟨.error exn, rfl, nofun, fun ⟨apps, h⟩ => ?_⟩
      have happs := h.listed
      rw [hlisted] at happs
      cases happs
  | ok apps =>
      refine ⟨.ok (matchApp host (launchName target) apps false).isNone, rfl, fun h => ?_, ?_⟩
      · exact ⟨apps, by simpa using hname, fun e he hkey => halias (List.any_eq_true.mpr
          ⟨e, he, decide_eq_true hkey⟩), by simpa using hurl, by simpa using hpath,
          fun e he hkey => hweb (List.any_eq_true.mpr ⟨e, he, decide_eq_true hkey⟩),
          by simpa using hfound, hlisted, by simpa using h⟩
      · rintro ⟨apps', h⟩
        have heq := Except.ok.inj (hlisted.symm.trans h.listed)
        subst heq
        rw [h.app]
        rfl

/-- The effects that open something. -/
def launches : Effect → Bool
  | .webbrowserOpen _ | .startfile _ | .popen _ => true
  | _ => false

/-- The error at the end of `resolve_and_launch`. -/
def notFoundError (host : Host) (target : String) (apps : List StartApp) : LocalExn :=
  .valueError (notFound host (String.ofList (launchName target))
    (String.ofList (host.python.unicode.casefold (launchName target))) apps)

/-- What `resolve_and_launch` does on the machine. -/
inductive Resolution (host : Host) (m : Lookups) (aliases : List (String × String))
    (target : String) : LocalAction F Details → Prop
  | notFound {apps : List StartApp} (h : Unresolved host m aliases target apps) :
      Resolution host m aliases target (fromExcept (.error (notFoundError host target apps)))
  | launched {p : LocalAction F Details} (hno : ∀ apps, ¬ Unresolved host m aliases target apps)
      {e : Effect} {next : Effect.Answer F e → Program Effect (Effect.Answer F) (Result Details)}
      (hp : p.run = .ask e next) (he : launches e = true) : Resolution host m aliases target p
  | failed (hno : ∀ apps, ¬ Unresolved host m aliases target apps) {exn : LocalExn}
      (hne : ∀ apps, m.listed host = .ok apps → exn ≠ notFoundError host target apps) :
      Resolution host m aliases target (fromExcept (.error exn))

theorem head_append {s t : String} {c : Char} (h : s.toList.head? = some c) :
    (s ++ t).toList.head? = some c := by
  rw [String.toList_append, List.head?_append, h]
  rfl

theorem notFoundError_ne {target message : String} (h : message.toList.head? ≠ some 'C')
    (apps : List StartApp) : LocalExn.valueError message ≠ notFoundError host target apps := by
  intro heq
  unfold notFoundError notFound at heq
  injection heq with hmessage
  have hfirst : "Couldn't find an app or website called ".toList.head? = some 'C' := by
    decide +kernel
  refine h ?_
  rw [hmessage]
  exact head_append (head_append (head_append (head_append (head_append (head_append hfirst)))))

variable {aliases : List (String × String)} {target : String}

/-- A call that opens something goes first. -/
theorem resolution_launch (hno : ∀ apps, ¬ Unresolved host m aliases target apps) {e : Effect}
    (hunknown : m.known F e = none) (he : launches e = true)
    (answer : Effect.Answer F e → Result Unit) (f : Unit → LocalAction F Details) :
    Resolution host m aliases target
      (Action.given (m.known F) (call e answer >>= f : LocalAction F Details)) := by
  rw [action_given_bind, action_given_unknown hunknown]
  exact .launched hno rfl he

theorem resolution_openPath (hno : ∀ apps, ¬ Unresolved host m aliases target apps)
    (path : String) (f : Unit → LocalAction F Details) :
    Resolution host m aliases target
      (Action.given (m.known F) (openPath host path >>= f : LocalAction F Details)) := by
  unfold openPath
  split_ifs
  · exact resolution_launch hno rfl rfl _ _
  · exact resolution_launch hno rfl rfl _ _

theorem resolution_launchAliasValue (hno : ∀ apps, ¬ Unresolved host m aliases target apps)
    (value : String) : Resolution host m aliases target
      (Action.given (m.known F) (launchAliasValue host value : LocalAction F Details)) := by
  unfold launchAliasValue
  split_ifs
  · exact resolution_launch hno rfl rfl _ _
  · rw [action_given_bind, given_pathExists, fromExcept_ok_bind]
    split_ifs
    · exact resolution_openPath hno _ _
    · rw [action_given_bind, given_onPath, fromExcept_ok_bind]
      cases m.found value with
      | some path => exact resolution_launch hno rfl rfl _ _
      | none =>
          have hfirst : "Your app_aliases entry points to ".toList.head? = some 'Y' := by decide +kernel
          refine .failed hno fun apps _ => notFoundError_ne ?_ apps
          rw [head_append (head_append hfirst)]
          decide

theorem lookup_eq_none_iff {key : String} {entries : List (String × String)} :
    entries.lookup key = none ↔ ∀ e ∈ entries, e.1 ≠ key := by
  rw [List.lookup_eq_none_iff]
  refine forall₂_congr fun e _ => ?_
  rw [bne_iff_ne]
  exact ne_comm

theorem userAlias_eq_none_iff {key : List Char} : userAlias host aliases key = none ↔
    ∀ e ∈ aliases, host.python.unicode.casefold e.1.toList ≠ key := by
  simp [userAlias]

theorem resolution_resolveAndLaunch (host : Host) (m : Lookups) (aliases : List (String × String))
    (target : String) : Resolution host m aliases target
      (Action.given (m.known F) (resolveAndLaunch host target aliases : LocalAction F Details)) := by
  unfold resolveAndLaunch
  dsimp only
  by_cases hname : (launchName target).isEmpty = true
  · have hfirst : "No app or website name was given.".toList.head? ≠ some 'C' := by decide +kernel
    rw [if_pos hname]
    exact .failed (fun apps h => h.name (List.isEmpty_iff.mp hname)) fun apps _ =>
      notFoundError_ne hfirst apps
  rw [if_neg hname]
  cases halias : userAlias host aliases (host.python.unicode.casefold (launchName target)) with
  | some value =>
      refine resolution_launchAliasValue (fun apps h => ?_) value
      rw [userAlias_eq_none_iff.mpr h.unaliased] at halias
      cases halias
  | none =>
      dsimp only
      by_cases hurl : looksLikeUrl (launchName target) = true
      · rw [if_pos hurl]
        refine resolution_launch (fun apps h => ?_) rfl rfl _ _
        rw [h.url] at hurl
        cases hurl
      rw [if_neg hurl, action_given_bind, given_pathExists, fromExcept_ok_bind]
      by_cases hpath : m.pathExists (String.ofList (launchName target)) = true
      · rw [if_pos hpath]
        refine resolution_openPath (fun apps h => ?_) _ _
        rw [h.path] at hpath
        cases hpath
      rw [if_neg hpath]
      unfold launchInstalled
      rw [action_given_bind, given_listStartApps]
      cases hlisted : m.listed host with
      | error exn =>
          have hno : ∀ apps, m.listed host ≠ .ok apps := fun apps h => by
            rw [hlisted] at h
            cases h
          exact .failed (fun apps h => hno apps h.listed) fun apps h => absurd h (hno apps)
      | ok apps =>
          have happs : ∀ apps', Unresolved host m aliases target apps' → apps' = apps := fun apps' h =>
            Except.ok.inj (h.listed.symm.trans hlisted)
          rw [fromExcept_ok_bind]
          cases hexact : matchApp host (launchName target) apps true with
          | some app =>
              refine resolution_launch (fun apps' h => ?_) rfl rfl _ _
              rw [matchApp_none_of_none (happs apps' h ▸ h.app)] at hexact
              cases hexact
          | none =>
              dsimp only
              cases hweb : webAliases.lookup
                  (String.ofList (host.python.unicode.casefold (launchName target))) with
              | some url =>
                  refine resolution_launch (fun apps' h => ?_) rfl rfl _ _
                  rw [lookup_eq_none_iff.mpr h.website] at hweb
                  cases hweb
              | none =>
                  dsimp only
                  rw [action_given_bind, given_onPath, fromExcept_ok_bind]
                  cases hfound : m.found (String.ofList (launchName target)) with
                  | some path =>
                      refine resolution_launch (fun apps' h => ?_) rfl rfl _ _
                      rw [h.program] at hfound
                      cases hfound
                  | none =>
                      dsimp only
                      cases hfuzzy : matchApp host (launchName target) apps false with
                      | some app =>
                          refine resolution_launch (fun apps' h => ?_) rfl rfl _ _
                          have hnone := h.app
                          rw [happs apps' h, hfuzzy] at hnone
                          cases hnone
                      | none =>
                          exact .notFound ⟨by simpa using hname, userAlias_eq_none_iff.mp halias,
                            by simpa using hurl, by simpa using hpath, lookup_eq_none_iff.mp hweb,
                            hfound, hlisted, hfuzzy⟩

/-- The run launched nothing and ended in the final error of `resolve_and_launch`. -/
def EndsNotFound (host : Host) (m : Lookups) (target : String) (t : LocalTrace F)
    (r : Result Details) : Prop :=
  (∀ x ∈ t, launches x.1 = false) ∧
    ∃ apps, m.listed host = .ok apps ∧ r = .error (notFoundError host target apps)

theorem endsNotFound_iff {t : LocalTrace F} {r : Result Details}
    (hrun : Runs (resolveAndLaunch host target aliases).run t r) (ht : ∀ x ∈ t, m.Answered x) :
    EndsNotFound host m target t r ↔ ∃ apps, Unresolved host m aliases target apps := by
  have hleft := runs_given hrun ht
  have hresolution : Resolution host m aliases target (Action.given (m.known F)
    (resolveAndLaunch host target aliases)) := resolution_resolveAndLaunch host m aliases target
  change Runs (Action.given (m.known F) (resolveAndLaunch host target aliases)).run _ r at hleft
  generalize Action.given (m.known F) (resolveAndLaunch host target aliases) = p at hleft hresolution
  have hlaunch : ∀ e, launches e = true → (m.known F e).isNone = true := by
    intro e he
    cases e <;> first | rfl | cases he
  cases hresolution with
  | @notFound apps h =>
      generalize hlist : t.filter (fun x => (m.known F x.1).isNone) = left at hleft
      cases hleft
      refine ⟨fun _ => ⟨apps, h⟩, fun _ => ⟨fun x hx => ?_, apps, h.listed, rfl⟩⟩
      by_contra hx'
      have hmem : x ∈ t.filter fun x => (m.known F x.1).isNone :=
        List.mem_filter.mpr ⟨hx, hlaunch _ (Bool.of_not_eq_false hx')⟩
      rw [hlist] at hmem
      cases hmem
  | @launched _ hno e next hp he =>
      refine ⟨fun hend => ?_, fun ⟨apps, h⟩ => absurd h (hno apps)⟩
      change Runs p.run _ r at hleft
      rw [hp] at hleft
      generalize hlist : t.filter (fun x => (m.known F x.1).isNone) = left at hleft
      cases hleft with
      | ask answer hrest =>
          have hmem : ⟨e, answer⟩ ∈ t.filter fun x => (m.known F x.1).isNone := by
            rw [hlist]
            exact List.mem_cons_self
          have hquiet := hend.1 _ (List.mem_filter.mp hmem).1
          dsimp only at hquiet
          rw [he] at hquiet
          cases hquiet
  | failed hno hne =>
      refine ⟨fun ⟨_, apps, hlisted, hr⟩ => ?_, fun ⟨apps, h⟩ => absurd h (hno apps)⟩
      generalize t.filter (fun x => (m.known F x.1).isNone) = left at hleft
      cases hleft
      exact absurd (Except.error.inj hr) (hne apps hlisted)

/-- On a machine that stays as it is, but for the cache of the Start Menu, `needs_web_search`
holds exactly when `resolve_and_launch` finds nothing. -/
theorem search_prediction (host : Host) (m m' : Lookups) (hm : m' = m ∨ m' = m.afterListing host)
    (target : String) (aliases : List (String × String)) {t t' : LocalTrace F} {r : Result Bool}
    {r' : Result Details} (hneeds : Runs (needsWebSearch host target aliases).run t r)
    (ht : ∀ x ∈ t, m.Answered x) (hresolve : Runs (resolveAndLaunch host target aliases).run t' r')
    (ht' : ∀ x ∈ t', m'.Answered x) : r = .ok true ↔ EndsNotFound host m' target t' r' := by
  obtain ⟨x, hx, hiff⟩ := given_needsWebSearch (F := F) host m aliases target
  have hleft := runs_given hneeds ht
  change Runs (Action.given (m.known F) (needsWebSearch host target aliases)).run _ r at hleft
  rw [hx] at hleft
  have hr : r = x := by
    generalize t.filter (fun x => (m.known F x.1).isNone) = left at hleft
    cases hleft
    rfl
  rw [hr, hiff, endsNotFound_iff hresolve ht']
  rcases hm with rfl | rfl
  · rfl
  · constructor
    · rintro ⟨apps, h⟩
      exact ⟨apps, h.name, h.unaliased, h.url, by rw [Lookups.pathExists_afterListing, h.path],
        h.website, by rw [Lookups.found, Lookups.which_afterListing]; exact h.program,
        by rw [Lookups.listed_afterListing, h.listed], h.app⟩
    · rintro ⟨apps, h⟩
      refine ⟨apps, h.name, h.unaliased, h.url, ?_, h.website, ?_, ?_, h.app⟩
      · rw [← Lookups.pathExists_afterListing host m, h.path]
      · rw [Lookups.found, ← Lookups.which_afterListing host m]
        exact h.program
      · rw [← Lookups.listed_afterListing, h.listed]

/-- Nothing on this machine has a name. -/
def emptyMachine : Lookups := ⟨fun _ => false, fun _ => none, none, .ok .null⟩

theorem emptyMachine_answered {β : Type} (p : LocalAction ℚ β) :
    ∀ x ∈ (playUntil (fun _ e => emptyMachine.known ℚ e) p.run []).1, emptyMachine.Answered x := by
  intro x hx r hr
  obtain ⟨past, hanswer⟩ := mem_playUntil hx
  exact Option.some.inj (hanswer.symm.trans hr)

theorem search_prediction_emptyMachine : ∃ t r,
    Runs (resolveAndLaunch plainHost "frobnicator" [] : LocalAction ℚ Details).run t r ∧
      EndsNotFound plainHost emptyMachine "frobnicator" t r := by
  have hneeds : (playUntil (fun _ e => emptyMachine.known ℚ e)
      (needsWebSearch plainHost "frobnicator" [] : LocalAction ℚ Bool).run []).2.getRight?.bind
        Except.toOption = some true := by decide +kernel
  have hends : (playUntil (fun _ e => emptyMachine.known ℚ e)
      (resolveAndLaunch plainHost "frobnicator" [] : LocalAction ℚ Details).run []).2.getRight?.isSome =
        true := by decide +kernel
  obtain ⟨b, hb, htrue⟩ := Option.bind_eq_some_iff.mp hneeds
  obtain rfl : b = .ok true := by
    cases b with
    | ok b => exact congrArg Except.ok (Option.some.inj htrue)
    | error exn => cases htrue
  obtain ⟨r, hr⟩ := Option.isSome_iff_exists.mp hends
  have hresolve := runs_playUntil _ _ [] (Sum.getRight?_eq_some_iff.mp hr)
  exact ⟨_, r, hresolve, (search_prediction plainHost emptyMachine emptyMachine (.inl rfl)
    "frobnicator" [] (runs_playUntil _ _ [] (Sum.getRight?_eq_some_iff.mp hb)) (emptyMachine_answered _) hresolve
    (emptyMachine_answered _)).mp rfl⟩

end Ally.Companion
