import Ally.ShellAudit
import Ally.Urls

/-!
# The address that a search opens

`open_app` shows the first result of a web search and opens it once it is approved. The link
of a result is unwrapped when the page is read and again when it is opened.
-/

namespace Ally.Companion

open Interaction
open PCAgentBridge (Json)
open Text (strip)

variable {F : Type}

/-! ### Unwrapping -/

/-- What `urlsplit` says of a text that begins with two slashes. -/
def SlashesHaveNoScheme (host : Host) : Prop :=
  ∀ url parsed, host.urlsplit url = .ok parsed → "//".toList <+: url.toList → parsed.scheme = ""

/-- An http or https address with a host and without user information. -/
structure Accepted (parsed : SplitUrl) : Prop where
  scheme : parsed.scheme = "http" ∨ parsed.scheme = "https"
  hostname : ∃ name, parsed.hostname = some name ∧ name ≠ ""
  username : parsed.username = none
  password : parsed.password = none

def Usable (host : Host) (url : String) : Prop :=
  url ≠ "" ∧ ∃ parsed, host.urlsplit url = .ok parsed ∧ Accepted parsed

/-- A link of the search engine to something else. -/
structure IsRedirect (parsed : SplitUrl) : Prop where
  path : parsed.path = "/l/"
  hostname : ∃ name, parsed.hostname = some name ∧ "duckduckgo.com".toList <:+ name.toList

def RedirectsTo (host : Host) (url target : String) : Prop :=
  ∃ parsed, host.urlsplit url = .ok parsed ∧ IsRedirect parsed ∧ target = host.uddg parsed.query

/-- `href` with the scheme that it may lack. -/
def withScheme (href : String) : String :=
  if "//".toList.isPrefixOf href.toList then "https:" ++ href else href

theorem accepted_iff (parsed : SplitUrl) :
    Accepted parsed ↔ ¬(((parsed.scheme ≠ "http" && parsed.scheme ≠ "https") ||
      !parsed.hostname.any (· ≠ "")) = true) ∧
        ¬((parsed.username.isSome || parsed.password.isSome) = true) := by
  constructor
  · rintro ⟨hscheme, ⟨name, hname, hne⟩, husername, hpassword⟩
    rw [hname, husername, hpassword]
    rcases hscheme with h | h
    · simp [h, hne]
    · simp [h, hne]
  · rintro ⟨hserved, hplain⟩
    simp only [Bool.or_eq_true, not_or, Option.isSome_iff_ne_none, not_not] at hplain
    simp only [Bool.or_eq_true, Bool.and_eq_true, Bool.not_eq_true', not_or, decide_eq_true_eq,
      Bool.not_eq_false] at hserved
    obtain ⟨name, hname, hne⟩ := (Option.any_eq_true _ _).mp hserved.2
    refine ⟨?_, ⟨name, hname, of_decide_eq_true hne⟩, hplain.1, hplain.2⟩
    by_contra hscheme
    exact hserved.1 (not_or.mp hscheme)

theorem isRedirect_iff (parsed : SplitUrl) :
    IsRedirect parsed ↔ (decide (parsed.path = "/l/") &&
      parsed.hostname.any fun name => "duckduckgo.com".toList.isSuffixOf name.toList) = true := by
  rw [Bool.and_eq_true, decide_eq_true_eq, Option.any_eq_true]
  simp only [List.isSuffixOf_iff_suffix]
  exact ⟨fun h => ⟨h.path, h.hostname⟩, fun h => ⟨h.1, h.2⟩⟩

/-- Unwrapping, by what the link turns out to be. -/
theorem unwrap_eq (host : Host) (href : String) :
    unwrapSearchUrl host href = (do
      let parsed ← host.urlsplit (withScheme href)
      let redirected := decide (parsed.path = "/l/") &&
        parsed.hostname.any fun name => "duckduckgo.com".toList.isSuffixOf name.toList
      let url := if redirected then host.uddg parsed.query else withScheme href
      let parsed ← if redirected then host.urlsplit url else .ok parsed
      if (parsed.scheme ≠ "http" && parsed.scheme ≠ "https") ||
          !parsed.hostname.any (· ≠ "") then .ok none
      else if parsed.username.isSome || parsed.password.isSome then .ok none
      else .ok (some url)) := rfl

theorem finish_eq_some_iff (parsed : SplitUrl) (url url' : String) :
    (if (parsed.scheme ≠ "http" && parsed.scheme ≠ "https") ||
        !parsed.hostname.any (· ≠ "") then .ok none
      else if parsed.username.isSome || parsed.password.isSome then .ok none
      else .ok (some url) : Result (Option String)) = .ok (some url') ↔
      Accepted parsed ∧ url = url' := by
  rw [accepted_iff]
  split_ifs with h h'
  · refine ⟨fun heq => ?_, fun hurl => absurd h hurl.1.1⟩
    cases heq
  · refine ⟨fun heq => ?_, fun hurl => absurd h' hurl.1.2⟩
    cases heq
  · rw [Except.ok.injEq, Option.some.injEq]
    exact ⟨fun heq => ⟨⟨h, h'⟩, heq⟩, fun hurl => hurl.2⟩

theorem unwrap_eq_some_iff (host : Host) (href url : String) :
    unwrapSearchUrl host href = .ok (some url) ↔
      (∃ parsed, host.urlsplit url = .ok parsed ∧ Accepted parsed) ∧
        (RedirectsTo host (withScheme href) url ∨ url = withScheme href ∧
          ∀ target, ¬ RedirectsTo host (withScheme href) target) := by
  have htarget (parsed : SplitUrl) (hparsed : host.urlsplit (withScheme href) = .ok parsed)
      (target : String) : RedirectsTo host (withScheme href) target ↔
        IsRedirect parsed ∧ target = host.uddg parsed.query := by
    constructor
    · rintro ⟨parsed', hparsed', h⟩
      rw [hparsed, Except.ok.injEq] at hparsed'
      exact hparsed' ▸ h
    · exact fun h => ⟨parsed, hparsed, h⟩
  rw [unwrap_eq, Raising.bind_eq_ok]
  constructor
  · rintro ⟨parsed, hparsed, h⟩
    dsimp only at h
    split_ifs at h with hredirect
    · obtain ⟨last, hlast, hfinish⟩ := Raising.bind_eq_ok.mp h
      obtain ⟨haccepted, rfl⟩ := (finish_eq_some_iff ..).mp hfinish
      exact ⟨⟨last, hlast, haccepted⟩,
        .inl ((htarget parsed hparsed _).mpr ⟨(isRedirect_iff parsed).mpr hredirect, rfl⟩)⟩
    · obtain ⟨haccepted, rfl⟩ := (finish_eq_some_iff ..).mp h
      refine ⟨⟨parsed, hparsed, haccepted⟩, .inr ⟨rfl, fun target h => hredirect ?_⟩⟩
      exact (isRedirect_iff parsed).mp ((htarget parsed hparsed target).mp h).1
  · rintro ⟨⟨last, hlast, haccepted⟩, ⟨parsed, hparsed, hredirect, rfl⟩ | ⟨rfl, hnot⟩⟩
    · refine ⟨parsed, hparsed, ?_⟩
      dsimp only
      rw [if_pos ((isRedirect_iff parsed).mp hredirect), if_pos ((isRedirect_iff parsed).mp
        hredirect), hlast]
      exact (finish_eq_some_iff ..).mpr ⟨haccepted, rfl⟩
    · refine ⟨last, hlast, ?_⟩
      have hredirect := mt (isRedirect_iff last).mpr fun h =>
        hnot _ ((htarget last hlast _).mpr ⟨h, rfl⟩)
      dsimp only
      rw [if_neg hredirect, if_neg hredirect]
      exact (finish_eq_some_iff ..).mpr ⟨haccepted, rfl⟩

/-! ### What a search offers -/

/-- The result that `search_web` returns when it is answered with this page. -/
def searched (host : Host) (page : Page) : Option Candidate :=
  if page.bytes > searchResponseLimit then none
  else match page.events.foldlM (SearchResults.handle host) ⟨[], none, []⟩ with
    | .ok parser => parser.results.head?
    | .error _ => none

/-- A result of a page: the front of an accepted address, and a title that shows. -/
structure Offered (host : Host) (candidate : Candidate) : Prop where
  url : ∃ url parsed, host.urlsplit url = .ok parsed ∧ Accepted parsed ∧
    candidate.url = String.ofList (url.toList.take 2048)
  title : strip candidate.title.toList ≠ []

theorem words_eq (s : List Char) : words s = Text.words s := by
  unfold words Text.words Text.runsOf
  simp only [Bool.not_not]

/-- A text with a character that is no white space is left with something. -/
theorem strip_ne_nil {c : Char} {s : List Char} (hc : c ∈ s) (hspace : Text.isSpace c = false) :
    strip s ≠ [] := by
  intro hnone
  have hflat := Text.flatten_words s
  rw [Text.words_eq_nil_iff.mpr hnone, List.flatten_nil] at hflat
  have hmem : c ∈ s.filter fun c => !Text.isSpace c :=
    List.mem_filter.mpr ⟨hc, by rw [hspace]; rfl⟩
  rw [← hflat] at hmem
  cases hmem

/-- A title that is not empty begins with a character that is no white space. -/
theorem strip_title_ne_nil {text : List Char} (n : ℕ)
    (h : " ".intercalate ((words text).map String.ofList) ≠ "") :
    strip ((" ".intercalate ((words text).map String.ofList)).toList.take (n + 1)) ≠ [] := by
  cases hwords : words text with
  | nil =>
      rw [hwords] at h
      exact absurd String.intercalate_nil h
  | cons word rest =>
      have hword : word ∈ words text := hwords ▸ List.mem_cons_self
      have hne : word ≠ [] := by
        have hfilter := (List.mem_filter.mp hword).2
        rintro rfl
        cases hfilter
      obtain ⟨c, tail, rfl⟩ := List.exists_cons_of_ne_nil hne
      have hspace : Text.isSpace c = false := by
        rw [words_eq] at hword
        have hmem : c ∈ (Text.words text).flatten :=
          List.mem_flatten.mpr ⟨_, hword, List.mem_cons_self⟩
        rw [Text.flatten_words] at hmem
        exact Bool.not_eq_true' _ ▸ (List.mem_filter.mp hmem).2
      have htitle : ∃ back, (" ".intercalate (((c :: tail) :: rest).map String.ofList)).toList =
          c :: back := by
        rw [String.toList_intercalate, List.map_map]
        cases rest with
        | nil => exact ⟨tail, by simp⟩
        | cons next rest =>
            exact ⟨tail ++ ' ' :: [' '].intercalate (next :: rest),
              by simp [List.intercalate_cons_cons]⟩
      obtain ⟨back, hback⟩ := htitle
      rw [hback]
      exact strip_ne_nil List.mem_cons_self hspace

theorem SearchResults.handle_offered {host : Host} {s s' : SearchResults} {event : HtmlEvent}
    (h : s.handle host event = .ok s') (hs : ∀ c ∈ s.results, Offered host c) :
    ∀ c ∈ s'.results, Offered host c := by
  cases event with
  | startTag tag attrs =>
      unfold SearchResults.handle at h
      dsimp only at h
      split at h
      · split_ifs at h
        · cases h
          exact hs
        · cases h
          exact hs
      · cases h
        exact hs
  | data text =>
      cases h
      split_ifs
      · exact hs
      · exact hs
  | endTag tag =>
      unfold SearchResults.handle at h
      dsimp only at h
      split at h
      · split_ifs at h
        · obtain ⟨url, hurl, h⟩ := Raising.bind_eq_ok.mp h
          cases h
          intro c hc
          rcases List.mem_append.mp hc with hc | hc
          · exact hs c hc
          rcases url with _ | url
          · cases hc
          dsimp only at hc
          split_ifs at hc with hshown
          · rw [Bool.and_eq_true, decide_eq_true_eq] at hshown
            obtain ⟨parsed, hparsed, haccepted⟩ := ((unwrap_eq_some_iff ..).mp hurl).1
            rw [List.mem_singleton.mp hc]
            refine ⟨⟨url, parsed, hparsed, haccepted, rfl⟩, ?_⟩
            rw [String.toList_ofList]
            exact strip_title_ne_nil 511 hshown.1
          · cases hc
        · cases h
          exact hs
      · cases h
        exact hs

theorem foldlM_offered {host : Host} {s s' : SearchResults} {events : List HtmlEvent}
    (h : events.foldlM (SearchResults.handle host) s = .ok s')
    (hs : ∀ c ∈ s.results, Offered host c) : ∀ c ∈ s'.results, Offered host c := by
  induction events generalizing s with
  | nil =>
      cases h
      exact hs
  | cons event events ih =>
      rw [List.foldlM_cons] at h
      obtain ⟨next, hnext, h⟩ := Raising.bind_eq_ok.mp h
      exact ih h (SearchResults.handle_offered hnext hs)

theorem offered_of_searched {host : Host} {page : Page} {c : Candidate}
    (h : searched host page = some c) : Offered host c := by
  unfold searched at h
  split_ifs at h
  split at h
  · rename_i parser hparser
    exact foldlM_offered hparser (fun _ hc => nomatch hc) c (List.mem_of_mem_head? h)
  · cases h

/-- What is shown is never completed with a scheme. -/
theorem Offered.withScheme_eq {host : Host} (hhost : SlashesHaveNoScheme host) {c : Candidate}
    (h : Offered host c) : withScheme c.url = c.url := by
  obtain ⟨url, parsed, hparsed, haccepted, hurl⟩ := h.url
  refine if_neg fun hprefix => ?_
  have hfront : "//".toList <+: url.toList := by
    have hlist : c.url.toList = url.toList.take 2048 := by
      rw [hurl]
      exact String.toList_ofList
    have hcut := List.isPrefixOf_iff_prefix.mp hprefix
    rw [hlist] at hcut
    exact hcut.trans (List.take_prefix ..)
  have hscheme := hhost url parsed hparsed hfront
  rcases haccepted.scheme with h | h
  · rw [hscheme] at h
    exact absurd h (by decide)
  · rw [hscheme] at h
    exact absurd h (by decide)

/-- The first usable result of the page is no redirect to a usable address other than itself. -/
def Direct (host : Host) (page : Page) : Prop :=
  ∀ candidate, searched host page = some candidate → ∀ target,
    RedirectsTo host candidate.url target → Usable host target → target = candidate.url

theorem Offered.unwrap_iff {host : Host} (hhost : SlashesHaveNoScheme host) {c : Candidate}
    (h : Offered host c) (url : String) :
    unwrapSearchUrl host c.url = .ok (some url) ∧ url ≠ "" ↔
      Usable host url ∧ (RedirectsTo host c.url url ∨ url = c.url ∧
        ∀ target, ¬ RedirectsTo host c.url target) := by
  rw [unwrap_eq_some_iff, h.withScheme_eq hhost]
  constructor
  · rintro ⟨⟨hparsed, hway⟩, hne⟩
    exact ⟨⟨hne, hparsed⟩, hway⟩
  · rintro ⟨⟨hne, hparsed⟩, hway⟩
    exact ⟨⟨hparsed, hway⟩, hne⟩

/-! ### What a run opens -/

def pageOf : LocalEvent F → Option Page
  | ⟨.urlopen _, .ok page⟩ => some page
  | _ => none

/-- The page that the web search was answered with. -/
def answeredPage (t : LocalTrace F) : Option Page := t.findSome? pageOf

/-- The effects that neither ask the web nor open an address. -/
def aside : Effect → Bool
  | .urlopen _ | .webbrowserOpen _ => false
  | _ => true

theorem aside_of_look (e : Effect) (h : look e) : aside e := by
  cases e <;> first | rfl | cases h

theorem aside_of_asks (e : Effect) (h : asks e) : aside e := by
  cases e <;> first | rfl | cases h

theorem pageOf_of_offline {x : LocalEvent F} (h : offline x.1) : pageOf x = none := by
  obtain ⟨e, r⟩ := x
  cases e <;> first | rfl | cases h

theorem pageOf_of_aside {x : LocalEvent F} (h : aside x.1) : pageOf x = none := by
  obtain ⟨e, r⟩ := x
  cases e <;> first | rfl | cases h

theorem answeredPage_snoc {t : LocalTrace F} {x : LocalEvent F} (hx : pageOf x = none) :
    answeredPage (t ++ [x]) = answeredPage t := by
  unfold answeredPage
  rw [List.findSome?_append, List.findSome?_cons, hx]
  exact Option.or_none

section Opening

variable [PyFloat F] (host : Host) (agent : LocalAgent F) (params : Json) (page : Page)

/-- An address is opened only as the candidate that the page offered, which was shown where the
companion asks by itself, and only if it is usable. -/
def ApprovedOnly (past : LocalTrace F) (e : Effect) : Prop :=
  ∀ url, e = .webbrowserOpen url → answeredPage past = some page →
    ∃ candidate, searched host page = some candidate ∧ url = candidate.url ∧ Usable host url ∧
      (agent.approver = false → ∃ query, (⟨.approveLocally "open_app" params
        (some ⟨query, candidate⟩), .ok true⟩ : LocalEvent F) ∈ past)

variable {host agent params page}

omit [PyFloat F] in
theorem approvedOnly_of_aside {past : LocalTrace F} {e : Effect} (h : aside e) :
    ApprovedOnly host agent params page past e := by
  rintro url rfl
  cases h

omit [PyFloat F] in
theorem approvedOnly_of_unanswered {past : LocalTrace F} {e : Effect}
    (h : answeredPage past = none) : ApprovedOnly host agent params page past e := by
  intro url _ hpage
  rw [h] at hpage
  cases hpage

omit [PyFloat F] in
/-- A part that stays aside leaves the page as it was. -/
theorem safe_of_aside {α : Type} {p : LocalAction F α} (hp : Only (fun e => aside e) p.run)
    (past : LocalTrace F) : Safe (ApprovedOnly host agent params page) p.run
      (fun t _ => answeredPage t = answeredPage past ∧ past <+: t) past :=
  hp.safe (G := ApprovedOnly host agent params page)
    (D := fun t => answeredPage t = answeredPage past)
    (fun _ _ hx ht => (answeredPage_snoc (pageOf_of_aside hx)).trans ht)
    (fun _ _ _ he => approvedOnly_of_aside he) rfl

omit [PyFloat F] in
/-- Where no page was answered, nothing is asked of what is opened. -/
theorem safe_offline {α : Type} {p : LocalAction F α} (hp : OfflineOnly p)
    (past : LocalTrace F) (hpast : answeredPage past = none) :
    Safe (ApprovedOnly host agent params page) p.run (fun _ _ => True) past := by
  refine Safe.mono (fun _ _ _ => trivial) (hp.safe (G := ApprovedOnly host agent params page)
    (D := fun t => answeredPage t = none) ?_ ?_ hpast)
  · exact fun _ _ hx h => (answeredPage_snoc (pageOf_of_offline hx)).trans h
  · exact fun _ _ h _ => approvedOnly_of_unanswered h

omit [PyFloat F] in
theorem safe_searchWeb (query : String) (past : LocalTrace F) (hpast : answeredPage past = none) :
    Safe (ApprovedOnly host agent params page) (searchWeb host query).run
      (fun t r => ∀ candidate, r = .ok (some candidate) →
        ∃ found, answeredPage t = some found ∧ searched host found = some candidate) past := by
  unfold searchWeb
  dsimp only
  split_ifs
  · exact fun _ h => nomatch h
  refine (safe_run_bind ..).mpr ((safe_run_tryCatch ..).mpr ((safe_call ..).mpr
    ⟨fun _ h => (nomatch h), fun answer => ?_⟩))
  rcases answer with exn | found
  · dsimp only [id_eq]
    split_ifs
    · exact fun _ h => nomatch h
    · exact fun _ h => nomatch h
  dsimp only [id_eq]
  split_ifs with hbytes
  · exact fun _ h => nomatch h
  refine (safe_run_bind ..).mpr ((safe_fromExcept ..).mpr ?_)
  cases hfold : found.events.foldlM (SearchResults.handle host) ⟨[], none, []⟩ with
  | error exn => exact fun _ h => nomatch h
  | ok parser =>
      intro candidate hcandidate
      refine ⟨found, ?_, ?_⟩
      · unfold answeredPage at hpast ⊢
        rw [List.findSome?_append, hpast]
        rfl
      · unfold searched
        rw [if_neg hbytes, hfold]
        exact Except.ok.inj hcandidate

theorem safe_requireShown (context : ApprovalContext) (past : LocalTrace F) :
    Safe (ApprovedOnly host agent params page)
      (require' host agent "open_apps" "open_app" params (some context)).run
      (fun t r => answeredPage t = answeredPage past ∧ (r = .ok () → agent.approver = false →
        (⟨.approveLocally "open_app" params (some context), .ok true⟩ : LocalEvent F) ∈ t))
      past := by
  have hquiet := ((only_require host agent "open_apps" "open_app" params (some context)).mono
    aside_of_asks)
  refine safe_of_wp ((wp_iff ..).mpr fun t r hrun => ⟨?_, ?_⟩) fun t e hstart =>
    approvedOnly_of_aside (hquiet.starts hstart)
  · have hkeeps : wp _ (fun t _ => answeredPage t = answeredPage past) past := hquiet.wp
      (fun _ _ hx ht => (answeredPage_snoc (pageOf_of_aside hx)).trans ht) rfl
    exact (wp_iff ..).mp hkeeps t r hrun
  · refine (wp_iff ..).mp (?_ : wp _ (fun t r => r = .ok () → agent.approver = false →
      (⟨.approveLocally "open_app" params (some context), .ok true⟩ : LocalEvent F) ∈ t) past) t r
      hrun
    refine (wp_run_bind ..).mpr (wp_mono ?_ (wp_trivial ..))
    rintro t (exn | _) _
    · exact fun h => nomatch h
    refine (wp_run_bind ..).mpr ?_
    unfold approval
    split_ifs with happrover
    · refine wp_mono ?_ (wp_trivial ..)
      rintro t (exn | approved) _
      · exact fun h => nomatch h
      · exact (wp_iff ..).mpr fun _ _ _ _ h => absurd happrover (Bool.eq_false_iff.mp h)
    · refine (wp_call ..).mpr fun answer => ?_
      rcases answer with exn | approved
      · exact fun h => nomatch h
      cases approved with
      | false => exact fun h => nomatch h
      | true =>
          refine wp_mono ?_ (wp_grows (wp_trivial ..))
          rintro t r ⟨hgrows, _⟩ _ _
          exact hgrows.subset (List.mem_append_right _ (List.mem_singleton_self _))

theorem safe_openBySearch_approved (hhost : SlashesHaveNoScheme host) (hdirect : Direct host page)
    (query : String) (past : LocalTrace F) (hpast : answeredPage past = none) :
    Safe (ApprovedOnly host agent params page) (openBySearch host agent params query).run
      (fun _ _ => True) past := by
  refine (safe_run_bind ..).mpr ((safe_of_aside ((only_precheck host agent "open_apps" "open_app"
    params).mono aside_of_asks) past).mono fun t r ht => ?_)
  rcases r with exn | _
  · trivial
  refine (safe_run_bind ..).mpr ((safe_searchWeb query t (ht.1.trans hpast)).mono fun t r hr => ?_)
  rcases r with exn | candidate
  · trivial
  cases candidate with
  | none => trivial
  | some candidate =>
      obtain ⟨found, hfound, hsearched⟩ := hr candidate rfl
      refine (safe_run_bind ..).mpr ((safe_requireShown ⟨query, candidate⟩ t).mono fun t r hr => ?_)
      rcases r with exn | _
      · trivial
      refine (safe_run_bind ..).mpr ((safe_fromExcept ..).mpr ?_)
      rcases hunwrap : unwrapSearchUrl host candidate.url with exn | _ | url
      · trivial
      · trivial
      dsimp only
      split_ifs with hblank
      · trivial
      refine (safe_run_bind ..).mpr ((safe_call ..).mpr ⟨?_, fun answer => ?_⟩)
      · rintro _ ⟨⟩ hpage
        have hsame : found = page := Option.some.inj ((hr.1.trans hfound).symm.trans hpage)
        subst hsame
        rw [Bool.or_eq_true, not_or, decide_eq_true_eq, decide_eq_true_eq] at hblank
        obtain ⟨husable, hway⟩ := ((offered_of_searched hsearched).unwrap_iff hhost url).mp
          ⟨hunwrap, hblank.2⟩
        refine ⟨candidate, hsearched, ?_, husable, fun h => ⟨query, hr.2 rfl h⟩⟩
        rcases hway with hredirect | ⟨hurl, _⟩
        · exact hdirect candidate hsearched url hredirect husable
        · exact hurl
      · rcases answer with exn | _
        · trivial
        · trivial

/-- A launch that the arguments or the machine decided on. -/
theorem safe_required_offline {rest : LocalAction F Details} (hrest : OfflineOnly rest)
    (past : LocalTrace F) (hpast : answeredPage past = none) :
    Safe (ApprovedOnly host agent params page)
      (require' host agent "open_apps" "open_app" params none >>= fun _ => rest).run
      (fun _ _ => True) past := by
  have hrequire : Only (fun e => aside e)
      (require' host agent "open_apps" "open_app" params none).run :=
    (only_require ..).mono aside_of_asks
  refine (safe_run_bind ..).mpr ((safe_of_aside hrequire past).mono fun t r ht => ?_)
  rcases r with exn | _
  · trivial
  · exact safe_offline hrest t (ht.1.trans hpast)

theorem safe_openApp_approved (hhost : SlashesHaveNoScheme host) (hdirect : Direct host page) :
    Safe (ApprovedOnly host agent params page) (openApp host agent params).run
      (fun _ _ => True) [] := by
  unfold openApp
  cases params with
  | object fields =>
      dsimp only
      cases firstTruthy fields appParamKeys with
      | none => trivial
      | some value =>
          have hsearch : LookOnly (searchFirst host agent (host.python.str value)
              (truthyKey fields "search_query") : LocalAction F Bool) :=
            only_run_ite (only_run_pure _) (lookOnly_needsWebSearch ..)
          have hlaunch : OfflineOnly (resolveAndLaunch host (host.python.str value)
              agent.appAliases : LocalAction F Details) := offlineOnly_resolveAndLaunch ..
          refine (safe_run_bind ..).mpr
            ((safe_of_aside (hsearch.mono aside_of_look) []).mono fun t r ht => ?_)
          rcases r with exn | search
          · trivial
          cases search with
          | true => exact safe_openBySearch_approved hhost hdirect _ t ht.1
          | false => exact safe_required_offline hlaunch t ht.1
  | _ => trivial

/-! ### A run that opens something else -/

/-- A companion that may open applications and asks by itself. -/
def openingAgent (F : Type) : LocalAgent F where
  capabilities := [("open_apps", .bool true)]
  allowedFolders := []
  appAliases := []
  approver := false
  deadline := none

def searchParams : Json := .object [("app", .string "x"), ("search_query", .string "x")]

theorem runs_executionAllowed :
    Runs (executionAllowed (none : Option F)).run [⟨.cancelIsSet, .ok false⟩] (.ok true) := by
  have hcancel : Runs (call .cancelIsSet id : LocalAction F Bool).run
      [⟨.cancelIsSet, .ok false⟩] (.ok false) :=
    runs_call (R := Effect.Answer F) .cancelIsSet id (.ok false)
  exact hcancel.run_bind (u := []) (.done _)

theorem runs_precheck :
    Runs (precheck host (openingAgent F) "open_apps" "open_app" searchParams).run
      [⟨.cancelIsSet, .ok false⟩] (.ok ()) := by
  have hvalid : validateAction F host.isAbsolute "open_app" searchParams = .ok () := rfl
  have hchecked : Runs (fromExcept (validateAction F host.isAbsolute "open_app" searchParams) :
      LocalAction F Unit).run [] (.ok ()) := by
    rw [hvalid]
    exact .done _
  have hallowed := runs_executionAllowed (F := F)
  refine hchecked.run_bind (hallowed.run_bind (u := []) ?_)
  exact .done _

omit [PyFloat F] in
theorem runs_searchWeb {candidate : Candidate} (h : searched host page = some candidate) :
    Runs (searchWeb host "x" : LocalAction F (Option Candidate)).run
      [⟨.urlopen (String.ofList (strip "x".toList)), .ok page⟩] (.ok (some candidate)) := by
  unfold searched at h
  split_ifs at h with hbytes
  split at h
  · rename_i parser hparser
    have hfound : Runs (exceptException (call (.urlopen (String.ofList (strip "x".toList))) id)
        fun _ => throw (.runtimeError
          "Local web search failed. Check this PC's internet connection.") :
        LocalAction F Page).run [⟨.urlopen (String.ofList (strip "x".toList)), .ok page⟩]
        (.ok page) := by
      have hcall : Runs (call (.urlopen (String.ofList (strip "x".toList))) id :
          LocalAction F Page).run [⟨.urlopen (String.ofList (strip "x".toList)), .ok page⟩]
          (.ok page) :=
        runs_call (R := Effect.Answer F) (.urlopen (String.ofList (strip "x".toList))) id (.ok page)
      exact Runs.bind (u := []) hcall (.done _)
    unfold searchWeb
    dsimp only
    rw [if_neg (by decide)]
    refine hfound.run_bind ?_
    rw [if_neg hbytes, hparser]
    rw [← h]
    exact .done _
  · cases h

theorem runs_requireShown (context : ApprovalContext) :
    Runs (require' host (openingAgent F) "open_apps" "open_app" searchParams (some context)).run
      [⟨.cancelIsSet, .ok false⟩, ⟨.approveLocally "open_app" searchParams (some context),
        .ok true⟩, ⟨.cancelIsSet, .ok false⟩] (.ok ()) := by
  have happroved : Runs (approval (openingAgent F) "open_app" searchParams (some context)).run
      [⟨.approveLocally "open_app" searchParams (some context), .ok true⟩] (.ok true) := by
    unfold approval
    rw [if_neg fun h => nomatch h]
    exact runs_call (R := Effect.Answer F)
      (.approveLocally "open_app" searchParams (some context)) id (.ok true)
  have hallowed := runs_executionAllowed (F := F)
  refine runs_precheck.run_bind (happroved.run_bind (hallowed.run_bind (u := []) ?_))
  exact .done _

omit [PyFloat F] in
theorem starts_openSearchResult {candidate : Candidate} {url : String}
    (hurl : unwrapSearchUrl host candidate.url = .ok (some url)) (hne : url ≠ "")
    (htitle : strip candidate.title.toList ≠ []) :
    Starts (openSearchResult host "x" candidate : LocalAction F Details).run []
      (.webbrowserOpen url) := by
  have hblank : ¬((decide (String.ofList (strip candidate.title.toList) = "") ||
      decide (url = "")) = true) := by
    rw [Bool.or_eq_true, decide_eq_true_eq, decide_eq_true_eq, not_or]
    refine ⟨fun h => htitle ?_, hne⟩
    rw [← String.toList_ofList (l := strip candidate.title.toList), h]
    rfl
  unfold openSearchResult
  rw [hurl]
  change Starts (if (_ || _) = true then _ else _ : LocalAction F Details).run [] _
  rw [if_neg hblank]
  exact .now _ _

/-- What the platform's library documents. -/
structure Documented (host : Host) : Prop where
  slashes : SlashesHaveNoScheme host
  str : ∀ text, host.python.str (.string text) = text

theorem starts_openApp (hhost : Documented host) {candidate : Candidate} {url : String}
    (hsearched : searched host page = some candidate)
    (hurl : unwrapSearchUrl host candidate.url = .ok (some url)) (hne : url ≠ "") :
    ∃ past, Starts (openApp host (openingAgent F) searchParams).run past (.webbrowserOpen url) ∧
      answeredPage past = some page := by
  obtain ⟨past, hopen, hpage⟩ : ∃ past,
      Starts (openBySearch host (openingAgent F) searchParams "x").run past
        (.webbrowserOpen url) ∧ answeredPage past = some page :=
    ⟨_, runs_precheck.starts_run_bind ((runs_searchWeb hsearched).starts_run_bind
      ((runs_requireShown ⟨"x", candidate⟩).starts_run_bind
        (starts_openSearchResult hurl hne (offered_of_searched hsearched).title))), rfl⟩
  refine ⟨past, ?_, hpage⟩
  change Starts (openBySearch host (openingAgent F) searchParams
    (host.python.str (.string "x"))).run _ _
  rw [hhost.str]
  exact hopen

variable (F host page) in
/-- Whatever the companion opens once a search was answered with this page was approved. -/
def OpensApproved : Prop :=
  ∀ (agent : LocalAgent F) params past e, Starts (openApp host agent params).run past e →
    ApprovedOnly host agent params page past e

/-- What a page makes `open_app` open is the candidate that was approved, exactly when the
candidate is no redirect to something else. -/
theorem opens_approved_iff_direct (hhost : Documented host) :
    OpensApproved F host page ↔ Direct host page := by
  constructor
  · intro h candidate hsearched target hredirect husable
    obtain ⟨hunwrap, hne⟩ := ((offered_of_searched hsearched).unwrap_iff hhost.slashes target).mpr
      ⟨husable, .inl hredirect⟩
    obtain ⟨past, hstart, hpage⟩ := starts_openApp (F := F) hhost hsearched hunwrap hne
    obtain ⟨shown, hshown, hurl, _⟩ := h _ _ past _ hstart target rfl hpage
    rw [hsearched, Option.some.injEq] at hshown
    rw [hurl, ← hshown]
  · intro hdirect agent params past e hstart
    exact (safe_openApp_approved hhost.slashes hdirect).starts hstart

end Opening

/-! ### `urllib` -/

/-- `urlsplit`, with the parts that the launcher reads. -/
def urllibSplit (special : List Char → Bool) (lower : List Char → List Char) (url : String) :
    Result SplitUrl :=
  match Urls.urlsplit special url.toList with
  | none => .error (.valueError "Invalid URL")
  | some parts => .ok
      { scheme := String.ofList parts.scheme
        hostname := (Urls.hostname lower parts.netloc).map String.ofList
        path := String.ofList parts.path
        query := String.ofList parts.query
        username := (Urls.username parts.netloc).map String.ofList
        password := (Urls.password parts.netloc).map String.ofList }

def urllibUddg (query : String) : String :=
  String.ofList (((Urls.parseQsl query.toList).lookup "uddg".toList).getD [])

/-- A Windows machine with Python's URL library, on ASCII texts. -/
def urllibHost : Host :=
  { windowsHost with
    python := ⟨windowsHost.python.unicode, fun value => match value with
      | .string text => text
      | _ => ""⟩
    urlsplit := urllibSplit (fun _ => false) (List.map Char.toLower)
    uddg := urllibUddg }

theorem documented_urllibHost : Documented urllibHost := by
  refine ⟨fun url parsed hparsed hslashes => ?_, fun _ => rfl⟩
  obtain ⟨rest, hrest⟩ := hslashes
  change urllibSplit _ _ url = _ at hparsed
  unfold urllibSplit at hparsed
  rw [← hrest] at hparsed
  split at hparsed
  · cases hparsed
  · rename_i parts hparts
    cases hparsed
    exact congrArg String.ofList (Urls.urlsplit_scheme_of_slash _ hparts)

def resultPage (href : String) : Page :=
  ⟨100, [.startTag "a" [("class", some "result__a"), ("href", some href)], .data "Example",
    .endTag "a"]⟩

/-- A redirect within a redirect. -/
def nestedHref : String :=
  "https://duckduckgo.com/l/?uddg=https%3A%2F%2Fduckduckgo.com%2Fl%2F%3Fuddg%3Dhttps%3A%2F%2Fa.b"

theorem opens_approved_iff_direct_redirect :
    OpensApproved ℚ urllibHost (resultPage "//duckduckgo.com/l/?uddg=https%3A%2F%2Fa.b%2Fc") := by
  refine (opens_approved_iff_direct documented_urllibHost).mpr ?_
  intro candidate hsearched target hredirect _
  have hfound : searched urllibHost
      (resultPage "//duckduckgo.com/l/?uddg=https%3A%2F%2Fa.b%2Fc") =
        some ⟨"Example", "https://a.b/c"⟩ := by decide +kernel
  have hpath : (urllibHost.urlsplit "https://a.b/c").toOption.map (·.path) = some "/c" := by
    decide +kernel
  obtain ⟨parsed, hparsed, hisRedirect, _⟩ := hredirect
  rw [hfound, Option.some.injEq] at hsearched
  rw [← hsearched] at hparsed
  rw [hparsed] at hpath
  exact absurd (hisRedirect.path.symm.trans (Option.some.inj hpath)) (by decide)

/-- The address shown is the inner redirect, and the address opened is its target. -/
theorem nested_redirect_opens_another : ∃ past,
    Starts (openApp urllibHost (openingAgent ℚ) searchParams).run past
      (.webbrowserOpen "https://a.b") ∧
    answeredPage past = some (resultPage nestedHref) ∧
    searched urllibHost (resultPage nestedHref) =
      some ⟨"Example", "https://duckduckgo.com/l/?uddg=https://a.b"⟩ := by
  have hfound : searched urllibHost (resultPage nestedHref) =
      some ⟨"Example", "https://duckduckgo.com/l/?uddg=https://a.b"⟩ := by decide +kernel
  have hunwrap : (unwrapSearchUrl urllibHost
      "https://duckduckgo.com/l/?uddg=https://a.b").toOption = some (some "https://a.b") := by
    decide +kernel
  have hok : unwrapSearchUrl urllibHost "https://duckduckgo.com/l/?uddg=https://a.b" =
      .ok (some "https://a.b") := by
    cases h : unwrapSearchUrl urllibHost "https://duckduckgo.com/l/?uddg=https://a.b" with
    | error exn =>
        rw [h] at hunwrap
        cases hunwrap
    | ok url =>
        rw [h] at hunwrap
        rw [Option.some.inj hunwrap]
  obtain ⟨past, hstart, hpage⟩ := starts_openApp (F := ℚ) documented_urllibHost hfound hok
    (by decide)
  exact ⟨past, hstart, hpage, hfound⟩

end Ally.Companion
