import Ally.LocalPCTool
import Ally.Raising

/-!
# No action without local consent

Whatever the companion is asked to do, the effect of an action starts only after the checks
and the approval of that very command, and a file effect only inside an allowed folder.
-/

namespace Ally.Companion

open Interaction
open PCAgentBridge (Json)

variable {F : Type} [PyFloat F]

/-! ### What consent is -/

/-- The effects of actions; looking at the machine is none. -/
def startsAction : Effect → Bool
  | .webbrowserOpen _ | .startfile _ | .popen _ | .allWindowTitles | .activateWindow _
  | .closeWindow _ | .openText _ | .readText .. | .writeText .. | .scandir _ | .moveTo ..
  | .clickButton _ | .typewrite _ | .press _ | .kernel (.createProcess ..) => true
  | _ => false

/-- The path a file effect touches. -/
def touched : Effect → Option Path
  | .openText path | .readText path _ | .writeText path _ | .scandir path => some path
  | _ => none

/-- A check that found the command neither cancelled nor past its deadline. -/
inductive CheckPassed (deadline : Option F) : LocalTrace F → Prop
  | unlimited (h : deadline = none) : CheckPassed deadline [⟨.cancelIsSet, .ok false⟩]
  | inTime {d now : F} (h : deadline = some d) (hnow : now < d) :
      CheckPassed deadline [⟨.cancelIsSet, .ok false⟩, ⟨.monotonic, .ok now⟩]

/-- The approver returned `True` for this action and these arguments. -/
inductive Approves (action : String) (params : Json) : (Σ e, Effect.Answer F e) → Prop
  | given : Approves action params ⟨.approve action params, .ok (.bool true)⟩
  | atTerminal (context : Option ApprovalContext) :
      Approves action params ⟨.approveLocally action params context, .ok true⟩

/-- What must have happened before an effect of the action starts. -/
structure Consented (host : Host) (agent : LocalAgent F) (action : PcAction) (params : Json)
    (past : LocalTrace F) : Prop where
  capability : agent.capabilities.lookup action.capability = some (.bool true)
  valid : validateAction F host.isAbsolute action.text params = .ok ()
  checked : ∃ before first approval second after,
    past = before ++ first ++ [approval] ++ second ++ after ∧ CheckPassed agent.deadline first ∧
      Approves action.text params approval ∧ CheckPassed agent.deadline second

/-- The path is the folder or lies in it. -/
def Inside (host : Host) (folder path : Path) : Prop :=
  ∃ k ≤ path.parts.length, samePath host ⟨path.anchor, path.parts.take k⟩ folder

/-- The path is what the path of the command resolved to, inside a folder the agent allows. -/
def Allowed (host : Host) (agent : LocalAgent F) (params : Json) (past : LocalTrace F)
    (path : Path) : Prop :=
  ∃ raw, getKey params "path" = .ok (some (.string raw)) ∧ ⟨.resolve raw, .ok path⟩ ∈ past ∧
    ∃ folder ∈ agent.allowedFolders, ∃ resolved, ⟨.resolve folder, .ok resolved⟩ ∈ past ∧
      Inside host resolved path

/-- The deadline of a command, from what the clocks answered when it arrived. -/
inductive CommandDeadline (agent : LocalAgent F) : Option Json → LocalTrace F → Option F → Prop
  | unlimited {past : LocalTrace F} : CommandDeadline agent none past agent.deadline
  | expiring {value : Json} {n : Number F} {expires now wall : F} {past : LocalTrace F}
      (hvalue : number? value = some n) (hfinite : n.isFinite = .ok true)
      (hexpires : n.toFloat = .ok expires) :
      CommandDeadline agent (some value) (⟨.monotonic, .ok now⟩ :: ⟨.time, .ok wall⟩ :: past)
        (some (now + if expires - wall < ((120 : ℤ) : F) then expires - wall
          else ((120 : ℤ) : F)))

/-! ### The gate -/

/-- What is asked of an effect that starts after `past`. -/
structure Gate (host : Host) (agent : LocalAgent F) (action : PcAction) (params : Json)
    (past : LocalTrace F) (e : Effect) : Prop where
  consented : startsAction e → Consented host agent action params past
  allowed : ∀ path, touched e = some path → Allowed host agent params past path

variable {host : Host} {agent : LocalAgent F} {action : PcAction} {params : Json}

theorem Consented.append {past : LocalTrace F} (h : Consented host agent action params past)
    (t : LocalTrace F) : Consented host agent action params (past ++ t) := by
  obtain ⟨before, first, approval, second, after, rfl, hfirst, happroval, hsecond⟩ := h.checked
  refine ⟨h.capability, h.valid, before, first, approval, second, after ++ t, ?_, hfirst,
    happroval, hsecond⟩
  simp only [List.append_assoc]

theorem touched_startsAction {e : Effect} {path : Path} (h : touched e = some path) :
    startsAction e := by
  cases e <;> first | rfl | cases h

/-- What starts no action passes the gate. -/
theorem gate_of_quiet {past : LocalTrace F} {e : Effect} (h : startsAction e = false) :
    Gate host agent action params past e where
  consented hstarts := by rw [h] at hstarts; cases hstarts
  allowed path hpath := by rw [touched_startsAction hpath] at h; cases h

/-- After consent, everything but a file effect passes. -/
theorem gate_of_consented {past : LocalTrace F} {e : Effect}
    (h : Consented host agent action params past) (he : touched e = none) :
    Gate host agent action params past e where
  consented _ := h
  allowed path hpath := by rw [he] at hpath; cases hpath

/-- A part of a handler that starts no action. -/
theorem safe_of_quiet {α : Type} {p : LocalAction F α}
    (h : Only (fun e => startsAction e = false) p.run) (past : LocalTrace F) :
    Safe (Gate host agent action params) p.run (fun _ _ => True) past :=
  (h.safe (G := Gate host agent action params) (D := fun _ => True) (fun _ _ _ _ => trivial)
    (fun _ _ _ he => gate_of_quiet he) trivial).mono fun _ _ _ => trivial

/-- A part of a handler, after consent, that touches no file. -/
theorem safe_of_consented {α : Type} {p : LocalAction F α}
    (h : Only (fun e => touched e = none) p.run) {past : LocalTrace F}
    (hpast : Consented host agent action params past) :
    Safe (Gate host agent action params) p.run (fun _ _ => True) past :=
  (h.safe (G := Gate host agent action params) (D := Consented host agent action params)
    (fun _ x _ ht => ht.append [x]) (fun _ _ ht he => gate_of_consented ht he) hpast).mono
    fun _ _ _ => trivial

/-! ### The checks -/

theorem safe_executionAllowed (deadline : Option F) (past : LocalTrace F) :
    Safe (Gate host agent action params) (executionAllowed deadline).run
      (fun t r => r = .ok true → ∃ s, t = past ++ s ∧ CheckPassed deadline s) past := by
  refine (safe_run_bind ..).mpr ((safe_call ..).mpr ⟨gate_of_quiet rfl, fun answer => ?_⟩)
  cases answer with
  | error exn => exact fun h => nomatch h
  | ok cancelled =>
      cases cancelled with
      | true => exact fun h => nomatch h
      | false =>
          cases deadline with
          | none => exact fun _ => ⟨_, rfl, .unlimited rfl⟩
          | some d =>
              refine (safe_run_bind ..).mpr ((safe_call ..).mpr ⟨gate_of_quiet rfl, fun answer => ?_⟩)
              cases answer with
              | error exn => exact fun h => nomatch h
              | ok now =>
                  intro h
                  have hnow : now < d := of_decide_eq_true (Except.ok.inj h)
                  exact ⟨_, List.append_assoc .., .inTime rfl hnow⟩

/-- What the checks before the approval have found when they pass. -/
structure Prechecked (host : Host) (agent : LocalAgent F) (action : PcAction) (params : Json)
    (past t : LocalTrace F) : Prop where
  capability : agent.capabilities.lookup action.capability = some (.bool true)
  valid : validateAction F host.isAbsolute action.text params = .ok ()
  checked : ∃ s, t = past ++ s ∧ CheckPassed agent.deadline s

theorem eq_true_of_isTrue {value : Json} (h : isTrue value = true) : value = .bool true := by
  unfold isTrue at h
  split at h
  · rfl
  · cases h

theorem safe_precheck (action : PcAction) (past : LocalTrace F) :
    Safe (Gate host agent action params)
      (precheck host agent action.capability action.text params).run
      (fun t r => r = .ok () → Prechecked host agent action params past t) past := by
  unfold precheck
  cases hcapability : agent.capabilities.lookup action.capability with
  | none => exact fun h => nomatch h
  | some value =>
      cases hvalue : isTrue value with
      | false =>
          rw [Option.any_some, hvalue]
          exact fun h => nomatch h
      | true =>
          rw [Option.any_some, hvalue]
          refine (safe_run_bind ..).mpr ((safe_fromExcept ..).mpr ?_)
          cases hvalid : validateAction F host.isAbsolute action.text params with
          | error exn => exact fun h => nomatch h
          | ok _ =>
              refine (safe_run_bind ..).mpr ((safe_executionAllowed _ past).mono fun t r hr => ?_)
              cases r with
              | error exn => exact fun h => nomatch h
              | ok passed =>
                  cases passed with
                  | false => exact fun h => nomatch h
                  | true =>
                      rw [eq_true_of_isTrue hvalue] at hcapability
                      exact fun _ => ⟨hcapability, hvalid, hr rfl⟩

theorem safe_approval (context : Option ApprovalContext) (past : LocalTrace F) :
    Safe (Gate host agent action params) (approval agent action.text params context).run
      (fun t r => r = .ok true → ∃ x, t = past ++ [x] ∧ Approves action.text params x) past := by
  unfold approval
  cases agent.approver with
  | true =>
      refine (safe_run_bind ..).mpr ((safe_call ..).mpr ⟨gate_of_quiet rfl, fun answer => ?_⟩)
      cases answer with
      | error exn => exact fun h => nomatch h
      | ok value =>
          intro h
          rw [eq_true_of_isTrue (Except.ok.inj h)]
          exact ⟨_, rfl, .given⟩
  | false =>
      refine (safe_call ..).mpr ⟨gate_of_quiet rfl, fun answer => ?_⟩
      rintro rfl
      exact ⟨_, rfl, .atTerminal context⟩

/-- `_require` returns only with the consent to this action. -/
theorem safe_require (context : Option ApprovalContext) (past : LocalTrace F) :
    Safe (Gate host agent action params)
      (require' host agent action.capability action.text params context).run
      (fun t r => r = .ok () → Consented host agent action params t) past := by
  refine (safe_run_bind ..).mpr ((safe_precheck action past).mono fun t r hr => ?_)
  cases r with
  | error exn => exact fun h => nomatch h
  | ok _ =>
      obtain ⟨hcapability, hvalid, first, rfl, hfirst⟩ := hr rfl
      refine (safe_run_bind ..).mpr ((safe_approval context _).mono fun t r hr => ?_)
      cases r with
      | error exn => exact fun h => nomatch h
      | ok approved =>
          cases approved with
          | false => exact fun h => nomatch h
          | true =>
              obtain ⟨x, rfl, hx⟩ := hr rfl
              refine (safe_run_bind ..).mpr ((safe_executionAllowed _ _).mono fun t r hr => ?_)
              cases r with
              | error exn => exact fun h => nomatch h
              | ok passed =>
                  cases passed with
                  | false => exact fun h => nomatch h
                  | true =>
                      obtain ⟨second, rfl, hsecond⟩ := hr rfl
                      exact fun _ => ⟨hcapability, hvalid, past, first, x, second, [],
                        (List.append_nil _).symm, hfirst, hx, hsecond⟩

/-- A handler that begins with `_require` and touches no file. -/
theorem safe_required (action : PcAction) {rest : LocalAction F Details}
    (context : Option ApprovalContext)
    (hrest : Only (fun e => touched e = none) rest.run) (past : LocalTrace F) :
    Safe (Gate host agent action params)
      (require' host agent action.capability action.text params context >>= fun _ => rest).run
      (fun _ _ => True) past := by
  refine (safe_run_bind ..).mpr ((safe_require context past).mono fun t r hr => ?_)
  cases r with
  | error exn => trivial
  | ok _ => exact safe_of_consented hrest (hr rfl)

/-! ### Handlers that touch no file -/

omit [PyFloat F] in
theorem only_importing {P : Effect → Prop} (message : String) {p : LocalAction F Unit}
    (hp : Only P p.run) : Only P (importing p message).run :=
  only_run_tryCatch hp fun _ => only_run_ite (only_run_throw _) (only_run_throw _)

omit [PyFloat F] in
theorem only_offline {α : Type} {p : LocalAction F α} (h : OfflineOnly p) :
    Only (fun e => touched e = none) p.run := by
  refine h.mono fun e he => ?_
  cases e <;> first | rfl | cases he

omit [PyFloat F] in
theorem only_shell {α : Type} {p : LocalAction F α} (h : ShellOnly p) :
    Only (fun e => touched e = none) p.run := by
  refine h.mono fun e he => ?_
  cases e <;> first | rfl | cases he

omit [PyFloat F] in
theorem only_probe {α : Type} {p : LocalAction F α} (h : ProbeOnly p) :
    Only (fun e => startsAction e = false) p.run := by
  refine h.mono fun e he => ?_
  cases e <;> first | rfl | cases he

theorem safe_openBySearch (searchQuery : String) (past : LocalTrace F) :
    Safe (Gate host agent .openApp params) (openBySearch host agent params searchQuery).run
      (fun _ _ => True) past := by
  refine (safe_run_bind ..).mpr ((safe_precheck .openApp past).mono fun t r _ => ?_)
  cases r with
  | error exn => trivial
  | ok _ =>
      refine (safe_run_bind ..).mpr
        ((safe_of_quiet (only_probe (probeOnly_searchWeb host searchQuery)) t).mono fun t r _ => ?_)
      cases r with
      | error exn => trivial
      | ok candidate =>
          cases candidate with
          | none => trivial
          | some candidate =>
              exact safe_required .openApp _
                (only_offline (offlineOnly_openSearchResult host searchQuery candidate)) t

theorem safe_openApp (past : LocalTrace F) :
    Safe (Gate host agent .openApp params) (openApp host agent params).run
      (fun _ _ => True) past := by
  unfold openApp
  cases params with
  | object fields =>
      dsimp only
      cases firstTruthy fields appParamKeys with
      | none => trivial
      | some value =>
          have hlaunch : Only (fun e => touched e = none)
              (resolveAndLaunch host (host.python.str value) agent.appAliases :
                LocalAction F Details).run := only_offline (offlineOnly_resolveAndLaunch ..)
          have hsearch : LookOnly (searchFirst host agent (host.python.str value)
              (truthyKey fields "search_query") : LocalAction F Bool) :=
            only_run_ite (only_run_pure _) (lookOnly_needsWebSearch ..)
          refine (safe_run_bind ..).mpr
            ((safe_of_quiet (only_probe (hsearch.mono probe_of_look)) past).mono fun t r _ => ?_)
          cases r with
          | error exn => trivial
          | ok search =>
              cases search with
              | true => exact safe_openBySearch _ t
              | false => exact safe_required .openApp none hlaunch t
  | _ => trivial

theorem safe_listWindows (past : LocalTrace F) :
    Safe (Gate host agent .listWindows params) (listWindows host agent params).run
      (fun _ _ => True) past := by
  have hpackage : Only (fun e => touched e = none)
      (call .importPygetwindow id : LocalAction F Unit).run := only_call _ rfl
  refine safe_required .listWindows none ?_ past
  refine only_run_bind (only_importing _ hpackage) fun _ => ?_
  exact only_run_bind (only_call _ rfl) fun _ => only_run_pure _

/-- Focusing and closing a window. -/
theorem safe_withWindow (action : PcAction) {act : ℕ → LocalAction F Unit} (done : String)
    (hcapability : action.capability = "open_apps")
    (hact : ∀ window, Only (fun e => touched e = none) (act window).run) (past : LocalTrace F) :
    Safe (Gate host agent action params)
      (withWindow host agent action.text done act params).run (fun _ _ => True) past := by
  have hpackage : Only (fun e => touched e = none)
      (call .importPygetwindow id : LocalAction F Unit).run := only_call _ rfl
  unfold withWindow
  rw [← hcapability]
  refine safe_required action none ?_ past
  refine only_run_bind (only_fromExcept _) fun value => ?_
  refine only_run_ite (only_run_throw _) ?_
  refine only_run_bind (only_importing _ hpackage) fun _ => ?_
  refine only_run_bind (only_fromExcept _) fun title => ?_
  refine only_run_bind (only_call _ rfl) fun windows => ?_
  cases windows with
  | nil => exact only_run_throw _
  | cons window windows =>
      refine only_run_bind (hact window) fun _ => ?_
      exact only_run_bind (only_call _ rfl) fun _ => only_run_pure _

omit [PyFloat F] in
theorem only_append (audit : ExecutionAudit) (fields : AuditFields) :
    Only (fun e => touched e = none) (audit.append fields : LocalAction F Unit).run := by
  refine only_run_bind (only_call _ rfl) fun eventId => ?_
  refine only_run_bind (only_call _ rfl) fun _ => ?_
  refine only_run_bind (only_call _ rfl) fun _ => ?_
  refine only_run_bind (only_bind ?_ fun _ => .done _) fun written => ?_
  · refine only_run_bind (only_call _ rfl) fun _ => ?_
    exact only_run_bind (only_call _ rfl) fun _ => only_call _ rfl
  · exact only_run_bind (only_call _ rfl) fun _ => only_fromExcept _

omit [PyFloat F] in
theorem only_recorded {P : Effect → Prop} {p : LocalAction F Unit} (hp : Only P p.run) :
    Only P (recorded p).run :=
  only_run_tryCatch (only_run_bind hp fun _ => only_run_pure _) fun _ =>
    only_run_ite (only_run_pure _) (only_run_throw _)

theorem safe_runCommand (fuel : ℕ) (past : LocalTrace F) :
    Safe (Gate host agent .runCommand params) (runCommand host fuel agent params).run
      (fun _ _ => True) past := by
  refine safe_required .runCommand none ?_ past
  refine only_run_bind (only_fromExcept _) fun value => ?_
  refine only_run_ite (only_run_throw _) ?_
  refine only_run_bind (only_fromExcept _) fun command => ?_
  refine only_run_bind (only_fromExcept _) fun cwd => ?_
  refine only_run_bind (only_fromExcept _) fun timeout => ?_
  refine only_run_bind (only_run_bind (only_call _ rfl) fun _ => only_run_pure _)
    fun audit => ?_
  refine only_run_bind (only_append audit .approved) fun _ => ?_
  refine only_run_bind (only_bind (only_shell (shellOnly_runShell ..)) fun _ => .done _)
    fun result => ?_
  cases result with
  | error exn =>
      exact only_run_bind (only_recorded (only_append ..)) fun _ => only_run_throw _
  | ok result =>
      exact only_run_bind (only_recorded (only_append ..)) fun _ => only_run_pure _

/-- The handlers of the mouse and the keyboard. -/
theorem safe_withPyautogui (action : PcAction) {act : Json → LocalAction F Details}
    (hcapability : action.capability = "mouse_keyboard_control")
    (hact : ∀ params, Only (fun e => touched e = none) (act params).run) (past : LocalTrace F) :
    Safe (Gate host agent action params)
      (withPyautogui host agent action.text act params).run (fun _ _ => True) past := by
  have hpackage : Only (fun e => touched e = none)
      (call .importPyautogui id : LocalAction F Unit).run := only_call _ rfl
  unfold withPyautogui
  rw [← hcapability]
  refine safe_required action none ?_ past
  exact only_run_bind (only_importing _ hpackage) fun _ => hact params

/-! ### Handlers of files -/

theorem samePath_comm (p q : Path) : samePath host p q = samePath host q p := by
  unfold samePath
  rw [Bool.eq_iff_iff]
  simp only [eq_comm]

theorem inside_of_check {folder path : Path}
    (h : (samePath host path folder || path.parents.any (samePath host folder)) = true) :
    Inside host folder path := by
  rcases Bool.or_eq_true_iff.mp h with hsame | hparent
  · refine ⟨path.parts.length, le_rfl, ?_⟩
    rw [List.take_length]
    exact hsame
  · obtain ⟨parent, hmem, hsame⟩ := List.any_eq_true.mp hparent
    obtain ⟨k, hk, rfl⟩ := List.mem_map.mp hmem
    rw [List.mem_reverse, List.mem_range] at hk
    exact ⟨k, hk.le, by rwa [samePath_comm]⟩

theorem safe_findFolder (path : Path) (folders : List String) (past : LocalTrace F) :
    Safe (Gate host agent action params) (findFolder host path folders).run
      (fun t r => ∃ s, t = past ++ s ∧ (r = .ok true → ∃ folder ∈ folders, ∃ resolved,
        ⟨.resolve folder, .ok resolved⟩ ∈ s ∧ Inside host resolved path)) past := by
  induction folders generalizing past with
  | nil => exact ⟨[], (List.append_nil _).symm, fun h => nomatch h⟩
  | cons folder folders ih =>
      refine (safe_run_bind ..).mpr ((safe_call ..).mpr ⟨gate_of_quiet rfl, fun answer => ?_⟩)
      cases answer with
      | error exn => exact ⟨_, rfl, fun h => nomatch h⟩
      | ok resolved =>
          dsimp only [id_eq]
          split_ifs with hinside
          · exact ⟨_, rfl, fun _ => ⟨folder, List.mem_cons_self, resolved, List.mem_singleton_self _,
              inside_of_check hinside⟩⟩
          · refine (ih _).mono ?_
            rintro t r ⟨s, rfl, hs⟩
            refine ⟨⟨.resolve folder, .ok resolved⟩ :: s, List.append_assoc .., fun h => ?_⟩
            obtain ⟨f, hf, resolved', hmem, hin⟩ := hs h
            exact ⟨f, List.mem_cons_of_mem _ hf, resolved', List.mem_cons_of_mem _ hmem, hin⟩

/-- What `_resolve_allowed_path` returns came from the path and lies in an allowed folder. -/
theorem safe_resolveAllowedPath (raw : String) (folders : List String) (past : LocalTrace F) :
    Safe (Gate host agent action params) (resolveAllowedPath host raw folders).run
      (fun t r => ∃ s, t = past ++ s ∧ ∀ path, r = .ok path →
        ⟨.resolve raw, .ok path⟩ ∈ s ∧ ∃ folder ∈ folders, ∃ resolved,
          ⟨.resolve folder, .ok resolved⟩ ∈ s ∧ Inside host resolved path) past := by
  refine (safe_run_bind ..).mpr ((safe_call ..).mpr ⟨gate_of_quiet rfl, fun answer => ?_⟩)
  cases answer with
  | error exn => exact ⟨_, rfl, fun _ h => nomatch h⟩
  | ok resolved =>
      refine (safe_run_bind ..).mpr ((safe_findFolder resolved folders _).mono ?_)
      rintro t r ⟨s, rfl, hs⟩
      have hpast : past ++ [⟨.resolve raw, .ok resolved⟩] ++ s =
          past ++ (⟨.resolve raw, .ok resolved⟩ :: s) := List.append_assoc ..
      cases r with
      | error exn => exact ⟨_, hpast, fun _ h => nomatch h⟩
      | ok found =>
          cases found with
          | false => exact ⟨_, hpast, fun _ h => nomatch h⟩
          | true =>
              refine ⟨_, hpast, ?_⟩
              rintro path ⟨⟩
              obtain ⟨folder, hfolder, f, hmem, hinside⟩ := hs rfl
              exact ⟨List.mem_cons_self, folder, hfolder, f, List.mem_cons_of_mem _ hmem, hinside⟩

/-- Arguments that were let through hold what the action needs. -/
theorem required_present {needed : List String} (hneeded : required.lookup action.text = some needed)
    (hvalid : validateAction F host.isAbsolute action.text params = .ok ()) {key : String}
    (hkey : key ∈ needed) : ∃ value, getKey params key = .ok (some value) := by
  unfold validateAction at hvalid
  rw [hneeded] at hvalid
  cases params with
  | object fields =>
      obtain ⟨_, hmissing, _⟩ := Raising.bind_eq_ok.mp hvalid
      unfold refuse at hmissing
      split_ifs at hmissing with hbad
      rw [Bool.or_eq_true_iff, not_or] at hbad
      have hpresent : (fields.lookup key).isNone ≠ true := fun hnone =>
        hbad.2 (List.any_eq_true.mpr ⟨key, hkey, hnone⟩)
      cases hvalue : fields.lookup key with
      | none => rw [hvalue] at hpresent; exact absurd rfl hpresent
      | some value => exact ⟨value, by rw [getKey, hvalue]⟩
  | _ => cases hvalid

/-- What the past of an effect on `path` holds once the path has been resolved. -/
def Resolved (host : Host) (agent : LocalAgent F) (action : PcAction) (params : Json) (path : Path)
    (past : LocalTrace F) : Prop :=
  Consented host agent action params past ∧ Allowed host agent params past path

theorem Resolved.append {path : Path} {past : LocalTrace F}
    (h : Resolved host agent action params path past) (t : LocalTrace F) :
    Resolved host agent action params path (past ++ t) := by
  obtain ⟨hconsented, raw, hraw, hresolve, folder, hfolder, resolved, hmem, hinside⟩ := h
  exact ⟨hconsented.append t, raw, hraw, List.mem_append_left _ hresolve, folder, hfolder, resolved,
    List.mem_append_left _ hmem, hinside⟩

/-- The handlers of files, of which `act` is what is done with the resolved path. -/
theorem safe_withPath (action : PcAction) {act : Path → Json → LocalAction F Details}
    (hcapability : action.capability = "file_rw")
    (hneeded : ∃ needed, required.lookup action.text = some needed ∧ "path" ∈ needed)
    (hact : ∀ path, Only (fun e => ∀ p, touched e = some p → p = path) (act path params).run)
    (past : LocalTrace F) :
    Safe (Gate host agent action params) (withPath host agent action.text act params).run
      (fun _ _ => True) past := by
  unfold withPath
  rw [← hcapability]
  refine (safe_run_bind ..).mpr ((safe_require none past).mono fun t r hr => ?_)
  cases r with
  | error exn => trivial
  | ok _ =>
      have hconsented := hr rfl
      obtain ⟨needed, hneeded, hpath⟩ := hneeded
      obtain ⟨value, hvalue⟩ := required_present hneeded hconsented.valid hpath
      refine (safe_run_bind ..).mpr ((safe_fromExcept ..).mpr ?_)
      rw [hvalue]
      cases value with
      | string raw =>
          refine (safe_run_bind ..).mpr
            ((safe_resolveAllowedPath raw agent.allowedFolders t).mono ?_)
          rintro t' r ⟨s, rfl, hs⟩
          cases r with
          | error exn => trivial
          | ok path =>
              obtain ⟨hresolve, folder, hfolder, resolved, hmem, hinside⟩ := hs path rfl
              have hresolved : Resolved host agent action params path (t ++ s) :=
                ⟨hconsented.append s, raw, hvalue, List.mem_append_right _ hresolve, folder, hfolder,
                  resolved, List.mem_append_right _ hmem, hinside⟩
              refine ((hact path).safe (G := Gate host agent action params)
                (D := Resolved host agent action params path) (fun _ x _ h => h.append [x])
                (fun _ e h he => ⟨fun _ => h.1, fun p hp => ?_⟩) hresolved).mono
                fun _ _ _ => trivial
              rw [he p hp]
              exact h.2
      | _ => trivial

theorem safe_handler (fuel : ℕ) (past : LocalTrace F) :
    Safe (Gate host agent action params) (handlerOf host fuel agent action params).run
      (fun _ _ => True) past := by
  cases action with
  | openApp => exact safe_openApp past
  | listWindows => exact safe_listWindows past
  | focusWindow =>
      change Safe _ (focusWindow host agent params).run _ _
      unfold focusWindow
      exact safe_withWindow .focusWindow "focused" rfl (fun _ => only_call _ rfl) past
  | closeWindow =>
      change Safe _ (closeWindow host agent params).run _ _
      unfold closeWindow
      exact safe_withWindow .closeWindow "closed" rfl (fun _ => only_call _ rfl) past
  | readFile =>
      change Safe _ (readFile host agent params).run _ _
      unfold readFile
      refine safe_withPath .readFile rfl ⟨_, rfl, List.mem_cons_self⟩ (fun path => ?_) past
      refine only_run_bind (only_call _ fun p hp => (Option.some.inj hp).symm) fun _ => ?_
      exact only_run_bind (only_call _ fun p hp => (Option.some.inj hp).symm) fun _ => only_run_pure _
  | writeFile =>
      change Safe _ (writeFile host agent params).run _ _
      unfold writeFile
      refine safe_withPath .writeFile rfl ⟨_, rfl, List.mem_cons_self⟩ (fun path => ?_) past
      refine only_run_bind (only_fromExcept _) fun content => ?_
      exact only_run_bind (only_call _ fun p hp => (Option.some.inj hp).symm) fun _ => only_run_pure _
  | listDirectory =>
      change Safe _ (listDirectory host agent params).run _ _
      unfold listDirectory
      refine safe_withPath .listDirectory rfl ⟨_, rfl, List.mem_cons_self⟩ (fun path => ?_) past
      exact only_run_bind (only_call _ fun p hp => (Option.some.inj hp).symm) fun _ => only_run_pure _
  | runCommand => exact safe_runCommand fuel past
  | moveMouse =>
      change Safe _ (moveMouse host agent params).run _ _
      unfold moveMouse
      refine safe_withPyautogui .moveMouse rfl (fun params => ?_) past
      refine only_run_bind (only_fromExcept _) fun x => ?_
      refine only_run_bind (only_fromExcept _) fun y => ?_
      exact only_run_ite (only_run_throw _) (only_run_bind (only_call _ rfl) fun _ => only_run_pure _)
  | moveMouseToCorner =>
      change Safe _ (moveMouseToCorner host agent params).run _ _
      unfold moveMouseToCorner
      refine safe_withPyautogui .moveMouseToCorner rfl (fun params => ?_) past
      refine only_run_bind (only_fromExcept _) fun corner => ?_
      cases corner with
      | none => exact only_run_throw _
      | some value =>
          refine only_run_bind (only_call _ rfl) fun size => ?_
          refine only_run_bind (only_fromExcept _) fun corner => ?_
          exact only_run_bind (only_call _ rfl) fun _ => only_run_pure _
  | click =>
      change Safe _ (click host agent params).run _ _
      unfold click
      refine safe_withPyautogui .click rfl (fun params => ?_) past
      refine only_run_bind (only_fromExcept _) fun button => ?_
      exact only_run_bind (only_call _ rfl) fun _ => only_run_pure _
  | typeText =>
      change Safe _ (typeText host agent params).run _ _
      unfold typeText
      refine safe_withPyautogui .typeText rfl (fun params => ?_) past
      refine only_run_bind (only_fromExcept _) fun text => ?_
      exact only_run_bind (only_call _ rfl) fun _ => only_run_pure _
  | pressKey =>
      change Safe _ (pressKey host agent params).run _ _
      unfold pressKey
      refine safe_withPyautogui .pressKey rfl (fun params => ?_) past
      refine only_run_bind (only_fromExcept _) fun key => ?_
      refine only_run_ite (only_run_throw _) ?_
      refine only_run_bind (only_fromExcept _) fun name => ?_
      exact only_run_bind (only_call _ rfl) fun _ => only_run_pure _

/-! ### Commands -/

theorem eq_text_of_findHandler {value : Json} {action : PcAction}
    (h : findHandler host value = .ok action) : value = .string action.text := by
  unfold findHandler at h
  split at h
  · split at h
    · rename_i name _ found hfound
      have hname := List.find?_some hfound
      rw [Except.ok.inj h] at hname
      rw [of_decide_eq_true hname]
    · cases h
  · cases h
  · cases h
  · cases h

theorem CommandDeadline.append {expiresAt : Option Json} {past : LocalTrace F} {deadline : Option F}
    (h : CommandDeadline agent expiresAt past deadline) (t : LocalTrace F) :
    CommandDeadline agent expiresAt (past ++ t) deadline := by
  cases h with
  | unlimited => exact .unlimited
  | expiring hvalue hfinite hexpires => exact .expiring hvalue hfinite hexpires

/-- What must hold before an effect of a command starts. -/
def CommandGate (host : Host) (agent : LocalAgent F) (action params : Json)
    (expiresAt : Option Json) (past : LocalTrace F) (e : Effect) : Prop :=
  startsAction e → ∃ a : PcAction, action = .string a.text ∧
    ∃ deadline, CommandDeadline agent expiresAt past deadline ∧
      Consented host { agent with deadline } a params past ∧
      ∀ path, touched e = some path → Allowed host agent params past path

theorem commandGate_of_quiet {command : Json} {expiresAt : Option Json} {past : LocalTrace F}
    {e : Effect} (h : startsAction e = false) :
    CommandGate host agent command params expiresAt past e := by
  intro hstarts
  rw [h] at hstarts
  cases hstarts

theorem safe_commandDeadline (command : Json) (expiresAt : Option Json) :
    Safe (CommandGate host agent command params expiresAt) (commandDeadline agent expiresAt).run
      (fun t r => ∀ deadline, r = .ok deadline → CommandDeadline agent expiresAt t deadline)
      [] := by
  unfold commandDeadline
  cases expiresAt with
  | none =>
      rintro deadline ⟨⟩
      exact .unlimited
  | some value =>
      dsimp only
      cases hvalue : (number? value : Option (Number F)) with
      | none => exact fun _ h => nomatch h
      | some n =>
          refine (safe_run_bind ..).mpr ((safe_fromExcept ..).mpr ?_)
          cases hfinite : n.isFinite with
          | error exn => exact fun _ h => nomatch h
          | ok finite =>
              cases finite with
              | false => exact fun _ h => nomatch h
              | true =>
                  refine (safe_run_bind ..).mpr ((safe_fromExcept ..).mpr ?_)
                  cases hexpires : n.toFloat with
                  | error exn => exact fun _ h => nomatch h
                  | ok expires =>
                      refine (safe_run_bind ..).mpr ((safe_call ..).mpr
                        ⟨commandGate_of_quiet rfl, fun answer => ?_⟩)
                      cases answer with
                      | error exn => exact fun _ h => nomatch h
                      | ok now =>
                          refine (safe_run_bind ..).mpr ((safe_call ..).mpr
                            ⟨commandGate_of_quiet rfl, fun answer => ?_⟩)
                          cases answer with
                          | error exn => exact fun _ h => nomatch h
                          | ok wall =>
                              rintro deadline ⟨⟩
                              exact .expiring hvalue hfinite hexpires

theorem safe_handleCommand (fuel : ℕ) (command : Json) (expiresAt : Option Json) :
    Safe (CommandGate host agent command params expiresAt)
      (handleCommand host fuel agent command params expiresAt).run (fun _ _ => True) [] := by
  refine (safe_run_bind ..).mpr ((safe_fromExcept ..).mpr ?_)
  cases haction : findHandler host command with
  | error exn => trivial
  | ok action =>
      have hcommand := eq_text_of_findHandler haction
      refine (safe_run_bind ..).mpr ((safe_commandDeadline command expiresAt).mono fun t r hr => ?_)
      cases r with
      | error exn => trivial
      | ok deadline =>
          refine (safe_handler fuel t).guard
            (D := fun t => CommandDeadline agent expiresAt t deadline)
            (fun _ x h => h.append [x]) (fun t e h hgate hstarts => ?_) (hr deadline rfl)
          exact ⟨action, hcommand, deadline, h, hgate.consented hstarts, hgate.allowed⟩

/-- The effect of an action starts only when its capability is `True`, its arguments are valid, the
command was neither cancelled nor late before and after the approval, and the approver returned
`True` for this very action and its arguments; and a file effect stays in an allowed folder. -/
theorem local_consent_gating (host : Host) (fuel : ℕ) (agent : LocalAgent F)
    (command params : Json) (expiresAt : Option Json) {past : LocalTrace F} {e : Effect}
    (hstart : Starts (handleCommand host fuel agent command params expiresAt).run past e)
    (haction : startsAction e) :
    ∃ action : PcAction, command = .string action.text ∧
      ∃ deadline, CommandDeadline agent expiresAt past deadline ∧
        Consented host { agent with deadline } action params past ∧
        ∀ path, touched e = some path → Allowed host agent params past path :=
  (safe_handleCommand fuel command expiresAt).starts hstart haction

/-- A POSIX machine whose paths are absolute when they begin with a slash. -/
def plainHost : Host where
  python := ⟨⟨fun c => c.isAlphanum || c = '_', List.map Char.toLower⟩, fun _ => ""⟩
  win32 := false
  nt := false
  hasStartfile := false
  opener := "xdg-open"
  isAbsolute text := "/".toList.isPrefixOf text.toList
  pathText path := path.anchor ++ "/".intercalate path.parts
  normcase := id
  urlsplit _ := .error (.valueError "Invalid URL")
  uddg _ := ""
  similar _ _ := false
  closeMatches _ _ := []
  sha256 _ := ""
  decode _ := ""

def notesAgent : LocalAgent ℚ where
  capabilities := [("file_rw", .bool true)]
  allowedFolders := ["/notes"]
  appAliases := []
  approver := true
  deadline := none

def notesParams : Json := .object [("path", .string "/notes/today")]

/-- The person approves, with five seconds left; opening the file has not come back yet. -/
def approving (_ : LocalTrace ℚ) : (e : Effect) → Option (Effect.Answer ℚ e)
  | .approve _ _ => some (.ok (.bool true))
  | .cancelIsSet => some (.ok false)
  | .monotonic => some (.ok 10)
  | .time => some (.ok 100)
  | .resolve path => some (.ok ⟨"/", if path = "/notes" then ["notes"] else ["notes", "today"]⟩)
  | _ => none

def readNotes : LocalAction ℚ Details :=
  handleCommand plainHost 0 notesAgent (.string "read_file") notesParams (some (.number "105"))

theorem local_consent_gating_readNotes :
    ∃ past, ∃ action : PcAction, Json.string "read_file" = .string action.text ∧
      ∃ deadline, CommandDeadline notesAgent (some (.number "105")) past deadline ∧
        Consented plainHost { notesAgent with deadline } action notesParams past ∧
        Allowed plainHost notesAgent notesParams past ⟨"/", ["notes", "today"]⟩ := by
  have hopens : (((playUntil approving readNotes.run []).2.getLeft?).any
      fun e => touched e = some ⟨"/", ["notes", "today"]⟩) = true := by decide +kernel
  obtain ⟨e, he, htouched⟩ := (Option.any_eq_true _ _).mp hopens
  have htouched := of_decide_eq_true htouched
  have hwaits := Sum.getLeft?_eq_some_iff.mp he
  obtain ⟨action, haction, deadline, hdeadline, hconsented, hallowed⟩ :=
    local_consent_gating plainHost 0 notesAgent (.string "read_file") notesParams
      (some (.number "105")) (starts_playUntil approving readNotes.run [] hwaits)
      (touched_startsAction htouched)
  exact ⟨_, action, haction, deadline, hdeadline, hconsented, hallowed _ htouched⟩

end Ally.Companion
