import Ally.LocalPCTool
import Ally.Raising

/-!
# Shell commands are audited and reported truthfully

No process starts without a durable record of the approval, a run writes at most one terminal
record, and what the server reports as a success was one.
-/

namespace Ally.Companion

open Interaction
open PCAgentBridge (Json Message)
open Stateful (Keeps assign lift)

variable {F : Type}

/-! ### What a trace shows -/

abbrev LocalEvent (F : Type) := Σ e, Effect.Answer F e

/-- The process exists. -/
def Created (process : ℕ) (t : LocalTrace F) : Prop :=
  ∃ executable commandLine cwd thread,
    (⟨.kernel (.createProcess executable commandLine cwd), .ok (true, some process, thread)⟩ :
      LocalEvent F) ∈ t

/-- The process was seen to end, with this exit code. -/
structure Exited (process code : ℕ) (t : LocalTrace F) : Prop where
  ended : (⟨.kernel (.waitForSingleObject process), .ok 0⟩ : LocalEvent F) ∈ t
  exitCode : (⟨.kernel (.getExitCodeProcess process), .ok (true, code)⟩ : LocalEvent F) ∈ t

/-- The job was terminated, and then found empty and the process gone. -/
structure CleanedUp (job process : ℕ) (t : LocalTrace F) : Prop where
  terminated : (⟨.kernel (.terminateJobObject job), .ok true⟩ : LocalEvent F) ∈ t
  empty : (⟨.kernel (.queryJobAccounting job), .ok (true, 0)⟩ : LocalEvent F) ∈ t
  gone : (⟨.kernel (.waitForSingleObject process), .ok 0⟩ : LocalEvent F) ∈ t

theorem Created.mono {process : ℕ} {t t' : LocalTrace F} (h : Created process t) (ht : t <+: t') :
    Created process t' := by
  obtain ⟨executable, commandLine, cwd, thread, hmem⟩ := h
  exact ⟨executable, commandLine, cwd, thread, ht.subset hmem⟩

theorem Exited.mono {process code : ℕ} {t t' : LocalTrace F} (h : Exited process code t)
    (ht : t <+: t') : Exited process code t' :=
  ⟨ht.subset h.ended, ht.subset h.exitCode⟩

theorem CleanedUp.mono {job process : ℕ} {t t' : LocalTrace F} (h : CleanedUp job process t)
    (ht : t <+: t') : CleanedUp job process t' :=
  ⟨ht.subset h.terminated, ht.subset h.empty, ht.subset h.gone⟩

/-! ### The shell -/

theorem wp_check {ok : Bool} {Q : LocalTrace F → Result Unit → Prop} {past : LocalTrace F}
    (hok : ok = true → Q past (.ok ())) (herror : ∀ t exn, Q t (.error exn)) :
    wp (check ok).run Q past := by
  unfold check
  cases ok with
  | true => exact hok rfl
  | false =>
      refine (wp_run_bind ..).mpr ((wp_call ..).mpr fun answer => ?_)
      cases answer with
      | error exn => exact herror _ exn
      | ok code => exact herror _ (.osError (some code))

/-- Reading output changes the tails and nothing else. -/
structure SameStatus (s s' : Shell) : Prop where
  outcome : s'.outcome = s.outcome
  cleanup : s'.cleanup = s.cleanup
  returncode : s'.returncode = s.returncode

theorem SameStatus.refl (s : Shell) : SameStatus s s := ⟨rfl, rfl, rfl⟩

theorem SameStatus.append {s s' : Shell} (h : SameStatus s s') (stream : Stream)
    (data : List UInt8) : SameStatus s (s'.append stream data) := by
  unfold Shell.append
  cases stream with
  | stdout =>
      dsimp only
      exact ⟨h.outcome, h.cleanup, h.returncode⟩
  | stderr =>
      dsimp only
      exact ⟨h.outcome, h.cleanup, h.returncode⟩

theorem keeps_drainRounds (s : Shell) (handle : ℕ) (stream : Stream) (allowance rounds count : ℕ) :
    (drainRounds handle stream allowance rounds count : ShellAction F ℕ).Keeps (SameStatus s) := by
  induction rounds generalizing count with
  | zero => exact Stateful.keeps_pure _
  | succ rounds ih =>
      refine Stateful.keeps_ite (Stateful.keeps_pure _) ?_
      refine Stateful.keeps_bind (Stateful.keeps_lift _) fun ⟨ok, available⟩ => ?_
      refine Stateful.keeps_bind (Stateful.keeps_lift _) fun broken => ?_
      refine Stateful.keeps_ite (Stateful.keeps_pure _) ?_
      refine Stateful.keeps_bind (Stateful.keeps_lift _) fun _ => ?_
      refine Stateful.keeps_ite (Stateful.keeps_pure _) ?_
      refine Stateful.keeps_bind (Stateful.keeps_lift _) fun ⟨ok, data⟩ => ?_
      refine Stateful.keeps_bind (Stateful.keeps_lift _) fun _ => ?_
      exact Stateful.keeps_bind (Stateful.keeps_assign fun _ h => h.append _ _) fun _ => ih _

theorem keeps_drainBoth (s : Shell) (stdoutRead stderrRead maxOutputBytes : ℕ) :
    (drainBoth stdoutRead stderrRead maxOutputBytes : ShellAction F ℕ).Keeps (SameStatus s) := by
  refine Stateful.keeps_bind Stateful.keeps_read fun before => ?_
  refine Stateful.keeps_bind (keeps_drainRounds ..) fun first => ?_
  refine Stateful.keeps_bind Stateful.keeps_read fun between => ?_
  exact Stateful.keeps_bind (keeps_drainRounds ..) fun second => Stateful.keeps_pure _

/-- The residual drain changes at most the outcome, and never to an exit. -/
theorem keeps_drainResidual (s : Shell) (stdoutRead stderrRead maxOutputBytes fuel : ℕ) :
    (drainResidual stdoutRead stderrRead maxOutputBytes fuel : ShellAction F Unit).Keeps
      fun s' => s'.outcome = .exited → SameStatus s s' := by
  have hdrain : (drainBoth stdoutRead stderrRead maxOutputBytes : ShellAction F ℕ).Keeps
      fun s' => s'.outcome = .exited → SameStatus s s' := by
    constructor
    intro s' past h
    refine wp_mono (fun t r hr hexited => ?_)
      ((keeps_drainBoth s' ..).start s' past (SameStatus.refl s'))
    have hs := h (hr.outcome ▸ hexited)
    exact ⟨hr.outcome.trans hs.outcome, hr.cleanup.trans hs.cleanup,
      hr.returncode.trans hs.returncode⟩
  induction fuel with
  | zero => exact Stateful.keeps_lift _
  | succ fuel ih =>
      refine Stateful.keeps_bind hdrain fun count => ?_
      refine Stateful.keeps_bind Stateful.keeps_read fun s' => ?_
      refine Stateful.keeps_ite (Stateful.keeps_ite ?_ (Stateful.keeps_pure _)) ?_
      · exact Stateful.keeps_assign fun _ _ h => nomatch h
      · exact Stateful.keeps_ite (Stateful.keeps_pure _) ih

section Clock

variable [PyFloat F]

/-- Polling ends in an exit only when the process was seen to end. -/
theorem wp_poll (process stdoutRead stderrRead maxOutputBytes : ℕ) (stop : F) (fuel : ℕ)
    (s : Shell) (past : LocalTrace F) (hs : s.outcome ≠ .exited) :
    wp ((poll process stdoutRead stderrRead maxOutputBytes stop fuel).start s)
      (fun t r => r.2.outcome = .exited →
        ∃ code, r.2.returncode = some code ∧ Exited process code t) past := by
  induction fuel generalizing s past with
  | zero => exact fun answer => nomatch answer
  | succ fuel ih =>
      refine (Stateful.wp_start_call_bind ..).mpr fun answer => ?_
      rcases answer with exn | cancelled
      · exact fun h => absurd h hs
      cases cancelled with
      | true => exact fun h => nomatch h
      | false =>
          refine (Stateful.wp_start_call_bind ..).mpr fun answer => ?_
          rcases answer with exn | now
          · exact fun h => absurd h hs
          dsimp only [id_eq]
          by_cases hstop : stop ≤ now
          · rw [if_pos hstop]
            exact fun h => nomatch h
          rw [if_neg hstop]
          refine (Stateful.wp_start_bind ..).mpr (wp_mono ?_
            ((keeps_drainBoth s ..).start s _ (SameStatus.refl s)))
          rintro t ⟨exn | count, s'⟩ hs'
          · exact fun h => absurd (hs'.outcome ▸ h) hs
          refine (Stateful.wp_start_read_bind ..).mpr ?_
          by_cases hlimit : maxOutputBytes < s'.observed
          · rw [if_pos hlimit]
            exact fun h => nomatch h
          rw [if_neg hlimit]
          have hnot : s'.outcome ≠ .exited := hs'.outcome ▸ hs
          refine (Stateful.wp_start_call_bind ..).mpr fun answer => ?_
          rcases answer with exn | state
          · exact fun h => absurd h hnot
          dsimp only [id_eq]
          by_cases hstate : state = 0
          · rw [if_pos hstate, hstate]
            refine (Stateful.wp_start_call_bind ..).mpr fun answer => ?_
            rcases answer with exn | ⟨ok, code⟩
            · exact fun h => absurd h hnot
            refine (Stateful.wp_start_bind ..).mpr ((Stateful.wp_lift ..).mpr ?_)
            refine wp_check (fun hok _ => ?_) fun _ _ h => absurd h hnot
            subst hok
            exact ⟨code, rfl, by simp, by simp⟩
          · rw [if_neg hstate]
            refine (Stateful.wp_start_bind ..).mpr ((Stateful.wp_lift ..).mpr ?_)
            refine wp_check (fun _ => ?_) fun _ _ h => absurd h hnot
            refine (Stateful.wp_start_call_bind ..).mpr fun answer => ?_
            rcases answer with exn | _
            · exact fun h => absurd h hnot
            · exact ih s' _ hnot

omit [PyFloat F] in
theorem wp_allGone (handles : List ℕ) (past : LocalTrace F) :
    wp (allGone handles).run (fun t r => r = .ok true → ∀ handle ∈ handles,
      (⟨.kernel (.waitForSingleObject handle), .ok 0⟩ : LocalEvent F) ∈ t) past := by
  induction handles generalizing past with
  | nil => exact fun _ _ h => nomatch h
  | cons handle handles ih =>
      refine (wp_run_bind ..).mpr ((wp_call ..).mpr fun answer => ?_)
      rcases answer with exn | state
      · exact fun h => nomatch h
      dsimp only [id_eq]
      by_cases hstate : state = 0
      · rw [if_pos hstate, hstate]
        refine wp_mono (fun t r hr hgone h hh => ?_) (wp_grows (ih _))
        rcases List.mem_cons.mp hh with rfl | hh
        · exact hr.1.subset (List.mem_append_right _ (List.mem_singleton_self _))
        · exact hr.2 hgone h hh
      · rw [if_neg hstate]
        exact fun h => nomatch h

theorem wp_awaitEmptyJob (job process : ℕ) (inspected : Bool) (handles : List ℕ) (deadline : F)
    (fuel : ℕ) {past : LocalTrace F}
    (hpast : (⟨.kernel (.terminateJobObject job), .ok true⟩ : LocalEvent F) ∈ past) :
    wp (awaitEmptyJob job process inspected handles deadline fuel).run
      (fun t r => r = .ok true → CleanedUp job process t) past := by
  induction fuel generalizing past with
  | zero => exact fun answer => nomatch answer
  | succ fuel ih =>
      refine (wp_run_bind ..).mpr ((wp_call ..).mpr fun answer => ?_)
      rcases answer with exn | now
      · exact fun h => nomatch h
      dsimp only [id_eq]
      split_ifs
      · refine (wp_run_bind ..).mpr ((wp_call ..).mpr fun answer => ?_)
        rcases answer with exn | ⟨ok, active⟩
        · exact fun h => nomatch h
        cases ok with
        | false => exact fun h => nomatch h
        | true =>
            refine (wp_run_bind ..).mpr ?_
            by_cases hactive : active = 0
            · rw [if_pos hactive, hactive]
              refine wp_mono ?_ (wp_grows (wp_allGone (process :: handles) _))
              rintro t (exn | gone) ⟨hgrows, hgone⟩
              · exact fun h => nomatch h
              have hmem := hgrows.subset (List.mem_append_left _ (List.mem_append_left _ hpast))
              cases gone with
              | true =>
                  intro _
                  exact ⟨hmem, hgrows.subset (List.mem_append_right _ (List.mem_singleton_self _)),
                    hgone rfl process List.mem_cons_self⟩
              | false =>
                  refine (wp_run_bind ..).mpr ((wp_call ..).mpr fun answer => ?_)
                  rcases answer with exn | _
                  · exact fun h => nomatch h
                  · exact ih (List.mem_append_left _ hmem)
            · rw [if_neg hactive]
              refine (wp_run_bind ..).mpr ((wp_call ..).mpr fun answer => ?_)
              rcases answer with exn | _
              · exact fun h => nomatch h
              · exact ih (List.mem_append_left _ (List.mem_append_left _
                  (List.mem_append_left _ hpast)))
      · exact fun h => nomatch h

theorem wp_terminateAndConfirm (fuel job process : ℕ) (past : LocalTrace F) :
    wp (terminateAndConfirm fuel job process).run
      (fun t r => r = .ok true → CleanedUp job process t) past := by
  refine (wp_run_bind ..).mpr ((wp_call ..).mpr fun answer => ?_)
  rcases answer with exn | ⟨listed, members⟩
  · exact fun h => nomatch h
  refine (wp_run_bind ..).mpr (wp_mono ?_ (wp_trivial ..))
  rintro t (exn | ⟨inspected, handles⟩) _
  · exact fun h => nomatch h
  refine (wp_run_bind ..).mpr ((wp_call ..).mpr fun answer => ?_)
  rcases answer with exn | terminated
  · exact fun h => nomatch h
  cases terminated with
  | false => exact fun h => nomatch h
  | true =>
      refine (wp_run_bind ..).mpr ((wp_call ..).mpr fun answer => ?_)
      rcases answer with exn | now
      · exact fun h => nomatch h
      · exact wp_awaitEmptyJob _ _ _ _ _ _
          (List.mem_append_left _ (List.mem_append_right _ (List.mem_singleton_self _)))

omit [PyFloat F] in
theorem wp_stoppedOutcome (past : LocalTrace F) :
    wp (stoppedOutcome : LocalAction F Outcome).run (fun _ r => r ≠ .ok .exited) past := by
  refine (wp_run_bind ..).mpr ((wp_call ..).mpr fun answer => ?_)
  rcases answer with exn | cancelled
  · exact fun h => nomatch h
  · cases cancelled with
    | true => exact fun h => nomatch h
    | false => exact fun h => nomatch h

omit [PyFloat F] in
/-- What `follow` and the branch without a process do when the command was stopped. -/
theorem wp_assignStopped (s : Shell) {Q : LocalTrace F → Result Unit × Shell → Prop}
    (past : LocalTrace F) (hQ : ∀ t r, r.2.outcome ≠ .exited → Q t r) (hs : s.outcome ≠ .exited) :
    wp ((do
      let outcome ← lift stoppedOutcome
      assign ({ · with outcome }) : ShellAction F Unit).start s) Q past := by
  refine (Stateful.wp_start_lift_bind ..).mpr (wp_mono ?_ (wp_stoppedOutcome past))
  rintro t (exn | outcome) houtcome
  · exact hQ _ _ hs
  · exact hQ _ _ fun h => houtcome (congrArg Except.ok h)

theorem wp_follow (fuel process thread maxOutputBytes : ℕ) (setup : Setup) (stop : F) (s : Shell)
    (past : LocalTrace F) (hs : s.outcome ≠ .exited) :
    wp ((follow fuel process thread maxOutputBytes setup stop).start s)
      (fun t r => r.2.outcome = .exited →
        ∃ code, r.2.returncode = some code ∧ Exited process code t) past := by
  refine (Stateful.wp_start_lift_bind ..).mpr (wp_mono ?_ (wp_trivial ..))
  rintro t (exn | ended) _
  · exact fun h => absurd h hs
  cases ended with
  | true => exact wp_assignStopped s t (fun _ _ hr h => absurd h hr) hs
  | false =>
      refine (Stateful.wp_start_call_bind ..).mpr fun answer => ?_
      rcases answer with exn | resumed
      · exact fun h => absurd h hs
      refine (Stateful.wp_start_lift_bind ..).mpr
        (wp_check (fun _ => ?_) fun _ _ h => absurd h hs)
      exact wp_poll _ _ _ _ _ _ { s with started := true } _ hs

omit [PyFloat F] in
theorem wp_own {handle : Option ℕ} {Q : LocalTrace F → Result ℕ → Prop} {past : LocalTrace F}
    (hok : ∀ h, handle = some h → Q past (.ok h)) (herror : ∀ t exn, Q t (.error exn)) :
    wp (own handle).run Q past := by
  refine (wp_run_bind ..).mpr (wp_check (fun hsome => ?_) fun _ _ => herror _ _)
  obtain ⟨h, rfl⟩ := Option.isSome_iff_exists.mp hsome
  exact hok h rfl

/-- An exit that the variables report was an exit. -/
def Truth (returncode : Option ℕ) (cleanup : Bool) (t : LocalTrace F) : Prop :=
  ∃ process job code, returncode = some code ∧ Created process t ∧ Exited process code t ∧
    (cleanup = true → CleanedUp job process t)

omit [PyFloat F] in
theorem Truth.mono {returncode : Option ℕ} {cleanup : Bool} {t t' : LocalTrace F}
    (h : Truth returncode cleanup t) (ht : t <+: t') : Truth returncode cleanup t' := by
  obtain ⟨process, job, code, hcode, hcreated, hexited, hcleaned⟩ := h
  exact ⟨process, job, code, hcode, hcreated.mono ht, hexited.mono ht,
    fun h => (hcleaned h).mono ht⟩

theorem wp_startProcess (fuel maxOutputBytes : ℕ) (command : String) (cwd : Option String)
    (setup : Setup) (stop : F) (s : Shell) (past : LocalTrace F) (hs : s.outcome ≠ .exited) :
    wp ((startProcess fuel maxOutputBytes command cwd setup stop).start s)
      (fun t r => r.1 = .ok () → r.2.outcome = .exited → Truth r.2.returncode r.2.cleanup t)
      past := by
  refine (Stateful.wp_start_call_bind ..).mpr fun answer => ?_
  rcases answer with exn | ⟨ok, process, thread⟩
  · exact fun h => nomatch h
  refine (Stateful.wp_start_lift_bind ..).mpr (wp_check (fun hok => ?_) fun _ _ h => nomatch h)
  subst hok
  refine (Stateful.wp_start_assign_bind ..).mpr ?_
  refine (Stateful.wp_start_lift_bind ..).mpr (wp_own (fun p hp => ?_) fun _ _ h => nomatch h)
  subst hp
  refine (Stateful.wp_start_lift_bind ..).mpr (wp_own (fun _ _ => ?_) fun _ _ h => nomatch h)
  refine (Stateful.wp_start_bind ..).mpr ((Stateful.wp_finally ..).mpr (wp_mono ?_
    (wp_grows (wp_follow fuel p _ maxOutputBytes setup stop { s with cleanup := false } _ hs))))
  rintro t ⟨done, s₁⟩ ⟨hgrows, hexited⟩
  have hcreated : Created p t :=
    ⟨_, _, _, _, hgrows.subset (List.mem_append_right _ (List.mem_singleton_self _))⟩
  refine (Stateful.wp_start_lift_bind ..).mpr
    (wp_mono ?_ (wp_grows (wp_terminateAndConfirm fuel setup.job p t)))
  rintro t₁ (exn | cleanup) ⟨hgrows₁, hcleaned⟩
  · exact fun h => nomatch h
  cases done with
  | error exn => exact fun h => nomatch h
  | ok _ =>
      refine (Stateful.wp_assign ..).mpr ?_
      refine wp_mono ?_ (wp_grows ((keeps_drainResidual { s₁ with cleanup } ..).start _ t₁
        fun _ => SameStatus.refl _))
      rintro t₂ ⟨last, s₂⟩ ⟨hgrows₂, hsame⟩ _ houtcome
      have hstatus := hsame houtcome
      obtain ⟨code, hcode, hended⟩ := hexited (hstatus.outcome ▸ houtcome)
      refine ⟨p, setup.job, code, hstatus.returncode.trans hcode,
        (hcreated.mono hgrows₁).mono hgrows₂, (hended.mono hgrows₁).mono hgrows₂, fun h => ?_⟩
      rw [hstatus.cleanup] at h
      exact (hcleaned (congrArg Except.ok h)).mono hgrows₂

theorem wp_execute (fuel maxOutputBytes : ℕ) (command : String) (cwd : Option String) (stop : F)
    (past : LocalTrace F) :
    wp ((execute fuel maxOutputBytes command cwd stop).start Shell.new)
      (fun t r => r.1 = .ok () → r.2.outcome = .exited → Truth r.2.returncode r.2.cleanup t)
      past := by
  refine (Stateful.wp_start_tryCatch ..).mpr (wp_mono ?_ (?_ : wp _ (fun t r =>
    r.1 = .ok () → r.2.outcome = .exited → Truth r.2.returncode r.2.cleanup t) past))
  · rintro t ⟨exn | _, s⟩ hr
    · dsimp only
      split_ifs
      · intro _ houtcome
        change (if s.started then Outcome.runtimeError else Outcome.startupFailed) = _ at houtcome
        split_ifs at houtcome
      · exact fun h => nomatch h
    · exact hr
  · refine (Stateful.wp_start_lift_bind ..).mpr (wp_mono ?_ (wp_trivial ..))
    rintro t (exn | setup) _
    · exact fun h => nomatch h
    refine (Stateful.wp_start_lift_bind ..).mpr (wp_mono ?_ (wp_trivial ..))
    rintro t (exn | ended) _
    · exact fun h => nomatch h
    cases ended with
    | true =>
        exact wp_assignStopped Shell.new t (fun _ _ hr _ h => absurd h hr) fun h => nomatch h
    | false => exact wp_startProcess _ _ _ _ _ _ _ _ fun h => nomatch h

/-- An exit that `run_shell` reports was an exit. -/
theorem wp_runShell (host : Host) (fuel : ℕ) (command : String) (cwd timeout : Json)
    (deadline : Option F) (maxOutputBytes : ℕ) (past : LocalTrace F) :
    wp (runShell host fuel command cwd timeout deadline maxOutputBytes).run
      (fun t r => ∀ result, r = .ok result → result.outcome = .exited →
        Truth result.returncode result.cleanupConfirmed t) past := by
  refine (wp_run_bind ..).mpr ((wp_fromExcept ..).mpr ?_)
  cases checkShellArguments host command cwd timeout deadline maxOutputBytes with
  | error exn => exact fun _ h => nomatch h
  | ok checked =>
      refine (wp_run_bind ..).mpr ((wp_call ..).mpr fun answer => ?_)
      rcases answer with exn | began
      · exact fun _ h => nomatch h
      refine (wp_run_bind ..).mpr ((wp_call ..).mpr fun answer => ?_)
      rcases answer with exn | cancelled
      · exact fun _ h => nomatch h
      dsimp only [id_eq]
      split_ifs
      · rintro _ ⟨⟩ h
        cases h
      · rintro _ ⟨⟩ h
        cases h
      · rintro _ ⟨⟩ h
        cases h
      · refine (wp_run_bind ..).mpr ?_
        refine (wp_bind ..).mpr (wp_mono ?_ (wp_execute _ _ _ _ _ _))
        rintro t ⟨done, s⟩ htruth
        refine (wp_run_bind ..).mpr ((wp_fromExcept ..).mpr ?_)
        cases done with
        | error exn => exact fun _ h => nomatch h
        | ok _ =>
            refine (wp_run_bind ..).mpr ((wp_call ..).mpr fun answer => ?_)
            rcases answer with exn | now
            · exact fun _ h => nomatch h
            rintro result ⟨⟩ houtcome
            exact (htruth rfl houtcome).mono (List.prefix_append _ _)

end Clock

/-! ### Audit records -/

def written? (e : Effect) : Option AuditRecord :=
  match e with
  | .auditWrite record => some record
  | _ => none

/-- The records whose writing was attempted. -/
def attempted (t : LocalTrace F) : List AuditRecord := t.filterMap fun x => written? x.1

/-- The record was written, flushed and synced. -/
def Durable (record : AuditRecord) (t : LocalTrace F) : Prop :=
  ∃ before after, t = before ++ ([⟨.auditWrite record, .ok ()⟩, ⟨.auditFlush, .ok ()⟩,
    ⟨.auditFsync, .ok ()⟩] : LocalTrace F) ++ after

theorem Durable.mono {record : AuditRecord} {t t' : LocalTrace F} (h : Durable record t)
    (ht : t <+: t') : Durable record t' := by
  obtain ⟨before, after, rfl⟩ := h
  obtain ⟨rest, rfl⟩ := ht
  exact ⟨before, after ++ rest, List.append_assoc ..⟩

theorem attempted_append (t t' : LocalTrace F) :
    attempted (t ++ t') = attempted t ++ attempted t' := List.filterMap_append ..

theorem attempted_snoc {t : LocalTrace F} {x : LocalEvent F} (hx : written? x.1 = none) :
    attempted (t ++ [x]) = attempted t := by
  have hnone : attempted [x] = [] := List.filterMap_cons_none hx
  rw [attempted_append, hnone, List.append_nil]

/-- Neither a record nor a process. -/
def unaudited : Effect → Bool
  | .auditWrite _ | .kernel (.createProcess ..) => false
  | _ => true

/-- What `_require` asks. -/
def asks : Effect → Bool
  | .cancelIsSet | .monotonic | .approve .. | .approveLocally .. => true
  | _ => false

theorem unaudited_of_asks (e : Effect) (h : asks e) : unaudited e := by
  cases e <;> first | rfl | cases h

/-- `_append` asks the guard about one record, and when it returns the record is durable. -/
theorem safe_append {G : LocalTrace F → Effect → Prop} (audit : ExecutionAudit)
    (fields : AuditFields) {past : LocalTrace F} (hquiet : ∀ t e, unaudited e → G t e)
    (hwrite : ∀ eventId t, past <+: t → attempted t = attempted past →
      G t (.auditWrite ⟨eventId, audit.executionId, audit.commandHash, fields⟩)) :
    Safe G (audit.append fields : LocalAction F Unit).run (fun t r => r = .ok () →
      ∃ eventId, Durable ⟨eventId, audit.executionId, audit.commandHash, fields⟩ t ∧
        attempted t = attempted past ++
          [⟨eventId, audit.executionId, audit.commandHash, fields⟩]) past := by
  refine (safe_run_bind ..).mpr ((safe_call ..).mpr ⟨hquiet _ _ rfl, fun answer => ?_⟩)
  rcases answer with exn | eventId
  · exact fun h => nomatch h
  refine (safe_run_bind ..).mpr ((safe_call ..).mpr ⟨hquiet _ _ rfl, fun answer => ?_⟩)
  rcases answer with exn | now
  · exact fun h => nomatch h
  refine (safe_run_bind ..).mpr ((safe_call ..).mpr ⟨hquiet _ _ rfl, fun answer => ?_⟩)
  rcases answer with exn | _
  · exact fun h => nomatch h
  refine (safe_run_bind ..).mpr ((safe_lift ..).mpr ?_)
  have hopened : attempted (past ++ [⟨.uuid4, .ok eventId⟩] ++ [⟨.time, .ok now⟩] ++
      [(⟨.auditOpen, .ok ()⟩ : LocalEvent F)]) = attempted past := by
    rw [attempted_snoc rfl, attempted_snoc rfl, attempted_snoc rfl]
  have hgrows : past <+: past ++ [⟨.uuid4, .ok eventId⟩] ++ [⟨.time, .ok now⟩] ++
      [(⟨.auditOpen, .ok ()⟩ : LocalEvent F)] := by
    rw [List.append_assoc, List.append_assoc]
    exact List.prefix_append ..
  generalize past ++ [⟨.uuid4, .ok eventId⟩] ++ [⟨.time, .ok now⟩] ++
    [(⟨.auditOpen, .ok ()⟩ : LocalEvent F)] = opened at hopened hgrows ⊢
  refine (safe_run_bind ..).mpr ((safe_call ..).mpr
    ⟨hwrite eventId _ hgrows hopened, fun answer => ?_⟩)
  have hclose (t : LocalTrace F) (exn : LocalExn) {Q : LocalTrace F → Result Unit → Prop}
      (hQ : ∀ t exn, Q t (.error exn)) :
      Safe G ((do
        call .auditClose id
        fromExcept (.error exn)) : LocalAction F Unit).run Q t := by
    refine (safe_run_bind ..).mpr ((safe_call ..).mpr ⟨hquiet _ _ rfl, fun answer => ?_⟩)
    rcases answer with exn | _
    · exact hQ _ _
    · exact hQ _ _
  rcases answer with exn | _
  · exact hclose _ _ fun _ _ h => nomatch h
  refine (safe_run_bind ..).mpr ((safe_call ..).mpr ⟨hquiet _ _ rfl, fun answer => ?_⟩)
  rcases answer with exn | _
  · exact hclose _ _ fun _ _ h => nomatch h
  refine (safe_call ..).mpr ⟨hquiet _ _ rfl, fun answer => ?_⟩
  rcases answer with exn | _
  · exact hclose _ _ fun _ _ h => nomatch h
  refine (safe_run_bind ..).mpr ((safe_call ..).mpr ⟨hquiet _ _ rfl, fun answer => ?_⟩)
  rcases answer with exn | _
  · exact fun h => nomatch h
  refine fun _ => ⟨eventId, ⟨opened, [⟨.auditClose, .ok ()⟩], ?_⟩, ?_⟩
  · simp only [List.append_assoc, List.cons_append, List.nil_append]
  · rw [attempted_snoc rfl, attempted_snoc rfl, attempted_snoc rfl, attempted_append, hopened]
    rfl

/-! ### Every run of `run_command` -/

/-- What must have happened before a process is created or a terminal record is written. -/
structure AuditGate (past : LocalTrace F) (e : Effect) : Prop where
  created : ∀ executable commandLine cwd, e = .kernel (.createProcess executable commandLine cwd) →
    ∃ record, Durable record past ∧ record.fields = .approved ∧
      ∀ r ∈ attempted past, r.executionId = record.executionId
  terminal : ∀ record, e = .auditWrite record → record.fields ≠ .approved →
    (∃ first, Durable first past ∧ first.fields = .approved ∧
      first.executionId = record.executionId) ∧ ∀ r ∈ attempted past, r.fields = .approved

theorem auditGate_of_unaudited (past : LocalTrace F) {e : Effect} (h : unaudited e) :
    AuditGate past e where
  created executable commandLine cwd he := by rw [he] at h; cases h
  terminal record he := by rw [he] at h; cases h

/-- The approval has been recorded, and nothing else. -/
def ApprovalRecorded (audit : ExecutionAudit) (t : LocalTrace F) : Prop :=
  ∃ record, Durable record t ∧ record.fields = .approved ∧
    record.executionId = audit.executionId ∧ attempted t = [record]

theorem ApprovalRecorded.append {audit : ExecutionAudit} {t : LocalTrace F}
    (h : ApprovalRecorded audit t) {x : LocalEvent F} (hx : written? x.1 = none) :
    ApprovalRecorded audit (t ++ [x]) := by
  obtain ⟨record, hdurable, hfields, hid, hattempted⟩ := h
  exact ⟨record, hdurable.mono (List.prefix_append ..), hfields, hid,
    (attempted_snoc hx).trans hattempted⟩

/-- After the approval record everything passes but a second approval and what follows it. -/
theorem auditGate_of_recorded {audit : ExecutionAudit} {past : LocalTrace F} {e : Effect}
    (h : ApprovalRecorded audit past)
    (he : ∀ record, e = .auditWrite record → record.executionId = audit.executionId) :
    AuditGate past e := by
  obtain ⟨record, hdurable, hfields, hid, hattempted⟩ := h
  constructor
  · intro _ _ _ _
    refine ⟨record, hdurable, hfields, fun r hr => ?_⟩
    rw [hattempted, List.mem_singleton] at hr
    rw [hr]
  · intro terminal hterminal _
    refine ⟨⟨record, hdurable, hfields, hid.trans (he terminal hterminal).symm⟩, fun r hr => ?_⟩
    rw [hattempted, List.mem_singleton] at hr
    rw [hr, hfields]

theorem safe_appendApproved (audit : ExecutionAudit) {past : LocalTrace F}
    (hpast : attempted past = []) :
    Safe AuditGate (audit.append .approved : LocalAction F Unit).run
      (fun t r => r = .ok () → ApprovalRecorded audit t) past := by
  refine (safe_append audit .approved (fun t e he => auditGate_of_unaudited t he) ?_).mono ?_
  · intro eventId t _ _
    refine ⟨fun _ _ _ h => (nomatch h), fun record hrecord hterminal => ?_⟩
    cases hrecord
    exact absurd rfl hterminal
  · intro t r hr hok
    obtain ⟨eventId, hdurable, hattempted⟩ := hr hok
    exact ⟨_, hdurable, rfl, rfl, by rw [hattempted, hpast, List.nil_append]⟩

theorem safe_appendTerminal (audit : ExecutionAudit) (fields : AuditFields)
    {past : LocalTrace F} (hpast : ApprovalRecorded audit past) :
    Safe AuditGate (audit.append fields : LocalAction F Unit).run (fun _ _ => True) past := by
  refine (safe_append audit fields (fun t e he => auditGate_of_unaudited t he) ?_).mono
    fun _ _ _ => trivial
  intro eventId t hgrows hattempted
  obtain ⟨record, hdurable, hfields, hid, hone⟩ := hpast
  refine auditGate_of_recorded ⟨record, hdurable.mono hgrows, hfields, hid,
    hattempted.trans hone⟩ fun terminal hterminal => ?_
  cases hterminal
  rfl

theorem safe_recordedTerminal (audit : ExecutionAudit) (fields : AuditFields)
    {past : LocalTrace F} (hpast : ApprovalRecorded audit past) :
    Safe AuditGate (recorded (audit.append fields : LocalAction F Unit)).run
      (fun _ _ => True) past := by
  refine (safe_run_tryCatch ..).mpr ((safe_run_bind ..).mpr
    ((safe_appendTerminal audit fields hpast).mono fun t r _ => ?_))
  rcases r with exn | _
  · dsimp only
    split_ifs
    · trivial
    · trivial
  · trivial

section Clock

variable [PyFloat F]

theorem safe_runApproved (host : Host) (fuel : ℕ) (deadline : Option F) (command : String)
    (cwd timeout : Json) {past : LocalTrace F} (hpast : attempted past = []) :
    Safe AuditGate (runApproved host fuel deadline command cwd timeout).run
      (fun _ _ => True) past := by
  refine (safe_run_bind ..).mpr ((safe_run_bind ..).mpr ((safe_call ..).mpr
    ⟨auditGate_of_unaudited _ rfl, fun answer => ?_⟩))
  rcases answer with exn | executionId
  · trivial
  refine (safe_run_bind ..).mpr ((safe_appendApproved ⟨executionId, host.sha256 command⟩
    ((attempted_snoc rfl).trans hpast)).mono fun t r hr => ?_)
  rcases r with exn | _
  · trivial
  have hrecorded := hr rfl
  have hshell : Safe AuditGate
      (runShell host fuel command cwd timeout deadline maxOutputBytesLimit).run
      (fun t' _ => ApprovalRecorded ⟨executionId, host.sha256 command⟩ t' ∧ t <+: t') t := by
    refine (shellOnly_runShell host fuel command cwd timeout deadline maxOutputBytesLimit).safe
      (G := AuditGate) (D := ApprovalRecorded ⟨executionId, host.sha256 command⟩)
      (fun t x hx h => h.append ?_) (fun t e h he => auditGate_of_recorded h ?_) hrecorded
    · obtain ⟨e, r⟩ := x
      cases e <;> first | rfl | cases hx
    · rintro record rfl
      cases he
  refine (safe_run_bind ..).mpr ((safe_lift ..).mpr (hshell.mono ?_))
  rintro t (exn | result) ⟨hrecorded, _⟩
  · refine (safe_run_bind ..).mpr ((safe_recordedTerminal _ _ hrecorded).mono ?_)
    rintro t (exn | _) _
    · trivial
    · trivial
  · refine (safe_run_bind ..).mpr ((safe_recordedTerminal _ _ hrecorded).mono ?_)
    rintro t (exn | _) _
    · trivial
    · trivial

theorem only_executionAllowed (deadline : Option F) :
    Only (fun e => asks e) (executionAllowed deadline).run := by
  refine only_run_bind (only_call _ rfl) fun cancelled => only_run_ite (only_run_pure _) ?_
  cases deadline with
  | none => exact only_run_pure _
  | some d => exact only_run_bind (only_call _ rfl) fun _ => only_run_pure _

theorem only_precheck (host : Host) (agent : LocalAgent F) (capability action : String)
    (params : Json) :
    Only (fun e => asks e) (precheck host agent capability action params).run := by
  refine only_run_ite (only_run_throw _) (only_run_bind (only_fromExcept _) fun _ => ?_)
  refine only_run_bind (only_executionAllowed _) fun _ => ?_
  exact only_run_ite (only_run_pure _) (only_run_throw _)

theorem only_require (host : Host) (agent : LocalAgent F) (capability action : String)
    (params : Json) (context : Option ApprovalContext) :
    Only (fun e => asks e) (require' host agent capability action params context).run := by
  refine only_run_bind (only_precheck ..) fun _ => only_run_bind ?_ fun approved => ?_
  · exact only_run_ite (only_run_bind (only_call _ rfl) fun _ => only_run_pure _) (only_call _ rfl)
  · refine only_run_ite (only_run_bind (only_executionAllowed _) fun _ => ?_) (only_run_throw _)
    exact only_run_ite (only_run_pure _) (only_run_throw _)

omit [PyFloat F] in
theorem written_of_unaudited {e : Effect} (h : unaudited e) : written? e = none := by
  cases e <;> first | rfl | cases h

theorem safe_runCommandAudit (host : Host) (fuel : ℕ) (agent : LocalAgent F) (params : Json) :
    Safe AuditGate (runCommand host fuel agent params).run (fun _ _ => True) [] := by
  refine (safe_run_bind ..).mpr (((((only_require host agent "shell_exec" "run_command" params
    none).mono unaudited_of_asks).safe (G := AuditGate) (D := fun t => attempted t = [])
    (fun t x hx h => (attempted_snoc (written_of_unaudited hx)).trans h)
    (fun t e _ he => auditGate_of_unaudited t he) rfl)).mono ?_)
  rintro t (exn | _) ⟨hnone, _⟩
  · trivial
  refine (safe_run_bind ..).mpr ((safe_fromExcept ..).mpr ?_)
  cases getKey params "command" with
  | error exn => trivial
  | ok value =>
      dsimp only
      split_ifs
      · trivial
      refine (safe_run_bind ..).mpr ((safe_fromExcept ..).mpr ?_)
      cases asString (value.getD .null) with
      | error exn => trivial
      | ok command =>
          refine (safe_run_bind ..).mpr ((safe_fromExcept ..).mpr ?_)
          cases getKey params "cwd" with
          | error exn => trivial
          | ok cwd =>
              refine (safe_run_bind ..).mpr ((safe_fromExcept ..).mpr ?_)
              cases getKey params "timeout_seconds" with
              | error exn => trivial
              | ok timeout => exact safe_runApproved _ _ _ _ _ _ hnone

/-! ### What a success means -/

omit [PyFloat F] in
theorem wp_append (audit : ExecutionAudit) (fields : AuditFields) (past : LocalTrace F) :
    wp (audit.append fields : LocalAction F Unit).run (fun t r => r = .ok () →
      ∃ record, Durable record t ∧ record.fields = fields ∧
        record.executionId = audit.executionId) past := by
  refine wp_mono ?_ (safe_append (G := fun _ _ => True) audit fields (fun _ _ _ => trivial)
    fun _ _ _ _ => trivial).wp
  intro t r hr hok
  obtain ⟨eventId, hdurable, _⟩ := hr hok
  exact ⟨_, hdurable, rfl, rfl⟩

omit [PyFloat F] in
theorem wp_recorded (audit : ExecutionAudit) (fields : AuditFields) (past : LocalTrace F) :
    wp (recorded (audit.append fields : LocalAction F Unit)).run (fun t r => r = .ok true →
      ∃ record, Durable record t ∧ record.fields = fields ∧
        record.executionId = audit.executionId) past := by
  refine (wp_run_tryCatch ..).mpr ((wp_run_bind ..).mpr (wp_mono ?_ (wp_append audit fields past)))
  rintro t (exn | _) hr
  · dsimp only
    split_ifs
    · exact fun h => nomatch h
    · exact fun h => nomatch h
  · exact fun _ => hr rfl

/-- Where the details that `run_command` returns come from. -/
def Accounted (details : Details) (t : LocalTrace F) : Prop :=
  ∃ audit result wasRecorded, details = commandDetails audit result wasRecorded ∧
    (result.outcome = .exited → Truth result.returncode result.cleanupConfirmed t) ∧
    (wasRecorded = true → ∃ record, Durable record t ∧ record.fields = .finished result ∧
      record.executionId = audit.executionId)

theorem wp_runApproved (host : Host) (fuel : ℕ) (deadline : Option F) (command : String)
    (cwd timeout : Json) (past : LocalTrace F) :
    wp (runApproved host fuel deadline command cwd timeout).run
      (fun t r => ∀ details, r = .ok details → Accounted details t) past := by
  refine (wp_run_bind ..).mpr (wp_mono ?_ (wp_trivial ..))
  rintro t (exn | audit) _
  · exact fun _ h => nomatch h
  refine (wp_run_bind ..).mpr (wp_mono ?_ (wp_trivial ..))
  rintro t (exn | _) _
  · exact fun _ h => nomatch h
  refine (wp_run_bind ..).mpr ((wp_bind ..).mpr (wp_mono ?_
    (wp_runShell host fuel command cwd timeout deadline maxOutputBytesLimit t)))
  rintro t (exn | result) htruth
  · refine (wp_run_bind ..).mpr (wp_mono ?_ (wp_trivial ..))
    rintro t (exn | _) _
    · exact fun _ h => nomatch h
    · exact fun _ h => nomatch h
  · refine (wp_run_bind ..).mpr (wp_mono ?_ (wp_grows (wp_recorded audit (.finished result) t)))
    rintro t' (exn | wasRecorded) ⟨hgrows, hrecorded⟩
    · exact fun _ h => nomatch h
    rintro details ⟨⟩
    exact ⟨audit, result, wasRecorded, rfl, fun h => (htruth result rfl h).mono hgrows,
      fun h => hrecorded (congrArg Except.ok h)⟩

theorem wp_runCommand (host : Host) (fuel : ℕ) (agent : LocalAgent F) (params : Json) :
    wp (runCommand host fuel agent params).run
      (fun t r => ∀ details, r = .ok details → Accounted details t) [] := by
  refine (wp_run_bind ..).mpr (wp_mono ?_ (wp_trivial ..))
  rintro t (exn | _) _
  · exact fun _ h => nomatch h
  refine (wp_run_bind ..).mpr ((wp_fromExcept ..).mpr ?_)
  cases getKey params "command" with
  | error exn => exact fun _ h => nomatch h
  | ok value =>
      dsimp only
      split_ifs
      · exact fun _ h => nomatch h
      refine (wp_run_bind ..).mpr ((wp_fromExcept ..).mpr ?_)
      cases asString (value.getD .null) with
      | error exn => exact fun _ h => nomatch h
      | ok command =>
          refine (wp_run_bind ..).mpr ((wp_fromExcept ..).mpr ?_)
          cases getKey params "cwd" with
          | error exn => exact fun _ h => nomatch h
          | ok cwd =>
              refine (wp_run_bind ..).mpr ((wp_fromExcept ..).mpr ?_)
              cases getKey params "timeout_seconds" with
              | error exn => exact fun _ h => nomatch h
              | ok timeout => exact wp_runApproved _ _ _ _ _ _ _

theorem natOfDigits_toDigits (n : ℕ) : natOfDigits (Nat.toDigits 10 n) = some n := by
  have hdigits : (!(Nat.toDigits 10 n).isEmpty && (Nat.toDigits 10 n).all Char.isDigit) = true := by
    rw [Bool.and_eq_true_iff, Bool.not_eq_true', List.isEmpty_eq_false_iff, List.all_eq_true]
    exact ⟨Nat.toDigits_ne_nil, fun c hc =>
      Nat.isDigit_of_mem_toDigits (by decide) (by decide) hc⟩
  unfold natOfDigits
  rw [if_pos hdigits, Nat.ofDigitChars_toDigits (by decide) (by decide)]

theorem int?_jsonOfNat (n : ℕ) : int? (jsonOfNat n) = some (n : ℤ) := by
  change intOfLiteral (Nat.repr n) = _
  unfold intOfLiteral
  rw [Nat.repr_eq_ofList_toDigits, String.toList_ofList]
  split
  · rename_i digits hdigits
    have hdash : '-' ∈ Nat.toDigits 10 n := hdigits ▸ List.mem_cons_self
    have hdigit := Nat.isDigit_of_mem_toDigits (by decide) (by decide) hdash
    exact absurd hdigit (by decide)
  · rw [natOfDigits_toDigits]
    rfl

theorem Outcome.eq_exited {outcome : Outcome} (h : outcome.text = "exited") :
    outcome = .exited := by
  cases outcome <;> first | rfl | exact absurd h (by decide)

theorem eq_zero_of_int? {returncode : Option ℕ} (h : int? (optionalNat returncode) = some 0) :
    returncode = some 0 := by
  cases returncode with
  | none => cases h
  | some n =>
      have hn : (n : ℤ) = 0 := Option.some.inj ((int?_jsonOfNat n).symm.trans h)
      rw [Int.natCast_eq_zero.mp hn]

theorem isTrue_bool {b : Bool} (h : isTrue (.bool b) = true) : b = true := by
  cases b with
  | true => rfl
  | false => cases h

/-- The success of a command, read back from the details of its run. -/
theorem commandSucceeded_details {audit : ExecutionAudit} {result : ShellResult}
    {wasRecorded : Bool} (h : commandSucceeded (commandDetails audit result wasRecorded)) :
    result.outcome = .exited ∧ result.returncode = some 0 ∧ result.cleanupConfirmed = true ∧
      wasRecorded = true := by
  have hdetails : commandSucceeded (commandDetails audit result wasRecorded) =
      (decide (result.outcome.text = "exited") &&
        decide (int? (optionalNat result.returncode) = some 0) &&
        isTrue (.bool result.cleanupConfirmed) && isTrue (.bool wasRecorded)) := rfl
  rw [hdetails] at h
  simp only [Bool.and_eq_true, decide_eq_true_eq] at h
  obtain ⟨⟨⟨houtcome, hcode⟩, hcleanup⟩, hrecorded⟩ := h
  exact ⟨Outcome.eq_exited houtcome, eq_zero_of_int? hcode, isTrue_bool hcleanup,
    isTrue_bool hrecorded⟩

/-- The details the bridge answered with. -/
def answered (t : Trace BridgeCall.Answer) : List Message :=
  t.filterMap fun x => match x with
    | ⟨.sendCommand .., .ok details⟩ => some details
    | ⟨.sendCommand .., .error _⟩ => none

/-- The tool reports a success of `run_command` only on the details of one. -/
theorem wp_executeLocalPc (texts : NumberTexts F) (python : Agent.Python) (tenantId : String)
    (params : Agent.Params) :
    wp (executeLocalPc texts python tenantId (.string "run_command") params).run
      (fun t r => ∀ result, r = .ok result → result.success = true →
        ∀ details ∈ answered t, commandSucceeded details) [] := by
  refine (wp_run_bind ..).mpr ((wp_fromExcept ..).mpr ?_)
  have hfound : findAction python (.string "run_command") = .ok .runCommand := rfl
  rw [hfound]
  refine (wp_run_bind ..).mpr ((wp_fromExcept ..).mpr ?_)
  cases normalizeNumbers texts .runCommand params with
  | error exn => exact fun _ h => nomatch h
  | ok sent =>
      refine (wp_run_bind ..).mpr ((wp_call ..).mpr fun answer => ?_)
      rcases answer with exn | details
      · exact fun _ h => nomatch h
      refine (wp_fromExcept ..).mpr fun result hreport hsuccess => ?_
      rintro _ (_ | ⟨_, ⟨⟩⟩)
      obtain ⟨summary, _, hresult⟩ := Raising.bind_eq_ok.mp hreport
      rw [← Raising.pure_eq_ok.mp hresult] at hsuccess
      exact hsuccess

/-- What the server may report as a success of the run `t`. -/
def Succeeded (details : Details) (t : LocalTrace F) : Prop :=
  ∃ process job record result, Created process t ∧ Exited process 0 t ∧ CleanedUp job process t ∧
    Durable record t ∧ record.fields = .finished result ∧ result.outcome = .exited ∧
    result.returncode = some 0 ∧ result.cleanupConfirmed = true ∧
    detail details "execution_id" = .string record.executionId

omit [PyFloat F] in
theorem Accounted.succeeded {details : Details} {t : LocalTrace F} (h : Accounted details t)
    (hsuccess : commandSucceeded details) : Succeeded details t := by
  obtain ⟨audit, result, wasRecorded, rfl, htruth, hrecord⟩ := h
  obtain ⟨houtcome, hcode, hcleanup, hrecorded⟩ := commandSucceeded_details hsuccess
  obtain ⟨process, job, code, hcode', hcreated, hexited, hcleaned⟩ := htruth houtcome
  obtain ⟨record, hdurable, hfields, hid⟩ := hrecord hrecorded
  rw [hcode, Option.some.injEq] at hcode'
  subst hcode'
  refine ⟨process, job, record, result, hcreated, hexited, hcleaned hcleanup, hdurable, hfields,
    houtcome, hcode, hcleanup, ?_⟩
  rw [hid]
  rfl

/-- No process without a durable approval record, at most one terminal record, which follows the
approval, and no success reported but of a process that exited with zero, was cleaned up and has
its terminal record. -/
theorem shell_commands_audited (host : Host) (fuel : ℕ) (agent : LocalAgent F) (params : Json) :
    (∀ past e, Starts (runCommand host fuel agent params).run past e → AuditGate past e) ∧
    ∀ t details, Runs (runCommand host fuel agent params).run t (.ok details) →
      ∀ (texts : NumberTexts F) (python : Agent.Python) (tenantId : String)
        (toolParams : Agent.Params) (trace : Trace BridgeCall.Answer) (result : Agent.ToolResult),
        Runs (executeLocalPc texts python tenantId (.string "run_command") toolParams).run trace
          (.ok result) →
        details ∈ answered trace → result.success = true → Succeeded details t := by
  constructor
  · intro past e hstart
    exact (safe_runCommandAudit host fuel agent params).starts hstart
  · intro t details hrun texts python tenantId toolParams trace result htool hdetails hsuccess
    have haccounted := runs_of_wp (wp_runCommand host fuel agent params) hrun details rfl
    exact haccounted.succeeded (runs_of_wp (wp_executeLocalPc texts python tenantId toolParams)
      htool result rfl hsuccess details hdetails)

end Clock

/-- A Windows machine. -/
def windowsHost : Host where
  python := ⟨⟨fun c => c.isAlphanum || c = '_', List.map Char.toLower⟩, fun _ => ""⟩
  win32 := true
  nt := true
  hasStartfile := true
  opener := "xdg-open"
  isAbsolute text := ":\\".toList.isPrefixOf (text.toList.drop 1)
  pathText path := path.anchor ++ "\\".intercalate path.parts
  normcase text := String.ofList (text.toList.map Char.toLower)
  urlsplit _ := .error (.valueError "Invalid URL")
  uddg _ := ""
  similar _ _ := false
  closeMatches _ _ := []
  sha256 _ := ""
  decode _ := ""

def shellAgent : LocalAgent ℚ where
  capabilities := [("shell_exec", .bool true)]
  allowedFolders := []
  appAliases := []
  approver := true
  deadline := some 40

/-- A command that exits at once, without output. -/
def quietKernel : (c : KernelCall) → c.Answer
  | .load => ()
  | .lastError => 0
  | .createJobObject => some 1
  | .createPipe => (true, some 2, some 3)
  | .createFile => some 4
  | .attributeListSize => 48
  | .getSystemDirectory => (19, "C:\\Windows\\system32")
  | .createProcess .. => (true, some 5, some 6)
  | .resumeThread _ => 1
  | .waitForSingleObject _ => 0
  | .getExitCodeProcess _ | .peekNamedPipe _ | .queryJobAccounting _ => (true, 0)
  | .readFile .. | .queryJobMembers _ => (true, [])
  | .openProcess _ => none
  | .isProcessInJob .. => (true, true)
  | .setInformationJobObject _ | .setHandleInformation _ | .initializeAttributeList
  | .updateHandleList _ | .updateJobList _ | .terminateJobObject _ => true

/-- The command is approved, and every record is written. -/
def quietMachine (_ : LocalTrace ℚ) : (e : Effect) → Option (Effect.Answer ℚ e)
  | .approve _ _ => some (.ok (.bool true))
  | .cancelIsSet => some (.ok false)
  | .monotonic => some (.ok 10)
  | .time => some (.ok 100)
  | .uuid4 => some (.ok "id")
  | .auditOpen | .auditWrite _ | .auditFlush | .auditFsync | .auditClose => some (.ok ())
  | .kernel c => some (.ok (quietKernel c))
  | _ => none

def quietRun : Program Effect (Effect.Answer ℚ) (Result Details) :=
  (runCommand windowsHost 2 shellAgent (.object [("command", .string "cd")])).run

def plainNumbers : NumberTexts ℚ := ⟨fun _ => none, fun _ => none, fun _ => "0"⟩

/-- The bridge answers with these details. -/
def reportOf (details : Details) (_ : Trace BridgeCall.Answer) : (c : BridgeCall) → c.Answer
  | .sendCommand .. => .ok details

theorem shell_commands_audited_quietRun : ∃ details, Succeeded details
    (playUntil quietMachine quietRun []).1 := by
  have hsucceeds : ((playUntil quietMachine quietRun []).2.getRight?.any fun r =>
      r.toOption.any commandSucceeded) = true := by decide +kernel
  obtain ⟨r, hr, hany⟩ := (Option.any_eq_true _ _).mp hsucceeds
  obtain ⟨details, hdetails, hsuccess⟩ := (Option.any_eq_true _ _).mp hany
  have hok : r = .ok details := by
    cases r with
    | error exn => cases hdetails
    | ok d => rw [← Option.some.inj hdetails]
  subst hok
  have hrun := runs_playUntil quietMachine quietRun [] (Sum.getRight?_eq_some_iff.mp hr)
  have htool := runs_play (reportOf details)
    (executeLocalPc plainNumbers windowsHost.python "t" (.string "run_command") []).run []
  cases hreport : (play (reportOf details)
      (executeLocalPc plainNumbers windowsHost.python "t" (.string "run_command") []).run []).2 with
  | error exn => cases hreport
  | ok result =>
      rw [hreport] at htool
      refine ⟨details, (shell_commands_audited windowsHost 2 shellAgent _).2 _ details hrun
        plainNumbers windowsHost.python "t" [] _ result htool List.mem_cons_self ?_⟩
      rw [← Except.ok.inj hreport]
      exact hsuccess

end Ally.Companion
