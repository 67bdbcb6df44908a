import Ally.TaskDrain

/-!
# Worker-local copies of S3 objects

`_materialized_source` for an S3 reference and the body of an activity inside it, with the
blocking operations that `_run_sync_with_heartbeat` starts on the tracker of the worker.
-/

namespace Ally.MaterializedSource

open TaskDrain (DrainableTasks)

/-- A blocking operation; `usesPath` is whether it was given the path of the copy, and
`onCancel` whether its completion is to remove the copy. -/
inductive Operation
  | absent
  | running (usesPath onCancel : Bool)
  | finished (usesPath onCancel : Bool)
  deriving DecidableEq, Repr

def Operation.usesPath : Operation → Bool
  | .absent => false
  | .running usesPath _ => usesPath
  | .finished usesPath _ => usesPath

def Operation.onCancel : Operation → Bool
  | .absent => false
  | .running _ onCancel => onCancel
  | .finished _ onCancel => onCancel

/-- `task.add_done_callback(lambda _: on_cancel())`. -/
def Operation.attach : Operation → Operation
  | .absent => .absent
  | .running usesPath _ => .running usesPath true
  | .finished usesPath _ => .finished usesPath true

/-- Where the activity is. -/
inductive Phase
  | entering
  /-- Awaiting the download. -/
  | downloading (op : ℕ)
  /-- In the body, at an await of something else or at none. -/
  | body
  /-- In the body, awaiting this operation. -/
  | awaiting (op : ℕ)
  | ended
  deriving DecidableEq, Repr

structure World where
  tracker : DrainableTasks ℕ
  op : ℕ → Operation
  /-- The number of operations started. -/
  started : ℕ
  /-- The temporary file exists. -/
  file : Bool
  phase : Phase

/-- How the entry of the context goes. -/
inductive Entry
  | invalidReference
  | tempFileFails
  | clientFails
  | downloads
  deriving DecidableEq, Repr

/-- What an awaited operation gives: a result, an exception, or the cancellation of its task. -/
inductive Outcome
  | returned | raised | cancelled
  deriving DecidableEq, Repr

inductive Event
  | enter (entry : Entry)
  | start (usesPath : Bool)
  | finish (op : ℕ)
  /-- The done callback `_discard`. -/
  | discard (op : ℕ)
  /-- The done callback `on_cancel`. -/
  | cleanup (op : ℕ)
  /-- The activity goes on after the operation that it awaits. -/
  | resume (outcome : Outcome)
  /-- The body returns or raises on its own. -/
  | leave
  /-- A `CancelledError` is thrown in at the await of the activity. -/
  | cancel
  /-- The worker closes its tracker. -/
  | close
  deriving DecidableEq, Repr

namespace World

def initial : World := ⟨⟨[], false⟩, fun _ => .absent, 0, false, .entering⟩

/-- `finally: Path(temp_path).unlink(missing_ok=True)`. -/
def exit (w : World) : World := { w with file := false, phase := .ended }

/-- `tracker.start`; `next` is the phase that awaits the operation. -/
def launch (usesPath : Bool) (next : ℕ → Phase) (w : World) : World :=
  match w.tracker.start w.started with
  | none => w.exit
  | some tracker =>
      { w with
        tracker
        op := Function.update w.op w.started (.running usesPath false)
        started := w.started + 1
        phase := next w.started }

/-- `temp_path = None`: the completion of the download removes the file. -/
def transfer (op : ℕ) (w : World) : World :=
  { w with op := Function.update w.op op (w.op op).attach, phase := .ended }

def enter (w : World) : Entry → World
  | .invalidReference => { w with phase := .ended }
  | .tempFileFails => { w with phase := .ended }
  | .clientFails => w.exit
  | .downloads => { w with file := true }.launch true .downloading

/-- A `CancelledError` leaves the context. -/
def cancel (w : World) : World :=
  match w.phase with
  | .downloading op => w.transfer op
  | _ => w.exit

end World

def step (w : World) : Event → Option World
  | .enter entry => if w.phase = .entering then some (w.enter entry) else none
  | .start usesPath => if w.phase = .body then some (w.launch usesPath .awaiting) else none
  | .finish op =>
      match w.op op with
      | .running usesPath onCancel =>
          some { w with op := Function.update w.op op (.finished usesPath onCancel) }
      | _ => none
  | .discard op =>
      match w.op op with
      | .finished .. =>
          if op ∈ w.tracker.tasks then some { w with tracker := w.tracker.discard op } else none
      | _ => none
  | .cleanup op =>
      match w.op op with
      | .finished usesPath true =>
          some { w with op := Function.update w.op op (.finished usesPath false), file := false }
      | _ => none
  | .resume outcome =>
      match w.phase with
      | .downloading op =>
          match w.op op, outcome with
          | .finished .., .returned => some { w with phase := .body }
          | .finished .., .raised => some w.exit
          | .finished .., .cancelled => some (w.transfer op)
          | _, _ => none
      | .awaiting op =>
          match w.op op, outcome with
          | .finished .., .returned => some { w with phase := .body }
          | .finished .., .raised =>
              -- the body may catch the exception and go on
              some { w with phase := .body }
          | .finished .., .cancelled => some w.exit
          | _, _ => none
      | _ => none
  | .leave => if w.phase = .body then some w.exit else none
  | .cancel => if w.phase = .entering ∨ w.phase = .ended then none else some w.cancel
  | .close => some { w with tracker := { w.tracker with closing := true } }

/-! ### The property -/

/-- A tracked operation that was given the path and is running has its file. -/
def World.Protected (w : World) : Prop :=
  ∀ op onCancel, op ∈ w.tracker.tasks → w.op op = .running true onCancel → w.file = true

/-- Once the activity has ended and the operations on the path have finished, with their
callbacks, the file is gone. -/
def World.Removed (w : World) : Prop :=
  w.phase = .ended → (∀ op, (w.op op).usesPath = true → w.op op = .finished true false) →
    w.file = false

/-- The activity is cancelled while an operation of its body runs on the path. -/
def Hasty (w : World) (event : Event) : Prop :=
  ∃ op onCancel, event = .cancel ∧ w.phase = .awaiting op ∧ w.op op = .running true onCancel

/-! ### The invariant -/

/-- The operation that the activity awaits. -/
def Phase.awaited? : Phase → Option ℕ
  | .downloading op => some op
  | .awaiting op => some op
  | _ => none

/-- The activity is inside the context. -/
def Phase.inside : Phase → Bool
  | .entering => false
  | .ended => false
  | _ => true

def Operation.isRunning : Operation → Bool
  | .running .. => true
  | _ => false

structure World.Wf (w : World) : Prop where
  fresh : ∀ op, w.started ≤ op → w.op op = .absent
  tracked : ∀ op, (w.op op).isRunning = true → op ∈ w.tracker.tasks
  entering : w.phase = .entering → w.file = false ∧ ∀ op, w.op op = .absent
  current : ∀ op, (w.op op).isRunning = true → w.phase ≠ .ended → w.phase.awaited? = some op
  download : ∀ op, w.phase = .downloading op → (w.op op).usesPath = true
  inside : w.phase.inside = true → w.file = true ∧ ∀ op, (w.op op).onCancel = false
  owner : ∀ op, (w.op op).onCancel = true → (w.op op).usesPath = true
  kept : w.phase = .ended → w.file = true → ∃ op, (w.op op).onCancel = true
  only : ∀ op op', (w.op op).isRunning = true → (w.op op').onCancel = true → op' = op

/-- Every operation that runs on the path has the file, and owns it once the activity has
ended. -/
def World.Guarded (w : World) : Prop :=
  ∀ op onCancel, w.op op = .running true onCancel →
    w.file = true ∧ (w.phase = .ended → onCancel = true)

variable {w w' : World}

namespace World.Wf

theorem initial : World.initial.Wf where
  fresh _ _ := rfl
  tracked _ h := by cases h
  entering _ := ⟨rfl, fun _ => rfl⟩
  current _ h := by cases h
  download _ h := by cases h
  inside h := by cases h
  owner _ h := by cases h
  kept h := by cases h
  only _ _ h := by cases h

theorem exit (h : w.Wf) : w.exit.Wf where
  fresh := h.fresh
  tracked := h.tracked
  entering hp := by cases hp
  current _ _ hne := absurd rfl hne
  download _ hp := by cases hp
  inside hp := by cases hp
  owner := h.owner
  kept _ hf := by cases hf
  only := h.only

/-- Outside of an await no operation runs. -/
theorem not_running (h : w.Wf) (hne : w.phase ≠ .ended) (hnone : w.phase.awaited? = none)
    (op : ℕ) : (w.op op).isRunning = false := by
  by_contra hrun
  have hsome := h.current op (by simpa using hrun) hne
  rw [hnone] at hsome
  cases hsome

theorem launch (h : w.Wf) {usesPath : Bool} {next : ℕ → Phase} (hfile : w.file = true)
    (hquiet : ∀ op, (w.op op).isRunning = false) (hclean : ∀ op, (w.op op).onCancel = false)
    (hnext : ∀ op, (next op).awaited? = some op ∧ next op ≠ .entering ∧ next op ≠ .ended ∧
      (∀ op', next op = .downloading op' → usesPath = true)) :
    (w.launch usesPath next).Wf := by
  unfold World.launch DrainableTasks.start
  by_cases hclosing : w.tracker.closing = true
  · rw [if_pos hclosing]
    exact h.exit
  · rw [if_neg hclosing]
    obtain ⟨hawaited, hentering, hended, hdownload⟩ := hnext w.started
    refine ⟨fun op hop => ?_, fun op hrun => ?_, fun hp => absurd hp hentering,
      fun op hrun _ => ?_, fun op hp => ?_, fun _ => ⟨hfile, fun op => ?_⟩, fun op hc => ?_,
      fun hp => absurd hp hended, fun op op' _ hc => ?_⟩
    · dsimp only at hop ⊢
      rw [Function.update_of_ne (by omega)]
      exact h.fresh op (by omega)
    · dsimp only at hrun ⊢
      by_cases hop : op = w.started
      · rw [hop]
        exact List.mem_cons_self
      · rw [Function.update_of_ne hop] at hrun
        exact List.mem_cons_of_mem _ (h.tracked op hrun)
    · dsimp only at hrun ⊢
      by_cases hop : op = w.started
      · rw [hop, hawaited]
      · rw [Function.update_of_ne hop, hquiet op] at hrun
        cases hrun
    · dsimp only at hp ⊢
      have hop : op = w.started := by
        rw [hp] at hawaited
        exact Option.some.inj hawaited
      rw [hop, Function.update_self]
      exact hdownload op hp
    · dsimp only
      by_cases hop : op = w.started
      · rw [hop, Function.update_self]
        rfl
      · rw [Function.update_of_ne hop]
        exact hclean op
    · dsimp only at hc ⊢
      by_cases hop : op = w.started
      · rw [hop, Function.update_self] at hc
        cases hc
      · rw [Function.update_of_ne hop, hclean op] at hc
        cases hc
    · dsimp only at hc
      by_cases hop : op' = w.started
      · rw [hop, Function.update_self] at hc
        cases hc
      · rw [Function.update_of_ne hop, hclean op'] at hc
        cases hc

theorem finish (h : w.Wf) {op : ℕ} {usesPath onCancel : Bool}
    (hop : w.op op = .running usesPath onCancel) :
    World.Wf { w with op := Function.update w.op op (.finished usesPath onCancel) } := by
  have hsame : ∀ op', (Function.update w.op op (.finished usesPath onCancel) op').usesPath =
        (w.op op').usesPath ∧
      (Function.update w.op op (.finished usesPath onCancel) op').onCancel =
        (w.op op').onCancel := by
    intro op'
    by_cases heq : op' = op
    · rw [heq, Function.update_self, hop]
      exact ⟨rfl, rfl⟩
    · rw [Function.update_of_ne heq]
      exact ⟨rfl, rfl⟩
  have hrunning : ∀ op', (Function.update w.op op (.finished usesPath onCancel) op').isRunning =
      true → (w.op op').isRunning = true := by
    intro op' hrun
    by_cases heq : op' = op
    · rw [heq, Function.update_self] at hrun
      cases hrun
    · rwa [Function.update_of_ne heq] at hrun
  refine ⟨fun op' hle => ?_, fun op' hrun => h.tracked op' (hrunning op' hrun), fun hp => ?_,
    fun op' hrun hne => h.current op' (hrunning op' hrun) hne, fun op' hp => ?_,
    fun hp => ⟨(h.inside hp).1, fun op' => ?_⟩, fun op' hc => ?_, fun hp hf => ?_,
    fun op₁ op₂ hrun hc => ?_⟩
  · have hne : op' ≠ op := by
      rintro rfl
      rw [h.fresh op' hle] at hop
      cases hop
    dsimp only
    rw [Function.update_of_ne hne]
    exact h.fresh op' hle
  · rw [(h.entering hp).2 op] at hop
    cases hop
  · dsimp only
    rw [(hsame op').1]
    exact h.download op' hp
  · dsimp only
    rw [(hsame op').2]
    exact (h.inside hp).2 op'
  · dsimp only at hc ⊢
    rw [(hsame op').2] at hc
    rw [(hsame op').1]
    exact h.owner op' hc
  · obtain ⟨op', hc⟩ := h.kept hp hf
    exact ⟨op', by dsimp only; rw [(hsame op').2]; exact hc⟩
  · dsimp only at hc
    rw [(hsame op₂).2] at hc
    exact h.only op₁ op₂ (hrunning op₁ hrun) hc

theorem discard (h : w.Wf) {op : ℕ} {usesPath onCancel : Bool}
    (hop : w.op op = .finished usesPath onCancel) :
    World.Wf { w with tracker := w.tracker.discard op } := by
  refine ⟨h.fresh, fun op' hrun => ?_, h.entering, h.current, h.download, h.inside, h.owner,
    h.kept, h.only⟩
  have hne : op' ≠ op := by
    rintro rfl
    rw [show w.op op' = _ from hop] at hrun
    cases hrun
  exact List.mem_filter.mpr ⟨h.tracked op' hrun, by simpa using hne⟩

theorem cleanup (h : w.Wf) {op : ℕ} {usesPath : Bool} (hop : w.op op = .finished usesPath true) :
    World.Wf { w with op := Function.update w.op op (.finished usesPath false), file := false } := by
  have hended : w.phase = .ended := by
    by_contra hne
    cases hphase : w.phase with
    | entering =>
        rw [(h.entering hphase).2 op] at hop
        cases hop
    | ended => exact hne hphase
    | _ =>
        have hclean := (h.inside (by rw [hphase]; rfl)).2 op
        rw [hop] at hclean
        cases hclean
  have hother : ∀ op', op' ≠ op →
      Function.update w.op op (.finished usesPath false) op' = w.op op' :=
    fun op' hne => Function.update_of_ne hne ..
  refine ⟨fun op' hle => ?_, fun op' hrun => ?_, fun hp => ?_, fun _ _ hne => absurd hended hne,
    fun op' hp => ?_, fun hp => ?_, fun op' hc => ?_, fun _ => nofun,
    fun op₁ op₂ hrun hc => ?_⟩
  · have hne : op' ≠ op := by
      rintro rfl
      rw [h.fresh op' hle] at hop
      cases hop
    dsimp only
    rw [hother op' hne]
    exact h.fresh op' hle
  · dsimp only at hrun
    by_cases heq : op' = op
    · rw [heq, Function.update_self] at hrun
      cases hrun
    · rw [hother op' heq] at hrun
      exact h.tracked op' hrun
  · rw [show w.phase = _ from hp] at hended
    cases hended
  · rw [show w.phase = _ from hp] at hended
    cases hended
  · dsimp only at hp
    rw [hended] at hp
    cases hp
  · dsimp only at hc ⊢
    by_cases heq : op' = op
    · rw [heq, Function.update_self] at hc
      cases hc
    · rw [hother op' heq] at hc ⊢
      exact h.owner op' hc
  · dsimp only at hrun hc
    by_cases heq : op₁ = op
    · rw [heq, Function.update_self] at hrun
      cases hrun
    · rw [hother op₁ heq] at hrun
      by_cases heq' : op₂ = op
      · rw [heq', Function.update_self] at hc
        cases hc
      · rw [hother op₂ heq'] at hc
        exact h.only op₁ op₂ hrun hc

theorem transfer (h : w.Wf) {op : ℕ} (hphase : w.phase = .downloading op) : (w.transfer op).Wf := by
  have hpath := h.download op hphase
  have hclean := (h.inside (by rw [hphase]; rfl)).2
  have hne : w.phase ≠ .ended := by
    rw [hphase]
    rintro ⟨⟩
  have hcurrent : ∀ op', (w.op op').isRunning = true → op' = op := by
    intro op' hrun
    have hsome := h.current op' hrun hne
    rw [hphase] at hsome
    exact (Option.some.inj hsome).symm
  have hattach : (w.op op).attach.usesPath = true ∧ (w.op op).attach.onCancel = true ∧
      ((w.op op).attach.isRunning = true → (w.op op).isRunning = true) := by
    cases hop : w.op op with
    | absent =>
        rw [hop] at hpath
        cases hpath
    | running usesPath onCancel =>
        rw [hop] at hpath
        exact ⟨hpath, rfl, id⟩
    | finished usesPath onCancel =>
        rw [hop] at hpath
        exact ⟨hpath, rfl, id⟩
  have hother : ∀ op', op' ≠ op → Function.update w.op op (w.op op).attach op' = w.op op' :=
    fun op' hne => Function.update_of_ne hne ..
  unfold World.transfer
  refine ⟨fun op' hle => ?_, fun op' hrun => ?_, nofun, fun _ _ hne => absurd rfl hne, fun _ => nofun, nofun,
    fun op' hc => ?_, fun _ _ => ⟨op, ?_⟩,
    fun op₁ op₂ hrun hc => ?_⟩
  · have hne : op' ≠ op := by
      rintro rfl
      rw [h.fresh op' hle] at hpath
      cases hpath
    dsimp only
    rw [hother op' hne]
    exact h.fresh op' hle
  · dsimp only at hrun
    by_cases heq : op' = op
    · rw [heq, Function.update_self] at hrun
      rw [heq]
      exact h.tracked op (hattach.2.2 hrun)
    · rw [hother op' heq] at hrun
      exact h.tracked op' hrun
  · dsimp only at hc ⊢
    by_cases heq : op' = op
    · rw [heq, Function.update_self]
      exact hattach.1
    · rw [hother op' heq, hclean op'] at hc
      cases hc
  · dsimp only
    rw [Function.update_self]
    exact hattach.2.1
  · dsimp only at hrun hc
    have heq₁ : op₁ = op := by
      by_contra hne₁
      rw [hother op₁ hne₁] at hrun
      exact hne₁ (hcurrent op₁ hrun)
    by_contra hne₂
    rw [heq₁] at hne₂
    rw [hother op₂ hne₂, hclean op₂] at hc
    cases hc

theorem toBody (h : w.Wf) (hinside : w.phase.inside = true) {op : ℕ}
    (hawaited : w.phase.awaited? = some op) (hop : (w.op op).isRunning = false) :
    World.Wf { w with phase := .body } := by
  have hne : w.phase ≠ .ended := by
    intro heq
    rw [heq] at hinside
    cases hinside
  refine ⟨h.fresh, h.tracked, nofun, fun op' hrun _ => ?_, fun _ => nofun,
    fun _ => h.inside hinside, h.owner, nofun, h.only⟩
  have hsome := h.current op' hrun hne
  rw [hawaited] at hsome
  obtain rfl := Option.some.inj hsome
  rw [show (w.op op).isRunning = true from hrun] at hop
  cases hop

end World.Wf

theorem World.Wf.enter (h : w.Wf) (hphase : w.phase = .entering) (entry : Entry) :
    (w.enter entry).Wf := by
  have hnone := (h.entering hphase).2
  have hend : World.Wf { w with phase := .ended } :=
    ⟨h.fresh, h.tracked, nofun, fun _ _ hne => absurd rfl hne, fun _ => nofun, nofun, h.owner,
      fun _ hf => absurd hf (by simp [(h.entering hphase).1]), h.only⟩
  cases entry with
  | invalidReference => exact hend
  | tempFileFails => exact hend
  | clientFails => exact h.exit
  | downloads =>
      have hbody : World.Wf { w with file := true, phase := .body } :=
        ⟨h.fresh, h.tracked, nofun, fun op hrun _ => by simp [hnone op, Operation.isRunning] at hrun,
          fun _ => nofun, fun _ => ⟨rfl, fun op => by simp [hnone op, Operation.onCancel]⟩,
          h.owner, nofun, h.only⟩
      exact hbody.launch rfl (fun op => by simp [hnone op, Operation.isRunning])
        (fun op => by simp [hnone op, Operation.onCancel])
        fun op => ⟨rfl, nofun, nofun, fun _ _ => rfl⟩

theorem World.Wf.cancel (h : w.Wf) : w.cancel.Wf := by
  unfold World.cancel
  split
  · next op hphase => exact h.transfer hphase
  · exact h.exit

theorem World.Wf.start (h : w.Wf) (hphase : w.phase = .body) (usesPath : Bool) :
    (w.launch usesPath .awaiting).Wf := by
  obtain ⟨hfile, hclean⟩ := h.inside (by rw [hphase]; rfl)
  have hquiet := h.not_running (by rw [hphase]; nofun) (by rw [hphase]; rfl)
  exact h.launch hfile hquiet hclean fun op => ⟨rfl, nofun, nofun, fun _ => nofun⟩

/-- What `resume` does. -/
theorem resume_cases {outcome : Outcome} (hs : step w (.resume outcome) = some w') :
    ∃ op usesPath onCancel, w.phase.awaited? = some op ∧
      w.op op = .finished usesPath onCancel ∧ w.phase.inside = true ∧
      (w' = { w with phase := .body } ∨ w' = w.exit ∨
        (w.phase = .downloading op ∧ w' = w.transfer op)) := by
  unfold step at hs
  cases hphase : w.phase with
  | downloading op =>
      simp only [hphase] at hs
      cases hop : w.op op with
      | finished usesPath onCancel =>
          refine ⟨op, usesPath, onCancel, rfl, hop, rfl, ?_⟩
          simp only [hop] at hs
          cases outcome with
          | returned => exact .inl (Option.some.inj hs).symm
          | raised => exact .inr (.inl (Option.some.inj hs).symm)
          | cancelled => exact .inr (.inr ⟨rfl, (Option.some.inj hs).symm⟩)
      | _ => simp [hop] at hs
  | awaiting op =>
      simp only [hphase] at hs
      cases hop : w.op op with
      | finished usesPath onCancel =>
          refine ⟨op, usesPath, onCancel, rfl, hop, rfl, ?_⟩
          simp only [hop] at hs
          cases outcome with
          | returned => exact .inl (Option.some.inj hs).symm
          | raised => exact .inl (Option.some.inj hs).symm
          | cancelled => exact .inr (.inl (Option.some.inj hs).symm)
      | _ => simp [hop] at hs
  | _ => simp [hphase] at hs

theorem finish_cases {op : ℕ} (hs : step w (.finish op) = some w') :
    ∃ usesPath onCancel, w.op op = .running usesPath onCancel ∧
      w' = { w with op := Function.update w.op op (.finished usesPath onCancel) } := by
  unfold step at hs
  cases hop : w.op op with
  | running usesPath onCancel =>
      simp only [hop] at hs
      exact ⟨usesPath, onCancel, rfl, (Option.some.inj hs).symm⟩
  | _ => simp [hop] at hs

theorem discard_cases {op : ℕ} (hs : step w (.discard op) = some w') :
    ∃ usesPath onCancel, w.op op = .finished usesPath onCancel ∧
      w' = { w with tracker := w.tracker.discard op } := by
  unfold step at hs
  cases hop : w.op op with
  | finished usesPath onCancel =>
      simp only [hop, Option.ite_none_right_eq_some, Option.some.injEq] at hs
      exact ⟨usesPath, onCancel, rfl, hs.2.symm⟩
  | _ => simp [hop] at hs

theorem cleanup_cases {op : ℕ} (hs : step w (.cleanup op) = some w') :
    ∃ usesPath, w.op op = .finished usesPath true ∧
      w' = { w with op := Function.update w.op op (.finished usesPath false), file := false } := by
  unfold step at hs
  cases hop : w.op op with
  | finished usesPath onCancel =>
      cases onCancel with
      | true =>
          simp only [hop] at hs
          exact ⟨usesPath, rfl, (Option.some.inj hs).symm⟩
      | false => simp [hop] at hs
  | _ => simp [hop] at hs

theorem World.Wf.step (event : Event) (h : w.Wf) (hs : step w event = some w') : w'.Wf := by
  cases event with
  | enter entry =>
      simp only [MaterializedSource.step, Option.ite_none_right_eq_some, Option.some.injEq] at hs
      obtain ⟨hphase, rfl⟩ := hs
      exact h.enter hphase entry
  | start usesPath =>
      simp only [MaterializedSource.step, Option.ite_none_right_eq_some, Option.some.injEq] at hs
      obtain ⟨hphase, rfl⟩ := hs
      exact h.start hphase usesPath
  | finish op =>
      obtain ⟨usesPath, onCancel, hop, rfl⟩ := finish_cases hs
      exact h.finish hop
  | discard op =>
      obtain ⟨usesPath, onCancel, hop, rfl⟩ := discard_cases hs
      exact h.discard hop
  | cleanup op =>
      obtain ⟨usesPath, hop, rfl⟩ := cleanup_cases hs
      exact h.cleanup hop
  | resume outcome =>
      obtain ⟨op, usesPath, onCancel, hawaited, hop, hinside, rfl | rfl | ⟨hphase, rfl⟩⟩ :=
        resume_cases hs
      · exact h.toBody hinside hawaited (by rw [hop]; rfl)
      · exact h.exit
      · exact h.transfer hphase
  | leave =>
      simp only [MaterializedSource.step, Option.ite_none_right_eq_some, Option.some.injEq] at hs
      obtain ⟨-, rfl⟩ := hs
      exact h.exit
  | cancel =>
      simp only [MaterializedSource.step, Option.ite_none_left_eq_some, Option.some.injEq] at hs
      obtain ⟨-, rfl⟩ := hs
      exact h.cancel
  | close =>
      obtain rfl := Option.some.inj hs
      exact ⟨h.fresh, h.tracked, h.entering, h.current, h.download, h.inside, h.owner, h.kept,
        h.only⟩

/-! ### The file under an operation -/

theorem World.guarded_of_quiet (h : ∀ op, (w.op op).isRunning = false) : w.Guarded := by
  intro op onCancel hop
  have hrun := h op
  rw [hop] at hrun
  cases hrun

theorem World.guarded_exit (h : ∀ op onCancel, w.op op ≠ .running true onCancel) :
    w.exit.Guarded := fun op onCancel hop => absurd hop (h op onCancel)

theorem World.guarded_launch {usesPath : Bool} {next : ℕ → Phase} (hfile : w.file = true)
    (hquiet : ∀ op, (w.op op).isRunning = false) (hnext : ∀ op, next op ≠ .ended) :
    (w.launch usesPath next).Guarded := by
  unfold World.launch DrainableTasks.start
  by_cases hclosing : w.tracker.closing = true
  · rw [if_pos hclosing]
    exact World.guarded_of_quiet hquiet
  · rw [if_neg hclosing]
    exact fun _ _ _ => ⟨hfile, fun hp => absurd hp (hnext _)⟩

theorem World.guarded_transfer (h : w.Wf) {op : ℕ} (hphase : w.phase = .downloading op) :
    (w.transfer op).Guarded := by
  intro op' onCancel hop
  have hne : w.phase ≠ .ended := by rw [hphase]; nofun
  refine ⟨(h.inside (by rw [hphase]; rfl)).1, fun _ => ?_⟩
  by_cases heq : op' = op
  · simp only [World.transfer, heq, Function.update_self] at hop
    cases hold : w.op op with
    | running usesPath old =>
        rw [hold] at hop
        exact (Operation.running.inj hop).2.symm
    | _ => simp [hold, Operation.attach] at hop
  · simp only [World.transfer, Function.update_of_ne heq] at hop
    have hsome := h.current op' (by rw [hop]; rfl) hne
    rw [hphase] at hsome
    exact absurd (Option.some.inj hsome).symm heq

/-- An operation runs on the path inside of the context only while it is awaited. -/
theorem World.Wf.awaited (h : w.Wf) (hne : w.phase ≠ .ended) {op : ℕ} {onCancel : Bool}
    (hop : w.op op = .running true onCancel) :
    w.phase = .downloading op ∨ w.phase = .awaiting op := by
  have hsome := h.current op (by rw [hop]; rfl) hne
  cases hphase : w.phase with
  | downloading _ =>
      rw [hphase] at hsome
      exact .inl (by rw [Option.some.inj hsome])
  | awaiting _ =>
      rw [hphase] at hsome
      exact .inr (by rw [Option.some.inj hsome])
  | _ =>
      rw [hphase] at hsome
      cases hsome

theorem World.Guarded.step (event : Event) (h : w.Wf) (hg : w.Guarded) (hcalm : ¬ Hasty w event)
    (hs : step w event = some w') : w'.Guarded := by
  cases event with
  | enter entry =>
      simp only [MaterializedSource.step, Option.ite_none_right_eq_some, Option.some.injEq] at hs
      obtain ⟨hphase, rfl⟩ := hs
      have hquiet : ∀ op, (w.op op).isRunning = false := fun op => by
        rw [(h.entering hphase).2 op]
        rfl
      cases entry with
      | downloads => exact World.guarded_launch rfl hquiet fun _ => nofun
      | _ => exact World.guarded_of_quiet hquiet
  | start usesPath =>
      simp only [MaterializedSource.step, Option.ite_none_right_eq_some, Option.some.injEq] at hs
      obtain ⟨hphase, rfl⟩ := hs
      exact World.guarded_launch (h.inside (by rw [hphase]; rfl)).1
        (h.not_running (by rw [hphase]; nofun) (by rw [hphase]; rfl)) fun _ => nofun
  | finish op =>
      obtain ⟨usesPath, onCancel, hop, rfl⟩ := finish_cases hs
      intro op' onCancel' hop'
      by_cases heq : op' = op
      · simp only [heq, Function.update_self] at hop'
        cases hop'
      · simp only [Function.update_of_ne heq] at hop'
        exact hg op' onCancel' hop'
  | discard op =>
      obtain ⟨usesPath, onCancel, hop, rfl⟩ := discard_cases hs
      exact hg
  | cleanup op =>
      obtain ⟨usesPath, hop, rfl⟩ := cleanup_cases hs
      refine World.guarded_of_quiet fun op' => ?_
      by_contra hrun
      rw [Bool.not_eq_false] at hrun
      by_cases heq : op' = op
      · simp only [heq, Function.update_self] at hrun
        cases hrun
      · simp only [Function.update_of_ne heq] at hrun
        exact heq (h.only op' op hrun (by rw [hop]; rfl)).symm
  | resume outcome =>
      obtain ⟨op, usesPath, onCancel, hawaited, hop, hinside, hw'⟩ := resume_cases hs
      have hne : w.phase ≠ .ended := by
        intro heq
        rw [heq] at hinside
        cases hinside
      rcases hw' with rfl | rfl | ⟨hphase, rfl⟩
      · exact fun _ _ _ => ⟨(h.inside hinside).1, nofun⟩
      · refine World.guarded_exit fun op' onCancel' hop' => ?_
        have hsome := h.current op' (by rw [hop']; rfl) hne
        rw [hawaited] at hsome
        rw [← Option.some.inj hsome, hop] at hop'
        cases hop'
      · exact World.guarded_transfer h hphase
  | leave =>
      simp only [MaterializedSource.step, Option.ite_none_right_eq_some, Option.some.injEq] at hs
      obtain ⟨hphase, rfl⟩ := hs
      exact World.guarded_of_quiet
        (h.not_running (by rw [hphase]; nofun) (by rw [hphase]; rfl))
  | cancel =>
      simp only [MaterializedSource.step, Option.ite_none_left_eq_some, Option.some.injEq] at hs
      obtain ⟨hinside, rfl⟩ := hs
      unfold World.cancel
      split
      · next op hphase => exact World.guarded_transfer h hphase
      · next hnot =>
          refine World.guarded_exit fun op onCancel hop => ?_
          rcases h.awaited (fun heq => hinside (.inr heq)) hop with hphase | hphase
          · exact hnot op hphase
          · exact hcalm ⟨op, onCancel, rfl, hphase, hop⟩
  | close =>
      obtain rfl := Option.some.inj hs
      exact hg

/-- The file is gone after the last operation. -/
theorem World.Wf.removed (h : w.Wf) : w.Removed := by
  intro hphase hdone
  by_contra hfile
  obtain ⟨op, hc⟩ := h.kept hphase (by simpa using hfile)
  rw [hdone op (h.owner op hc)] at hc
  cases hc

/-- In every state of a run the file outlives the work that uses it, and no longer. -/
def Safe (events : List Event) : Prop :=
  ∀ pre w, pre <+: events → Machine.run step .initial pre = some w → w.Protected ∧ w.Removed

theorem temp_file_safe_iff (events : List Event) :
    Safe events ↔ Machine.Along step (fun w event => ¬ Hasty w event) .initial events := by
  constructor
  · rintro hsafe pre event w hpre hrun ⟨op, onCancel, rfl, hphase, hop⟩
    have hw : w.Wf := Machine.run_invariant (fun _ event _ h => h.step event) .initial hrun
    have hstep : step w .cancel = some w.exit := by
      simp [step, hphase, World.cancel]
    have hexit := (hsafe _ _ hpre (Machine.run_concat_some.mpr ⟨w, hrun, hstep⟩)).1
    have hfile : w.exit.file = true := hexit op onCancel (hw.tracked op (by rw [hop]; rfl)) hop
    cases hfile
  · intro hcalm pre w hpre hrun
    have hinv : w.Wf ∧ w.Guarded := by
      refine Machine.run_invariant_along (P := fun w => w.Wf ∧ w.Guarded) ?_ ⟨.initial, nofun⟩
        (hcalm.of_prefix hpre) hrun
      exact fun w event w' h hcalm hs => ⟨h.1.step event hs, h.2.step event h.1 hcalm hs⟩
    exact ⟨fun op onCancel _ hop => (hinv.2 op onCancel hop).1, hinv.1.removed⟩

/-- A text-layer check is cancelled while it reads the copy. -/
theorem temp_file_safe_cancelledCheck : ¬ ∀ events, Safe events := by
  intro h
  let events : List Event := [.enter .downloads, .finish 0, .discard 0, .resume .returned,
    .start true, .cancel]
  have hrun : ∃ w, Machine.run step .initial events = some w ∧ 1 ∈ w.tracker.tasks ∧
      w.op 1 = .running true false ∧ w.file = false := ⟨_, rfl, by decide, rfl, rfl⟩
  obtain ⟨w, hrun, htracked, hop, hfile⟩ := hrun
  have hkept := (h events events w List.prefix_rfl hrun).1 1 false htracked hop
  rw [hfile] at hkept
  cases hkept

end Ally.MaterializedSource
