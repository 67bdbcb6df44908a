import Ally.QdrantLease

/-!
# Tasks that outlive their waiters

`DrainableTasks` and the callers that wait for its tasks. A task is awaited through
`asyncio.shield`, so that a cancelled waiter leaves it running and tracked.
-/

namespace Ally.TaskDrain

variable {τ κ : Type}

inductive TaskState
  | absent
  | running
  /-- The task has returned, raised or been cancelled. -/
  | finished
  deriving DecidableEq, Repr

/-- Who started a task: `run` or `_run_sync_with_heartbeat`. -/
inductive Waiter
  | absent
  | waiting
  | returned
  | cancelled
  deriving DecidableEq, Repr

/-- Where in `close` a caller is. -/
inductive Closer (τ : Type)
  | idle
  /-- In `asyncio.gather` of these tasks. -/
  | gathering (tasks : List τ)
  | returned
  /-- The `gather` was cancelled. -/
  | cancelled
  deriving DecidableEq

structure DrainableTasks (τ : Type) where
  tasks : List τ
  closing : Bool
  deriving DecidableEq

inductive Entry (τ : Type)
  | admitted (t : τ)
  | refused (t : τ)
  | closing
  deriving DecidableEq

structure World (τ κ : Type) where
  tracker : DrainableTasks τ
  task : τ → TaskState
  waiter : τ → Waiter
  closer : κ → Closer τ
  log : List (Entry τ)

inductive Event (τ κ : Type)
  | start (t : τ)
  | finish (t : τ)
  /-- The done callback `_discard` of the task. -/
  | discard (t : τ)
  /-- The waiter gets the outcome of its task. -/
  | resume (t : τ)
  | cancelWaiter (t : τ)
  | close (k : κ)
  /-- The `gather` of the caller is done. -/
  | gathered (k : κ)
  | cancelClose (k : κ)

namespace DrainableTasks

variable [DecidableEq τ]

omit [DecidableEq τ] in
/-- `start`, or `WorkAdmissionClosed`. -/
def start (t : τ) (d : DrainableTasks τ) : Option (DrainableTasks τ) :=
  if d.closing then none else some { d with tasks := t :: d.tasks }

def discard (t : τ) (d : DrainableTasks τ) : DrainableTasks τ :=
  { d with tasks := d.tasks.filter (· ≠ t) }

end DrainableTasks

namespace World

def initial : World τ κ := ⟨⟨[], false⟩, fun _ => .absent, fun _ => .absent, fun _ => .idle, []⟩

variable [DecidableEq τ] [DecidableEq κ]

omit [DecidableEq κ] in
def start (t : τ) (w : World τ κ) : World τ κ :=
  match w.tracker.start t with
  | none => { w with log := w.log ++ [.refused t] }
  | some tracker =>
      { w with
        tracker
        task := Function.update w.task t .running
        waiter := Function.update w.waiter t .waiting
        log := w.log ++ [.admitted t] }

omit [DecidableEq τ] in
/-- `while self._tasks: await asyncio.gather(…)`. -/
def gather (k : κ) (w : World τ κ) : World τ κ :=
  { w with
    closer := Function.update w.closer k
      (if w.tracker.tasks = [] then .returned else .gathering w.tracker.tasks) }

omit [DecidableEq τ] [DecidableEq κ] in
/-- `self._closing = True`. -/
def begin (w : World τ κ) : World τ κ :=
  { w with tracker := { w.tracker with closing := true }, log := w.log ++ [.closing] }

omit [DecidableEq τ] in
def close (k : κ) (w : World τ κ) : World τ κ := w.begin.gather k

end World

variable [DecidableEq τ] [DecidableEq κ]

def step (w : World τ κ) : Event τ κ → Option (World τ κ)
  | .start t => if w.task t = .absent then some (w.start t) else none
  | .finish t =>
      if w.task t = .running then some { w with task := Function.update w.task t .finished }
      else none
  | .discard t =>
      if w.task t = .finished ∧ t ∈ w.tracker.tasks then
        some { w with tracker := w.tracker.discard t }
      else none
  | .resume t =>
      if w.waiter t = .waiting ∧ w.task t = .finished then
        some { w with waiter := Function.update w.waiter t .returned }
      else none
  | .cancelWaiter t =>
      if w.waiter t = .waiting then some { w with waiter := Function.update w.waiter t .cancelled }
      else none
  | .close k => if w.closer k = .idle then some (w.close k) else none
  | .gathered k =>
      match w.closer k with
      | .gathering tasks =>
          if ∀ t ∈ tasks, w.task t = .finished then some (w.gather k) else none
      | _ => none
  | .cancelClose k =>
      match w.closer k with
      | .gathering _ => some { w with closer := Function.update w.closer k .cancelled }
      | _ => none

/-! ### The invariant -/

variable {w w' : World τ κ}

structure World.Wf (w : World τ κ) : Prop where
  tracked : ∀ t, w.task t = .running → t ∈ w.tracker.tasks
  admitted : ∀ t, Entry.admitted t ∈ w.log ↔ w.task t ≠ .absent
  closing : w.tracker.closing = true ↔ Entry.closing ∈ w.log
  gathering : ∀ k tasks, w.closer k = .gathering tasks → w.tracker.closing = true
  returned : ∀ k, w.closer k = .returned → w.tracker.closing = true ∧ w.tracker.tasks = []
  shut : ∀ pre post, w.log = pre ++ .closing :: post → ∀ t, .admitted t ∉ post

namespace World.Wf

omit [DecidableEq τ] [DecidableEq κ] in
theorem initial : (World.initial : World τ κ).Wf where
  tracked _ h := by cases h
  admitted _ := by simp [World.initial]
  closing := by simp [World.initial]
  gathering _ _ h := by cases h
  returned _ h := by cases h
  shut := by simp [World.initial]

omit [DecidableEq κ] in
theorem start (h : w.Wf) {t : τ} (ht : w.task t = .absent) : (w.start t).Wf := by
  unfold World.start DrainableTasks.start
  by_cases hclosing : w.tracker.closing = true
  · rw [if_pos hclosing]
    refine ⟨h.tracked, fun u => ?_, ?_, h.gathering, h.returned, fun pre post heq u hmem => ?_⟩
    · simpa using h.admitted u
    · simpa using h.closing
    · rcases Machine.concat_split heq with ⟨-, -, rfl⟩ | ⟨post', rfl, hlog⟩
      · cases hmem
      · rcases List.mem_append.mp hmem with hmem | hmem
        · exact h.shut pre post' hlog u hmem
        · cases List.mem_singleton.mp hmem
  · rw [if_neg hclosing]
    refine ⟨fun u hu => ?_, fun u => ?_, ?_, h.gathering, fun k hk => ?_,
      fun pre post heq u hmem => ?_⟩
    · dsimp only at hu ⊢
      by_cases hut : u = t
      · rw [hut]
        exact List.mem_cons_self
      · rw [Function.update_of_ne hut] at hu
        exact List.mem_cons_of_mem t (h.tracked u hu)
    · dsimp only
      by_cases hut : u = t
      · subst hut
        simp
      · rw [Function.update_of_ne hut, ← h.admitted u]
        simp [hut]
    · simpa using h.closing
    · exact absurd (h.returned k hk).1 hclosing
    · have hnot : Entry.closing ∉ w.log := fun hin => hclosing (h.closing.mpr hin)
      rcases Machine.concat_split heq with ⟨-, hent, -⟩ | ⟨post', -, hlog⟩
      · cases hent
      · exact hnot (hlog ▸ by simp)

omit [DecidableEq κ] in
theorem finish (h : w.Wf) {t : τ} (ht : w.task t = .running) :
    World.Wf { w with task := Function.update w.task t .finished } where
  tracked u hu := by
    dsimp only at hu
    by_cases hut : u = t
    · rw [hut, Function.update_self] at hu
      cases hu
    · rw [Function.update_of_ne hut] at hu
      exact h.tracked u hu
  admitted u := by
    dsimp only
    by_cases hut : u = t
    · rw [hut, Function.update_self, h.admitted t, ht]
      simp
    · rw [Function.update_of_ne hut]
      exact h.admitted u
  closing := h.closing
  gathering := h.gathering
  returned := h.returned
  shut := h.shut

omit [DecidableEq κ] in
theorem discard (h : w.Wf) {t : τ} (ht : w.task t = .finished) :
    World.Wf { w with tracker := w.tracker.discard t } where
  tracked u hu := by
    have hne : u ≠ t := by
      rintro rfl
      rw [show w.task u = .running from hu] at ht
      cases ht
    exact List.mem_filter.mpr ⟨h.tracked u hu, by simpa using hne⟩
  admitted := h.admitted
  closing := h.closing
  gathering := h.gathering
  returned k hk := by
    obtain ⟨hclosing, hnil⟩ := h.returned k hk
    refine ⟨hclosing, ?_⟩
    simp only [DrainableTasks.discard, hnil, List.filter_nil]
  shut := h.shut

omit [DecidableEq τ] [DecidableEq κ] in
theorem setWaiter (h : w.Wf) (waiter : τ → Waiter) : World.Wf { w with waiter } :=
  ⟨h.tracked, h.admitted, h.closing, h.gathering, h.returned, h.shut⟩

omit [DecidableEq τ] in
theorem setCloser (h : w.Wf) {k : κ} {c : Closer τ} (hclosing : w.tracker.closing = true)
    (hc : c = .returned → w.tracker.tasks = []) :
    World.Wf { w with closer := Function.update w.closer k c } where
  tracked := h.tracked
  admitted := h.admitted
  closing := h.closing
  gathering _ _ _ := hclosing
  returned k' hk' := by
    dsimp only at hk'
    by_cases hk : k' = k
    · rw [hk, Function.update_self] at hk'
      exact ⟨hclosing, hc hk'⟩
    · rw [Function.update_of_ne hk] at hk'
      exact h.returned k' hk'
  shut := h.shut

omit [DecidableEq τ] in
theorem gather (h : w.Wf) (k : κ) (hclosing : w.tracker.closing = true) : (w.gather k).Wf := by
  refine h.setCloser hclosing fun heq => ?_
  by_contra hne
  rw [if_neg hne] at heq
  cases heq

omit [DecidableEq τ] [DecidableEq κ] in
theorem begin (h : w.Wf) : w.begin.Wf where
  tracked := h.tracked
  admitted t := by simpa [World.begin] using h.admitted t
  closing := by simp [World.begin]
  gathering _ _ _ := rfl
  returned k hk := ⟨rfl, (h.returned k hk).2⟩
  shut pre post heq t hmem := by
    rcases Machine.concat_split heq with ⟨-, -, rfl⟩ | ⟨post', rfl, hlog⟩
    · cases hmem
    · rcases List.mem_append.mp hmem with hmem | hmem
      · exact h.shut pre post' hlog t hmem
      · cases List.mem_singleton.mp hmem

theorem step (h : w.Wf) {event : Event τ κ} (hs : TaskDrain.step w event = some w') : w'.Wf := by
  cases event with
  | start t =>
      simp only [TaskDrain.step] at hs
      split at hs
      next ht =>
        obtain rfl := Option.some.inj hs
        exact h.start ht
      · cases hs
  | finish t =>
      simp only [TaskDrain.step] at hs
      split at hs
      next ht =>
        obtain rfl := Option.some.inj hs
        exact h.finish ht
      · cases hs
  | discard t =>
      simp only [TaskDrain.step] at hs
      split at hs
      next ht =>
        obtain rfl := Option.some.inj hs
        exact h.discard ht.1
      · cases hs
  | resume t =>
      simp only [TaskDrain.step] at hs
      split at hs
      · obtain rfl := Option.some.inj hs
        exact h.setWaiter _
      · cases hs
  | cancelWaiter t =>
      simp only [TaskDrain.step] at hs
      split at hs
      · obtain rfl := Option.some.inj hs
        exact h.setWaiter _
      · cases hs
  | close k =>
      simp only [TaskDrain.step] at hs
      split at hs
      · obtain rfl := Option.some.inj hs
        exact h.begin.gather k rfl
      · cases hs
  | gathered k =>
      simp only [TaskDrain.step] at hs
      split at hs
      next tasks hk =>
        split at hs
        · obtain rfl := Option.some.inj hs
          exact h.gather k (h.gathering k tasks hk)
        · cases hs
      · cases hs
  | cancelClose k =>
      simp only [TaskDrain.step] at hs
      split at hs
      next tasks hk =>
        obtain rfl := Option.some.inj hs
        exact h.setCloser (h.gathering k tasks hk) fun heq => by cases heq
      · cases hs

omit [DecidableEq τ] [DecidableEq κ] in
/-- When `close` has returned every admitted task has finished. -/
theorem drained (h : w.Wf) {k : κ} (hk : w.closer k = .returned) {t : τ}
    (ht : Entry.admitted t ∈ w.log) : w.task t = .finished := by
  have hnil := (h.returned k hk).2
  cases hstate : w.task t with
  | absent => exact absurd hstate ((h.admitted t).mp ht)
  | running =>
      have hmem := h.tracked t hstate
      rw [hnil] at hmem
      cases hmem
  | finished => rfl

end World.Wf

theorem run_wf {events : List (Event τ κ)}
    (h : Machine.run step (.initial : World τ κ) events = some w) : w.Wf :=
  Machine.run_invariant (fun _ _ _ hw hs => hw.step hs) .initial h

/-- A Qdrant store makes one client and closes it once, with no lease left or to come, and
the tasks of a tracker have finished when its `close` returns. -/
theorem owned_resources_drain {ι κ' : Type} [DecidableEq ι] [DecidableEq κ'] :
    (∀ (events : List (QdrantLease.Event ι κ')) (q : QdrantLease.World ι κ'),
      Machine.run QdrantLease.step .initial events = some q →
        q.created ≤ 1 ∧ q.closes ≤ 1 ∧
        (∀ k client, q.closer k = .closing client → q.leases = []) ∧
        ((∃ client, .closed client ∈ q.log) → q.leases = []) ∧
        ∀ pre post, q.log = pre ++ .closing :: post → ∀ i client, .granted i client ∉ post) ∧
    ∀ (events : List (Event τ κ)) (w : World τ κ),
      Machine.run step .initial events = some w →
        (∀ k, w.closer k = .returned → ∀ t, .admitted t ∈ w.log → w.task t = .finished) ∧
        ∀ pre post, w.log = pre ++ .closing :: post → ∀ t, .admitted t ∉ post := by
  constructor
  · intro events q hrun
    have hq := QdrantLease.run_wf hrun
    refine ⟨hq.created_le, hq.once, fun k client hk => ?_, fun ⟨client, hmem⟩ => ?_, hq.shut⟩
    · exact hq.leases_eq_nil (hq.detached k client hk).1
    · apply hq.leases_eq_nil
      by_contra hne
      have hpos : 0 < q.closes := List.countP_pos_iff.mpr ⟨_, hmem, rfl⟩
      have hzero := hq.kept (.inl hne)
      omega
  · intro events w hrun
    have hw := run_wf hrun
    exact ⟨fun k hk t ht => hw.drained hk ht, hw.shut⟩

/-- A lease holds `close` up, and a task whose waiter was cancelled holds it up too. -/
theorem owned_resources_drain_cancelledWaiter :
    (∃ q : QdrantLease.World ℕ ℕ, Machine.run QdrantLease.step .initial
        [.connect 0 false, .connect 0 true, .close 0, .wake 0, .connect 1 true, .close 1,
          .release 0, .wake 0, .callClose 0] = some q ∧
      q.log = [.granted 0 0, .closing, .closed 0] ∧ q.created ≤ 1 ∧ q.closes ≤ 1) ∧
    ∃ w : World ℕ ℕ, Machine.run step .initial
        [.start 0, .start 1, .cancelWaiter 0, .close 0, .start 2, .finish 1, .discard 1,
          .finish 0, .discard 0, .gathered 0] = some w ∧
      w.log = [.admitted 0, .admitted 1, .closing, .refused 2] ∧
      (w.closer 0 = .returned → w.task 0 = .finished) := by
  constructor
  · have hrun : (Machine.run QdrantLease.step (.initial : QdrantLease.World ℕ ℕ)
        [.connect 0 false, .connect 0 true, .close 0, .wake 0, .connect 1 true, .close 1,
          .release 0, .wake 0, .callClose 0]).map (·.log) =
        some [.granted 0 0, .closing, .closed 0] := by decide +kernel
    obtain ⟨q, hq, hlog⟩ := Option.map_eq_some_iff.mp hrun
    obtain ⟨hcreated, hcloses, -⟩ :=
      (owned_resources_drain (τ := ℕ) (κ := ℕ)).1 _ q hq
    exact ⟨q, hq, hlog, hcreated, hcloses⟩
  · have hrun : (Machine.run step (.initial : World ℕ ℕ)
        [.start 0, .start 1, .cancelWaiter 0, .close 0, .start 2, .finish 1, .discard 1,
          .finish 0, .discard 0, .gathered 0]).map (·.log) =
        some [.admitted 0, .admitted 1, .closing, .refused 2] := by decide +kernel
    obtain ⟨w, hw, hlog⟩ := Option.map_eq_some_iff.mp hrun
    refine ⟨w, hw, hlog, fun hk => ?_⟩
    exact ((@owned_resources_drain ℕ ℕ _ _ ℕ ℕ _ _).2 _ w hw).1 0 hk 0 (by rw [hlog]; decide)

end Ally.TaskDrain
