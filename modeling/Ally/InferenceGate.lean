import Ally.Machine
import Ally.OrderedDict

/-!
# The model inference gate

`ModelInferenceGate`: the sections under its condition variable, in any order and at any
times. A waiting caller may wake at any time, with or without a notification.
-/

namespace Ally.InferenceGate

open OrderedDict

structure Limits where
  concurrency : ℤ
  max_waiters : ℤ
  wait_timeout_seconds : ℚ
  concurrency_pos : 1 ≤ concurrency
  waiters_nonneg : 0 ≤ max_waiters
  timeout_pos : 0 < wait_timeout_seconds
  deriving DecidableEq

inductive GateError
  | valueError (message : String)
  | runtimeError (message : String)
  deriving DecidableEq, Repr

/-- The checks of the constructor and of `configure`. -/
def Limits.make (concurrency max_waiters : ℤ) (wait_timeout_seconds : ℚ) :
    Except GateError Limits :=
  if h : 1 ≤ concurrency ∧ 0 ≤ max_waiters ∧ 0 < wait_timeout_seconds then
    .ok ⟨concurrency, max_waiters, wait_timeout_seconds, h.1, h.2.1, h.2.2⟩
  else .error (.valueError "Invalid model inference admission limits")

structure ModelInferenceGate where
  active : ℤ
  waiting : ℤ
  rejected : ℕ
  configured : Bool
  limits : Limits

namespace ModelInferenceGate

/-- `ModelInferenceGate.__init__`. -/
def init (limits : Limits) : ModelInferenceGate := ⟨0, 0, 0, false, limits⟩

def configure (concurrency max_waiters : ℤ) (wait_timeout_seconds : ℚ) (g : ModelInferenceGate) :
    Except GateError ModelInferenceGate := do
  let limits ← Limits.make concurrency max_waiters wait_timeout_seconds
  if g.configured = true ∧ limits = g.limits then return g
  if g.configured = true then
    throw (.runtimeError "Model inference limits must be consistent across one process")
  if g.active ≠ 0 ∨ g.waiting ≠ 0 then
    throw (.runtimeError "Cannot configure model inference while calls are active")
  return { g with limits, configured := true }

end ModelInferenceGate

/-- Where in `inference` a caller is. -/
inductive Caller
  /-- In `wait_for`, with the limits read at the entry and the time of the entry. -/
  | waiting (limits : Limits) (since : ℚ)
  /-- In the body of the context. -/
  | active
  deriving DecidableEq

def Caller.isActive : Caller → Bool
  | .active => true
  | .waiting .. => false

variable {ι : Type}

structure World (ι : Type) where
  gate : ModelInferenceGate
  callers : OrderedDict ι Caller
  /-- The callers that got a `ModelInferenceRejected`, with its message. -/
  rejections : List (ι × String)

inductive Event (ι : Type)
  | enter (i : ι) (now : ℚ)
  /-- A waiting caller has the lock again. -/
  | wake (i : ι) (now : ℚ)
  /-- The wait of a caller is left by an exception. -/
  | interrupt (i : ι)
  /-- The body returns or raises. -/
  | leave (i : ι)
  | configure (concurrency max_waiters : ℤ) (wait_timeout_seconds : ℚ)

namespace World

def initial (limits : Limits) : World ι := ⟨.init limits, [], []⟩

def reject (i : ι) (message : String) (w : World ι) : World ι :=
  { w with
    gate := { w.gate with rejected := w.gate.rejected + 1 }
    rejections := w.rejections ++ [(i, message)] }

variable [DecidableEq ι]

def enter (i : ι) (now : ℚ) (w : World ι) : World ι :=
  let limits := w.gate.limits
  if limits.concurrency ≤ w.gate.active then
    if limits.max_waiters ≤ w.gate.waiting then w.reject i "Model inference capacity is full"
    else
      { w with
        gate := { w.gate with waiting := w.gate.waiting + 1 }
        callers := w.callers.set i (.waiting limits now) }
  else
    { w with
      gate := { w.gate with active := w.gate.active + 1 }
      callers := w.callers.set i .active }

/-- The caller is no longer waiting. -/
def unwait (i : ι) (w : World ι) : World ι :=
  { w with
    gate := { w.gate with waiting := w.gate.waiting - 1 }
    callers := w.callers.delete i }

/-- The loop of `wait_for` and what follows it. -/
def wake (i : ι) (limits : Limits) (since now : ℚ) (w : World ι) : World ι :=
  if w.gate.active < limits.concurrency then
    { w with
      gate := { w.gate with waiting := w.gate.waiting - 1, active := w.gate.active + 1 }
      callers := w.callers.modify i fun _ => .active }
  else if since + limits.wait_timeout_seconds - now ≤ 0 then
    (w.unwait i).reject i "Model inference admission timed out"
  else w

def leave (i : ι) (w : World ι) : World ι :=
  { w with
    gate := { w.gate with active := w.gate.active - 1 }
    callers := w.callers.delete i }

end World

variable [DecidableEq ι]

def step (w : World ι) : Event ι → Option (World ι)
  | .enter i now => if i ∈ w.callers.keys then none else some (w.enter i now)
  | .wake i now =>
      match w.callers.get? i with
      | some (.waiting limits since) => some (w.wake i limits since now)
      | _ => none
  | .interrupt i =>
      match w.callers.get? i with
      | some (.waiting ..) => some (w.unwait i)
      | _ => none
  | .leave i =>
      match w.callers.get? i with
      | some .active => some (w.leave i)
      | _ => none
  | .configure concurrency max_waiters wait_timeout_seconds =>
      match w.gate.configure concurrency max_waiters wait_timeout_seconds with
      | .ok gate => some { w with gate }
      | .error _ => some w

/-! ### The invariant -/

namespace ModelInferenceGate

/-- The limits are set on an idle gate that has not been configured. -/
theorem configure_ok {concurrency max_waiters : ℤ} {timeout : ℚ} {g g' : ModelInferenceGate}
    (h : g.configure concurrency max_waiters timeout = .ok g') :
    g' = g ∨ (g.configured = false ∧ g.active = 0 ∧ g.waiting = 0 ∧
      ∃ limits, g' = { g with limits, configured := true }) := by
  unfold configure at h
  cases hmake : Limits.make concurrency max_waiters timeout with
  | error e =>
      rw [hmake] at h
      cases h
  | ok limits =>
      rw [hmake] at h
      simp only [bind, Except.bind, pure, Except.pure, throw, throwThe, MonadExceptOf.throw] at h
      by_cases hsame : g.configured = true ∧ limits = g.limits
      · rw [if_pos hsame] at h
        exact .inl (Except.ok.inj h).symm
      · rw [if_neg hsame] at h
        by_cases hconf : g.configured = true
        · rw [if_pos hconf] at h
          cases h
        · rw [if_neg hconf] at h
          by_cases hbusy : g.active ≠ 0 ∨ g.waiting ≠ 0
          · rw [if_pos hbusy] at h
            cases h
          · rw [if_neg hbusy] at h
            rw [not_or, not_not, not_not] at hbusy
            exact .inr ⟨by simpa using hconf, hbusy.1, hbusy.2, limits, (Except.ok.inj h).symm⟩

end ModelInferenceGate

variable {w w' : World ι}

def activeCount (callers : OrderedDict ι Caller) : ℕ := callers.countP fun e => e.2.isActive

def waitingCount (callers : OrderedDict ι Caller) : ℕ := callers.countP fun e => !e.2.isActive

section Counts

variable {callers : OrderedDict ι Caller} {i : ι} {c c' : Caller}

theorem activeCount_set (h : i ∉ callers.keys) :
    activeCount (callers.set i c) = activeCount callers + if c.isActive then 1 else 0 := by
  rw [activeCount, set_of_notMem h, List.countP_append, List.countP_singleton, activeCount]

theorem waitingCount_set (h : i ∉ callers.keys) :
    waitingCount (callers.set i c) = waitingCount callers + if c.isActive then 0 else 1 := by
  rw [waitingCount, set_of_notMem h, List.countP_append, List.countP_singleton, waitingCount]
  cases c.isActive <;> rfl

theorem activeCount_delete (hd : callers.keys.Nodup) (h : (i, c) ∈ callers) :
    activeCount callers = activeCount (callers.delete i) + if c.isActive then 1 else 0 := by
  rw [activeCount, (perm_delete hd h).countP_eq, List.countP_append, List.countP_singleton,
    activeCount]

theorem waitingCount_delete (hd : callers.keys.Nodup) (h : (i, c) ∈ callers) :
    waitingCount callers = waitingCount (callers.delete i) + if c.isActive then 0 else 1 := by
  rw [waitingCount, (perm_delete hd h).countP_eq, List.countP_append, List.countP_singleton,
    waitingCount]
  cases c.isActive <;> rfl

theorem activeCount_modify (hd : callers.keys.Nodup) (h : (i, c) ∈ callers) :
    activeCount (callers.modify i fun _ => c') =
      activeCount (callers.delete i) + if c'.isActive then 1 else 0 := by
  rw [activeCount, (perm_modify hd h).countP_eq, List.countP_append, List.countP_singleton,
    activeCount]

theorem waitingCount_modify (hd : callers.keys.Nodup) (h : (i, c) ∈ callers) :
    waitingCount (callers.modify i fun _ => c') =
      waitingCount (callers.delete i) + if c'.isActive then 0 else 1 := by
  rw [waitingCount, (perm_modify hd h).countP_eq, List.countP_append, List.countP_singleton,
    waitingCount]
  cases c'.isActive <;> rfl

end Counts

structure World.Wf (w : World ι) : Prop where
  nodup : w.callers.keys.Nodup
  active_eq : w.gate.active = activeCount w.callers
  waiting_eq : w.gate.waiting = waitingCount w.callers
  active_le : w.gate.active ≤ w.gate.limits.concurrency
  waiting_le : w.gate.waiting ≤ w.gate.limits.max_waiters
  /-- A caller that waits has read the limits in force. -/
  current : ∀ i limits since, (i, .waiting limits since) ∈ w.callers → limits = w.gate.limits

namespace World.Wf

omit [DecidableEq ι] in
theorem initial (limits : Limits) : (World.initial limits : World ι).Wf where
  nodup := List.nodup_nil
  active_eq := rfl
  waiting_eq := rfl
  active_le := (by decide : (0 : ℤ) ≤ 1).trans limits.concurrency_pos
  waiting_le := limits.waiters_nonneg
  current _ _ _ h := by cases h

omit [DecidableEq ι] in
theorem reject (h : w.Wf) (i : ι) (message : String) : (w.reject i message).Wf :=
  ⟨h.nodup, h.active_eq, h.waiting_eq, h.active_le, h.waiting_le, h.current⟩

theorem enter (h : w.Wf) {i : ι} (hi : i ∉ w.callers.keys) (now : ℚ) : (w.enter i now).Wf := by
  have hactive := h.active_eq
  have hwaiting := h.waiting_eq
  have hactive_le := h.active_le
  have hwaiting_le := h.waiting_le
  unfold World.enter
  dsimp only
  split
  · split
    · exact h.reject i _
    · refine ⟨nodup_keys_set h.nodup, ?_, ?_, hactive_le, ?_, ?_⟩
      · simpa [activeCount_set hi, Caller.isActive] using hactive
      · simpa [waitingCount_set hi, Caller.isActive] using hwaiting
      · dsimp only
        omega
      · intro j limits since hmem
        dsimp only at hmem
        rw [set_of_notMem hi] at hmem
        rcases List.mem_append.mp hmem with hmem | hmem
        · exact h.current j limits since hmem
        · obtain ⟨-, heq⟩ := Prod.mk.inj (List.mem_singleton.mp hmem)
          exact (Caller.waiting.inj heq).1
  · refine ⟨nodup_keys_set h.nodup, ?_, ?_, ?_, hwaiting_le, ?_⟩
    · simpa [activeCount_set hi, Caller.isActive] using hactive
    · simpa [waitingCount_set hi, Caller.isActive] using hwaiting
    · dsimp only
      omega
    · intro j limits since hmem
      dsimp only at hmem
      rw [set_of_notMem hi] at hmem
      rcases List.mem_append.mp hmem with hmem | hmem
      · exact h.current j limits since hmem
      · cases (Prod.mk.inj (List.mem_singleton.mp hmem)).2

theorem unwait (h : w.Wf) {i : ι} {limits : Limits} {since : ℚ}
    (hi : (i, .waiting limits since) ∈ w.callers) : (w.unwait i).Wf := by
  have hactive := h.active_eq
  have hwaiting := h.waiting_eq
  have hwaiting_le := h.waiting_le
  rw [activeCount_delete h.nodup hi] at hactive
  rw [waitingCount_delete h.nodup hi] at hwaiting
  refine ⟨nodup_keys_filter h.nodup _, ?_, ?_, h.active_le, ?_, ?_⟩
  · simpa [World.unwait, Caller.isActive] using hactive
  · simp only [World.unwait, Caller.isActive, Bool.false_eq_true, if_false] at hwaiting ⊢
    omega
  · simp only [World.unwait]
    omega
  · intro j limits since hmem
    exact h.current j limits since (List.mem_filter.mp hmem).1

theorem wake (h : w.Wf) {i : ι} {limits : Limits} {since : ℚ}
    (hi : (i, .waiting limits since) ∈ w.callers) (now : ℚ) :
    (w.wake i limits since now).Wf := by
  have hcurrent := h.current i limits since hi
  subst hcurrent
  unfold World.wake
  split
  next hfree =>
    have hactive := h.active_eq
    have hwaiting := h.waiting_eq
    have hwaiting_le := h.waiting_le
    rw [activeCount_delete h.nodup hi] at hactive
    rw [waitingCount_delete h.nodup hi] at hwaiting
    refine ⟨by simpa using h.nodup, ?_, ?_, ?_, ?_, ?_⟩
    · simp only [activeCount_modify h.nodup hi, Caller.isActive, Bool.false_eq_true, if_false,
        if_true] at hactive ⊢
      omega
    · simp only [waitingCount_modify h.nodup hi, Caller.isActive, Bool.false_eq_true, if_false,
        if_true] at hwaiting ⊢
      omega
    · dsimp only
      omega
    · dsimp only
      omega
    · intro j limits since hmem
      dsimp only at hmem
      rcases mem_modify.mp hmem with ⟨hmem, -⟩ | ⟨value, -, heq⟩
      · exact h.current j limits since hmem
      · cases (Prod.mk.inj heq).2
  · split
    · exact (h.unwait hi).reject i _
    · exact h

theorem leave (h : w.Wf) {i : ι} (hi : (i, .active) ∈ w.callers) : (w.leave i).Wf := by
  have hactive := h.active_eq
  have hwaiting := h.waiting_eq
  have hactive_le := h.active_le
  rw [activeCount_delete h.nodup hi] at hactive
  rw [waitingCount_delete h.nodup hi] at hwaiting
  refine ⟨nodup_keys_filter h.nodup _, ?_, ?_, ?_, h.waiting_le, ?_⟩
  · simp only [World.leave, Caller.isActive, if_true] at hactive ⊢
    omega
  · simpa [World.leave, Caller.isActive] using hwaiting
  · simp only [World.leave]
    omega
  · intro j limits since hmem
    exact h.current j limits since (List.mem_filter.mp hmem).1

omit [DecidableEq ι] in
theorem idle (h : w.Wf) (hactive : w.gate.active = 0) (hwaiting : w.gate.waiting = 0) :
    w.callers = [] := by
  have ha := h.active_eq
  have hw := h.waiting_eq
  have hlen : w.callers.length = activeCount w.callers + waitingCount w.callers := by
    rw [List.length_eq_countP_add_countP fun e : ι × Caller => e.2.isActive, activeCount,
      waitingCount]
    simp
  exact List.length_eq_zero_iff.mp (by omega)

omit [DecidableEq ι] in
theorem configure (h : w.Wf) {concurrency max_waiters : ℤ} {timeout : ℚ}
    {g : ModelInferenceGate} (hg : w.gate.configure concurrency max_waiters timeout = .ok g) :
    World.Wf { w with gate := g } := by
  rcases ModelInferenceGate.configure_ok hg with rfl | ⟨-, hactive, hwaiting, limits, rfl⟩
  · exact h
  · have hidle := h.idle hactive hwaiting
    refine ⟨h.nodup, h.active_eq, h.waiting_eq, ?_, ?_, ?_⟩
    · dsimp only
      rw [hactive]
      exact (by decide : (0 : ℤ) ≤ 1).trans limits.concurrency_pos
    · dsimp only
      rw [hwaiting]
      exact limits.waiters_nonneg
    · intro i limits since hmem
      dsimp only at hmem
      rw [hidle] at hmem
      cases hmem

theorem step (h : w.Wf) {event : Event ι} (hs : InferenceGate.step w event = some w') :
    w'.Wf := by
  cases event with
  | enter i now =>
      simp only [InferenceGate.step] at hs
      split at hs
      · cases hs
      next hi =>
        obtain rfl := Option.some.inj hs
        exact h.enter hi now
  | wake i now =>
      simp only [InferenceGate.step] at hs
      split at hs
      next limits since hi =>
        obtain rfl := Option.some.inj hs
        exact h.wake (mem_of_get? hi) now
      · cases hs
  | interrupt i =>
      simp only [InferenceGate.step] at hs
      split at hs
      next limits since hi =>
        obtain rfl := Option.some.inj hs
        exact h.unwait (mem_of_get? hi)
      · cases hs
  | leave i =>
      simp only [InferenceGate.step] at hs
      split at hs
      next hi =>
        obtain rfl := Option.some.inj hs
        exact h.leave (mem_of_get? hi)
      · cases hs
  | configure concurrency max_waiters timeout =>
      simp only [InferenceGate.step] at hs
      split at hs
      next g hg =>
        obtain rfl := Option.some.inj hs
        exact h.configure hg
      · obtain rfl := Option.some.inj hs
        exact h

end World.Wf

/-! ### Rejections and limits -/

/-- The step of a caller that is rejected: nobody may wait any more, or the wait of the caller
has lasted its time and there is no free slot. -/
inductive Rejects (w : World ι) : Event ι → ι × String → Prop
  | full (i : ι) (now : ℚ) (hbusy : w.gate.limits.concurrency ≤ w.gate.active)
      (hfull : w.gate.limits.max_waiters ≤ w.gate.waiting) :
      Rejects w (.enter i now) (i, "Model inference capacity is full")
  | timedOut (i : ι) (since now : ℚ)
      (hcaller : (i, .waiting w.gate.limits since) ∈ w.callers)
      (hbusy : w.gate.limits.concurrency ≤ w.gate.active)
      (hlate : since + w.gate.limits.wait_timeout_seconds ≤ now) :
      Rejects w (.wake i now) (i, "Model inference admission timed out")

theorem step_rejections (h : w.Wf) {event : Event ι} (hs : step w event = some w') :
    w'.rejections = w.rejections ∨
      ∃ r, w'.rejections = w.rejections ++ [r] ∧ Rejects w event r := by
  cases event with
  | enter i now =>
      simp only [step] at hs
      split at hs
      · cases hs
      · obtain rfl := Option.some.inj hs
        unfold World.enter
        dsimp only
        split
        next hbusy =>
          split
          next hfull => exact .inr ⟨_, rfl, .full i now hbusy hfull⟩
          · exact .inl rfl
        · exact .inl rfl
  | wake i now =>
      simp only [step] at hs
      split at hs
      next limits since hi =>
        obtain rfl := Option.some.inj hs
        have hmem := mem_of_get? hi
        obtain rfl := h.current i limits since hmem
        unfold World.wake
        split
        · exact .inl rfl
        next hbusy =>
          split
          next hlate =>
            have hpast : since + w.gate.limits.wait_timeout_seconds ≤ now := by linarith
            exact .inr ⟨_, rfl, .timedOut i since now hmem (not_lt.mp hbusy) hpast⟩
          · exact .inl rfl
      · cases hs
  | interrupt i =>
      simp only [step] at hs
      split at hs
      · obtain rfl := Option.some.inj hs
        exact .inl rfl
      · cases hs
  | leave i =>
      simp only [step] at hs
      split at hs
      · obtain rfl := Option.some.inj hs
        exact .inl rfl
      · cases hs
  | configure concurrency max_waiters timeout =>
      simp only [step] at hs
      split at hs <;> obtain rfl := Option.some.inj hs <;> exact .inl rfl

/-- Only the first configuration of an idle gate sets its limits. -/
theorem step_limits {event : Event ι} (hs : step w event = some w') :
    (w'.gate.limits = w.gate.limits ∧ w'.gate.configured = w.gate.configured) ∨
      (w.gate.configured = false ∧ w.gate.active = 0 ∧ w.gate.waiting = 0 ∧
        w'.gate.configured = true) := by
  cases event with
  | enter i now =>
      simp only [step] at hs
      split at hs
      · cases hs
      · obtain rfl := Option.some.inj hs
        unfold World.enter
        dsimp only
        split
        · split
          · exact .inl ⟨rfl, rfl⟩
          · exact .inl ⟨rfl, rfl⟩
        · exact .inl ⟨rfl, rfl⟩
  | wake i now =>
      simp only [step] at hs
      split at hs
      · obtain rfl := Option.some.inj hs
        unfold World.wake
        split
        · exact .inl ⟨rfl, rfl⟩
        · split
          · exact .inl ⟨rfl, rfl⟩
          · exact .inl ⟨rfl, rfl⟩
      · cases hs
  | interrupt i =>
      simp only [step] at hs
      split at hs
      · obtain rfl := Option.some.inj hs
        exact .inl ⟨rfl, rfl⟩
      · cases hs
  | leave i =>
      simp only [step] at hs
      split at hs
      · obtain rfl := Option.some.inj hs
        exact .inl ⟨rfl, rfl⟩
      · cases hs
  | configure concurrency max_waiters timeout =>
      simp only [step] at hs
      split at hs
      next g hg =>
        obtain rfl := Option.some.inj hs
        rcases ModelInferenceGate.configure_ok hg with rfl | ⟨hconf, hactive, hwaiting, _, rfl⟩
        · exact .inl ⟨rfl, rfl⟩
        · exact .inr ⟨hconf, hactive, hwaiting, rfl⟩
      · obtain rfl := Option.some.inj hs
        exact .inl ⟨rfl, rfl⟩

/-- The limits of a configured gate are those of every later state. -/
theorem run_limits (hconf : w.gate.configured = true) {events : List (Event ι)}
    (hr : Machine.run step w events = some w') : w'.gate.limits = w.gate.limits := by
  have hkeep : w'.gate.configured = true ∧ w'.gate.limits = w.gate.limits := by
    refine Machine.run_invariant
      (P := fun v : World ι => v.gate.configured = true ∧ v.gate.limits = w.gate.limits)
      (fun v event v' hv hs => ?_) ⟨hconf, rfl⟩ hr
    rcases step_limits hs with ⟨hlimits, hsame⟩ | ⟨hno, -⟩
    · exact ⟨hsame.trans hv.1, hlimits.trans hv.2⟩
    · rw [hv.1] at hno
      cases hno
  exact hkeep.2

/-- Both counts stay within the limits in force and are zero when all callers have left, every
rejection has its reason, and a change of the limits finds the gate idle and is the last. -/
theorem inference_gate (limits : Limits) (events : List (Event ι)) (w : World ι)
    (h : Machine.run step (.initial limits) events = some w) :
    (0 ≤ w.gate.active ∧ w.gate.active ≤ w.gate.limits.concurrency) ∧
      (0 ≤ w.gate.waiting ∧ w.gate.waiting ≤ w.gate.limits.max_waiters) ∧
      (w.callers = [] → w.gate.active = 0 ∧ w.gate.waiting = 0) ∧
      (∀ event w', step w event = some w' → w'.rejections = w.rejections ∨
        ∃ r, w'.rejections = w.rejections ++ [r] ∧ Rejects w event r) ∧
      ∀ event w', step w event = some w' → w'.gate.limits ≠ w.gate.limits →
        (w.callers = [] ∧ w.gate.active = 0 ∧ w.gate.waiting = 0) ∧
        ∀ later w'', Machine.run step w' later = some w'' → w''.gate.limits = w'.gate.limits := by
  have hw : w.Wf := Machine.run_invariant (fun _ _ _ hv hs => hv.step hs) (.initial limits) h
  have hactive := hw.active_eq
  have hwaiting := hw.waiting_eq
  refine ⟨⟨by omega, hw.active_le⟩, ⟨by omega, hw.waiting_le⟩, fun hnone => ?_,
    fun event w' hs => step_rejections hw hs, fun event w' hs hne => ?_⟩
  · rw [hnone] at hactive hwaiting
    exact ⟨hactive, hwaiting⟩
  · rcases step_limits hs with ⟨hsame, -⟩ | ⟨-, hidle, hnowait, hconf⟩
    · exact absurd hsame hne
    · exact ⟨⟨hw.idle hidle hnowait, hidle, hnowait⟩, fun later w'' hr => run_limits hconf hr⟩

/-- One slot and one waiter: the third caller is rejected, the second times out. -/
theorem inference_gate_timeout :
    ∃ w : World ℕ, Machine.run step
        (.initial ⟨1, 8, 30, by decide, by decide, by decide +kernel⟩)
        [.configure 1 1 30, .enter 0 0, .enter 1 5, .enter 2 6, .configure 1 1 30,
          .configure 2 1 30, .wake 1 20, .wake 1 35, .leave 0] = some w ∧
      w.rejections = [(2, "Model inference capacity is full"),
        (1, "Model inference admission timed out")] ∧
      (w.callers = [] → w.gate.active = 0 ∧ w.gate.waiting = 0) := by
  have hrun : (Machine.run step
      (.initial ⟨1, 8, 30, by decide, by decide, by decide +kernel⟩ : World ℕ)
      [.configure 1 1 30, .enter 0 0, .enter 1 5, .enter 2 6, .configure 1 1 30,
        .configure 2 1 30, .wake 1 20, .wake 1 35, .leave 0]).map World.rejections =
      some [(2, "Model inference capacity is full"),
        (1, "Model inference admission timed out")] := by decide +kernel
  obtain ⟨w, hw, hrejections⟩ := Option.map_eq_some_iff.mp hrun
  exact ⟨w, hw, hrejections, (inference_gate _ _ w hw).2.2.1⟩

end Ally.InferenceGate
