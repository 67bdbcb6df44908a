import Ally.Machine
import Ally.OrderedDict

/-!
# WebSocket sessions

`WebSocketSecurity.session` as the coroutine of each socket, cut at its awaits and yields.
What an await ends with is chosen by the events; `close` may come at any time.
-/

namespace Ally.SocketSessions

open OrderedDict

structure SessionSettings where
  max_connections : ℕ
  max_connections_per_tenant : ℕ

/-- What can be raised at an await or thrown in at a yield. -/
inductive Exn
  | protocolViolation (code : ℕ)
  | timeoutError
  | webSocketDisconnect
  | cancelledError
  | other
  deriving DecidableEq, Repr

inductive Phase
  | unopened
  /-- `await self.authenticate(…)`. -/
  | authenticating
  /-- `await websocket.accept()`. -/
  | accepting
  /-- The session is yielded. -/
  | yielded
  /-- `await self._close(…)` under `except ProtocolViolation`. -/
  | rejecting (yielded : Bool)
  /-- `await self._close(…)` under `except TimeoutError`. -/
  | expiring
  /-- `yield None`. -/
  | declined
  /-- `await self._close(…)` under `finally`. -/
  | closing
  | ended
  deriving DecidableEq, Repr

variable {ι : Type}

inductive Entry (ι : Type)
  | admitted (i : ι) (tenantId : String)
  /-- The coroutine has left its `try` statement. -/
  | left (i : ι)
  | closing
  deriving DecidableEq

structure World (ι : Type) where
  active : OrderedDict ι String
  closing : Bool
  phase : ι → Phase
  log : List (Entry ι)

inductive Event (ι : Type)
  /-- `session` is entered. -/
  | connect (i : ι)
  /-- `authenticate` returns the tenant of a principal, returns `None` or raises. -/
  | authenticated (i : ι) (outcome : Except Exn (Option String))
  | accepted (i : ι) (outcome : Except Exn Unit)
  /-- The body of the session ends; `expired` is `lifetime.expired()`. -/
  | bodyEnded (i : ι) (outcome : Except Exn Unit) (expired : Bool)
  | closed (i : ι) (outcome : Except Exn Unit)
  /-- The caller that got no session leaves. -/
  | resumed (i : ι) (outcome : Except Exn Unit)
  | close

namespace World

def initial : World ι := ⟨[], false, fun _ => .unopened, []⟩

variable [DecidableEq ι]

def setPhase (i : ι) (p : Phase) (w : World ι) : World ι :=
  { w with phase := Function.update w.phase i p }

/-- `finally`: the session is popped, and closed if it was yielded. -/
def leave (i : ι) (yielded : Bool) (w : World ι) : World ι :=
  { w with
    active := w.active.delete i
    phase := Function.update w.phase i (if yielded then .closing else .ended)
    log := w.log ++ [.left i] }

/-- The `except` clauses. -/
def raised (i : ι) (yielded expired : Bool) (w : World ι) : Exn → World ι
  | .protocolViolation _ => w.setPhase i (.rejecting yielded)
  | .timeoutError => if expired then w.setPhase i .expiring else w.leave i yielded
  | .webSocketDisconnect => if yielded then w.leave i yielded else w.setPhase i .declined
  | .cancelledError => w.leave i yielded
  | .other => w.leave i yielded

def admitSession (i : ι) (tenantId : String) (w : World ι) : World ι :=
  { w with
    active := w.active.set i tenantId
    phase := Function.update w.phase i .accepting
    log := w.log ++ [.admitted i tenantId] }

@[simp] theorem phase_setPhase_self (i : ι) (p : Phase) (w : World ι) :
    (w.setPhase i p).phase i = p := Function.update_self ..

theorem phase_setPhase_of_ne {i j : ι} (h : j ≠ i) (p : Phase) (w : World ι) :
    (w.setPhase i p).phase j = w.phase j := Function.update_of_ne h ..

@[simp] theorem phase_leave_self (i : ι) (yielded : Bool) (w : World ι) :
    (w.leave i yielded).phase i = if yielded then .closing else .ended := Function.update_self ..

theorem phase_leave_of_ne {i j : ι} (h : j ≠ i) (yielded : Bool) (w : World ι) :
    (w.leave i yielded).phase j = w.phase j := Function.update_of_ne h ..

@[simp] theorem phase_admit_self (i : ι) (tenantId : String) (w : World ι) :
    (w.admitSession i tenantId).phase i = .accepting := Function.update_self ..

theorem phase_admit_of_ne {i j : ι} (h : j ≠ i) (tenantId : String) (w : World ι) :
    (w.admitSession i tenantId).phase j = w.phase j := Function.update_of_ne h ..

/-- The checks and the registration between `authenticate` and `accept`, which no await cuts. -/
def register (settings : SessionSettings) (i : ι) (tenantId : String) (w : World ι) : World ι :=
  if w.closing = true ∨ settings.max_connections ≤ w.active.length ∨
      settings.max_connections_per_tenant ≤ w.active.countP (fun e => e.2 = tenantId) then
    w.raised i false false (.protocolViolation 1013)
  else w.admitSession i tenantId

end World

variable [DecidableEq ι]

def step (settings : SessionSettings) (w : World ι) : Event ι → Option (World ι)
  | .connect i =>
      match w.phase i with
      | .unopened => some (w.setPhase i .authenticating)
      | _ => none
  | .authenticated i outcome =>
      match w.phase i, outcome with
      | .authenticating, .ok (some tenantId) => some (w.register settings i tenantId)
      | .authenticating, .ok none => some (w.raised i false false (.protocolViolation 1008))
      | .authenticating, .error e => some (w.raised i false false e)
      | _, _ => none
  | .accepted i outcome =>
      match w.phase i, outcome with
      | .accepting, .ok () => some (w.setPhase i .yielded)
      -- `lifetime` has not been entered, so that it has not expired
      | .accepting, .error e => some (w.raised i false false e)
      | _, _ => none
  | .bodyEnded i outcome expired =>
      match w.phase i, outcome with
      | .yielded, .ok () => some (w.leave i true)
      | .yielded, .error e => some (w.raised i true expired e)
      | _, _ => none
  | .closed i outcome =>
      match w.phase i, outcome with
      | .rejecting yielded, .ok () =>
          some (if yielded then w.leave i true else w.setPhase i .declined)
      | .rejecting yielded, .error _ => some (w.leave i yielded)
      | .expiring, _ => some (w.leave i true)
      | .closing, _ => some (w.setPhase i .ended)
      | _, _ => none
  | .resumed i _ =>
      match w.phase i with
      | .declined => some (w.leave i false)
      | _ => none
  | .close => some { w with closing := true, log := w.log ++ [.closing] }

/-! ### The invariant -/

/-- The coroutine has not come to the registration. -/
def Phase.early : Phase → Bool
  | .unopened => true
  | .authenticating => true
  | _ => false

/-- The coroutine has left its `try` statement. -/
def Phase.late : Phase → Bool
  | .closing => true
  | .ended => true
  | _ => false

structure World.Wf (settings : SessionSettings) (w : World ι) : Prop where
  nodup : w.active.keys.Nodup
  total : w.active.length ≤ settings.max_connections
  tenant : ∀ tenantId,
    w.active.countP (fun e => e.2 = tenantId) ≤ settings.max_connections_per_tenant
  active_iff : ∀ i tenantId, (i, tenantId) ∈ w.active ↔
    Entry.admitted i tenantId ∈ w.log ∧ Entry.left i ∉ w.log
  early : ∀ i, (w.phase i).early = true →
    (∀ tenantId, Entry.admitted i tenantId ∉ w.log) ∧ Entry.left i ∉ w.log
  late : ∀ i, Entry.left i ∈ w.log ↔ (w.phase i).late = true
  closing : Entry.closing ∈ w.log ↔ w.closing = true
  shut : ∀ pre post, w.log = pre ++ .closing :: post → ∀ i tenantId, .admitted i tenantId ∉ post

variable {settings : SessionSettings} {w w' : World ι}

/-- What a step can do. -/
inductive Move (settings : SessionSettings) (w : World ι) : World ι → Prop
  | phase (i : ι) (p : Phase) (hearly : p.early = true → (w.phase i).early = true)
      (hlate : p.late = (w.phase i).late) : Move settings w (w.setPhase i p)
  | leave (i : ι) (yielded : Bool) (hlate : (w.phase i).late = false) :
      Move settings w (w.leave i yielded)
  | register (i : ι) (tenantId : String) (hphase : w.phase i = .authenticating)
      (hopen : w.closing = false) (htotal : w.active.length < settings.max_connections)
      (htenant : w.active.countP (fun e => e.2 = tenantId) < settings.max_connections_per_tenant) :
      Move settings w (w.admitSession i tenantId)
  | close : Move settings w { w with closing := true, log := w.log ++ [.closing] }

theorem move_raised {i : ι} {yielded : Bool} (hlate : (w.phase i).late = false) (expired : Bool)
    (e : Exn) : Move settings w (w.raised i yielded expired e) := by
  cases e with
  | protocolViolation code => exact .phase i _ (by simp [Phase.early]) (by rw [hlate]; rfl)
  | timeoutError =>
      cases expired with
      | true => exact .phase i _ (by simp [Phase.early]) (by rw [hlate]; rfl)
      | false => exact .leave i yielded hlate
  | webSocketDisconnect =>
      cases yielded with
      | true => exact .leave i true hlate
      | false => exact .phase i _ (by simp [Phase.early]) (by rw [hlate]; rfl)
  | cancelledError => exact .leave i yielded hlate
  | other => exact .leave i yielded hlate

theorem move_register {i : ι} {tenantId : String} (hphase : w.phase i = .authenticating) :
    Move settings w (w.register settings i tenantId) := by
  unfold World.register
  split
  · exact move_raised (by rw [hphase]; rfl) _ _
  next hroom =>
    obtain ⟨hopen, hroom⟩ := not_or.mp hroom
    obtain ⟨htotal, htenant⟩ := not_or.mp hroom
    exact .register i tenantId hphase (by simpa using hopen) (not_le.mp htotal)
      (not_le.mp htenant)

theorem step_cases {event : Event ι} (h : step settings w event = some w') :
    Move settings w w' := by
  cases event with
  | connect i =>
      simp only [step] at h
      split at h
      next hphase =>
        obtain rfl := Option.some.inj h
        exact .phase i _ (fun _ => by rw [hphase]; rfl) (by rw [hphase]; rfl)
      · cases h
  | authenticated i outcome =>
      simp only [step] at h
      split at h
      next tenantId hphase =>
        obtain rfl := Option.some.inj h
        exact move_register hphase
      next hphase =>
        obtain rfl := Option.some.inj h
        exact move_raised (by rw [hphase]; rfl) _ _
      next e hphase =>
        obtain rfl := Option.some.inj h
        exact move_raised (by rw [hphase]; rfl) _ _
      · cases h
  | accepted i outcome =>
      simp only [step] at h
      split at h
      next hphase =>
        obtain rfl := Option.some.inj h
        exact .phase i _ (by simp [Phase.early]) (by rw [hphase]; rfl)
      next e hphase =>
        obtain rfl := Option.some.inj h
        exact move_raised (by rw [hphase]; rfl) _ _
      · cases h
  | bodyEnded i outcome expired =>
      simp only [step] at h
      split at h
      next hphase =>
        obtain rfl := Option.some.inj h
        exact .leave i true (by rw [hphase]; rfl)
      next e hphase =>
        obtain rfl := Option.some.inj h
        exact move_raised (by rw [hphase]; rfl) _ _
      · cases h
  | closed i outcome =>
      simp only [step] at h
      split at h
      next yielded hphase =>
        obtain rfl := Option.some.inj h
        cases yielded with
        | true => exact .leave i true (by rw [hphase]; rfl)
        | false => exact .phase i _ (by simp [Phase.early]) (by rw [hphase]; rfl)
      next yielded e hphase =>
        obtain rfl := Option.some.inj h
        exact .leave i yielded (by rw [hphase]; rfl)
      next hphase =>
        obtain rfl := Option.some.inj h
        exact .leave i true (by rw [hphase]; rfl)
      next hphase =>
        obtain rfl := Option.some.inj h
        exact .phase i _ (by simp [Phase.early]) (by rw [hphase]; rfl)
      · cases h
  | resumed i outcome =>
      simp only [step] at h
      split at h
      next hphase =>
        obtain rfl := Option.some.inj h
        exact .leave i false (by rw [hphase]; rfl)
      · cases h
  | close =>
      obtain rfl := Option.some.inj h
      exact .close

namespace World.Wf

omit [DecidableEq ι] in
theorem initial : (World.initial : World ι).Wf settings where
  nodup := List.nodup_nil
  total := Nat.zero_le _
  tenant _ := Nat.zero_le _
  active_iff := by simp [World.initial]
  early := by simp [World.initial]
  late := by simp [World.initial, Phase.late]
  closing := by simp [World.initial]
  shut := by simp [World.initial]

omit [DecidableEq ι] in
theorem notMem_keys_of_early (h : w.Wf settings) {i : ι} (hi : (w.phase i).early = true) :
    i ∉ w.active.keys := by
  intro hkey
  obtain ⟨tenantId, hmem⟩ := mem_keys.mp hkey
  exact (h.early i hi).1 tenantId ((h.active_iff i tenantId).mp hmem).1

theorem setPhase (h : w.Wf settings) {i : ι} {p : Phase}
    (hearly : p.early = true → (w.phase i).early = true) (hlate : p.late = (w.phase i).late) :
    (w.setPhase i p).Wf settings where
  nodup := h.nodup
  total := h.total
  tenant := h.tenant
  active_iff := h.active_iff
  early j hj := by
    by_cases hji : j = i
    · subst hji
      rw [World.phase_setPhase_self] at hj
      exact h.early j (hearly hj)
    · rw [World.phase_setPhase_of_ne hji] at hj
      exact h.early j hj
  late j := by
    by_cases hji : j = i
    · subst hji
      rw [World.phase_setPhase_self, hlate]
      exact h.late j
    · rw [World.phase_setPhase_of_ne hji]
      exact h.late j
  closing := h.closing
  shut := h.shut

omit [DecidableEq ι] in
/-- Admissions come before `closing`, and go on to if none is appended after it. -/
theorem shut_concat {log : List (Entry ι)} {e : Entry ι}
    (h : ∀ pre post, log = pre ++ .closing :: post → ∀ i tenantId, Entry.admitted i tenantId ∉ post)
    (he : Entry.closing ∈ log → ∀ i tenantId, e ≠ .admitted i tenantId) :
    ∀ pre post, log ++ [e] = pre ++ .closing :: post →
      ∀ i tenantId, Entry.admitted i tenantId ∉ post := by
  intro pre post heq i tenantId hmem
  rcases Machine.concat_split heq with ⟨rfl, rfl, rfl⟩ | ⟨post', rfl, rfl⟩
  · cases hmem
  · rcases List.mem_append.mp hmem with hmem | hmem
    · exact h pre post' rfl i tenantId hmem
    · exact he (by simp) i tenantId (List.mem_singleton.mp hmem).symm

theorem leave (h : w.Wf settings) {i : ι} (yielded : Bool) (hlate : (w.phase i).late = false) :
    (w.leave i yielded).Wf settings where
  nodup := nodup_keys_filter h.nodup _
  total := (List.length_filter_le _ _).trans h.total
  tenant tenantId := (List.Sublist.countP_le List.filter_sublist).trans (h.tenant tenantId)
  active_iff j tenantId := by
    have hne : j ≠ i ↔ Entry.left j ≠ .left i := by simp
    simp only [World.leave, delete, List.mem_filter, h.active_iff j tenantId, List.mem_append,
      List.mem_singleton, decide_eq_true_eq, hne]
    constructor
    · rintro ⟨⟨hadm, hleft⟩, hne⟩
      exact ⟨.inl hadm, fun hor => hor.elim hleft hne⟩
    · rintro ⟨hadm | hadm, hor⟩
      · exact ⟨⟨hadm, fun hleft => hor (.inl hleft)⟩, fun heq => hor (.inr heq)⟩
      · cases hadm
  early j hj := by
    by_cases hji : j = i
    · subst hji
      rw [World.phase_leave_self] at hj
      cases yielded <;> cases hj
    · rw [World.phase_leave_of_ne hji] at hj
      obtain ⟨hadm, hleft⟩ := h.early j hj
      simp only [World.leave, List.mem_append, List.mem_singleton]
      refine ⟨fun tenantId hor => ?_, fun hor => ?_⟩
      · rcases hor with hmem | heq
        · exact hadm tenantId hmem
        · cases heq
      · rcases hor with hmem | heq
        · exact hleft hmem
        · exact hji (Entry.left.inj heq)
  late j := by
    by_cases hji : j = i
    · subst hji
      rw [World.phase_leave_self]
      cases yielded <;> simp [World.leave, Phase.late]
    · rw [World.phase_leave_of_ne hji, ← h.late j]
      simp [World.leave, hji]
  closing := by
    simp only [World.leave, List.mem_append, List.mem_singleton, reduceCtorEq, or_false]
    exact h.closing
  shut := shut_concat h.shut fun _ _ _ heq => by cases heq

theorem register (h : w.Wf settings) {i : ι} {tenantId : String}
    (hphase : w.phase i = .authenticating) (hopen : w.closing = false)
    (htotal : w.active.length < settings.max_connections)
    (htenant : w.active.countP (fun e => e.2 = tenantId) < settings.max_connections_per_tenant) :
    (w.admitSession i tenantId).Wf settings where
  nodup := nodup_keys_set h.nodup
  total := by
    rw [World.admitSession, set_of_notMem (h.notMem_keys_of_early (by rw [hphase]; rfl)), List.length_append]
    exact htotal
  tenant t := by
    rw [World.admitSession, set_of_notMem (h.notMem_keys_of_early (by rw [hphase]; rfl)), List.countP_append,
      List.countP_singleton]
    by_cases ht : tenantId = t
    · subst ht
      simpa using htenant
    · simpa [ht] using h.tenant t
  active_iff j t := by
    rw [World.admitSession, set_of_notMem (h.notMem_keys_of_early (by rw [hphase]; rfl))]
    obtain ⟨hadm, hleft⟩ := h.early i (by rw [hphase]; rfl)
    simp only [List.mem_append, List.mem_singleton, h.active_iff j t, Prod.mk.injEq,
      Entry.admitted.injEq, reduceCtorEq, or_false]
    constructor
    · rintro (⟨hmem, hno⟩ | ⟨rfl, rfl⟩)
      · exact ⟨.inl hmem, hno⟩
      · exact ⟨.inr ⟨rfl, rfl⟩, hleft⟩
    · rintro ⟨hmem | heq, hno⟩
      · exact .inl ⟨hmem, hno⟩
      · exact .inr heq
  early j hj := by
    by_cases hji : j = i
    · subst hji
      rw [World.phase_admit_self] at hj
      cases hj
    · rw [World.phase_admit_of_ne hji] at hj
      obtain ⟨hadm, hleft⟩ := h.early j hj
      simp only [World.admitSession, List.mem_append, List.mem_singleton, Entry.admitted.injEq,
        reduceCtorEq, or_false]
      exact ⟨fun t hor => hor.elim (hadm t) fun heq => hji heq.1, hleft⟩
  late j := by
    simp only [World.admitSession, List.mem_append, List.mem_singleton, reduceCtorEq, or_false]
    by_cases hji : j = i
    · subst hji
      rw [Function.update_self, h.late j, hphase]
      simp [Phase.late]
    · rw [Function.update_of_ne hji]
      exact h.late j
  closing := by
    simp only [World.admitSession, List.mem_append, List.mem_singleton, reduceCtorEq, or_false]
    exact h.closing
  shut := shut_concat h.shut fun hmem => by
    rw [h.closing, hopen] at hmem
    cases hmem

omit [DecidableEq ι] in
theorem close (h : w.Wf settings) :
    World.Wf settings { w with closing := true, log := w.log ++ [.closing] } where
  nodup := h.nodup
  total := h.total
  tenant := h.tenant
  active_iff i tenantId := by simpa using h.active_iff i tenantId
  early i hi := by simpa using h.early i hi
  late i := by simpa using h.late i
  closing := by simp
  shut := shut_concat h.shut fun _ _ _ heq => by cases heq

theorem step (h : w.Wf settings) {event : Event ι}
    (hs : SocketSessions.step settings w event = some w') : w'.Wf settings := by
  cases step_cases hs with
  | phase i p hearly hlate => exact h.setPhase hearly hlate
  | leave i yielded hlate => exact h.leave yielded hlate
  | register i tenantId hphase hopen htotal htenant => exact h.register hphase hopen htotal htenant
  | close => exact h.close

end World.Wf

/-- The recorded sessions are those admitted that have not left, within both limits, and
none is admitted once `close` has started. -/
theorem session_capacity (settings : SessionSettings) (events : List (Event ι)) (w : World ι)
    (h : Machine.run (step settings) .initial events = some w) :
    w.active.length ≤ settings.max_connections ∧
      (∀ tenantId, w.active.countP (fun e => e.2 = tenantId) ≤
        settings.max_connections_per_tenant) ∧
      w.active.keys.Nodup ∧
      (∀ i tenantId, (i, tenantId) ∈ w.active ↔
        Entry.admitted i tenantId ∈ w.log ∧ Entry.left i ∉ w.log) ∧
      (∀ i, w.phase i = .ended → i ∉ w.active.keys) ∧
      ∀ pre post, w.log = pre ++ .closing :: post →
        ∀ i tenantId, Entry.admitted i tenantId ∉ post := by
  have hw : w.Wf settings :=
    Machine.run_invariant (fun _ _ _ hw hs => hw.step hs) World.Wf.initial h
  refine ⟨hw.total, hw.tenant, hw.nodup, hw.active_iff, fun i hi hkey => ?_, hw.shut⟩
  obtain ⟨tenantId, hmem⟩ := mem_keys.mp hkey
  exact ((hw.active_iff i tenantId).mp hmem).2 ((hw.late i).mpr (by rw [hi]; rfl))

/-- With room for one session, a second socket is refused while the first is accepted, and a
third is admitted once the accept of the first has failed. -/
theorem session_capacity_failedAccept :
    ∃ w : World ℕ, Machine.run (step ⟨1, 1⟩) .initial
        [.connect 0, .connect 1, .authenticated 0 (.ok (some "a")),
          .authenticated 1 (.ok (some "a")), .connect 2, .accepted 0 (.error .other),
          .authenticated 2 (.ok (some "a")), .accepted 2 (.ok ()), .close,
          .closed 1 (.ok ())] = some w ∧
      w.log = [.admitted 0 "a", .left 0, .admitted 2 "a", .closing] ∧
      w.active.length ≤ 1 ∧ ((2, "a") ∈ w.active ↔
        Entry.admitted 2 "a" ∈ w.log ∧ Entry.left 2 ∉ w.log) := by
  have hlog : (Machine.run (step ⟨1, 1⟩) (.initial : World ℕ)
      [.connect 0, .connect 1, .authenticated 0 (.ok (some "a")),
        .authenticated 1 (.ok (some "a")), .connect 2, .accepted 0 (.error .other),
        .authenticated 2 (.ok (some "a")), .accepted 2 (.ok ()), .close,
        .closed 1 (.ok ())]).map World.log =
      some [.admitted 0 "a", .left 0, .admitted 2 "a", .closing] := by decide +kernel
  obtain ⟨w, hw, hlog⟩ := Option.map_eq_some_iff.mp hlog
  obtain ⟨htotal, -, -, hactive, -⟩ := session_capacity ⟨1, 1⟩ _ w hw
  exact ⟨w, hw, hlog, htotal, hactive 2 "a"⟩

end Ally.SocketSessions
