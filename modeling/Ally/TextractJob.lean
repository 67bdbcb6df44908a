import Ally.Machine

/-!
# The Textract job record

The attempts of `_run_async_textract` for one version and its request token, cut at their
calls of AWS and of the database, with the row of `ingestion_external_jobs`.
-/

namespace Ally.TextractJob

/-- The column `status`. -/
inductive Status
  | started | inProgress | succeeded | failed
  deriving DecidableEq, Repr

def Status.terminal : Status → Bool
  | .succeeded => true
  | .failed => true
  | _ => false

/-- `JobStatus` of `get_document_analysis`. -/
inductive JobStatus
  | inProgress | succeeded | failed | partialSuccess
  deriving DecidableEq, Repr

/-- The status that the loop records for what it polled. -/
def JobStatus.recorded : JobStatus → Status
  | .succeeded => .succeeded
  | .failed => .failed
  | .inProgress => .inProgress
  | .partialSuccess => .inProgress

structure Job where
  requestToken : String
  externalJobId : String
  status : Status
  completedAt : Option ℤ
  deriving DecidableEq

/-- `_save_textract_job_sync` with the status `started`; `none` is the identity conflict. -/
def saveTextractJob (requestToken jobId : String) : Option Job → Option Job
  | none => some ⟨requestToken, jobId, .started, none⟩
  | some job =>
      if job.requestToken = requestToken ∧ job.externalJobId = jobId then some job else none

/-- `_set_textract_job_status_sync`: the row afterwards; `none` is the identity conflict. -/
def setTextractJobStatus (jobId : String) (status : Status) (now : ℤ) : Option Job → Option Job
  | none => none
  | some job =>
      if job.externalJobId = jobId ∧ job.status ≠ status then
        some { job with
          status
          completedAt := if status = .succeeded ∨ status = .failed then some now
            else job.completedAt }
      else if job.externalJobId = jobId ∧ job.status = status then some job
      else none

/-- Which call an attempt is in, or about to make. -/
inductive Phase
  | lookingUp
  | starting
  | saving (jobId : String)
  | polling (jobId : String)
  | writing (jobId : String) (status : Status)
  | ended
  deriving DecidableEq, Repr

variable {ι : Type}

structure World (ι : Type) where
  row : Option Job
  /-- The job that AWS keeps for the request token. -/
  aws : Option (String × JobStatus)
  attempt : ι → Phase
  /-- Temporal has given the attempt up: the call it is in is its last one. -/
  abandoned : ι → Bool

inductive Event (ι : Type)
  | lookUp (i : ι)
  /-- `start_document_analysis`; `jobId` is that of a job that AWS makes. -/
  | start (i : ι) (jobId : String)
  | save (i : ι)
  | poll (i : ι)
  | write (i : ι) (now : ℤ)
  /-- The call raises without an effect. -/
  | fail (i : ι)
  | abandon (i : ι)
  | advance (status : JobStatus)
  deriving DecidableEq

namespace World

def initial : World ι := ⟨none, none, fun _ => .lookingUp, fun _ => false⟩

variable [DecidableEq ι]

/-- The call of an attempt has returned. -/
def next (i : ι) (p : Phase) (w : World ι) : World ι :=
  { w with attempt := Function.update w.attempt i (if w.abandoned i then .ended else p) }

def stop (i : ι) (w : World ι) : World ι :=
  { w with attempt := Function.update w.attempt i .ended }

end World

variable [DecidableEq ι]

def step (requestToken : String) (w : World ι) : Event ι → Option (World ι)
  | .lookUp i =>
      match w.attempt i with
      | .lookingUp =>
          match w.row with
          | some job => some (w.next i (.polling job.externalJobId))
          | none => some (w.next i .starting)
      | _ => none
  | .start i jobId =>
      match w.attempt i with
      | .starting =>
          match w.aws with
          | some (jobId, _) => some (w.next i (.saving jobId))
          | none => some ({ w with aws := some (jobId, .inProgress) }.next i (.saving jobId))
      | _ => none
  | .save i =>
      match w.attempt i with
      | .saving jobId =>
          match saveTextractJob requestToken jobId w.row with
          | some job => some ({ w with row := some job }.next i (.polling jobId))
          | none => some (w.stop i)
      | _ => none
  | .poll i =>
      match w.attempt i, w.aws with
      | .polling jobId, some (id, status) =>
          if jobId = id then some (w.next i (.writing jobId status.recorded)) else some (w.stop i)
      | _, _ => none
  | .write i now =>
      match w.attempt i with
      | .writing jobId status =>
          match setTextractJobStatus jobId status now w.row with
          | some job =>
              some ({ w with row := some job }.next i
                -- a terminal status ends the polling
                (if status.terminal then .ended else .polling jobId))
          | none => some (w.stop i)
      | _ => none
  | .fail i => some (w.stop i)
  | .abandon i => some { w with abandoned := Function.update w.abandoned i true }
  | .advance status =>
      match w.aws with
      | some (jobId, .inProgress) => some { w with aws := some (jobId, status) }
      | _ => none

/-! ### What the attempts know of the job -/

/-- The job that an attempt has in hand. -/
def Phase.job? : Phase → Option String
  | .saving jobId => some jobId
  | .polling jobId => some jobId
  | .writing jobId _ => some jobId
  | _ => none

/-- The status that an attempt is about to record. -/
def Phase.status : Phase → Status
  | .writing _ status => status
  | _ => .started

variable {token : String} {w w' : World ι}

/-- AWS keeps this job, and the status is its result if it is terminal. -/
def World.Knows (w : World ι) (jobId : String) (status : Status) : Prop :=
  ∃ st, w.aws = some (jobId, st) ∧ (status.terminal = true → st.recorded = status)

structure World.Wf (token : String) (w : World ι) : Prop where
  row : ∀ job, w.row = some job →
    job.requestToken = token ∧ w.Knows job.externalJobId job.status
  attempt : ∀ i jobId, (w.attempt i).job? = some jobId →
    w.Knows jobId (w.attempt i).status

namespace World.Wf

omit [DecidableEq ι] in
theorem initial (token : String) : (World.initial : World ι).Wf token where
  row _ h := by cases h
  attempt _ _ h := by cases h

theorem setAttempt (h : w.Wf token) {i : ι} {p : Phase}
    (hp : ∀ jobId, p.job? = some jobId → w.Knows jobId p.status) :
    World.Wf token { w with attempt := Function.update w.attempt i p } where
  row := h.row
  attempt j jobId hj := by
    dsimp only at hj ⊢
    by_cases hji : j = i
    · subst hji
      rw [Function.update_self] at hj ⊢
      exact hp jobId hj
    · rw [Function.update_of_ne hji] at hj ⊢
      exact h.attempt j jobId hj

theorem stop (h : w.Wf token) (i : ι) : (w.stop i).Wf token :=
  h.setAttempt fun _ hp => by cases hp

theorem next (h : w.Wf token) {i : ι} {p : Phase}
    (hp : ∀ jobId, p.job? = some jobId → w.Knows jobId p.status) : (w.next i p).Wf token := by
  refine h.setAttempt fun jobId hjob => ?_
  by_cases ha : w.abandoned i = true
  · rw [if_pos ha] at hjob
    cases hjob
  · rw [if_neg ha] at hjob ⊢
    exact hp jobId hjob

omit [DecidableEq ι] in
theorem abandon (h : w.Wf token) (abandoned : ι → Bool) : World.Wf token { w with abandoned } :=
  ⟨h.row, h.attempt⟩

omit [DecidableEq ι] in
/-- The state of AWS may change as long as it goes on to bear out what is known. -/
theorem setAws (h : w.Wf token) {aws : Option (String × JobStatus)}
    (hkeep : ∀ jobId status, w.Knows jobId status →
      World.Knows { w with aws } jobId status) : World.Wf token { w with aws } where
  row job hjob := ⟨(h.row job hjob).1, hkeep _ _ (h.row job hjob).2⟩
  attempt i jobId hi := hkeep _ _ (h.attempt i jobId hi)

omit [DecidableEq ι] in
theorem setRow (h : w.Wf token) {job : Job} (htoken : job.requestToken = token)
    (hknows : w.Knows job.externalJobId job.status) :
    World.Wf token { w with row := some job } where
  row job' hjob := by
    obtain rfl := Option.some.inj hjob
    exact ⟨htoken, hknows⟩
  attempt := h.attempt

end World.Wf

/-! ### Writes -/

theorem saveTextractJob_some {requestToken jobId : String} {row : Option Job} {job : Job}
    (h : saveTextractJob requestToken jobId row = some job) :
    (row = none ∧ job = ⟨requestToken, jobId, .started, none⟩) ∨ row = some job := by
  unfold saveTextractJob at h
  split at h
  · exact .inl ⟨rfl, (Option.some.inj h).symm⟩
  · split at h
    · exact .inr (by rw [Option.some.inj h])
    · cases h

/-- A status write leaves the row as it is, or changes its status. -/
theorem setTextractJobStatus_some {jobId : String} {status : Status} {now : ℤ} {row : Option Job}
    {job : Job} (h : setTextractJobStatus jobId status now row = some job) :
    ∃ old, row = some old ∧ old.externalJobId = jobId ∧ job.status = status ∧
      ((job = old) ∨ old.status ≠ status ∧
        job = { old with
          status
          completedAt := if status = .succeeded ∨ status = .failed then some now
            else old.completedAt }) := by
  unfold setTextractJobStatus at h
  split at h
  · cases h
  next old =>
    split at h
    next hne =>
      obtain rfl := Option.some.inj h
      exact ⟨old, rfl, hne.1, rfl, .inr ⟨hne.2, rfl⟩⟩
    · split at h
      next heq =>
        obtain rfl := Option.some.inj h
        exact ⟨old, rfl, heq.1, heq.2, .inl rfl⟩
      · cases h

omit [DecidableEq ι] in
/-- What an attempt writes goes into the row of its job. -/
theorem World.Wf.write (h : w.Wf token) {i : ι} {jobId : String} {status : Status} {now : ℤ}
    {job : Job} (hi : w.attempt i = .writing jobId status)
    (hrow : setTextractJobStatus jobId status now w.row = some job) :
    World.Wf token { w with row := some job } := by
  obtain ⟨old, hold, rfl, -, rfl | ⟨hne, rfl⟩⟩ := setTextractJobStatus_some hrow
  · exact h.setRow (h.row _ hold).1 (h.row _ hold).2
  · refine h.setRow (h.row old hold).1 ?_
    have hknows := h.attempt i old.externalJobId (by rw [hi]; rfl)
    rw [hi] at hknows
    exact hknows

theorem World.Wf.step (h : w.Wf token) {event : Event ι}
    (hs : TextractJob.step token w event = some w') : w'.Wf token := by
  cases event with
  | lookUp i =>
      simp only [TextractJob.step] at hs
      split at hs
      · split at hs
        next job hjob =>
          obtain rfl := Option.some.inj hs
          refine h.next fun jobId hp => ?_
          obtain rfl := Option.some.inj hp
          obtain ⟨st, haws, -⟩ := (h.row job hjob).2
          exact ⟨st, haws, by simp [Phase.status, Status.terminal]⟩
        · obtain rfl := Option.some.inj hs
          exact h.next fun _ hp => by cases hp
      · cases hs
  | start i jobId =>
      simp only [TextractJob.step] at hs
      split at hs
      · split at hs
        next id st haws =>
          obtain rfl := Option.some.inj hs
          refine h.next fun jobId hp => ?_
          obtain rfl := Option.some.inj hp
          exact ⟨st, haws, by simp [Phase.status, Status.terminal]⟩
        next haws =>
          obtain rfl := Option.some.inj hs
          refine (h.setAws fun id status hknows => ?_).next fun id hp => ?_
          · obtain ⟨st, hsome, -⟩ := hknows
            rw [haws] at hsome
            cases hsome
          · obtain rfl := Option.some.inj hp
            exact ⟨.inProgress, rfl, by simp [Phase.status, Status.terminal]⟩
      · cases hs
  | save i =>
      simp only [TextractJob.step] at hs
      split at hs
      next jobId hi =>
        obtain ⟨st, haws, -⟩ := h.attempt i jobId (by rw [hi]; rfl)
        split at hs
        next job hjob =>
          obtain rfl := Option.some.inj hs
          have hpolling : ∀ id, (Phase.polling jobId).job? = some id →
              w.Knows id (Phase.polling jobId).status := by
            intro id hp
            obtain rfl := Option.some.inj hp
            exact ⟨st, haws, by simp [Phase.status, Status.terminal]⟩
          rcases saveTextractJob_some hjob with ⟨-, rfl⟩ | hrow
          · exact (h.setRow rfl ⟨st, haws, by simp [Status.terminal]⟩).next hpolling
          · exact (h.setRow (h.row job hrow).1 (h.row job hrow).2).next hpolling
        · obtain rfl := Option.some.inj hs
          exact h.stop i
      · cases hs
  | poll i =>
      simp only [TextractJob.step] at hs
      split at hs
      next jobId id st hi haws =>
        split at hs
        next heq =>
          obtain rfl := Option.some.inj hs
          refine h.next fun id' hp => ?_
          obtain rfl := Option.some.inj hp
          exact ⟨st, by rw [haws, heq], fun _ => rfl⟩
        · obtain rfl := Option.some.inj hs
          exact h.stop i
      · cases hs
  | write i now =>
      simp only [TextractJob.step] at hs
      split at hs
      next jobId status hi =>
        split at hs
        next job hjob =>
          obtain rfl := Option.some.inj hs
          refine (h.write hi hjob).next fun id hp => ?_
          by_cases hterm : status.terminal = true
          · rw [if_pos hterm] at hp
            cases hp
          · rw [if_neg hterm] at hp ⊢
            obtain rfl := Option.some.inj hp
            obtain ⟨st, haws, -⟩ := h.attempt i jobId (by rw [hi]; rfl)
            exact ⟨st, haws, by simp [Phase.status, Status.terminal]⟩
        · obtain rfl := Option.some.inj hs
          exact h.stop i
      · cases hs
  | fail i =>
      obtain rfl := Option.some.inj hs
      exact h.stop i
  | abandon i =>
      obtain rfl := Option.some.inj hs
      exact h.abandon _
  | advance st =>
      simp only [TextractJob.step] at hs
      split at hs
      next jobId haws =>
        obtain rfl := Option.some.inj hs
        refine h.setAws fun id status hknows => ?_
        obtain ⟨st', hsome, hresult⟩ := hknows
        obtain ⟨rfl, rfl⟩ := Prod.mk.inj (Option.some.inj (haws.symm.trans hsome))
        refine ⟨st, rfl, fun hterm => ?_⟩
        -- a job in progress has no terminal status recorded
        rw [← hresult hterm] at hterm
        cases hterm
      · cases hs

/-! ### Monotone records -/

/-- `completed_at` is set iff the recorded status is terminal. -/
def World.Completed (w : World ι) : Prop :=
  ∀ job, w.row = some job → (job.completedAt.isSome = true ↔ job.status.terminal = true)

/-- The identity of the job is kept, and so is a terminal status. -/
def Keeps (w w' : World ι) : Prop :=
  ∀ job, w.row = some job → ∃ job', w'.row = some job' ∧
    job'.requestToken = job.requestToken ∧ job'.externalJobId = job.externalJobId ∧
    (job.status.terminal = true → job'.status = job.status)

omit [DecidableEq ι] in
theorem Keeps.refl (w : World ι) : Keeps w w := fun job h => ⟨job, h, rfl, rfl, fun _ => rfl⟩

omit [DecidableEq ι] in
theorem Keeps.trans {w₁ w₂ w₃ : World ι} (h : Keeps w₁ w₂) (h' : Keeps w₂ w₃) : Keeps w₁ w₃ := by
  intro job hjob
  obtain ⟨job₂, hjob₂, htoken, hid, hstatus⟩ := h job hjob
  obtain ⟨job₃, hjob₃, htoken', hid', hstatus'⟩ := h' job₂ hjob₂
  refine ⟨job₃, hjob₃, htoken'.trans htoken, hid'.trans hid, fun hterm => ?_⟩
  have heq := hstatus hterm
  rw [← heq] at hterm
  exact (hstatus' hterm).trans heq

omit [DecidableEq ι] in
theorem Keeps.of_row (h : w'.row = w.row) : Keeps w w' :=
  fun job hjob => ⟨job, h.trans hjob, rfl, rfl, fun _ => rfl⟩

/-- An attempt writes that the job is in progress over a terminal status. -/
def Stale (w : World ι) (event : Event ι) : Prop :=
  ∃ i now jobId status job, event = .write i now ∧ w.attempt i = .writing jobId status ∧
    status.terminal = false ∧ w.row = some job ∧ job.externalJobId = jobId ∧
    job.status.terminal = true

theorem World.Completed.step (h : w.Wf token) (hc : w.Completed) {event : Event ι}
    (hfresh : ¬ Stale w event) (hs : TextractJob.step token w event = some w') :
    w'.Completed ∧ Keeps w w' := by
  have hsame : w'.row = w.row → w'.Completed ∧ Keeps w w' := by
    intro hrow
    refine ⟨fun job hjob => hc job (hrow ▸ hjob), .of_row hrow⟩
  cases event with
  | lookUp i =>
      simp only [TextractJob.step] at hs
      split at hs
      · split at hs <;> obtain rfl := Option.some.inj hs <;> exact hsame rfl
      · cases hs
  | start i jobId =>
      simp only [TextractJob.step] at hs
      split at hs
      · split at hs <;> obtain rfl := Option.some.inj hs <;> exact hsame rfl
      · cases hs
  | save i =>
      simp only [TextractJob.step] at hs
      split at hs
      · split at hs
        next job hjob =>
          obtain rfl := Option.some.inj hs
          rcases saveTextractJob_some hjob with ⟨hnone, rfl⟩ | hrow
          · refine ⟨fun job hjob => ?_, fun job hjob => ?_⟩
            · obtain rfl := Option.some.inj hjob
              simp [Status.terminal]
            · rw [hnone] at hjob
              cases hjob
          · exact hsame hrow.symm
        · obtain rfl := Option.some.inj hs
          exact hsame rfl
      · cases hs
  | poll i =>
      simp only [TextractJob.step] at hs
      split at hs
      · split at hs <;> obtain rfl := Option.some.inj hs <;> exact hsame rfl
      · cases hs
  | write i now =>
      simp only [TextractJob.step] at hs
      split at hs
      next jobId status hi =>
        split at hs
        next job hjob =>
          obtain rfl := Option.some.inj hs
          obtain ⟨old, hold, hid, hstatus, rfl | ⟨hne, rfl⟩⟩ := setTextractJobStatus_some hjob
          · exact hsame hold.symm
          · have hlive : old.status.terminal = false := by
              by_contra hterm
              have hterm : old.status.terminal = true := by simpa using hterm
              -- two terminal statuses of one job are the same
              cases hs : status.terminal with
              | false => exact hfresh ⟨i, now, jobId, status, old, rfl, hi, hs, hold, hid, hterm⟩
              | true =>
                  obtain ⟨st, haws, hresult⟩ := h.attempt i jobId (by rw [hi]; rfl)
                  obtain ⟨st', haws', hresult'⟩ := (h.row old hold).2
                  rw [hi] at hresult
                  obtain ⟨-, rfl⟩ := Prod.mk.inj (Option.some.inj (haws.symm.trans haws'))
                  exact hne ((hresult' hterm).symm.trans (hresult hs))
            refine ⟨fun job hjob => ?_, fun job hjob => ?_⟩
            · obtain rfl := Option.some.inj hjob
              have hnone := hc old hold
              rw [hlive] at hnone
              cases status <;> simp [Status.terminal, hnone]
            · obtain rfl := Option.some.inj (hold.symm.trans hjob)
              refine ⟨_, rfl, rfl, rfl, fun hterm => ?_⟩
              rw [hlive] at hterm
              cases hterm
        · obtain rfl := Option.some.inj hs
          exact hsame rfl
      · cases hs
  | fail i =>
      obtain rfl := Option.some.inj hs
      exact hsame rfl
  | abandon i =>
      obtain rfl := Option.some.inj hs
      exact hsame rfl
  | advance st =>
      simp only [TextractJob.step] at hs
      split at hs
      · obtain rfl := Option.some.inj hs
        exact hsame rfl
      · cases hs

/-- A stale write takes a terminal status back. -/
theorem Stale.not_keeps (token : String) {event : Event ι} (h : Stale w event) :
    ∃ w', step token w event = some w' ∧ ¬ Keeps w w' := by
  obtain ⟨i, now, jobId, status, job, rfl, hi, hlive, hrow, hid, hterm⟩ := h
  have hne : job.status ≠ status := by
    rintro rfl
    rw [hterm] at hlive
    cases hlive
  have hwrite : ∃ completedAt, setTextractJobStatus jobId status now w.row =
      some { job with status, completedAt } := by
    rw [hrow, setTextractJobStatus]
    exact ⟨_, if_pos ⟨hid, hne⟩⟩
  obtain ⟨completedAt, hwrite⟩ := hwrite
  refine ⟨World.next i (if status.terminal then .ended else .polling jobId)
    { w with row := some { job with status, completedAt } }, by simp only [step, hi, hwrite],
    fun hkeeps => ?_⟩
  obtain ⟨job', hjob', -, -, hstatus⟩ := hkeeps job hrow
  obtain rfl := Option.some.inj hjob'
  exact hne (hstatus hterm).symm

/-- Between any two states of a run the record keeps its identity and its terminal status,
and `completed_at` is set with the latter. -/
def Monotone (token : String) (events : List (Event ι)) : Prop :=
  ∀ pre mid, pre ++ mid <+: events → ∀ s t, Machine.run (step token) .initial pre = some s →
    Machine.run (step token) s mid = some t → t.Completed ∧ Keeps s t

theorem Monotone.not_stale {events : List (Event ι)} (h : Monotone token events)
    {pre : List (Event ι)} {event : Event ι} (hpre : pre ++ [event] <+: events)
    (hrun : Machine.run (step token) .initial pre = some w) : ¬ Stale w event := by
  intro hstale
  obtain ⟨w', hs, hno⟩ := hstale.not_keeps token
  have hlast : Machine.run (step token) w [event] = some w' :=
    Machine.run_cons_some.mpr ⟨w', hs, rfl⟩
  exact hno (h pre [event] hpre w w' hrun hlast).2

/-- The state of the record along a run without stale writes. -/
theorem run_keeps {s : World ι} (hs : s.Wf token ∧ s.Completed) {mid : List (Event ι)}
    (hfresh : Machine.Along (step token) (fun w event => ¬ Stale w event) s mid) {t : World ι}
    (hrun : Machine.run (step token) s mid = some t) :
    t.Wf token ∧ t.Completed ∧ Keeps s t := by
  refine Machine.run_invariant_along
    (P := fun t : World ι => t.Wf token ∧ t.Completed ∧ Keeps s t)
    (fun w event w' hw hnot hstep => ?_) ⟨hs.1, hs.2, .refl s⟩ hfresh hrun
  obtain ⟨hwf, hcompleted, hkeeps⟩ := hw
  obtain ⟨hcompleted', hkeeps'⟩ := hcompleted.step hwf hnot hstep
  exact ⟨hwf.step hstep, hcompleted', hkeeps.trans hkeeps'⟩

/-- The record of the job is monotone exactly in the runs in which no attempt writes that the
job is in progress over a terminal status. -/
theorem record_monotone_iff (token : String) (events : List (Event ι)) :
    Monotone token events ↔
      Machine.Along (step token) (fun w event => ¬ Stale w event) .initial events := by
  constructor
  · intro h pre event w hpre hrun
    exact h.not_stale hpre hrun
  · intro h pre mid hpre s t hs ht
    have hinitial : (World.initial : World ι).Wf token ∧ (World.initial : World ι).Completed :=
      ⟨.initial token, fun job hjob => by cases hjob⟩
    have hbefore := run_keeps hinitial (h.of_prefix ((List.prefix_append pre mid).trans hpre)) hs
    have hfresh : Machine.Along (step token) (fun w event => ¬ Stale w event) s mid := by
      intro before event m hbefore' hm
      have hrun := Machine.run_append_some.mpr ⟨s, hs, hm⟩
      refine h (pre ++ before) event m ?_ hrun
      rw [List.append_assoc]
      exact ((List.prefix_append_right_inj pre).mpr hbefore').trans hpre
    have hafter := run_keeps ⟨hbefore.1, hbefore.2.1⟩ hfresh ht
    exact ⟨hafter.2.1, hafter.2.2⟩

/-- A first attempt polls while the job is in progress, a second one records its success, and
then the first one writes what it saw. -/
theorem record_monotone_iff_latePoll :
    (Machine.run (step "t") (.initial : World ℕ)
      [.lookUp 0, .start 0 "job", .save 0, .poll 0, .abandon 0, .lookUp 1, .advance .succeeded,
        .poll 1, .write 1 10, .write 0 11]).map World.row =
      some (some ⟨"t", "job", .inProgress, some 10⟩) ∧
    ¬ Monotone (ι := ℕ) "t"
      [.lookUp 0, .start 0 "job", .save 0, .poll 0, .abandon 0, .lookUp 1, .advance .succeeded,
        .poll 1, .write 1 10, .write 0 11] := by
  refine ⟨by decide +kernel, fun h => ?_⟩
  have hrun : (Machine.run (step "t") (.initial : World ℕ)
      [.lookUp 0, .start 0 "job", .save 0, .poll 0, .abandon 0, .lookUp 1, .advance .succeeded,
        .poll 1, .write 1 10]).map (fun w => (w.attempt 0, w.row)) =
      some (.writing "job" .inProgress, some ⟨"t", "job", .succeeded, some 10⟩) := by
    decide +kernel
  obtain ⟨w, hw, heq⟩ := Option.map_eq_some_iff.mp hrun
  obtain ⟨hattempt, hrow⟩ := Prod.mk.inj heq
  have hstale : Stale w (.write 0 11) :=
    ⟨0, 11, "job", .inProgress, _, rfl, hattempt, rfl, hrow, rfl, rfl⟩
  exact h.not_stale (by simp) hw hstale

end Ally.TextractJob
