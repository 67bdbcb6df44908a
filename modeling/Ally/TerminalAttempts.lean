import Ally.IngestRuns

/-!
# When an ended run leaves a terminal attempt

The finish call of an ended run closes its attempt unless the version is still
staged while the document is not being processed, or was retired: the call then
raises, its transaction is rolled back and the workflow swallows the error.
-/

open Relational

namespace Ally

def AttemptStatus.Terminal (s : AttemptStatus) : Prop :=
  s = .indexed ∨ s = .failed ∨ s = .cancelled

theorem AttemptStatus.terminal_iff {s : AttemptStatus} :
    s.Terminal ↔ ¬ (s = .queued ∨ s = .processing) := by
  cases s <;> simp [Terminal]

def Db.Terminal (db : Db) (attemptId : Uuid) : Prop :=
  ∃ r ∈ db.attempts, r.id = attemptId ∧ r.status.Terminal

/-- What a finish call other than `indexed` needs to close an open attempt. -/
def Db.CanFail (db : Db) (documentId versionId tenantId : Uuid) : Prop :=
  ((∃ v ∈ db.versions, (v.id = versionId ∧ v.documentId = documentId ∧
        v.tenantId = tenantId) ∧ v.status = .staged) ∧
      ∃ d ∈ db.documents, (d.id = documentId ∧ d.tenantId = tenantId) ∧
        d.status = .processing) ∨
    ∃ v ∈ db.versions, (v.id = versionId ∧ v.documentId = documentId ∧
      v.tenantId = tenantId) ∧ db.isActiveVersion v

/-- The finish call leaves a terminal attempt: the attempt was terminal before it,
or it reached the database and could close the attempt. -/
def FinishCall.Closes {ι : Type} (u : Uploads ι) (i : ι) (f : FinishCall) : Prop :=
  f.db.Terminal (u.upload i).attemptId ∨
    (f.executed = true ∧ (f.status = .indexed ∨
      f.db.CanFail u.documentId (u.upload i).versionId u.tenantId))

/-! ### One transaction -/

/-- The database after an attempt of a transaction. -/
def Transaction.effect (t : Transaction) (db : Db) : Db :=
  match t.apply db with
  | .ok db' => db'
  | .error _ => db

theorem Transaction.effect_cases (t : Transaction) (db : Db) :
    t.apply db = .ok (t.effect db) ∨ t.effect db = db := by
  unfold effect
  cases h : t.apply db with
  | ok db' => exact Or.inl rfl
  | error e => exact Or.inr rfl

/-- The attempt row of a registered run. -/
def Db.HasAttempt (db : Db) (attemptId documentId tenantId : Uuid) : Prop :=
  ∃ r ∈ db.attempts, r.id = attemptId ∧ r.documentId = documentId ∧ r.tenantId = tenantId

theorem hasAttempt_effect {db : Db} {attemptId documentId tenantId : Uuid} (t : Transaction)
    (h : db.HasAttempt attemptId documentId tenantId) :
    (t.effect db).HasAttempt attemptId documentId tenantId := by
  rcases t.effect_cases db with ht | ht
  · obtain ⟨r, hr, hid, hdoc, hten⟩ := h
    obtain ⟨r', hr', hsame, -⟩ := (attemptStep ht).attemptTo r hr
    exact ⟨r', hr', hsame.id.trans hid, hsame.documentId.trans hdoc, hsame.tenantId.trans hten⟩
  · rw [ht]
    exact h

theorem hasAttempt_register {a : RegisterArgs} {db db' : Db}
    (h : registerIngestion a db = .ok db') :
    db'.HasAttempt a.attemptId a.documentId a.tenantId := by
  obtain ⟨db₁, db₂, -, h₂, h₃⟩ := registerIngestion_ok h
  have hattempts : db'.attempts = db₂.attempts := by
    rcases ensureVersion_ok h₃ with ⟨rfl, -⟩ | ⟨n, versions, -, -, rfl⟩ <;> rfl
  unfold Db.HasAttempt
  rw [hattempts]
  rcases ensureAttempt_ok h₂ with ⟨rfl, r, hr, -, hid, hdoc, hten⟩ | ⟨-, n, attempts, hi, rfl⟩
  · exact ⟨r, hr, hid, hdoc, hten⟩
  · exact ⟨a.attempt n, ((Table.insert_some hi).2 _).mpr (Or.inr rfl), rfl, rfl, rfl⟩

/-- A terminal attempt stays terminal. -/
theorem terminal_stays {db : Db} {attemptId : Uuid} (t : Transaction)
    (h : db.Terminal attemptId) : (t.effect db).Terminal attemptId := by
  rcases t.effect_cases db with ht | ht
  · obtain ⟨r, hr, hid, hterm⟩ := h
    have hclosed := AttemptStatus.terminal_iff.mp hterm
    obtain ⟨r', hr', hsame, hmoves⟩ := (attemptStep ht).attemptTo r hr
    refine ⟨r', hr', hsame.id.trans hid, ?_⟩
    cases hmoves with
    | stay hst => exact hst ▸ hterm
    | stage hopen _ => exact absurd hopen hclosed
    | finish _ _ _ _ _ _ hopen _ _ => exact absurd hopen hclosed
    | reconcile _ _ hst => exact Or.inl hst
  · rw [ht]
    exact h

/-- Only a finish call for the attempt or a reconciliation makes it terminal. -/
theorem terminal_of_effect {db : Db} {attemptId : Uuid} {t : Transaction}
    (hfinish : ∀ d v tenantId s e, t ≠ .finish d attemptId v tenantId s e)
    (hreconcile : t ≠ .reconcile) (h : (t.effect db).Terminal attemptId) :
    db.Terminal attemptId := by
  rcases t.effect_cases db with ht | ht
  · obtain ⟨r', hr', hid, hterm⟩ := h
    have hclosed := AttemptStatus.terminal_iff.mp hterm
    rcases (attemptStep ht).attemptOf r' hr' with ⟨r, hr, hsame, hmoves⟩ | ⟨hq, -⟩
    · have hrid : r.id = attemptId := hsame.id.symm.trans hid
      cases hmoves with
      | stay hst => exact ⟨r, hr, hrid, hst ▸ hterm⟩
      | stage _ hst => exact absurd (Or.inr hst) hclosed
      | finish d v tenantId s e hcall _ _ _ =>
          rw [hrid] at hcall
          exact absurd hcall (hfinish d v tenantId s e)
      | reconcile hcall _ _ => exact absurd hcall hreconcile
    · exact absurd (Or.inl hq) hclosed
  · rwa [ht] at h

theorem terminal_effect_iff {db : Db} {attemptId : Uuid} {t : Transaction}
    (hfinish : ∀ d v tenantId s e, t ≠ .finish d attemptId v tenantId s e)
    (hreconcile : t ≠ .reconcile) :
    (t.effect db).Terminal attemptId ↔ db.Terminal attemptId :=
  ⟨terminal_of_effect hfinish hreconcile, terminal_stays t⟩

section Finish
variable {db : Db} {documentId attemptId versionId tenantId : Uuid} {status : AttemptStatus}
  {errorCode : Option String}

theorem failVersion_ok_iff_canFail :
    (∃ db', failVersion documentId versionId tenantId status db = .ok db') ↔
      db.CanFail documentId versionId tenantId := by
  simp only [failVersion_ok_iff]
  constructor
  · rintro ⟨db', ⟨-, hactive, -⟩ | ⟨hstaged, hproc, -⟩⟩
    · exact Or.inr hactive
    · exact Or.inl ⟨hstaged, hproc⟩
  · rintro (⟨hstaged, hproc⟩ | ⟨v, hv, hids, hactive⟩)
    · exact ⟨_, Or.inr ⟨hstaged, hproc, rfl⟩⟩
    · refine ⟨db, Or.inl ⟨?_, ⟨v, hv, hids, hactive⟩, rfl⟩⟩
      rintro ⟨w, hw, hids', hst⟩
      have hwv : w = v := Table.eq_of_key_eq hw hv (hids'.1.trans hids.1.symm)
      rw [hwv, hactive.1] at hst
      cases hst

/-- A finish call of a registered run leaves a terminal attempt exactly when the
attempt was terminal or the call could close it. -/
theorem terminal_finish_iff (h : db.HasAttempt attemptId documentId tenantId)
    (hstatus : status.Terminal) :
    (((Transaction.finish documentId attemptId versionId tenantId status errorCode).effect
        db).Terminal attemptId ↔
      db.Terminal attemptId ∨ status = .indexed ∨
        db.CanFail documentId versionId tenantId) := by
  obtain ⟨r, hr, hid, hdoc, hten⟩ := h
  let t := Transaction.finish documentId attemptId versionId tenantId status errorCode
  by_cases hterm : r.status.Terminal
  · have hdb : db.Terminal attemptId := ⟨r, hr, hid, hterm⟩
    exact iff_of_true (terminal_stays t hdb) (Or.inl hdb)
  · have hopen : r.status = .queued ∨ r.status = .processing := by
      by_contra hne
      exact hterm (AttemptStatus.terminal_iff.mpr hne)
    have hnot : ¬ db.Terminal attemptId := by
      rintro ⟨r', hr', hid', hterm'⟩
      rw [Table.eq_of_key_eq hr' hr (hid'.trans hid.symm)] at hterm'
      exact hterm hterm'
    have hopens : ∃ r ∈ db.attempts, (r.id = attemptId ∧ r.documentId = documentId ∧
        r.tenantId = tenantId) ∧ (r.status = .queued ∨ r.status = .processing) :=
      ⟨r, hr, ⟨hid, hdoc, hten⟩, hopen⟩
    rw [or_iff_right hnot]
    constructor
    · intro h
      rcases t.effect_cases db with ht | ht
      · rcases (finishIngestionAttempt_ok_iff.mp ht).2 with ⟨hnone, -⟩ | ⟨-, ⟨hi, -⟩ | ⟨-, hf⟩⟩
        · exact absurd hopens hnone
        · exact Or.inl hi
        · have hcan : (closeAttempt documentId attemptId tenantId status errorCode db).CanFail
              documentId versionId tenantId := failVersion_ok_iff_canFail.mp ⟨_, hf⟩
          exact Or.inr hcan
      · change (t.effect db).Terminal attemptId at h
        rw [ht] at h
        exact absurd h hnot
    · intro hcan
      obtain ⟨db', ht⟩ : ∃ db', t.apply db = .ok db' := by
        by_cases hi : status = .indexed
        · exact ⟨_, finishIngestionAttempt_ok_iff.mpr
            ⟨hstatus, Or.inr ⟨hopens, Or.inl ⟨hi, rfl⟩⟩⟩⟩
        · have hfail : (closeAttempt documentId attemptId tenantId status errorCode db).CanFail
              documentId versionId tenantId := hcan.resolve_left hi
          obtain ⟨db', hf⟩ := failVersion_ok_iff_canFail.mpr hfail
          exact ⟨db', finishIngestionAttempt_ok_iff.mpr
            ⟨hstatus, Or.inr ⟨hopens, Or.inr ⟨hi, hf⟩⟩⟩⟩
      have heffect : t.effect db = db' := by
        unfold Transaction.effect
        rw [ht]
      have hattempts : db'.attempts =
          (closeAttempt documentId attemptId tenantId status errorCode db).attempts := by
        rcases (finishIngestionAttempt_ok_iff.mp ht).2 with ⟨hnone, -⟩ | ⟨-, ⟨-, rfl⟩ | ⟨-, hf⟩⟩
        · exact absurd hopens hnone
        · rfl
        · exact failVersion_attempts hf
      have hrow : isOpenAttempt attemptId documentId tenantId r = true :=
        isOpenAttempt_iff.mpr ⟨⟨hid, hdoc, hten⟩, hopen⟩
      change (t.effect db).Terminal attemptId
      rw [heffect]
      have hmem : Attempt.close status (safeErrorCode errorCode) r ∈ db'.attempts := by
        rw [hattempts]
        have hupdated := Table.update_mem (p := isOpenAttempt attemptId documentId tenantId)
          (f := Attempt.close status (safeErrorCode errorCode)) hr
        rwa [if_pos hrow] at hupdated
      exact ⟨_, hmem, hid, hstatus⟩

end Finish

/-! ### The invariant of a run's attempt -/

section Runs
variable {ι : Type} {u : Uploads ι} {w w' : World ι}

theorem World.execute_db (i : ι) (t : Transaction) (w : World ι) :
    (w.execute i t).db = t.effect w.db := by
  unfold World.execute Transaction.effect
  cases t.apply w.db <;> rfl

theorem World.execute_frame (i : ι) (t : Transaction) (w : World ι) :
    (w.execute i t).phase = w.phase ∧ (w.execute i t).lastFinish = w.lastFinish := by
  unfold World.execute
  cases t.apply w.db <;> exact ⟨rfl, rfl⟩

/-- The run is past its registration and has not ended. -/
def RunPhase.Registered : RunPhase → Prop
  | .running k => 1 ≤ k
  | .finishing _ _ => True
  | .ended => False

/-- The finish call of the run that is on record left a terminal attempt exactly
when it closes. -/
def World.Recorded (u : Uploads ι) (i : ι) (w : World ι) : Prop :=
  ∀ f, w.lastFinish i = some f →
    (w.db.Terminal (u.upload i).attemptId ↔ f.Closes u i)

structure World.Inv (u : Uploads ι) (w : World ι) : Prop where
  registered : ∀ i, (w.phase i).Registered →
    w.db.HasAttempt (u.upload i).attemptId u.documentId u.tenantId
  unfinished : ∀ i k, w.phase i = .running k → k ≤ 8 → w.lastFinish i = none
  finished : ∀ i k, w.phase i = .running k → 9 ≤ k → w.Recorded u i
  terminal : ∀ i status errorCode, w.phase i = .finishing status errorCode → status.Terminal
  ended : ∀ i, w.phase i = .ended → w.Recorded u i

theorem World.inv_initial : (World.initial u).Inv u where
  registered i h := absurd h (by simp [World.initial, RunPhase.Registered])
  unfinished _ _ _ _ := rfl
  finished _ _ _ _ _ h := by cases h
  terminal _ _ _ h := by cases h
  ended _ h := by cases h

/-- A transaction of the plan before the finish call. -/
theorem plan_not_finish {i : ι} {k : ℕ} {t : Transaction} (ht : (u.plan i)[k]? = some t)
    (hk : k < 8) : (∀ d a v tenantId s e, t ≠ .finish d a v tenantId s e) ∧ t ≠ .reconcile := by
  have hcases : ∀ t ∈ (u.plan i).take 8,
      (∀ d a v tenantId s e, t ≠ .finish d a v tenantId s e) ∧ t ≠ .reconcile := by
    simp [Uploads.plan, Uploads.recordStage]
  apply hcases
  rw [← List.getElem?_take_of_lt hk] at ht
  exact List.mem_of_getElem? ht

/-- An attempt of a transaction that cannot close the attempt of a recorded run. -/
theorem World.Inv.effect (h : w.Inv u) {t : Transaction}
    (hreconcile : t ≠ .reconcile)
    (hfinish : ∀ j, (∃ d v tenantId s e, t = .finish d (u.upload j).attemptId v tenantId s e) →
      w.phase j ≠ .ended ∧ ∀ k, w.phase j = .running k → k ≤ 8) :
    ({ w with db := t.effect w.db } : World ι).Inv u := by
  have hkeep : ∀ j, w.Recorded u j →
      (¬ ∃ d v tenantId s e, t = .finish d (u.upload j).attemptId v tenantId s e) →
      ({ w with db := t.effect w.db } : World ι).Recorded u j := by
    intro j hj hne f hf
    have hiff : (t.effect w.db).Terminal (u.upload j).attemptId ↔
        w.db.Terminal (u.upload j).attemptId :=
      terminal_effect_iff (fun d v tenantId s e he => hne ⟨d, v, tenantId, s, e, he⟩) hreconcile
    exact hiff.trans (hj f hf)
  constructor
  · intro j hj
    exact hasAttempt_effect t (h.registered j hj)
  · exact h.unfinished
  · intro j k hj hk
    refine hkeep j (h.finished j k hj hk) fun hf => ?_
    have := (hfinish j hf).2 k hj
    omega
  · exact h.terminal
  · intro j hj
    exact hkeep j (h.ended j hj) fun hf => (hfinish j hf).1 hj

theorem World.Inv.congr (h : w.Inv u) (hdb : w'.db = w.db) (hphase : w'.phase = w.phase)
    (hlast : w'.lastFinish = w.lastFinish) : w'.Inv u := by
  have hrecorded : ∀ i, w.Recorded u i → w'.Recorded u i := by
    intro i hrec f hf
    rw [hlast] at hf
    rw [hdb]
    exact hrec f hf
  constructor
  · rw [hphase, hdb]
    exact h.registered
  · rw [hphase, hlast]
    exact h.unfinished
  · rw [hphase]
    exact fun i k hk hk9 => hrecorded i (h.finished i k hk hk9)
  · rw [hphase]
    exact h.terminal
  · rw [hphase]
    exact fun i hi => hrecorded i (h.ended i hi)

theorem World.Inv.execute {i : ι} {t : Transaction}
    (h : ({ w with db := t.effect w.db } : World ι).Inv u) : (w.execute i t).Inv u :=
  h.congr (w.execute_db i t) (w.execute_frame i t).1 (w.execute_frame i t).2

/-- A step that leaves the database and the other runs alone. -/
theorem World.Inv.of_run (h : w.Inv u) (i : ι) (hdb : w'.db = w.db)
    (hothers : ∀ j, j ≠ i → w'.phase j = w.phase j ∧ w'.lastFinish j = w.lastFinish j)
    (hregistered : (w'.phase i).Registered →
      w.db.HasAttempt (u.upload i).attemptId u.documentId u.tenantId)
    (hunfinished : ∀ k, w'.phase i = .running k → k ≤ 8 → w'.lastFinish i = none)
    (hfinished : ∀ k, w'.phase i = .running k → 9 ≤ k → w'.Recorded u i)
    (hterminal : ∀ status errorCode, w'.phase i = .finishing status errorCode → status.Terminal)
    (hended : w'.phase i = .ended → w'.Recorded u i) : w'.Inv u := by
  have hrecorded : ∀ j, j ≠ i → w.Recorded u j → w'.Recorded u j := by
    intro j hj hrec f hf
    rw [(hothers j hj).2] at hf
    rw [hdb]
    exact hrec f hf
  constructor
  · intro j hj
    rw [hdb]
    by_cases hji : j = i
    · subst hji
      exact hregistered hj
    · rw [(hothers j hji).1] at hj
      exact h.registered j hj
  · intro j k hj hk
    by_cases hji : j = i
    · subst hji
      exact hunfinished k hj hk
    · rw [(hothers j hji).1] at hj
      rw [(hothers j hji).2]
      exact h.unfinished j k hj hk
  · intro j k hj hk
    by_cases hji : j = i
    · subst hji
      exact hfinished k hj hk
    · rw [(hothers j hji).1] at hj
      exact hrecorded j hji (h.finished j k hj hk)
  · intro j status errorCode hj
    by_cases hji : j = i
    · subst hji
      exact hterminal status errorCode hj
    · rw [(hothers j hji).1] at hj
      exact h.terminal j status errorCode hj
  · intro j hj
    by_cases hji : j = i
    · subst hji
      exact hended hj
    · rw [(hothers j hji).1] at hj
      exact hrecorded j hji (h.ended j hj)

/-- The attempts of a finish call of run `i` while the run awaits it. -/
theorem World.Inv.effect_finish (h : w.Inv u) {i : ι} {status : AttemptStatus}
    {errorCode : Option String}
    (hi : w.phase i ≠ .ended ∧ ∀ k, w.phase i = .running k → k ≤ 8) :
    ({ w with db := (u.finish i status errorCode).effect w.db } : World ι).Inv u := by
  refine h.effect (by rintro ⟨⟩) ?_
  rintro j ⟨d, v, tenantId, s, e, he⟩
  obtain ⟨-, ha, -⟩ := Transaction.finish.inj he
  rw [← u.attemptId_inj i j ha]
  exact hi

/-- The attempts of an earlier transaction of a plan. -/
theorem World.Inv.effect_plan (h : w.Inv u) {i : ι} {k : ℕ} {t : Transaction}
    (ht : (u.plan i)[k]? = some t) (hk : k < 8) :
    ({ w with db := t.effect w.db } : World ι).Inv u := by
  obtain ⟨hfinish, hreconcile⟩ := plan_not_finish ht hk
  refine h.effect hreconcile ?_
  rintro j ⟨d, v, tenantId, s, e, he⟩
  exact absurd he (hfinish d _ v tenantId s e)

theorem plan_lt {i : ι} {k : ℕ} {t : Transaction} (ht : (u.plan i)[k]? = some t) : k < 9 :=
  (List.getElem?_eq_some_iff.mp ht).1

/-- The awaited transaction of a plan, whatever its place. -/
theorem World.Inv.effect_awaited (h : w.Inv u) {i : ι} {k : ℕ} {t : Transaction}
    (hk : w.phase i = .running k) (ht : (u.plan i)[k]? = some t) :
    ({ w with db := t.effect w.db } : World ι).Inv u := by
  have hk9 := plan_lt ht
  by_cases hk8 : k = 8
  · subst hk8
    obtain rfl : u.finish i .indexed none = t := Option.some.inj ht
    apply h.effect_finish
    constructor
    · rw [hk]
      rintro ⟨⟩
    · intro n hn
      obtain rfl := RunPhase.running.inj (hk.symm.trans hn)
      omega
  · exact h.effect_plan ht (by omega)

theorem afterError_terminal {k : ℕ} {status status' : AttemptStatus} {code code' : String}
    (h : RunPhase.afterError k status code = .finishing status' code') (hs : status.Terminal) :
    status'.Terminal := by
  unfold RunPhase.afterError at h
  split_ifs at h
  obtain ⟨rfl, -⟩ := RunPhase.finishing.inj h
  exact hs

theorem afterError_ended {k : ℕ} {status : AttemptStatus} {code : String}
    (h : RunPhase.afterError k status code = .ended) : k = 0 := by
  unfold RunPhase.afterError at h
  split_ifs at h with hk
  exact hk

theorem afterError_running {k n : ℕ} {status : AttemptStatus} {code : String} :
    RunPhase.afterError k status code ≠ .running n := by
  unfold RunPhase.afterError
  split_ifs <;> rintro ⟨⟩

theorem afterError_registered {k : ℕ} {status : AttemptStatus} {code : String}
    (h : (RunPhase.afterError k status code).Registered) : 1 ≤ k := by
  unfold RunPhase.afterError at h
  split_ifs at h with hk
  · exact h.elim
  · omega

variable [DecidableEq ι]

/-- A run gives up its call `k` without a transaction. -/
theorem World.Inv.giveUp (h : w.Inv u) {i : ι} {k : ℕ} {status : AttemptStatus} {code : String}
    (hk : w.phase i = .running k) (hs : status.Terminal) :
    (w.giveUp i k status code).Inv u := by
  have hphase : (w.giveUp i k status code).phase =
      Function.update w.phase i (.afterError k status code) := by
    unfold World.giveUp
    dsimp only
    split_ifs <;> rfl
  have hself : (w.giveUp i k status code).phase i = .afterError k status code := by
    rw [hphase, Function.update_self]
  have hlast : ∀ j, j ≠ i ∨ k ≠ 8 →
      (w.giveUp i k status code).lastFinish j = w.lastFinish j := by
    intro j hj
    unfold World.giveUp
    dsimp only
    split_ifs with hk8
    · exact Function.update_of_ne (hj.resolve_right (not_not_intro hk8)) ..
    · rfl
  refine h.of_run i ?_ ?_ ?_ ?_ ?_ ?_ ?_
  · unfold World.giveUp
    dsimp only
    split_ifs <;> rfl
  · intro j hj
    exact ⟨by rw [hphase, Function.update_of_ne hj], hlast j (Or.inl hj)⟩
  · intro hreg
    rw [hself] at hreg
    apply h.registered i
    rw [hk]
    exact afterError_registered hreg
  · intro n hn
    rw [hself] at hn
    exact absurd hn afterError_running
  · intro n hn
    rw [hself] at hn
    exact absurd hn afterError_running
  · intro status' code' hf
    rw [hself] at hf
    exact afterError_terminal hf hs
  · intro he f hf
    rw [hself] at he
    have hk0 := afterError_ended he
    rw [hlast i (Or.inr (by omega)), h.unfinished i k hk (by omega)] at hf
    cases hf

/-- An abandoned finish call closes exactly when the attempt was terminal. -/
theorem World.Inv.abandon (h : w.Inv u) (i : ι) (status : AttemptStatus) :
    (w.abandon i status).Inv u := by
  have hself : (w.abandon i status).phase i = .ended := Function.update_self ..
  refine h.of_run i rfl ?_ ?_ ?_ ?_ ?_ ?_
  · intro j hj
    exact ⟨Function.update_of_ne hj .., Function.update_of_ne hj ..⟩
  · intro hreg
    rw [hself] at hreg
    exact hreg.elim
  · intro n hn
    rw [hself] at hn
    cases hn
  · intro n hn
    rw [hself] at hn
    cases hn
  · intro status' code' hf
    rw [hself] at hf
    cases hf
  · intro _ f hf
    have hlast : (w.abandon i status).lastFinish i = some ⟨status, w.db, false⟩ :=
      Function.update_self ..
    obtain rfl := Option.some.inj (hlast.symm.trans hf)
    change w.db.Terminal _ ↔ _
    simp [FinishCall.Closes]

/-- The cleanup of a finished run returns or fails. -/
theorem World.Inv.cleanup (h : w.Inv u) {i : ι} {k : ℕ} (hk : w.phase i = .running k)
    (hk9 : 9 ≤ k) : (w.setPhase i .ended).Inv u := by
  have hself : (w.setPhase i .ended).phase i = .ended := Function.update_self ..
  refine h.of_run i rfl ?_ ?_ ?_ ?_ ?_ ?_
  · intro j hj
    exact ⟨Function.update_of_ne hj .., rfl⟩
  · intro hreg
    rw [hself] at hreg
    exact hreg.elim
  · intro n hn
    rw [hself] at hn
    cases hn
  · intro n hn
    rw [hself] at hn
    cases hn
  · intro status' code' hf
    rw [hself] at hf
    cases hf
  · exact fun _ => h.finished i k hk hk9

theorem World.Inv.proceedPlan (h : w.Inv u) {i : ι} {k : ℕ} {t : Transaction}
    (hk : w.phase i = .running k) (ht : (u.plan i)[k]? = some t) :
    (w.proceedPlan i k t).Inv u := by
  have h₁ := h.effect_awaited hk ht
  have hk9 := plan_lt ht
  have hafter : ∃ after, (w.proceedPlan i k t).phase = Function.update w.phase i after ∧
      ((after = .running (k + 1) ∧ t.apply w.db = .ok (t.effect w.db)) ∨
        after = .afterError k .failed "workflow_activity_failed") := by
    unfold World.proceedPlan
    dsimp only
    cases hres : t.apply w.db with
    | ok db' =>
        refine ⟨.running (k + 1), ?_, Or.inl ⟨rfl, ?_⟩⟩
        · split_ifs <;> exact congrArg (fun f => Function.update f i _) (w.execute_frame i t).1
        · rw [Transaction.effect, hres]
    | error e =>
        refine ⟨_, ?_, Or.inr rfl⟩
        split_ifs <;> exact congrArg (fun f => Function.update f i _) (w.execute_frame i t).1
  have hdb : (w.proceedPlan i k t).db = t.effect w.db := by
    rw [← w.execute_db i t]
    unfold World.proceedPlan
    dsimp only
    split_ifs <;> rfl
  have hlast : ∀ j, j ≠ i ∨ k ≠ 8 →
      (w.proceedPlan i k t).lastFinish j = w.lastFinish j := by
    intro j hj
    unfold World.proceedPlan
    dsimp only
    split_ifs with hk8
    · have hne := hj.resolve_right (not_not_intro hk8)
      exact (Function.update_of_ne hne ..).trans (congrFun (w.execute_frame i t).2 j)
    · exact congrFun (w.execute_frame i t).2 j
  obtain ⟨after, hphase, hcases⟩ := hafter
  have hself : (w.proceedPlan i k t).phase i = after := by
    rw [hphase, Function.update_self]
  refine h₁.of_run i hdb ?_ ?_ ?_ ?_ ?_ ?_
  · intro j hj
    exact ⟨by rw [hphase, Function.update_of_ne hj], hlast j (Or.inl hj)⟩
  · intro hreg
    rw [hself] at hreg
    by_cases hk0 : k = 0
    · subst hk0
      rcases hcases with ⟨-, hok⟩ | rfl
      · obtain rfl : .register (u.registerArgs i) = t := Option.some.inj ht
        exact hasAttempt_register hok
      · exact absurd (afterError_registered hreg) (by omega)
    · apply h₁.registered i
      change (w.phase i).Registered
      rw [hk]
      exact Nat.one_le_iff_ne_zero.mpr hk0
  · intro n hn hn8
    rw [hself] at hn
    rcases hcases with ⟨rfl, -⟩ | rfl
    · obtain rfl := RunPhase.running.inj hn
      rw [hlast i (Or.inr (by omega))]
      exact h.unfinished i k hk (by omega)
    · exact absurd hn afterError_running
  · intro n hn hn9
    rw [hself] at hn
    rcases hcases with ⟨rfl, -⟩ | rfl
    · obtain rfl := RunPhase.running.inj hn
      obtain rfl : k = 8 := by omega
      obtain rfl : u.finish i .indexed none = t := Option.some.inj ht
      intro f hf
      have hcall : (w.proceedPlan i 8 (u.finish i .indexed none)).lastFinish i =
          some ⟨.indexed, w.db, true⟩ := Function.update_self ..
      obtain rfl := Option.some.inj (hcall.symm.trans hf)
      have hrow : w.db.HasAttempt (u.upload i).attemptId u.documentId u.tenantId := by
        apply h.registered i
        rw [hk]
        exact Nat.one_le_iff_ne_zero.mpr (by omega)
      rw [hdb]
      exact iff_of_true ((terminal_finish_iff hrow (Or.inl rfl)).mpr (Or.inr (Or.inl rfl)))
        (Or.inr ⟨rfl, Or.inl rfl⟩)
    · exact absurd hn afterError_running
  · intro status code hf
    rw [hself] at hf
    rcases hcases with ⟨rfl, -⟩ | rfl
    · cases hf
    · exact afterError_terminal hf (Or.inr (Or.inl rfl))
  · intro he f hf
    rw [hself] at he
    rcases hcases with ⟨rfl, -⟩ | rfl
    · cases he
    · have hk0 := afterError_ended he
      rw [hlast i (Or.inr (by omega)), h.unfinished i k hk (by omega)] at hf
      cases hf

/-- The finish call of an `except` clause returns or raises. -/
theorem World.Inv.proceedFinish (h : w.Inv u) {i : ι} {status : AttemptStatus} {code : String}
    (hi : w.phase i = .finishing status code) :
    (((w.execute i (u.finish i status (some code))).setFinish i
      ⟨status, w.db, true⟩).setPhase i .ended).Inv u := by
  let t := u.finish i status (some code)
  have h₁ : ({ w with db := t.effect w.db } : World ι).Inv u := by
    apply h.effect_finish
    rw [hi]
    exact ⟨by rintro ⟨⟩, by rintro n ⟨⟩⟩
  let w' := ((w.execute i t).setFinish i ⟨status, w.db, true⟩).setPhase i .ended
  have hself : w'.phase i = .ended := Function.update_self ..
  refine h₁.of_run i (w.execute_db i t) ?_ ?_ ?_ ?_ ?_ ?_
  · intro j hj
    exact ⟨(Function.update_of_ne hj ..).trans (congrFun (w.execute_frame i t).1 j),
      (Function.update_of_ne hj ..).trans (congrFun (w.execute_frame i t).2 j)⟩
  · intro hreg
    rw [hself] at hreg
    exact hreg.elim
  · intro n hn
    rw [hself] at hn
    cases hn
  · intro n hn
    rw [hself] at hn
    cases hn
  · intro status' code' hf
    rw [hself] at hf
    cases hf
  · intro _ f hf
    have hcall : w'.lastFinish i = some ⟨status, w.db, true⟩ := Function.update_self ..
    obtain rfl := Option.some.inj (hcall.symm.trans hf)
    have hrow : w.db.HasAttempt (u.upload i).attemptId u.documentId u.tenantId := by
      apply h.registered i
      rw [hi]
      trivial
    change (w.execute i t).db.Terminal _ ↔ _
    rw [w.execute_db i t]
    refine (terminal_finish_iff hrow (h.terminal i status code hi)).trans ?_
    simp [FinishCall.Closes]

theorem World.Inv.step (h : w.Inv u) {a : Action ι} (hs : w.step u a = some w') : w'.Inv u := by
  cases a with
  | proceed i =>
      change proceed u i w = some w' at hs
      unfold proceed at hs
      split at hs
      · rename_i k hk
        split at hs
        · rename_i t ht
          obtain rfl := Option.some.inj hs
          exact h.proceedPlan hk ht
        · rename_i ht
          obtain rfl := Option.some.inj hs
          exact h.cleanup hk (List.getElem?_eq_none_iff.mp ht)
      · rename_i status code hi
        obtain rfl := Option.some.inj hs
        exact h.proceedFinish hi
      · cases hs
  | attempt i =>
      change attempt u i w = some w' at hs
      unfold attempt at hs
      split at hs
      · rename_i k hk
        obtain ⟨t, ht, rfl⟩ := Option.map_eq_some_iff.mp hs
        exact (h.effect_awaited hk ht).execute
      · rename_i status code hi
        obtain rfl := Option.some.inj hs
        refine World.Inv.execute (h.effect_finish ?_)
        rw [hi]
        exact ⟨by rintro ⟨⟩, by rintro n ⟨⟩⟩
      · cases hs
  | late i k =>
      change late u i k w = some w' at hs
      unfold late at hs
      split_ifs at hs with hk
      obtain ⟨t, ht, rfl⟩ := Option.map_eq_some_iff.mp hs
      exact (h.effect_plan ht hk.2).execute
  | fail i =>
      change failRun i w = some w' at hs
      unfold failRun at hs
      split at hs
      · rename_i k hk
        split_ifs at hs with hk9 <;> obtain rfl := Option.some.inj hs
        · exact h.giveUp hk (Or.inr (Or.inl rfl))
        · exact h.cleanup hk (by omega)
      · obtain rfl := Option.some.inj hs
        exact h.abandon i _
      · cases hs
  | cancel i =>
      change cancelRun i w = some w' at hs
      unfold cancelRun at hs
      split at hs
      · rename_i k hk
        obtain rfl := Option.some.inj hs
        exact h.giveUp hk (Or.inr (Or.inr rfl))
      · obtain rfl := Option.some.inj hs
        exact h.abandon i _
      · cases hs
  | tombstone reason =>
      obtain rfl := Option.some.inj hs
      have hworld : tombstoneDocument u reason w =
          { w with db := (Transaction.tombstone u.documentId u.tenantId reason).effect w.db } := by
        cases hres : tombstoneIngestionDocument u.documentId u.tenantId reason w.db with
        | ok db =>
            have happly : (Transaction.tombstone u.documentId u.tenantId reason).apply w.db =
                .ok db := hres
            simp only [tombstoneDocument, Transaction.effect, hres, happly]
        | error e =>
            have happly : (Transaction.tombstone u.documentId u.tenantId reason).apply w.db =
                .error e := hres
            simp only [tombstoneDocument, Transaction.effect, hres, happly]
      rw [hworld]
      refine h.effect (by rintro ⟨⟩) ?_
      intro j hj
      obtain ⟨d, v, tenantId, s, e, ht⟩ := hj
      cases ht

/-- An ended run leaves a terminal attempt exactly when its last finish call found
the attempt terminal, or reached the database with status `indexed`, with a
staged version of a document in processing, or with the active version. -/
theorem ended_attempt_terminal_iff_closes (u : Uploads ι) (as : List (Action ι)) (w : World ι)
    (h : u.run as = some w) (i : ι) (f : FinishCall) (hended : w.phase i = .ended)
    (hf : w.lastFinish i = some f) :
    w.db.Terminal (u.upload i).attemptId ↔ f.Closes u i := by
  have hinv : w.Inv u :=
    Machine.run_invariant (fun _ _ _ hw hs => hw.step hs) World.inv_initial h
  exact hinv.ended i hended f hf

end Runs

/-- A run that ends without interference. -/
def uninterruptedRun : List (Action Bool) := List.replicate 10 (.proceed false)

set_option maxRecDepth 4000 in
theorem uninterruptedRun_ends :
    (twoUploads.run uninterruptedRun).map (fun w => w.phase false) = some .ended ∧
    (twoUploads.run uninterruptedRun).map (fun w => (w.lastFinish false).isSome) = some true := by
  decide

theorem ended_attempt_terminal_iff_closes_uninterruptedRun :
    ∃ w f, twoUploads.run uninterruptedRun = some w ∧ w.phase false = .ended ∧
      w.lastFinish false = some f ∧ (w.db.Terminal 2 ↔ f.Closes twoUploads false) := by
  obtain ⟨w, hw, hended⟩ := Option.map_eq_some_iff.mp uninterruptedRun_ends.1
  obtain ⟨w', hw', hsome⟩ := Option.map_eq_some_iff.mp uninterruptedRun_ends.2
  obtain rfl := Option.some.inj (hw.symm.trans hw')
  obtain ⟨f, hf⟩ := Option.isSome_iff_exists.mp hsome
  exact ⟨w, f, hw, hended, hf,
    ended_attempt_terminal_iff_closes twoUploads uninterruptedRun w hw false f hended hf⟩

/-- A run is cancelled after its registration and before its first stage. -/
def cancelledBeforeStage : List (Action Bool) :=
  [.proceed false, .cancel false, .proceed false]

set_option maxRecDepth 4000 in
theorem cancelledBeforeStage_ends :
    (twoUploads.run cancelledBeforeStage).map (fun w => (w.phase false,
      (w.lastFinish false).isSome, w.db.attempts.rows.map fun r => (r.id, r.status))) =
      some (.ended, true, [(2, .queued)]) := by
  decide

theorem cancelledBeforeStage_not_terminal :
    ∃ w f, twoUploads.run cancelledBeforeStage = some w ∧ w.phase false = .ended ∧
      w.lastFinish false = some f ∧ ¬ w.db.Terminal (twoUploads.upload false).attemptId := by
  obtain ⟨w, hw, hends⟩ := Option.map_eq_some_iff.mp cancelledBeforeStage_ends
  obtain ⟨hended, hrest⟩ := Prod.mk.inj hends
  obtain ⟨hsome, hrows⟩ := Prod.mk.inj hrest
  obtain ⟨f, hf⟩ := Option.isSome_iff_exists.mp hsome
  refine ⟨w, f, hw, hended, hf, ?_⟩
  rintro ⟨r, hr, -, hterm⟩
  have hmem : (r.id, r.status) ∈ [((2 : Uuid), AttemptStatus.queued)] :=
    hrows ▸ List.mem_map_of_mem hr
  obtain ⟨-, hst⟩ := Prod.mk.inj (List.mem_singleton.mp hmem)
  exact AttemptStatus.terminal_iff.mp hterm (Or.inl hst)

end Ally
