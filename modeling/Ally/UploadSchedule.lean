import Ally.UploadSteps

/-!
# Schedules of uploads

A schedule names the run that goes on next. A run that meets no error is at the
place of its plan given by the number of its turns, so a schedule alone says
which transaction each turn performs and which rows they leave.
-/

open Relational

namespace Ally

section Schedules
variable {ι : Type} [DecidableEq ι]

/-- The turns of a schedule with the place each run is at, after the turns `before`. -/
def turnsFrom (before : List ι) : List ι → List (ι × ℕ)
  | [] => []
  | i :: s => (i, before.count i) :: turnsFrom (before ++ [i]) s

def turns (s : List ι) : List (ι × ℕ) := turnsFrom [] s

/-- The run that performed the place `k` of its plan last. -/
def lastAt (k : ℕ) (s : List ι) : Option ι := (((turns s).filter fun p => p.2 = k).getLast?).map
  Prod.fst

/-- The run that registered last. -/
def lastRegistered (s : List ι) : Option ι := lastAt 0 s

/-- The run that activated its version last. -/
def lastActivated (s : List ι) : Option ι := lastAt 7 s

/-- The last registration or activation was an activation. -/
def LeftIndexed (s : List ι) : Prop :=
  (((turns s).filter fun p => p.2 = 0 ∨ p.2 = 7).getLast?).map Prod.snd = some 7

instance (s : List ι) : Decidable (LeftIndexed s) := inferInstanceAs (Decidable (_ = _))

/-- The places of the `record_stage` calls. -/
def isStage (k : ℕ) : Bool := k = 1 || k = 2 || k = 3 || k = 4 || k = 6

/-- No stage call finds the document indexed by a run that registered before. -/
def StagesOpen (s : List ι) : Prop :=
  ∀ before i, (before ++ [i]).IsPrefix s → isStage (before.count i) = true →
    ¬ LeftIndexed before

theorem turnsFrom_concat (before s : List ι) (i : ι) :
    turnsFrom before (s ++ [i]) = turnsFrom before s ++ [(i, (before ++ s).count i)] := by
  induction s generalizing before with
  | nil => simp [turnsFrom]
  | cons j s ih =>
      rw [List.cons_append, turnsFrom, ih, turnsFrom, List.cons_append, List.append_assoc]
      rfl

theorem turns_concat (s : List ι) (i : ι) : turns (s ++ [i]) = turns s ++ [(i, s.count i)] :=
  turnsFrom_concat [] s i

theorem lastAt_concat (k : ℕ) (s : List ι) (i : ι) :
    lastAt k (s ++ [i]) = if s.count i = k then some i else lastAt k s := by
  unfold lastAt
  rw [turns_concat, List.filter_append]
  split_ifs with h
  · simp [h]
  · simp [h]

theorem leftIndexed_concat (s : List ι) (i : ι) :
    LeftIndexed (s ++ [i]) ↔ s.count i = 7 ∨ (s.count i ≠ 0 ∧ LeftIndexed s) := by
  unfold LeftIndexed
  rw [turns_concat, List.filter_append]
  by_cases h7 : s.count i = 7
  · simp [h7]
  · by_cases h0 : s.count i = 0
    · simp [h0]
    · simp [h7, h0]

theorem stagesOpen_concat (s : List ι) (i : ι) :
    StagesOpen (s ++ [i]) ↔ StagesOpen s ∧ (isStage (s.count i) = true → ¬ LeftIndexed s) := by
  constructor
  · intro h
    exact ⟨fun before j hp => h before j (hp.trans (List.prefix_append ..)),
      h s i List.prefix_rfl⟩
  · rintro ⟨hs, hi⟩ before j hp
    rcases List.prefix_concat_iff.mp hp with he | hp
    · obtain ⟨rfl, hji⟩ := List.append_inj' he rfl
      obtain rfl := List.singleton_inj.mp hji
      exact hi
    · exact hs before j hp

theorem leftIndexed_ne_nil {s : List ι} (h : LeftIndexed s) : s ≠ [] := by
  rintro rfl
  cases h

end Schedules

/-! ### The rows of a schedule without errors -/

section Rows
variable {ι : Type} [DecidableEq ι] {u : Uploads ι} {s : List ι}

/-- The rows a schedule leaves when none of its transactions raises. -/
structure Uploads.Rows (u : Uploads ι) (s : List ι) (db : Db) : Prop where
  tenants : db.tenants = u.tenants
  attemptTo : ∀ i, 1 ≤ s.count i → ∃ r ∈ db.attempts, r.id = (u.upload i).attemptId ∧
    r.documentId = u.documentId ∧ r.tenantId = u.tenantId ∧
    (s.count i ≤ 8 → r.status = .queued ∨ r.status = .processing)
  attemptOf : ∀ r ∈ db.attempts, ∃ i, 1 ≤ s.count i ∧ r.id = (u.upload i).attemptId ∧
    r.workflowId = (u.upload i).workflowId
  versionTo : ∀ i, 1 ≤ s.count i → ∃ v ∈ db.versions, v.id = (u.upload i).versionId ∧
    v.documentId = u.documentId ∧ v.tenantId = u.tenantId ∧ (s.count i ≤ 7 → v.status = .staged)
  versionOf : ∀ v ∈ db.versions, ∃ i, 1 ≤ s.count i ∧ v.id = (u.upload i).versionId
  documentTo : s ≠ [] → ∃ d, d ∈ db.documents
  documentOf : ∀ d ∈ db.documents, d.id = u.documentId ∧ d.tenantId = u.tenantId ∧
    d.filename = u.filename ∧ (LeftIndexed s → d.status = .indexed) ∧
    (¬ LeftIndexed s → d.status = .queued ∨ d.status = .processing)

theorem Uploads.rows_initial : u.Rows [] (.initial u.tenants) where
  tenants := rfl
  attemptTo i h := by simp at h
  attemptOf r h := absurd h (Table.notMem_empty r)
  versionTo i h := by simp at h
  versionOf v h := absurd h (Table.notMem_empty v)
  documentTo h := absurd rfl h
  documentOf d h := absurd h (Table.notMem_empty d)

theorem count_concat_self (s : List ι) (i : ι) : (s ++ [i]).count i = s.count i + 1 := by
  rw [List.count_append, List.count_singleton_self]

theorem count_concat_of_ne (s : List ι) {i j : ι} (h : j ≠ i) :
    (s ++ [i]).count j = s.count j := by
  rw [List.count_append, List.count_singleton, if_neg (by simpa using h.symm), Nat.add_zero]

theorem Uploads.Rows.undeleted {db : Db} (hr : u.Rows s db) {d : Document}
    (hd : d ∈ db.documents) : d.status ≠ .deleted := by
  obtain ⟨-, -, -, hindexed, hopen⟩ := hr.documentOf d hd
  by_cases hl : LeftIndexed s
  · rw [hindexed hl]
    rintro ⟨⟩
  · rcases hopen hl with he | he <;> rw [he] <;> rintro ⟨⟩

/-- The turn of a registered run that keeps the rows of the other runs. -/
theorem Uploads.Rows.turn {db db' : Db} {i : ι} (hr : u.Rows s db) (hi : 1 ≤ s.count i)
    (htenants : db'.tenants = db.tenants)
    (hattemptTo : ∀ r ∈ db.attempts, ∃ r' ∈ db'.attempts, r'.id = r.id ∧
      r'.documentId = r.documentId ∧ r'.tenantId = r.tenantId ∧
      ((r.id ≠ (u.upload i).attemptId ∨ s.count i < 8) →
        (r.status = .queued ∨ r.status = .processing) →
        (r'.status = .queued ∨ r'.status = .processing)))
    (hattemptOf : ∀ r' ∈ db'.attempts, ∃ r ∈ db.attempts, r'.id = r.id ∧
      r'.workflowId = r.workflowId)
    (hversionTo : ∀ v ∈ db.versions, ∃ v' ∈ db'.versions, v.SameRow v' ∧
      ((v.id ≠ (u.upload i).versionId ∨ s.count i < 7) → v.status = .staged →
        v'.status = .staged))
    (hversionOf : ∀ v' ∈ db'.versions, ∃ v ∈ db.versions, v'.id = v.id)
    (hdocumentTo : ∀ d ∈ db.documents, ∃ d', d' ∈ db'.documents)
    (hdocumentOf : ∀ d' ∈ db'.documents, ∃ d ∈ db.documents, d'.id = d.id ∧
      d'.tenantId = d.tenantId ∧ d'.filename = d.filename ∧
      (LeftIndexed (s ++ [i]) → d'.status = .indexed) ∧
      (¬ LeftIndexed (s ++ [i]) → d'.status = .queued ∨ d'.status = .processing)) :
    u.Rows (s ++ [i]) db' := by
  have hold : ∀ j, 1 ≤ (s ++ [i]).count j → 1 ≤ s.count j := by
    intro j hj
    by_cases hji : j = i
    · rw [hji]
      exact hi
    · rwa [count_concat_of_ne s hji] at hj
  have hmore : ∀ j, s.count j ≤ (s ++ [i]).count j := fun j => by simp
  constructor
  · rw [htenants, hr.tenants]
  · intro j hj
    obtain ⟨r, hmem, hid, hdoc, hten, hopen⟩ := hr.attemptTo j (hold j hj)
    obtain ⟨r', hmem', hid', hdoc', hten', hopen'⟩ := hattemptTo r hmem
    refine ⟨r', hmem', hid'.trans hid, hdoc'.trans hdoc, hten'.trans hten, fun h8 => ?_⟩
    have := hmore j
    refine hopen' ?_ (hopen (by omega))
    by_cases hji : j = i
    · subst hji
      rw [count_concat_self] at h8
      exact Or.inr (by omega)
    · refine Or.inl fun he => hji (u.attemptId_inj j i ?_)
      rw [← hid, he]
  · intro r' hmem'
    obtain ⟨r, hmem, hid, hwf⟩ := hattemptOf r' hmem'
    obtain ⟨j, hj, hid', hwf'⟩ := hr.attemptOf r hmem
    exact ⟨j, hj.trans (hmore j), hid.trans hid', hwf.trans hwf'⟩
  · intro j hj
    obtain ⟨v, hmem, hid, hdoc, hten, hst⟩ := hr.versionTo j (hold j hj)
    obtain ⟨v', hmem', hsame, hst'⟩ := hversionTo v hmem
    refine ⟨v', hmem', hsame.id.trans hid, hsame.documentId.trans hdoc,
      hsame.tenantId.trans hten, fun h7 => ?_⟩
    have := hmore j
    refine hst' ?_ (hst (by omega))
    by_cases hji : j = i
    · subst hji
      rw [count_concat_self] at h7
      exact Or.inr (by omega)
    · refine Or.inl fun he => hji (u.versionId_inj j i ?_)
      rw [← hid, he]
  · intro v' hmem'
    obtain ⟨v, hmem, hid⟩ := hversionOf v' hmem'
    obtain ⟨j, hj, hid'⟩ := hr.versionOf v hmem
    exact ⟨j, hj.trans (hmore j), hid.trans hid'⟩
  · intro _
    have hne : s ≠ [] := by
      rintro rfl
      simp at hi
    obtain ⟨d, hd⟩ := hr.documentTo hne
    exact hdocumentTo d hd
  · intro d' hd'
    obtain ⟨d, hd, hid, hten, hfile, hindexed, hopen⟩ := hdocumentOf d' hd'
    obtain ⟨hid', hten', hfile', -⟩ := hr.documentOf d hd
    exact ⟨hid.trans hid', hten.trans hten', hfile.trans hfile', hindexed, hopen⟩

/-! ### One turn of each kind -/

theorem Uploads.Rows.register {db : Db} {i : ι} (hr : u.Rows s db) (hi : s.count i = 0) :
    ∃ db', registerIngestion (u.registerArgs i) db = .ok db' ∧ u.Rows (s ++ [i]) db' := by
  have hne : ∀ j, 1 ≤ s.count j → j ≠ i := by
    rintro j hj rfl
    omega
  obtain ⟨db', n, m, hok, htenants, hdocuments, hattempts, hversions⟩ :=
    registerIngestion_commits (a := u.registerArgs i) (u.sha256 i)
      (by rw [hr.tenants]; exact u.tenant_mem)
      (fun d hd => by
        obtain ⟨hid, hten, hfile, -⟩ := hr.documentOf d hd
        exact ⟨hid, hten, hfile, hr.undeleted hd⟩)
      (fun r hmem => by
        obtain ⟨j, hj, hid, hwf⟩ := hr.attemptOf r hmem
        refine ⟨fun he => hne j hj (u.workflowId_inj j i ?_),
          fun he => hne j hj (u.attemptId_inj j i ?_)⟩
        · rw [← hwf, he]
          rfl
        · rw [← hid, he]
          rfl)
      (fun v hmem => by
        obtain ⟨j, hj, hid⟩ := hr.versionOf v hmem
        refine fun he => hne j hj (u.versionId_inj j i ?_)
        rw [← hid, he]
        rfl)
  have hleft : ¬ LeftIndexed (s ++ [i]) := by
    rw [leftIndexed_concat, hi]
    simp
  have hself : (s ++ [i]).count i = 1 := by rw [count_concat_self, hi]
  refine ⟨db', hok, ?_⟩
  constructor
  · rw [htenants, hr.tenants]
  · intro j hj
    by_cases hji : j = i
    · subst hji
      exact ⟨_, (hattempts _).mpr (Or.inr rfl), rfl, rfl, rfl, fun _ => Or.inl rfl⟩
    · rw [count_concat_of_ne s hji] at hj ⊢
      obtain ⟨r, hmem, hrest⟩ := hr.attemptTo j hj
      exact ⟨r, (hattempts r).mpr (Or.inl hmem), hrest⟩
  · intro r hmem
    rcases (hattempts r).mp hmem with hmem | rfl
    · obtain ⟨j, hj, hrest⟩ := hr.attemptOf r hmem
      exact ⟨j, by rwa [count_concat_of_ne s (hne j hj)], hrest⟩
    · exact ⟨i, hself.ge, rfl, rfl⟩
  · intro j hj
    by_cases hji : j = i
    · subst hji
      exact ⟨_, (hversions _).mpr (Or.inr rfl), rfl, rfl, rfl, fun _ => rfl⟩
    · rw [count_concat_of_ne s hji] at hj ⊢
      obtain ⟨v, hmem, hrest⟩ := hr.versionTo j hj
      exact ⟨v, (hversions v).mpr (Or.inl hmem), hrest⟩
  · intro v hmem
    rcases (hversions v).mp hmem with hmem | rfl
    · obtain ⟨j, hj, hid⟩ := hr.versionOf v hmem
      exact ⟨j, by rwa [count_concat_of_ne s (hne j hj)], hid⟩
    · exact ⟨i, hself.ge, rfl⟩
  · intro _
    by_cases hempty : ∀ d, d ∉ db.documents
    · exact ⟨_, (hdocuments _).mpr (Or.inr ⟨hempty, rfl⟩)⟩
    · push Not at hempty
      obtain ⟨d, hd⟩ := hempty
      exact ⟨_, (hdocuments _).mpr (Or.inl ⟨d, hd, rfl⟩)⟩
  · intro d' hd'
    rcases (hdocuments d').mp hd' with ⟨d, hd, rfl⟩ | ⟨-, rfl⟩
    · obtain ⟨hid, hten, hfile, hindexed, hopen⟩ := hr.documentOf d hd
      refine ⟨hid, hten, hfile, fun hl => absurd hl hleft, fun _ => ?_⟩
      change (if d.status = .indexed ∨ d.status = .failed then DocumentStatus.queued else d.status)
        = _ ∨ (if _ then _ else _) = _
      by_cases hl : LeftIndexed s
      · rw [if_pos (Or.inl (hindexed hl))]
        exact Or.inl rfl
      · rcases hopen hl with he | he <;> rw [he] <;> decide
    · exact ⟨rfl, rfl, rfl, fun hl => absurd hl hleft, fun _ => Or.inl rfl⟩

theorem Uploads.Rows.stage {db : Db} {i : ι} (hr : u.Rows s db)
    (hi : isStage (s.count i) = true) (hopen : ¬ LeftIndexed s) {stage : String}
    (hstage : stage ∈ allowedStages) :
    ∃ db', (u.recordStage i stage).apply db = .ok db' ∧ u.Rows (s ++ [i]) db' := by
  have hk : 1 ≤ s.count i ∧ s.count i < 7 := by
    simp only [isStage, Bool.or_eq_true, decide_eq_true_eq] at hi
    omega
  obtain ⟨r, hmem, hid, hdoc, hten, hstatus⟩ := hr.attemptTo i hk.1
  have hnil : s ≠ [] := by
    rintro rfl
    simp at hk
  obtain ⟨d, hd⟩ := hr.documentTo hnil
  obtain ⟨hdid, hdten, -, -, hdopen⟩ := hr.documentOf d hd
  have hleft : ¬ LeftIndexed (s ++ [i]) := by
    rw [leftIndexed_concat]
    rintro (h7 | ⟨-, hl⟩)
    · omega
    · exact hopen hl
  refine ⟨_, updateIngestionStage_ok_iff.mpr ⟨hstage, ⟨r, hmem, ⟨hid, hdoc, hten⟩,
    hstatus (by omega)⟩, ⟨d, hd, ⟨hdid, hdten⟩, hdopen hopen⟩, rfl⟩, ?_⟩
  refine hr.turn hk.1 rfl ?_ ?_ ?_ ?_ ?_ ?_
  · intro q hq
    refine ⟨_, Table.update_mem hq, ?_⟩
    split_ifs
    · exact ⟨rfl, rfl, rfl, fun _ _ => Or.inr rfl⟩
    · exact ⟨rfl, rfl, rfl, fun _ => id⟩
  · intro q' hq'
    obtain ⟨q, hq, rfl⟩ := Table.mem_update.mp hq'
    refine ⟨q, hq, ?_⟩
    split_ifs <;> exact ⟨rfl, rfl⟩
  · exact fun v hv => ⟨v, hv, .refl v, fun _ => id⟩
  · exact fun v hv => ⟨v, hv, rfl⟩
  · exact fun e he => ⟨_, Table.update_mem he⟩
  · intro e' he'
    obtain ⟨e, he, rfl⟩ := Table.mem_update.mp he'
    obtain ⟨-, -, -, -, heopen⟩ := hr.documentOf e he
    refine ⟨e, he, ?_⟩
    split_ifs
    · exact ⟨rfl, rfl, rfl, fun hl => absurd hl hleft, fun _ => Or.inr rfl⟩
    · exact ⟨rfl, rfl, rfl, fun hl => absurd hl hleft, fun _ => heopen hopen⟩

/-- A turn that leaves the status of the document alone. -/
theorem leftIndexed_concat_of_quiet {i : ι} (h0 : s.count i ≠ 0) (h7 : s.count i ≠ 7) :
    LeftIndexed (s ++ [i]) ↔ LeftIndexed s := by
  rw [leftIndexed_concat]
  simp [h0, h7]

theorem Uploads.Rows.persist {db : Db} {i : ι} (hr : u.Rows s db) (hi : s.count i = 5) :
    ∃ db', persistVersionChunks u.tenantId u.documentId (u.upload i).versionId u.filename
      (u.upload i).chunks db = .ok db' ∧ u.Rows (s ++ [i]) db' := by
  obtain ⟨v, hv, hid, hdoc, hten, hst⟩ := hr.versionTo i (by omega)
  obtain ⟨db', hok⟩ : ∃ db', persistVersionChunks u.tenantId u.documentId
      (u.upload i).versionId u.filename (u.upload i).chunks db = .ok db' :=
    persistVersionChunks_commits (u.pages i) ⟨v, hv, ⟨hid, hdoc, hten⟩, hst (by omega)⟩
  refine ⟨db', hok, ?_⟩
  obtain ⟨-, _, rfl⟩ := persistVersionChunks_ok hok
  refine hr.turn (by omega) rfl ?_ ?_ ?_ ?_ ?_ ?_
  · exact fun r hmem => ⟨r, hmem, rfl, rfl, rfl, fun _ => id⟩
  · exact fun r hmem => ⟨r, hmem, rfl, rfl⟩
  · intro q hq
    refine ⟨_, Table.update_mem hq, ?_⟩
    split_ifs
    · exact ⟨⟨rfl, rfl, rfl, rfl, rfl⟩, fun _ => id⟩
    · exact ⟨.refl q, fun _ => id⟩
  · intro q' hq'
    obtain ⟨q, hq, rfl⟩ := Table.mem_update.mp hq'
    refine ⟨q, hq, ?_⟩
    split_ifs <;> rfl
  · exact fun d hd => ⟨d, hd⟩
  · intro d hd
    obtain ⟨-, -, -, hstatus⟩ := hr.documentOf d hd
    rw [leftIndexed_concat_of_quiet (by omega) (by omega)]
    exact ⟨d, hd, rfl, rfl, rfl, hstatus⟩

theorem Uploads.Rows.activate {db : Db} {i : ι} (hr : u.Rows s db) (hc : db.Coherent)
    (hi : s.count i = 7) :
    ∃ db', activateIngestionVersion u.documentId (u.upload i).versionId u.tenantId db = .ok db' ∧
      u.Rows (s ++ [i]) db' := by
  obtain ⟨v, hv, hid, hdoc, hten, hst⟩ := hr.versionTo i (by omega)
  have hnil : s ≠ [] := by
    rintro rfl
    simp at hi
  obtain ⟨d, hd⟩ := hr.documentTo hnil
  obtain ⟨hdid, hdten, -, -⟩ := hr.documentOf d hd
  obtain ⟨db', hok, ha, htenants, hattempts⟩ := activateIngestionVersion_commits hc hd hdid hdten
    (hr.undeleted hd) hv hid hdoc hten (hst (by omega))
  have hleft : LeftIndexed (s ++ [i]) := (leftIndexed_concat s i).mpr (Or.inl hi)
  refine ⟨db', hok, hr.turn (by omega) htenants ?_ ?_ ?_ ?_ ?_ ?_⟩
  · exact fun r hmem => ⟨r, hattempts ▸ hmem, rfl, rfl, rfl, fun _ => id⟩
  · exact fun r hmem => ⟨r, hattempts ▸ hmem, rfl, rfl⟩
  · intro q hq
    refine ⟨_, (ha.versions _).mpr ⟨q, hq, rfl⟩, q.activated_sameRow _ _, fun hne hq' => ?_⟩
    rw [Version.activated, if_neg (hne.resolve_right (by omega)), if_neg]
    · exact hq'
    · rw [hq']
      rintro ⟨-, ⟨⟩⟩
  · intro q' hq'
    obtain ⟨q, hq, rfl⟩ := (ha.versions q').mp hq'
    exact ⟨q, hq, (q.activated_sameRow _ _).id⟩
  · exact fun e he => ⟨_, (ha.documents _).mpr ⟨e, he, rfl⟩⟩
  · intro e' he'
    obtain ⟨e, he, rfl⟩ := (ha.documents e').mp he'
    obtain ⟨heid, -⟩ := hr.documentOf e he
    refine ⟨e, he, ?_⟩
    rw [Document.pointedTo, if_pos heid]
    exact ⟨rfl, rfl, rfl, fun _ => rfl, fun hl => absurd hleft hl⟩

theorem Uploads.Rows.finish {db : Db} {i : ι} (hr : u.Rows s db) (hi : s.count i = 8) :
    ∃ db', (u.finish i .indexed none).apply db = .ok db' ∧ u.Rows (s ++ [i]) db' := by
  obtain ⟨r, hmem, hid, hdoc, hten, hstatus⟩ := hr.attemptTo i (by omega)
  refine ⟨_, finishIngestionAttempt_ok_iff.mpr ⟨Or.inl rfl, Or.inr ⟨⟨r, hmem, ⟨hid, hdoc, hten⟩,
    hstatus (by omega)⟩, Or.inl ⟨rfl, rfl⟩⟩⟩, ?_⟩
  refine hr.turn (by omega) rfl ?_ ?_ ?_ ?_ ?_ ?_
  · intro q hq
    refine ⟨_, Table.update_mem hq, ?_⟩
    split_ifs with hrow
    · refine ⟨rfl, rfl, rfl, fun hne => ?_⟩
      exact absurd (isOpenAttempt_iff.mp hrow).1.1 (hne.resolve_right (by omega))
    · exact ⟨rfl, rfl, rfl, fun _ => id⟩
  · intro q' hq'
    obtain ⟨q, hq, rfl⟩ := Table.mem_update.mp hq'
    refine ⟨q, hq, ?_⟩
    split_ifs <;> exact ⟨rfl, rfl⟩
  · exact fun v hv => ⟨v, hv, .refl v, fun _ => id⟩
  · exact fun v hv => ⟨v, hv, rfl⟩
  · exact fun d hd => ⟨d, hd⟩
  · intro d hd
    obtain ⟨-, -, -, hst⟩ := hr.documentOf d hd
    rw [leftIndexed_concat_of_quiet (by omega) (by omega)]
    exact ⟨d, hd, rfl, rfl, rfl, hst⟩

/-- The cleanup of a run performs no transaction. -/
theorem Uploads.Rows.cleanup {db : Db} {i : ι} (hr : u.Rows s db) (hi : 9 ≤ s.count i) :
    u.Rows (s ++ [i]) db := by
  refine hr.turn (by omega) rfl ?_ ?_ ?_ ?_ ?_ ?_
  · exact fun r hmem => ⟨r, hmem, rfl, rfl, rfl, fun _ => id⟩
  · exact fun r hmem => ⟨r, hmem, rfl, rfl⟩
  · exact fun v hv => ⟨v, hv, .refl v, fun _ => id⟩
  · exact fun v hv => ⟨v, hv, rfl⟩
  · exact fun d hd => ⟨d, hd⟩
  · intro d hd
    obtain ⟨-, -, -, hst⟩ := hr.documentOf d hd
    rw [leftIndexed_concat_of_quiet (by omega) (by omega)]
    exact ⟨d, hd, rfl, rfl, rfl, hst⟩

/-- A turn whose stage call, if it is one, finds the document open commits. -/
theorem Uploads.Rows.commits {db : Db} {i : ι} {t : Transaction} (hr : u.Rows s db)
    (hc : db.Coherent) (ht : (u.plan i)[s.count i]? = some t)
    (hopen : isStage (s.count i) = true → ¬ LeftIndexed s) :
    ∃ db', t.apply db = .ok db' ∧ u.Rows (s ++ [i]) db' := by
  have hlt : s.count i < 9 := (List.getElem?_eq_some_iff.mp ht).1
  have hstage : ∀ k stage, s.count i = k → isStage k = true → stage ∈ allowedStages →
      ∃ db', (u.recordStage i stage).apply db = .ok db' ∧ u.Rows (s ++ [i]) db' := by
    rintro k stage rfl hk hallowed
    exact hr.stage hk (hopen hk) hallowed
  rcases (by omega : s.count i = 0 ∨ s.count i = 1 ∨ s.count i = 2 ∨ s.count i = 3 ∨
      s.count i = 4 ∨ s.count i = 5 ∨ s.count i = 6 ∨ s.count i = 7 ∨ s.count i = 8) with
    h | h | h | h | h | h | h | h | h <;> rw [h] at ht <;> obtain rfl := Option.some.inj ht
  · exact hr.register h
  · exact hstage 1 "detecting" h rfl (by decide)
  · exact hstage 2 "extracting" h rfl (by decide)
  · exact hstage 3 "chunking" h rfl (by decide)
  · exact hstage 4 "persisting" h rfl (by decide)
  · exact hr.persist h
  · exact hstage 6 "indexing" h rfl (by decide)
  · exact hr.activate hc h
  · exact hr.finish h

end Rows

end Ally
