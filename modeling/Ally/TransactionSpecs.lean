import Ally.Transactions

/-!
# What a committed transaction does to the rows

One inversion lemma for each transaction: its guards held, and the new tables
are explicit updates of the old ones.
-/

open Relational

namespace Ally

@[simp] theorem Version.setStatus_status (s : VersionStatus) (v : Version) :
    (Version.setStatus s v).status = s := rfl

@[simp] theorem Version.setStatus_id (s : VersionStatus) (v : Version) :
    (Version.setStatus s v).id = v.id := rfl

@[simp] theorem Version.setStatus_documentId (s : VersionStatus) (v : Version) :
    (Version.setStatus s v).documentId = v.documentId := rfl

@[simp] theorem Version.setStatus_tenantId (s : VersionStatus) (v : Version) :
    (Version.setStatus s v).tenantId = v.tenantId := rfl

@[simp] theorem Document.setStatus_status (s : DocumentStatus) (d : Document) :
    (Document.setStatus s d).status = s := rfl

@[simp] theorem Document.setPointer_activeVersionId (i : Uuid) (d : Document) :
    (Document.setPointer i d).activeVersionId = some i := rfl

section Predicates
variable {documentId attemptId versionId tenantId : Uuid}

@[simp] theorem Document.isRow_iff {d : Document} :
    d.isRow documentId tenantId = true ↔ d.id = documentId ∧ d.tenantId = tenantId := by
  simp [Document.isRow]

@[simp] theorem Attempt.isRow_iff {r : Attempt} :
    r.isRow attemptId documentId tenantId = true ↔
      r.id = attemptId ∧ r.documentId = documentId ∧ r.tenantId = tenantId := by
  simp [Attempt.isRow]

@[simp] theorem Version.isRow_iff {v : Version} :
    v.isRow versionId documentId tenantId = true ↔
      v.id = versionId ∧ v.documentId = documentId ∧ v.tenantId = tenantId := by
  simp [Version.isRow]

@[simp] theorem Document.isOpen_iff {d : Document} :
    d.isOpen = true ↔ d.status = .queued ∨ d.status = .processing := by
  simp [Document.isOpen]

@[simp] theorem Attempt.isOpen_iff {r : Attempt} :
    r.isOpen = true ↔ r.status = .queued ∨ r.status = .processing := by
  simp [Attempt.isOpen]

@[simp] theorem Version.isActivatable_iff {v : Version} :
    v.isActivatable = true ↔ v.status = .staged ∨ v.status = .active := by
  simp [Version.isActivatable]

@[simp] theorem isOpenAttempt_iff {r : Attempt} :
    isOpenAttempt attemptId documentId tenantId r = true ↔
      (r.id = attemptId ∧ r.documentId = documentId ∧ r.tenantId = tenantId) ∧
        (r.status = .queued ∨ r.status = .processing) := by
  simp [isOpenAttempt]

@[simp] theorem isStagedVersion_iff {v : Version} :
    isStagedVersion versionId documentId tenantId v = true ↔
      (v.id = versionId ∧ v.documentId = documentId ∧ v.tenantId = tenantId) ∧
        v.status = .staged := by
  simp [isStagedVersion]

@[simp] theorem VersionChunk.isOf_iff {c : VersionChunk} :
    c.isOf tenantId documentId versionId = true ↔
      c.tenantId = tenantId ∧ c.documentId = documentId ∧ c.versionId = versionId := by
  simp [VersionChunk.isOf]

theorem select_document {db : Db} {d : Document} :
    db.documents.select (Document.isRow documentId tenantId) = some d ↔
      d ∈ db.documents ∧ d.id = documentId ∧ d.tenantId = tenantId := by
  rw [Table.select_eq_some_iff (k := documentId) (fun r hr => (Document.isRow_iff.mp hr).1),
    Document.isRow_iff]

theorem select_version {db : Db} {v : Version} :
    db.versions.select (Version.isRow versionId documentId tenantId) = some v ↔
      v ∈ db.versions ∧ v.id = versionId ∧ v.documentId = documentId ∧ v.tenantId = tenantId := by
  rw [Table.select_eq_some_iff (k := versionId) (fun r hr => (Version.isRow_iff.mp hr).1),
    Version.isRow_iff]

theorem count_openAttempt {db : Db} :
    db.attempts.count (isOpenAttempt attemptId documentId tenantId) = 1 ↔
      ∃ r ∈ db.attempts, (r.id = attemptId ∧ r.documentId = documentId ∧ r.tenantId = tenantId) ∧
        (r.status = .queued ∨ r.status = .processing) := by
  rw [Table.count_eq_one_iff (k := attemptId) (fun r hr => (isOpenAttempt_iff.mp hr).1.1)]
  simp only [isOpenAttempt_iff]

theorem count_stagedVersion {db : Db} :
    db.versions.count (isStagedVersion versionId documentId tenantId) = 1 ↔
      ∃ v ∈ db.versions, (v.id = versionId ∧ v.documentId = documentId ∧ v.tenantId = tenantId) ∧
        v.status = .staged := by
  rw [Table.count_eq_one_iff (k := versionId) (fun r hr => (isStagedVersion_iff.mp hr).1.1)]
  simp only [isStagedVersion_iff]

/-- The row count of a statement on one document with a further condition. -/
theorem count_document {db : Db} {p : Document → Bool} :
    db.documents.count (fun d => d.isRow documentId tenantId && p d) = 1 ↔
      ∃ d ∈ db.documents, (d.id = documentId ∧ d.tenantId = tenantId) ∧ p d = true := by
  rw [Table.count_eq_one_iff (k := documentId)]
  · simp only [Bool.and_eq_true, Document.isRow_iff]
  · intro d hd
    exact (Document.isRow_iff.mp (Bool.and_eq_true_iff.mp hd).1).1

theorem count_version {db : Db} {p : Version → Bool} :
    db.versions.count (fun v => v.isRow versionId documentId tenantId && p v) = 1 ↔
      ∃ v ∈ db.versions, (v.id = versionId ∧ v.documentId = documentId ∧ v.tenantId = tenantId) ∧
        p v = true := by
  rw [Table.count_eq_one_iff (k := versionId)]
  · simp only [Bool.and_eq_true, Version.isRow_iff]
  · intro v hv
    exact (Version.isRow_iff.mp (Bool.and_eq_true_iff.mp hv).1).1

end Predicates

/-! ### `register_ingestion` -/

section Register
variable {a : RegisterArgs} {db db' : Db}

theorem upsertDocument_ok (h : upsertDocument a db = .ok db') :
    ((∀ d ∈ db.documents, d.id ≠ a.documentId) ∧
        ∃ documents, db.documents.insert a.document = some documents ∧
          db' = { db with documents }) ∨
      ((∃ d ∈ db.documents, d.id = a.documentId ∧ d.tenantId = a.tenantId ∧
          d.filename = a.filename ∧ d.status ≠ .deleted) ∧
        db' = { db with
          documents := db.documents.update (fun d => d.id = a.documentId)
            (requeueDocument a) }) := by
  rw [upsertDocument, require_bind_ok] at h
  obtain ⟨-, h⟩ := h
  cases hs : db.documents.select fun d => d.id = a.documentId with
  | none =>
      simp only [hs, require_bind_ok, fetch_bind_ok] at h
      obtain ⟨-, documents, hi, he⟩ := h
      have hfresh := Table.select_none.mp hs
      simp only [decide_eq_false_iff_not] at hfresh
      exact Or.inl ⟨hfresh, documents, hi, (Except.ok.inj he).symm⟩
  | some d =>
      simp only [hs, require_bind_ok] at h
      obtain ⟨⟨ht, hf, hd⟩, he⟩ := h
      obtain ⟨hm, hid⟩ := Table.select_some hs
      exact Or.inr ⟨⟨d, hm, of_decide_eq_true hid, ht, hf, hd⟩, (Except.ok.inj he).symm⟩

theorem ensureAttempt_ok (h : ensureAttempt a db = .ok db') :
    (db' = db ∧ ∃ r ∈ db.attempts, r.workflowId = a.workflowId ∧ r.id = a.attemptId ∧
        r.documentId = a.documentId ∧ r.tenantId = a.tenantId) ∨
      ((∀ r ∈ db.attempts, r.workflowId ≠ a.workflowId) ∧
        ∃ n attempts, db.attempts.insert (a.attempt n) = some attempts ∧
          db' = { db with attempts }) := by
  unfold ensureAttempt at h
  cases hs : db.attempts.select fun r => r.workflowId = a.workflowId with
  | none =>
      simp only [hs, fetch_bind_ok] at h
      obtain ⟨attempts, hi, he⟩ := h
      have hfresh := Table.select_none.mp hs
      simp only [decide_eq_false_iff_not] at hfresh
      exact Or.inr ⟨hfresh, _, attempts, hi, (Except.ok.inj he).symm⟩
  | some r =>
      simp only [hs, require_bind_ok] at h
      obtain ⟨hr, he⟩ := h
      obtain ⟨hm, hw⟩ := Table.select_some hs
      exact Or.inl ⟨(Except.ok.inj he).symm, r, hm, of_decide_eq_true hw, hr⟩

/-- A version row that is new gets a number above every earlier one of its document. -/
theorem ensureVersion_ok (h : ensureVersion a db = .ok db') :
    (db' = db ∧ ∃ v ∈ db.versions, v.id = a.versionId ∧ v.documentId = a.documentId ∧
        v.tenantId = a.tenantId ∧ v.attemptId = a.attemptId) ∨
      ∃ n versions, (∀ v ∈ db.versions, v.documentId = a.documentId → v.tenantId = a.tenantId →
          v.versionNumber < n) ∧
        db.versions.insert (a.version n) = some versions ∧ db' = { db with versions } := by
  unfold ensureVersion at h
  cases hs : db.versions.select fun v => v.id = a.versionId with
  | none =>
      simp only [hs, fetch_bind_ok] at h
      obtain ⟨versions, hi, he⟩ := h
      refine Or.inr ⟨_, versions, ?_, hi, (Except.ok.inj he).symm⟩
      intro v hv hd ht
      exact Nat.lt_succ_of_le (Table.le_maxOf hv (by simp [hd, ht]))
  | some v =>
      simp only [hs, require_bind_ok] at h
      obtain ⟨⟨hd, ht, ha, -⟩, he⟩ := h
      obtain ⟨hm, hid⟩ := Table.select_some hs
      exact Or.inl ⟨(Except.ok.inj he).symm, v, hm, of_decide_eq_true hid, hd, ht, ha⟩

/-- A committed registration changes the three tables one after the other. -/
theorem registerIngestion_ok (h : registerIngestion a db = .ok db') :
    ∃ db₁ db₂, upsertDocument a db = .ok db₁ ∧ ensureAttempt a db₁ = .ok db₂ ∧
      ensureVersion a db₂ = .ok db' := by
  rw [registerIngestion, bind_ok] at h
  obtain ⟨db₁, h₁, h⟩ := h
  obtain ⟨db₂, h₂, h₃⟩ := bind_ok.mp h
  exact ⟨db₁, db₂, h₁, h₂, h₃⟩

end Register

/-! ### `update_ingestion_stage`, `persist_chunks` and `activate_ingestion_version` -/

section Stages
variable {documentId attemptId versionId tenantId : Uuid} {db db' : Db}

theorem updateIngestionStage_ok_iff {stage : String} :
    updateIngestionStage documentId attemptId tenantId stage db = .ok db' ↔
      stage ∈ allowedStages ∧
      (∃ r ∈ db.attempts, (r.id = attemptId ∧ r.documentId = documentId ∧ r.tenantId = tenantId) ∧
        (r.status = .queued ∨ r.status = .processing)) ∧
      (∃ d ∈ db.documents, (d.id = documentId ∧ d.tenantId = tenantId) ∧
        (d.status = .queued ∨ d.status = .processing)) ∧
      db' = enterStage documentId attemptId tenantId stage db := by
  simp only [updateIngestionStage, require_bind_ok, count_openAttempt, count_document,
    Document.isOpen_iff]
  refine and_congr_right fun _ => and_congr_right fun _ => and_congr_right fun _ => ?_
  exact ⟨fun h => (Except.ok.inj h).symm, fun h => congrArg Except.ok h.symm⟩

theorem insertVersionChunk_ok {row : VersionChunk} (h : insertVersionChunk row db = .ok db') :
    0 < row.pageNumber ∧
    (∃ v ∈ db.versions, v.id = row.versionId ∧ v.documentId = row.documentId ∧
      v.tenantId = row.tenantId) ∧
    db' = { db with
      versionChunks := db.versionChunks.upsert row (VersionChunk.overwrite row) } := by
  simp only [insertVersionChunk, require_bind_ok, Version.isRow_iff] at h
  obtain ⟨hp, hv, he⟩ := h
  exact ⟨hp, hv, (Except.ok.inj he).symm⟩

/-- Inserting chunks touches no table but `document_version_chunks`. -/
theorem insertVersionChunks_ok {filename : String} {idx : ℕ} {chunks : List TextChunk}
    (h : insertVersionChunks tenantId documentId versionId filename idx chunks db = .ok db') :
    ∃ versionChunks, db' = { db with versionChunks } := by
  induction chunks generalizing idx db with
  | nil => exact ⟨db.versionChunks, (Except.ok.inj h).symm⟩
  | cons chunk chunks ih =>
      obtain ⟨db₁, h₁, h₂⟩ := bind_ok.mp h
      obtain ⟨-, -, rfl⟩ := insertVersionChunk_ok h₁
      obtain ⟨rows, rfl⟩ := ih h₂
      exact ⟨rows, rfl⟩

theorem persistVersionChunks_ok {filename : String} {chunks : List TextChunk}
    (h : persistVersionChunks tenantId documentId versionId filename chunks db = .ok db') :
    (∃ v ∈ db.versions, (v.id = versionId ∧ v.documentId = documentId ∧ v.tenantId = tenantId) ∧
      v.status = .staged) ∧
    ∃ versionChunks, db' = { db with
      versionChunks
      versions := db.versions.update (isStagedVersion versionId documentId tenantId)
        (Version.setChunkCount chunks.length) } := by
  rw [persistVersionChunks, bind_ok] at h
  obtain ⟨db₁, h₁, h⟩ := h
  obtain ⟨rows, rfl⟩ := insertVersionChunks_ok h₁
  rw [require_bind_ok, count_stagedVersion] at h
  exact ⟨h.1, rows, (Except.ok.inj h.2).symm⟩

/-- An activation that commits either finds its version already active, or
supersedes the previous version and moves the pointer. -/
theorem activateIngestionVersion_ok
    (h : activateIngestionVersion documentId versionId tenantId db = .ok db') :
    ∃ d ∈ db.documents, (d.id = documentId ∧ d.tenantId = tenantId) ∧ d.status ≠ .deleted ∧
    ∃ v ∈ db.versions, (v.id = versionId ∧ v.documentId = documentId ∧ v.tenantId = tenantId) ∧
      (v.status = .staged ∨ v.status = .active) ∧
      ((d.activeVersionId = some versionId ∧ db' = db) ∨
        (d.activeVersionId ≠ some versionId ∧
          db' = makeActive documentId versionId tenantId
            (supersedePrevious d.activeVersionId documentId tenantId db))) := by
  simp only [activateIngestionVersion, fetch_bind_ok, require_bind_ok, select_document,
    select_version, Version.isActivatable_iff] at h
  obtain ⟨d, ⟨hd, hdr⟩, hnd, v, ⟨hv, hvr⟩, hst, h⟩ := h
  refine ⟨d, hd, hdr, hnd, v, hv, hvr, hst, ?_⟩
  split_ifs at h with hp
  · exact Or.inl ⟨hp, (Except.ok.inj h).symm⟩
  · rw [require_bind_ok, require_bind_ok] at h
    exact Or.inr ⟨hp, (Except.ok.inj h.2.2).symm⟩

end Stages

/-! ### `finish_ingestion_attempt` and `tombstone_ingestion_document` -/

section Finish
variable {documentId attemptId versionId tenantId : Uuid} {status : AttemptStatus}
  {errorCode : Option String} {db db' : Db}

theorem failVersion_ok_iff :
    failVersion documentId versionId tenantId status db = .ok db' ↔
      ((¬ ∃ v ∈ db.versions, (v.id = versionId ∧ v.documentId = documentId ∧
            v.tenantId = tenantId) ∧ v.status = .staged) ∧
        (∃ v ∈ db.versions, (v.id = versionId ∧ v.documentId = documentId ∧
            v.tenantId = tenantId) ∧ db.isActiveVersion v) ∧ db' = db) ∨
      ((∃ v ∈ db.versions, (v.id = versionId ∧ v.documentId = documentId ∧
            v.tenantId = tenantId) ∧ v.status = .staged) ∧
        (∃ d ∈ db.documents, (d.id = documentId ∧ d.tenantId = tenantId) ∧
            d.status = .processing) ∧
        db' = markFailed documentId versionId tenantId status db) := by
  unfold failVersion
  by_cases hc : db.versions.count (isStagedVersion versionId documentId tenantId) = 1
  · have hs := count_stagedVersion.mp hc
    rw [if_neg (not_not_intro hc), require_bind_ok, count_document]
    simp only [hs, not_true_eq_false, false_and, true_and, false_or, decide_eq_true_eq]
    refine and_congr_right fun _ => ?_
    exact ⟨fun h => (Except.ok.inj h).symm, fun h => congrArg Except.ok h.symm⟩
  · have hs := hc
    rw [count_stagedVersion] at hs
    rw [if_pos hc, require_bind_ok]
    simp only [hs, not_false_eq_true, true_and, false_and, or_false, Version.isRow_iff]
    refine and_congr_right fun _ => ?_
    exact ⟨fun h => (Except.ok.inj h).symm, fun h => congrArg Except.ok h.symm⟩

/-- A finish call commits without a change when the attempt already has this
status and error code, and closes an open attempt otherwise. -/
theorem finishIngestionAttempt_ok_iff :
    finishIngestionAttempt documentId attemptId versionId tenantId status errorCode db = .ok db' ↔
      (status = .indexed ∨ status = .failed ∨ status = .cancelled) ∧
      (((¬ ∃ r ∈ db.attempts, (r.id = attemptId ∧ r.documentId = documentId ∧
            r.tenantId = tenantId) ∧ (r.status = .queued ∨ r.status = .processing)) ∧
        (∃ r ∈ db.attempts, (r.id = attemptId ∧ r.documentId = documentId ∧
            r.tenantId = tenantId) ∧ r.status = status ∧
            r.errorCode = safeErrorCode errorCode) ∧ db' = db) ∨
      ((∃ r ∈ db.attempts, (r.id = attemptId ∧ r.documentId = documentId ∧
            r.tenantId = tenantId) ∧ (r.status = .queued ∨ r.status = .processing)) ∧
        ((status = .indexed ∧
            db' = closeAttempt documentId attemptId tenantId status errorCode db) ∨
          (status ≠ .indexed ∧ failVersion documentId versionId tenantId status
            (closeAttempt documentId attemptId tenantId status errorCode db) = .ok db')))) := by
  rw [finishIngestionAttempt, require_bind_ok]
  refine and_congr_right fun _ => ?_
  by_cases hc : db.attempts.count (isOpenAttempt attemptId documentId tenantId) = 1
  · have hr := count_openAttempt.mp hc
    rw [if_neg (not_not_intro hc)]
    simp only [hr, not_true_eq_false, false_and, true_and, false_or]
    by_cases hi : status = .indexed
    · rw [if_pos hi]
      simp only [hi, true_and, ne_eq, not_true_eq_false, false_and, or_false]
      exact ⟨fun h => (Except.ok.inj h).symm, fun h => congrArg Except.ok h.symm⟩
    · rw [if_neg hi]
      simp only [hi, false_and, ne_eq, not_false_eq_true, true_and, false_or]
  · have hr := hc
    rw [count_openAttempt] at hr
    rw [if_pos hc, require_bind_ok]
    simp only [hr, not_false_eq_true, true_and, false_and, or_false, Attempt.isRow_iff]
    refine and_congr_right fun _ => ?_
    exact ⟨fun h => (Except.ok.inj h).symm, fun h => congrArg Except.ok h.symm⟩

theorem tombstoneIngestionDocument_ok {reason : String}
    (h : tombstoneIngestionDocument documentId tenantId reason db = .ok db') :
    ∃ d ∈ db.documents, (d.id = documentId ∧ d.tenantId = tenantId) ∧
      ∃ tombstones legacyChunks,
        (d.status = .deleted ∧ db' = { db with tombstones, legacyChunks }) ∨
        (d.status ≠ .deleted ∧
          db' = { retireDocument documentId tenantId db with tombstones, legacyChunks }) := by
  rw [tombstoneIngestionDocument, fetch_bind_ok] at h
  obtain ⟨d, hd, h⟩ := h
  rw [select_document] at hd
  refine ⟨d, hd.1, hd.2, ?_⟩
  rw [require_bind_ok] at h
  have he := (Except.ok.inj h.2).symm
  by_cases hdel : d.status = .deleted
  · rw [if_neg (not_not_intro hdel)] at he
    exact ⟨_, _, Or.inl ⟨hdel, he⟩⟩
  · rw [if_pos hdel] at he
    exact ⟨_, _, Or.inr ⟨hdel, he⟩⟩

end Finish

end Ally
