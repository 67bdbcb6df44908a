import Ally.IngestRuns

/-!
# When the transactions of an upload commit

Each transaction of a plan commits under conditions on the rows it touches. The
conditions are those a run finds when no other run has moved its rows.
-/

open Relational

namespace Ally

variable {db : Db}

/-! ### Registration -/

/-- The document row a registration leaves, from the one it found. -/
theorem upsertDocument_commits {a : RegisterArgs} (hsha : isSha256 a.contentSha256 = true)
    (htenant : a.tenantId ∈ db.tenants)
    (hdoc : ∀ d ∈ db.documents, d.id = a.documentId ∧ d.tenantId = a.tenantId ∧
      d.filename = a.filename ∧ d.status ≠ .deleted) :
    ∃ documents, upsertDocument a db = .ok { db with documents } ∧
      ∀ d', d' ∈ documents ↔ (∃ d ∈ db.documents, d' = requeueDocument a d) ∨
        ((∀ d, d ∉ db.documents) ∧ d' = a.document) := by
  cases hs : db.documents.select fun d => d.id = a.documentId with
  | none =>
      have hempty : ∀ d, d ∉ db.documents := by
        intro d hd
        have hn := Table.select_none.mp hs d hd
        exact of_decide_eq_false hn (hdoc d hd).1
      obtain ⟨documents, hi⟩ := Table.insert_isSome (r := a.document) (t := db.documents)
        fun d hd => absurd hd (hempty d)
      refine ⟨documents, ?_, fun d' => ?_⟩
      · rw [upsertDocument, require_bind_ok]
        refine ⟨hsha, ?_⟩
        simp only [hs, require_bind_ok, fetch_bind_ok]
        exact ⟨htenant, documents, hi, rfl⟩
      · rw [(Table.insert_some hi).2]
        constructor
        · rintro (hd | rfl)
          · exact absurd hd (hempty d')
          · exact Or.inr ⟨hempty, rfl⟩
        · rintro (⟨d, hd, -⟩ | ⟨-, rfl⟩)
          · exact absurd hd (hempty d)
          · exact Or.inr rfl
  | some d =>
      obtain ⟨hm, -⟩ := Table.select_some hs
      obtain ⟨-, ht, hf, hnd⟩ := hdoc d hm
      refine ⟨db.documents.update (fun d => d.id = a.documentId) (requeueDocument a), ?_,
        fun d' => ?_⟩
      · rw [upsertDocument, require_bind_ok]
        refine ⟨hsha, ?_⟩
        simp only [hs, require_bind_ok]
        exact ⟨⟨ht, hf, hnd⟩, rfl⟩
      · rw [Table.mem_update]
        constructor
        · rintro ⟨e, he, rfl⟩
          refine Or.inl ⟨e, he, if_pos (decide_eq_true (hdoc e he).1)⟩
        · rintro (⟨e, he, rfl⟩ | ⟨hempty, -⟩)
          · exact ⟨e, he, (if_pos (decide_eq_true (hdoc e he).1)).symm⟩
          · exact absurd hm (hempty d)

theorem ensureAttempt_commits (db : Db) {a : RegisterArgs}
    (hworkflow : ∀ r ∈ db.attempts, r.workflowId ≠ a.workflowId)
    (hid : ∀ r ∈ db.attempts, r.id ≠ a.attemptId) :
    ∃ n attempts, ensureAttempt a db = .ok { db with attempts } ∧
      ∀ r, r ∈ attempts ↔ r ∈ db.attempts ∨ r = a.attempt n := by
  have hs : (db.attempts.select fun r => r.workflowId = a.workflowId) = none :=
    Table.select_none.mpr fun r hr => decide_eq_false (hworkflow r hr)
  let last := db.attempts.maxOf
    (fun r => r.documentId = a.documentId ∧ r.tenantId = a.tenantId) Attempt.attemptNumber
  obtain ⟨attempts, hi⟩ := Table.insert_isSome (r := a.attempt (last + 1)) (t := db.attempts) hid
  refine ⟨last + 1, attempts, ?_, (Table.insert_some hi).2⟩
  unfold ensureAttempt
  simp only [hs, fetch_bind_ok]
  exact ⟨attempts, hi, rfl⟩

theorem ensureVersion_commits (db : Db) {a : RegisterArgs}
    (hid : ∀ v ∈ db.versions, v.id ≠ a.versionId) :
    ∃ n versions, ensureVersion a db = .ok { db with versions } ∧
      ∀ v, v ∈ versions ↔ v ∈ db.versions ∨ v = a.version n := by
  have hs : (db.versions.select fun v => v.id = a.versionId) = none :=
    Table.select_none.mpr fun v hv => decide_eq_false (hid v hv)
  let last := db.versions.maxOf
    (fun v => v.documentId = a.documentId ∧ v.tenantId = a.tenantId) Version.versionNumber
  obtain ⟨versions, hi⟩ := Table.insert_isSome (r := a.version (last + 1)) (t := db.versions) hid
  refine ⟨last + 1, versions, ?_, (Table.insert_some hi).2⟩
  unfold ensureVersion
  simp only [hs, fetch_bind_ok]
  exact ⟨versions, hi, rfl⟩

/-- A registration with fresh identities commits. -/
theorem registerIngestion_commits {a : RegisterArgs} (hsha : isSha256 a.contentSha256 = true)
    (htenant : a.tenantId ∈ db.tenants)
    (hdoc : ∀ d ∈ db.documents, d.id = a.documentId ∧ d.tenantId = a.tenantId ∧
      d.filename = a.filename ∧ d.status ≠ .deleted)
    (hattempt : ∀ r ∈ db.attempts, r.workflowId ≠ a.workflowId ∧ r.id ≠ a.attemptId)
    (hversion : ∀ v ∈ db.versions, v.id ≠ a.versionId) :
    ∃ db' n m, registerIngestion a db = .ok db' ∧ db'.tenants = db.tenants ∧
      (∀ d', d' ∈ db'.documents ↔ (∃ d ∈ db.documents, d' = requeueDocument a d) ∨
        ((∀ d, d ∉ db.documents) ∧ d' = a.document)) ∧
      (∀ r, r ∈ db'.attempts ↔ r ∈ db.attempts ∨ r = a.attempt n) ∧
      ∀ v, v ∈ db'.versions ↔ v ∈ db.versions ∨ v = a.version m := by
  obtain ⟨documents, h₁, hdocuments⟩ := upsertDocument_commits hsha htenant hdoc
  obtain ⟨n, attempts, h₂, hattempts⟩ :=
    ensureAttempt_commits { db with documents } (fun r hr => (hattempt r hr).1)
      fun r hr => (hattempt r hr).2
  obtain ⟨m, versions, h₃, hversions⟩ :=
    ensureVersion_commits { db with documents, attempts } hversion
  refine ⟨{ db with documents, attempts, versions }, n, m, ?_, rfl, hdocuments, hattempts,
    hversions⟩
  rw [registerIngestion, bind_ok]
  refine ⟨_, h₁, bind_ok.mpr ⟨_, h₂, h₃⟩⟩

/-! ### Persisting and activating -/

section Stages
variable {documentId versionId tenantId : Uuid}

theorem insertVersionChunks_commits (db : Db) (filename : String) (idx : ℕ)
    {chunks : List TextChunk}
    (hpages : ∀ c ∈ chunks, 0 < c.pageNumber)
    (hversion : ∃ v ∈ db.versions, v.id = versionId ∧ v.documentId = documentId ∧
      v.tenantId = tenantId) :
    ∃ versionChunks, insertVersionChunks tenantId documentId versionId filename idx chunks db =
      .ok { db with versionChunks } := by
  induction chunks generalizing idx db with
  | nil => exact ⟨db.versionChunks, rfl⟩
  | cons chunk chunks ih =>
      let row := versionChunk tenantId documentId versionId filename idx chunk
      let rows := db.versionChunks.upsert row (VersionChunk.overwrite row)
      have hpage : 0 < row.pageNumber := hpages chunk List.mem_cons_self
      obtain ⟨versionChunks, h⟩ := ih { db with versionChunks := rows } (idx + 1)
        (fun c hc => hpages c (List.mem_cons_of_mem _ hc)) hversion
      refine ⟨versionChunks, bind_ok.mpr ⟨{ db with versionChunks := rows }, ?_, h⟩⟩
      simp only [insertVersionChunk, require_bind_ok, Version.isRow_iff]
      exact ⟨hpage, hversion, rfl⟩

theorem persistVersionChunks_commits {filename : String} {chunks : List TextChunk}
    (hpages : ∀ c ∈ chunks, 0 < c.pageNumber)
    (hstaged : ∃ v ∈ db.versions, (v.id = versionId ∧ v.documentId = documentId ∧
      v.tenantId = tenantId) ∧ v.status = .staged) :
    ∃ db', persistVersionChunks tenantId documentId versionId filename chunks db = .ok db' := by
  obtain ⟨v, hv, hids, hst⟩ := hstaged
  let deleted : Db := { db with
    versionChunks := db.versionChunks.delete (VersionChunk.isOf tenantId documentId versionId) }
  obtain ⟨versionChunks, h⟩ := insertVersionChunks_commits deleted filename 0 hpages ⟨v, hv, hids⟩
  refine ⟨{ db with
    versionChunks
    versions := db.versions.update (isStagedVersion versionId documentId tenantId)
      (Version.setChunkCount chunks.length) }, ?_⟩
  rw [persistVersionChunks, bind_ok]
  refine ⟨_, h, ?_⟩
  rw [require_bind_ok, count_stagedVersion]
  exact ⟨⟨v, hv, hids, hst⟩, rfl⟩

/-- The activation of a staged version commits and moves the pointer. -/
theorem activateIngestionVersion_commits (hc : db.Coherent) {d : Document} {v : Version}
    (hd : d ∈ db.documents) (hid : d.id = documentId) (ht : d.tenantId = tenantId)
    (hnd : d.status ≠ .deleted) (hv : v ∈ db.versions) (hvid : v.id = versionId)
    (hvdoc : v.documentId = documentId) (hvt : v.tenantId = tenantId) (hst : v.status = .staged) :
    ∃ db', activateIngestionVersion documentId versionId tenantId db = .ok db' ∧
      db.Activates documentId versionId db' ∧ db'.tenants = db.tenants ∧
      db'.attempts = db.attempts := by
  have hp : d.activeVersionId ≠ some versionId := by
    intro hp
    have hact := (hc.active_iff hv hd (hid.trans hvdoc.symm)).mpr (hvid ▸ hp)
    rw [hst] at hact
    cases hact
  let superseded := supersedePrevious d.activeVersionId documentId tenantId db
  have hkeep : v ∈ superseded.versions := by
    cases hprev : d.activeVersionId with
    | none =>
        simp only [superseded, hprev]
        exact hv
    | some previous =>
        simp only [superseded, hprev]
        have hm := Table.update_mem (p := fun v => v.isRow previous documentId tenantId &&
          v.status = .active) (f := Version.setStatus .superseded) hv
        rwa [if_neg] at hm
        simp [hst]
  have hframe : superseded.tenants = db.tenants ∧ superseded.attempts = db.attempts := by
    cases hprev : d.activeVersionId <;> simp only [superseded, hprev] <;> exact ⟨rfl, rfl⟩
  refine ⟨makeActive documentId versionId tenantId superseded, ?_,
    activates_makeActive hc hd hid ht hnd hv hvid hvdoc (Or.inl hst) hp, hframe.1, hframe.2⟩
  simp only [activateIngestionVersion, fetch_bind_ok, require_bind_ok, select_document,
    select_version, Version.isActivatable_iff]
  refine ⟨d, ⟨hd, hid, ht⟩, hnd, v, ⟨hv, hvid, hvdoc, hvt⟩, Or.inl hst, ?_⟩
  rw [if_neg hp, require_bind_ok, require_bind_ok, count_version, count_document]
  refine ⟨⟨v, hkeep, ⟨hvid, hvdoc, hvt⟩, by simp [Version.isActivatable, hst]⟩, ?_, rfl⟩
  rw [supersedePrevious_documents]
  exact ⟨d, hd, ⟨hid, ht⟩, decide_eq_true hnd⟩

end Stages

end Ally
