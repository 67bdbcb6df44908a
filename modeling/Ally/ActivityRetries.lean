import Ally.DenseCalls
import Ally.Reconciliation
import Ally.Redelivery
import Ally.Registration
import Ally.UploadSteps

/-!
# Ingestion activities under retries

An activity of a versioned ingestion commits in PostgreSQL and then issues its calls to the
vector collection one by one. Temporal may execute it again at any time before the next activity
starts, after an execution that returned, raised or was cut off anywhere.
-/

open Relational

namespace Ally

/-! ### A transaction that has committed commits again -/

section Register
variable {a : RegisterArgs} {db : Db}

theorem upsertDocument_again (hsha : isSha256 a.contentSha256 = true) {d : Document}
    (hd : d ∈ db.documents) (hid : d.id = a.documentId) (ht : d.tenantId = a.tenantId)
    (hf : d.filename = a.filename) (hnd : d.status ≠ .deleted) (hre : requeueDocument a d = d) :
    upsertDocument a db = .ok db := by
  have hselect : db.documents.select (fun d => d.id = a.documentId) = some d :=
    (Table.select_eq_some_iff (k := a.documentId) fun r hr => of_decide_eq_true hr).mpr
      ⟨hd, decide_eq_true hid⟩
  have hupdate : db.documents.update (fun d => d.id = a.documentId) (requeueDocument a) =
      db.documents := by
    apply Table.update_eq_self
    intro r hr hkey
    have hrd : r = d := Table.eq_of_key_eq hr hd ((of_decide_eq_true hkey).trans hid.symm)
    rw [hrd, hre]
  rw [upsertDocument, hselect]
  dsimp only
  rw [hupdate, require_bind_ok, require_bind_ok]
  exact ⟨hsha, ⟨ht, hf, hnd⟩, rfl⟩

theorem ensureAttempt_finds {r : Attempt}
    (hselect : db.attempts.select (fun r => r.workflowId = a.workflowId) = some r)
    (hr : r.id = a.attemptId ∧ r.documentId = a.documentId ∧ r.tenantId = a.tenantId) :
    ensureAttempt a db = .ok db := by
  rw [ensureAttempt, hselect]
  dsimp only
  rw [require_bind_ok]
  exact ⟨hr, rfl⟩

/-- The document of a committed registration is left alone by the next one. -/
theorem upsertDocument_settled {db' : Db} (h : upsertDocument a db = .ok db') :
    isSha256 a.contentSha256 = true ∧ ∃ d ∈ db'.documents, d.id = a.documentId ∧
      d.tenantId = a.tenantId ∧ d.filename = a.filename ∧ d.status ≠ .deleted ∧
      requeueDocument a d = d := by
  have hsha : isSha256 a.contentSha256 = true := by
    rw [upsertDocument, require_bind_ok] at h
    exact h.1
  refine ⟨hsha, ?_⟩
  rcases upsertDocument_ok h with ⟨-, documents, hinsert, rfl⟩ | ⟨⟨d, hd, hid, ht, hf, hnd⟩, rfl⟩
  · exact ⟨a.document, ((Table.insert_some hinsert).2 _).mpr (.inr rfl), rfl, rfl, rfl, DocumentStatus.noConfusion, rfl⟩
  · have hmem : requeueDocument a d ∈
        db.documents.update (fun d => d.id = a.documentId) (requeueDocument a) := by
      have hrow := Table.update_mem (p := fun d => d.id = a.documentId) (f := requeueDocument a) hd
      rwa [if_pos (decide_eq_true hid)] at hrow
    refine ⟨requeueDocument a d, hmem, hid, ht, hf, ?_, ?_⟩
    · by_cases hst : d.status = .indexed ∨ d.status = .failed
      · simp [requeueDocument, hst]
      · simpa [requeueDocument, hst] using hnd
    · by_cases hst : d.status = .indexed ∨ d.status = .failed
      · simp [requeueDocument, hst]
      · simp [requeueDocument, hst]

theorem ensureAttempt_settled {db' : Db} (h : ensureAttempt a db = .ok db') :
    ∃ r, db'.attempts.select (fun r => r.workflowId = a.workflowId) = some r ∧
      r.id = a.attemptId ∧ r.documentId = a.documentId ∧ r.tenantId = a.tenantId := by
  unfold ensureAttempt at h
  cases hs : db.attempts.select fun r => r.workflowId = a.workflowId with
  | some r =>
      simp only [hs, require_bind_ok] at h
      obtain rfl := Except.ok.inj h.2
      exact ⟨r, hs, h.1⟩
  | none =>
      simp only [hs, fetch_bind_ok] at h
      obtain ⟨attempts, hinsert, heq⟩ := h
      obtain rfl := Except.ok.inj heq
      have hselect : ∀ n, db.attempts.insert (a.attempt n) = some attempts →
          attempts.select (fun r => r.workflowId = a.workflowId) = some (a.attempt n) := by
        intro n hn
        rw [Table.select, Table.rows_insert hn, List.find?_append,
          show db.attempts.rows.find? _ = none from hs]
        simp [RegisterArgs.attempt]
      exact ⟨_, hselect _ hinsert, rfl, rfl, rfl⟩

theorem registerIngestion_again {db' : Db} (h : registerIngestion a db = .ok db') :
    registerIngestion a db' = .ok db' := by
  obtain ⟨db₁, db₂, h₁, h₂, h₃⟩ := registerIngestion_ok h
  obtain ⟨hsha, d, hd, hid, ht, hf, hnd, hre⟩ := upsertDocument_settled h₁
  obtain ⟨r, hselect, hr⟩ := ensureAttempt_settled h₂
  have hdocs : db₂.documents = db₁.documents := by
    rcases ensureAttempt_ok h₂ with ⟨rfl, -⟩ | ⟨-, n, attempts, -, rfl⟩ <;> rfl
  have hdocs' : db'.documents = db₂.documents ∧ db'.attempts = db₂.attempts := by
    rcases ensureVersion_ok h₃ with ⟨rfl, -⟩ | ⟨n, versions, -, -, rfl⟩ <;> exact ⟨rfl, rfl⟩
  have hfirst : upsertDocument a db' = .ok db' := by
    apply upsertDocument_again hsha _ hid ht hf hnd hre
    rw [hdocs'.1, hdocs]
    exact hd
  have hsecond : ensureAttempt a db' = .ok db' := ensureAttempt_finds (hdocs'.2 ▸ hselect) hr
  rw [registerIngestion, bind_ok]
  refine ⟨db', hfirst, ?_⟩
  rw [bind_ok]
  exact ⟨db', hsecond, ensureVersion_again (registered_of_commit h)⟩

end Register

section Stages
variable {documentId attemptId versionId tenantId : Uuid} {db db' : Db}

theorem enterStage_again (stage : String) (db : Db) :
    enterStage documentId attemptId tenantId stage
        (enterStage documentId attemptId tenantId stage db) =
      enterStage documentId attemptId tenantId stage db := by
  have hattempts := Table.update_again (t := db.attempts)
    (p := isOpenAttempt attemptId documentId tenantId) (f := Attempt.setStage stage)
    fun r _ _ => rfl
  have hdocuments := Table.update_again (t := db.documents)
    (p := fun d => d.isRow documentId tenantId && d.isOpen) (f := Document.setStatus .processing)
    fun d _ _ => rfl
  simp only [enterStage, hattempts, hdocuments]

theorem updateIngestionStage_again {stage : String}
    (h : updateIngestionStage documentId attemptId tenantId stage db = .ok db') :
    updateIngestionStage documentId attemptId tenantId stage db' = .ok db' := by
  obtain ⟨hstage, ⟨r, hr, hrow, hopen⟩, ⟨d, hd, hdrow, hdopen⟩, rfl⟩ :=
    updateIngestionStage_ok_iff.mp h
  rw [updateIngestionStage_ok_iff]
  refine ⟨hstage, ?_, ?_, (enterStage_again stage db).symm⟩
  · have hmem := Table.update_mem (p := isOpenAttempt attemptId documentId tenantId)
      (f := Attempt.setStage stage) hr
    rw [if_pos (isOpenAttempt_iff.mpr ⟨hrow, hopen⟩)] at hmem
    exact ⟨_, hmem, hrow, .inr rfl⟩
  · have hmem := Table.update_mem (p := fun d => d.isRow documentId tenantId && d.isOpen)
      (f := Document.setStatus .processing) hd
    rw [if_pos (by simp [hdrow, hdopen])] at hmem
    exact ⟨_, hmem, hdrow, .inr rfl⟩

theorem insertVersionChunks_pages {filename : String} {idx : ℕ} {chunks : List TextChunk}
    (h : insertVersionChunks tenantId documentId versionId filename idx chunks db = .ok db') :
    ∀ c ∈ chunks, 0 < c.pageNumber := by
  induction chunks generalizing idx db with
  | nil => exact fun c hc => absurd hc List.not_mem_nil
  | cons chunk chunks ih =>
      obtain ⟨db₁, h₁, h₂⟩ := bind_ok.mp h
      have hpage := (insertVersionChunk_ok h₁).1
      intro c hc
      rcases List.mem_cons.mp hc with rfl | hc
      · exact hpage
      · exact ih h₂ c hc

/-- The rows a committed persist leaves. -/
theorem persistVersionChunks_eq {filename : String} {chunks : List TextChunk}
    (h : persistVersionChunks tenantId documentId versionId filename chunks db = .ok db') :
    (∀ c ∈ chunks, 0 < c.pageNumber) ∧ db' = { db with
      versionChunks := (db.versionChunks.delete
        (VersionChunk.isOf tenantId documentId versionId)).upsertAll
          (chunks.mapIdx (versionChunk tenantId documentId versionId filename))
          VersionChunk.overwrite
      versions := db.versions.update (isStagedVersion versionId documentId tenantId)
        (Version.setChunkCount chunks.length) } := by
  have hrows : (fun i => versionChunk tenantId documentId versionId filename (0 + i)) =
      versionChunk tenantId documentId versionId filename := by
    funext i
    rw [Nat.zero_add]
  rw [persistVersionChunks, bind_ok] at h
  obtain ⟨db₁, h₁, h⟩ := h
  have hpages := insertVersionChunks_pages h₁
  have hdb₁ := insertVersionChunks_eq h₁
  rw [require_bind_ok] at h
  obtain rfl := Except.ok.inj h.2
  rw [hdb₁, hrows]
  exact ⟨hpages, rfl⟩

theorem persistVersionChunks_again {filename : String} {chunks : List TextChunk}
    (h : persistVersionChunks tenantId documentId versionId filename chunks db = .ok db') :
    persistVersionChunks tenantId documentId versionId filename chunks db' = .ok db' := by
  let call : PersistCall := ⟨tenantId, documentId, versionId, filename, chunks⟩
  obtain ⟨v, hv, hrow, hst⟩ := (persistVersionChunks_ok h).1
  obtain ⟨hpages, hdb'⟩ := persistVersionChunks_eq h
  have hmem := Table.update_mem (p := isStagedVersion versionId documentId tenantId)
    (f := Version.setChunkCount chunks.length) hv
  rw [if_pos (isStagedVersion_iff.mpr ⟨hrow, hst⟩)] at hmem
  have hstaged : ∃ v ∈ db'.versions, (v.id = versionId ∧ v.documentId = documentId ∧
      v.tenantId = tenantId) ∧ v.status = .staged := by
    rw [hdb']
    exact ⟨_, hmem, hrow, hst⟩
  obtain ⟨db'', hagain⟩ : ∃ db'', persistVersionChunks tenantId documentId versionId filename
      chunks db' = .ok db'' := persistVersionChunks_commits hpages hstaged
  have hchunks := Table.upsertAll_again db.versionChunks (f := VersionChunk.overwrite)
    (p := VersionChunk.isOf tenantId documentId versionId) call.rows_nodupKeys
    (fun r hr => isOf_of_mem_mapIdx hr) (fun r s => rfl) (fun r s => rfl)
  have hversions := Table.update_again (t := db.versions)
    (p := isStagedVersion versionId documentId tenantId)
    (f := Version.setChunkCount chunks.length) fun v _ _ => rfl
  have hsame : db'' = db' := by
    rw [(persistVersionChunks_eq hagain).2, hdb']
    dsimp only
    have hrows : chunks.mapIdx (versionChunk tenantId documentId versionId filename) = call.rows :=
      rfl
    rw [hversions, hrows, hchunks]
  rw [hagain, hsame]

theorem activateIngestionVersion_again
    (h : activateIngestionVersion documentId versionId tenantId db = .ok db') :
    activateIngestionVersion documentId versionId tenantId db' = .ok db' := by
  obtain ⟨d, hd, hdrow, hnd, v, hv, hvrow, hst, ⟨-, rfl⟩ | ⟨hpointer, rfl⟩⟩ :=
    activateIngestionVersion_ok h
  · exact h
  -- the document points to the version, which is active
  let superseded := supersedePrevious d.activeVersionId documentId tenantId db
  have hdocuments : superseded.documents = db.documents := by
    cases hprev : d.activeVersionId <;> simp [superseded, supersedePrevious, hprev]
  have hv' : v ∈ superseded.versions := by
    cases hprev : d.activeVersionId with
    | none => simpa [superseded, supersedePrevious, hprev] using hv
    | some previous =>
        have hne : v.id ≠ previous := by
          intro heq
          rw [hprev, ← heq, hvrow.1] at hpointer
          exact hpointer rfl
        have hmem := Table.update_mem
          (p := fun v => v.isRow previous documentId tenantId && v.status = .active)
          (f := Version.setStatus .superseded) hv
        rw [if_neg (by simp [hne])] at hmem
        simpa [superseded, supersedePrevious, hprev] using hmem
  have hdoc := Table.update_mem (p := fun d => d.isRow documentId tenantId && d.status ≠ .deleted)
    (f := Document.setPointer versionId) (hdocuments ▸ hd)
  have hversion := Table.update_mem
    (p := fun v => v.isRow versionId documentId tenantId && v.isActivatable)
    (f := Version.setStatus .active) hv'
  rw [if_pos (by simp [hdrow, hnd])] at hdoc
  rw [if_pos (by simp [hvrow, hst])] at hversion
  simp only [activateIngestionVersion, fetch_bind_ok, require_bind_ok, select_document,
    select_version]
  refine ⟨_, ⟨hdoc, hdrow⟩, nofun, _, ⟨hversion, hvrow⟩, rfl, ?_⟩
  rw [if_pos (Document.setPointer_activeVersionId versionId d)]
  rfl

end Stages

section Finish
variable {documentId attemptId versionId tenantId : Uuid} {db db' : Db}

theorem attempts_failVersion {status : AttemptStatus}
    (h : failVersion documentId versionId tenantId status db = .ok db') :
    db'.attempts = db.attempts := by
  rcases failVersion_ok_iff.mp h with ⟨-, -, rfl⟩ | ⟨-, -, rfl⟩ <;> rfl

theorem finishIngestionAttempt_again {status : AttemptStatus} {errorCode : Option String}
    (h : finishIngestionAttempt documentId attemptId versionId tenantId status errorCode db =
      .ok db') :
    finishIngestionAttempt documentId attemptId versionId tenantId status errorCode db' =
      .ok db' := by
  obtain ⟨hterminal, ⟨hclosed, hrow, rfl⟩ | ⟨⟨r, hr, hrow, hopen⟩, hclose⟩⟩ :=
    finishIngestionAttempt_ok_iff.mp h
  · exact h
  have hattempts : db'.attempts =
      (closeAttempt documentId attemptId tenantId status errorCode db).attempts := by
    rcases hclose with ⟨-, rfl⟩ | ⟨-, hfail⟩
    · rfl
    · exact attempts_failVersion hfail
  have hmem := Table.update_mem (p := isOpenAttempt attemptId documentId tenantId)
    (f := Attempt.close status (safeErrorCode errorCode)) hr
  rw [if_pos (isOpenAttempt_iff.mpr ⟨hrow, hopen⟩)] at hmem
  have hclosed : Attempt.close status (safeErrorCode errorCode) r ∈ db'.attempts :=
    hattempts ▸ hmem
  rw [finishIngestionAttempt_ok_iff]
  refine ⟨hterminal, .inl ⟨?_, ⟨_, hclosed, hrow, rfl, rfl⟩, rfl⟩⟩
  rintro ⟨r', hr', hrow', hopen'⟩
  obtain rfl : r' = Attempt.close status (safeErrorCode errorCode) r :=
    Table.eq_of_key_eq hr' hclosed (hrow'.1.trans hrow.1.symm)
  have hstatus : (Attempt.close status (safeErrorCode errorCode) r).status = status := rfl
  rw [hstatus] at hopen'
  rcases hterminal with rfl | rfl | rfl <;> rcases hopen' with hst | hst <;> cases hst

theorem tombstoneIngestionDocument_again {reason : String}
    (h : tombstoneIngestionDocument documentId tenantId reason db = .ok db') :
    tombstoneIngestionDocument documentId tenantId reason db' = .ok db' := by
  rw [tombstoneIngestionDocument, fetch_bind_ok] at h
  obtain ⟨d, hselect, h⟩ := h
  obtain ⟨hd, hrow⟩ := select_document.mp hselect
  rw [require_bind_ok] at h
  obtain ⟨htombstones, heq⟩ := h
  generalize hretired : (if d.status ≠ .deleted then retireDocument documentId tenantId db else db) =
    retired at htombstones heq
  obtain rfl := Except.ok.inj heq
  have hdoc : ∃ d' ∈ retired.documents, (d'.id = documentId ∧ d'.tenantId = tenantId) ∧
      d'.status = .deleted ∧ d'.filename = d.filename := by
    by_cases hdel : d.status = .deleted
    · rw [if_neg (not_not_intro hdel)] at hretired
      exact ⟨d, hretired ▸ hd, hrow, hdel, rfl⟩
    · have hmem := Table.update_mem
        (p := fun d => d.isRow documentId tenantId && d.status ≠ .deleted)
        (f := Document.setDeleted) hd
      rw [if_pos (by simp [hrow, hdel])] at hmem
      rw [if_pos hdel] at hretired
      refine ⟨Document.setDeleted d, ?_, hrow, rfl, rfl⟩
      rw [← hretired]
      exact hmem
  obtain ⟨d', hd', hrow', hdel', hfile'⟩ := hdoc
  rw [tombstoneIngestionDocument, fetch_bind_ok]
  refine ⟨d', select_document.mpr ⟨hd', hrow'⟩, ?_⟩
  rw [if_neg (not_not_intro hdel'), require_bind_ok]
  constructor
  · intro s hs hid
    rcases Table.mem_upsert.mp hs with ⟨hs, -⟩ | ⟨o, -, -, rfl⟩ | ⟨-, rfl⟩
    · exact htombstones s hs hid
    · rfl
    · rfl
  · have hupsert := Table.upsert_again retired.tombstones
      (r := ⟨documentId, tenantId, safeReason reason⟩)
      (f := Tombstone.overwrite tenantId (safeReason reason)) rfl fun s => rfl
    have hdelete := Table.delete_again retired.legacyChunks
      fun c => c.tenantId = tenantId ∧ c.filename = d.filename
    dsimp only
    rw [hupsert, hfile', hdelete]
    rfl

end Finish

/-- A transaction that committed commits again and then changes nothing. -/
theorem Transaction.apply_again {t : Transaction} {db db' : Db} (h : t.apply db = .ok db') :
    t.apply db' = .ok db' := by
  cases t with
  | register a => exact registerIngestion_again h
  | stage documentId attemptId tenantId stage => exact updateIngestionStage_again h
  | persist tenantId documentId versionId filename chunks => exact persistVersionChunks_again h
  | activate documentId versionId tenantId => exact activateIngestionVersion_again h
  | finish documentId attemptId versionId tenantId status errorCode =>
      exact finishIngestionAttempt_again h
  | tombstone documentId tenantId reason => exact tombstoneIngestionDocument_again h
  | reconcile =>
      obtain rfl := Except.ok.inj h
      exact congrArg Except.ok (Reconcile.reconcileAttempts_again db)

/-! ### The calls of an activity -/

namespace Qdrant

variable {κ : Type} {tenantId documentId : Uuid} {activeVersionId : Option Uuid}
  {filename : String} {deleted deleteLegacy : Bool}

theorem mem_reconcileDocumentVersion {c : Call κ} (hc : c ∈ reconcileDocumentVersion tenantId
      documentId activeVersionId filename deleted deleteLegacy) :
    (∃ f, c = .delete f) ∨
      (∃ v, activeVersionId = some v ∧
        (c = .setPayload true ⟨documentConditions tenantId documentId ++ [.versionId v], []⟩ ∨
          c = .setPayload false ⟨documentConditions tenantId documentId, [.versionId v]⟩)) ∨
      activeVersionId = none ∧
        c = .setPayload false ⟨documentConditions tenantId documentId, []⟩ := by
  rw [reconcileDocumentVersion, List.mem_append] at hc
  rcases hc with hc | hc
  · cases deleted with
    | true => exact .inl ⟨_, List.mem_singleton.mp hc⟩
    | false =>
        cases activeVersionId with
        | none => exact .inr (.inr ⟨rfl, List.mem_singleton.mp hc⟩)
        | some v =>
            refine .inr (.inl ⟨v, rfl, ?_⟩)
            rcases List.mem_cons.mp hc with rfl | hc
            · exact .inl rfl
            · exact .inr (List.mem_singleton.mp hc)
  · split_ifs at hc
    · exact .inl ⟨_, List.mem_singleton.mp hc⟩
    · cases hc

theorem isEdit_reconcileDocumentVersion {c : Call κ} (hc : c ∈ reconcileDocumentVersion tenantId
      documentId activeVersionId filename deleted deleteLegacy) : c.isEdit = true := by
  rcases mem_reconcileDocumentVersion hc with ⟨f, rfl⟩ | ⟨v, -, rfl | rfl⟩ | ⟨-, rfl⟩ <;> rfl

/-- A point is shown or hidden by its version, never both. -/
theorem consistent_reconcileDocumentVersion : Consistent (reconcileDocumentVersion tenantId
    documentId activeVersionId filename deleted deleteLegacy : List (Call κ)) := by
  intro flag flag' f f' hf hf' p hp hp'
  rcases mem_reconcileDocumentVersion hf with ⟨_, h⟩ | ⟨v, hv, h | h⟩ | ⟨hv, h⟩
  · cases h
  all_goals
    rcases mem_reconcileDocumentVersion hf' with ⟨_, h'⟩ | ⟨v', hv', h' | h'⟩ | ⟨hv', h'⟩
    · cases h'
    all_goals
      cases h
      cases h'
      simp_all [Filter.selects, Condition.holds]

theorem run_indexChunks [DecidableEq κ] {chunks : List (Chunk κ)} {cs : List (Call κ)}
    (hcs : cs <+: indexChunks chunks) {c : Call κ} (hc : c ∈ cs)
    (collection : Option (Points κ)) :
    c.run (runCalls cs collection) = runCalls cs collection := by
  rw [indexChunks] at hcs
  split_ifs at hcs
  · obtain rfl := List.prefix_nil.mp hcs
    cases hc
  rcases List.prefix_cons_iff.mp hcs with rfl | ⟨rest, rfl, hrest⟩
  · cases hc
  rcases List.prefix_cons_iff.mp hrest with rfl | ⟨rest', rfl, hrest'⟩
  · obtain rfl := List.mem_singleton.mp hc
    rfl
  · obtain rfl := List.prefix_nil.mp hrest'
    rcases List.mem_cons.mp hc with rfl | hc
    · rfl
    · obtain rfl := List.mem_singleton.mp hc
      exact congrArg some (Table.putAll_again _ _)

end Qdrant

/-! ### Activities -/

/-- What the activities of an ingestion write. -/
structure Indexed (κ : Type) where
  db : Db
  collection : Option (Qdrant.Points κ)

/-- The activities of a versioned ingestion that write, with their arguments. -/
inductive Activity
  | registerIngestion (args : RegisterArgs)
  | updateIngestionStage (documentId attemptId tenantId : Uuid) (stage : String)
  | persistChunks (tenantId documentId versionId : Uuid) (filename : String)
      (chunks : List TextChunk)
  | embedAndIndex (tenantId documentId versionId : Uuid) (filename : String)
      (chunks : List TextChunk)
  | activateIngestionVersion (documentId versionId tenantId : Uuid)
  | finishIngestionAttempt (documentId attemptId versionId tenantId : Uuid)
      (status : AttemptStatus) (errorCode : Option String)
  | tombstoneIngestionDocument (documentId tenantId : Uuid) (reason : String)
  deriving DecidableEq, Repr

section Tasks

variable {κ : Type} [DecidableEq κ] (uuid5 : String → κ)

def Indexed.call (c : Qdrant.Call κ) (s : Indexed κ) : Indexed κ :=
  { s with collection := c.run s.collection }

namespace Activity

def transaction : Activity → Option Transaction
  | registerIngestion args => some (.register args)
  | updateIngestionStage documentId attemptId tenantId stage =>
      some (.stage documentId attemptId tenantId stage)
  | persistChunks tenantId documentId versionId filename chunks =>
      some (.persist tenantId documentId versionId filename chunks)
  | embedAndIndex .. => none
  | activateIngestionVersion documentId versionId tenantId =>
      some (.activate documentId versionId tenantId)
  | finishIngestionAttempt documentId attemptId versionId tenantId status errorCode =>
      some (.finish documentId attemptId versionId tenantId status errorCode)
  | tombstoneIngestionDocument documentId tenantId reason =>
      some (.tombstone documentId tenantId reason)

/-- The calls after the commit, which the rebuild of the lexical index follows. -/
def calls (db : Db) : Activity → List (Qdrant.Call κ)
  | embedAndIndex tenantId documentId versionId filename chunks =>
      Qdrant.indexChunks
        (Qdrant.versionChunks uuid5 tenantId documentId versionId filename chunks)
  | activateIngestionVersion documentId versionId tenantId =>
      Qdrant.reconcileDocumentVersion tenantId documentId (some versionId)
        (db.filename tenantId documentId) false true
  | tombstoneIngestionDocument documentId tenantId _ =>
      Qdrant.reconcileDocumentVersion tenantId documentId none
        (db.filename tenantId documentId) true false
  | _ => []

def task (a : Activity) : Redelivery.Task (Indexed κ) PyError where
  commit s :=
    match a.transaction with
    | none => .ok s
    | some t => (t.apply s.db).map fun db => { s with db }
  effects s := (a.calls uuid5 s.db).map Indexed.call

end Activity

theorem applyAll_call (cs : List (Qdrant.Call κ)) (s : Indexed κ) :
    Redelivery.applyAll (cs.map Indexed.call) s =
      { s with collection := Qdrant.runCalls cs s.collection } := by
  induction cs generalizing s with
  | nil => rfl
  | cons c cs ih =>
      rw [List.map_cons, Redelivery.applyAll, List.foldl_cons]
      exact ih (s.call c)

variable {uuid5}

/-- A call that was performed leaves the collection as the performed calls left it. -/
theorem Activity.run_performed {a : Activity} {db : Db} {cs : List (Qdrant.Call κ)}
    (hcs : cs <+: a.calls uuid5 db) {c : Qdrant.Call κ} (hc : c ∈ cs)
    (collection : Option (Qdrant.Points κ)) :
    c.run (Qdrant.runCalls cs collection) = Qdrant.runCalls cs collection := by
  have hreconcile : ∀ {tenantId documentId : Uuid} {active : Option Uuid} {filename : String}
      {deleted deleteLegacy : Bool}, cs <+: Qdrant.reconcileDocumentVersion tenantId documentId
        active filename deleted deleteLegacy →
      c.run (Qdrant.runCalls cs collection) = Qdrant.runCalls cs collection := by
    intro tenantId documentId active filename deleted deleteLegacy hcut
    apply Qdrant.run_runCalls _ _ hc
    · exact fun d hd => Qdrant.isEdit_reconcileDocumentVersion (hcut.subset hd)
    · intro flag flag' f f' hf hf'
      exact Qdrant.consistent_reconcileDocumentVersion flag flag' f f' (hcut.subset hf)
        (hcut.subset hf')
  cases a with
  | activateIngestionVersion => exact hreconcile hcs
  | tombstoneIngestionDocument => exact hreconcile hcs
  | embedAndIndex => exact Qdrant.run_indexChunks hcs hc collection
  | _ =>
      obtain rfl := List.prefix_nil.mp hcs
      cases hc

theorem Activity.commit_db {a : Activity} {s s' : Indexed κ}
    (h : (a.task uuid5).commit s = .ok s') (collection : Option (Qdrant.Points κ)) :
    (a.task uuid5).commit { s' with collection } = .ok { s' with collection } := by
  cases ht : a.transaction with
  | none => simp only [task, ht]
  | some t =>
      simp only [task, ht] at h ⊢
      cases hdb : t.apply s.db with
      | error e =>
          rw [hdb] at h
          cases h
      | ok db =>
          rw [hdb] at h
          obtain rfl := Except.ok.inj h
          rw [Transaction.apply_again hdb]
          rfl

/-- An activity accepts what its own earlier executions left. -/
theorem Activity.repeatable (a : Activity) : (a.task uuid5).Repeatable := by
  have hperformed : ∀ {s : Indexed κ} {fs : List (Indexed κ → Indexed κ)},
      fs <+: (a.task uuid5).effects s → ∃ cs, cs <+: a.calls uuid5 s.db ∧
        fs = cs.map Indexed.call := by
    intro s fs hfs
    obtain ⟨cs, hcs, rfl⟩ := List.prefix_map_iff.mp hfs
    exact ⟨cs, hcs, rfl⟩
  constructor
  · intro s s' fs hs hfs
    obtain ⟨cs, -, rfl⟩ := hperformed hfs
    rw [applyAll_call]
    exact Activity.commit_db hs _
  · intro s s' fs hs hfs
    obtain ⟨cs, -, rfl⟩ := hperformed hfs
    rw [applyAll_call]
    rfl
  · intro s s' fs hs hfs f hf
    obtain ⟨cs, hcs, rfl⟩ := hperformed hfs
    obtain ⟨c, hc, rfl⟩ := List.mem_map.mp hf
    rw [applyAll_call]
    exact congrArg (fun collection => { s' with collection }) (Activity.run_performed hcs hc _)

end Tasks

/-! ### Runs -/

section Runs

open Redelivery

variable {κ : Type} [DecidableEq κ]

/-- Executions of each activity, any number of them cut off or repeated before one that is not,
leave the tables and the points that executing each activity once leaves, and every repetition
ends as it would have ended without the earlier ones. -/
theorem activities_at_least_once (uuid5 : String → κ) (run : List (Activity × List Reach)) :
    (∀ s : Indexed κ, runAll (run.map fun x => (x.1.task uuid5, x.2 ++ [.everything])) s =
      runAll (run.map fun x => (x.1.task uuid5, [.everything])) s) ∧
      ∀ (a : Activity) (rs : List Reach) (r : Reach) (s : Indexed κ),
        ((a.task uuid5).perform r ((a.task uuid5).performAll rs s)).2 =
          ((a.task uuid5).perform r s).2 := by
  constructor
  · intro s
    rw [runAll_once, List.map_map]
    · congr 1
      apply List.map_congr_left
      intro x hx
      rw [Function.comp_apply, Reach.furthestOf_everything (by simp)]
    · intro x hx
      obtain ⟨y, -, rfl⟩ := List.mem_map.mp hx
      exact y.1.repeatable
  · intro a rs r s
    exact Task.outcome_eq a.repeatable rs r s

end Runs
end Ally
