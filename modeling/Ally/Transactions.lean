import Ally.Database

/-!
# The committed database transactions of the ingestion activities

Each definition is the body of one `_…_sync` function of the activities module
between `connect` and `commit`. An exception rolls the transaction back, so a
result `error` leaves the database it was given untouched.
-/

open Relational

namespace Ally

/-! ### `register_ingestion` -/

structure RegisterArgs where
  documentId : Uuid
  attemptId : Uuid
  versionId : Uuid
  storageRef : String
  contentSha256 : String
  filename : String
  tenantId : Uuid
  workflowId : String
  deriving DecidableEq, Repr

/-- The check constraint `content_sha256 ~ '^[0-9a-f]{64}$'`. -/
def isSha256 (s : String) : Bool :=
  s.length = 64 ∧ s.toList.all fun c => c.isDigit || ('a' ≤ c && c ≤ 'f')

/-- The `DO UPDATE` of the document upsert. -/
def requeueDocument (a : RegisterArgs) : Rewrite Document.id where
  toFun d :=
    { d with
      storageRef := a.storageRef
      contentSha256 := a.contentSha256
      status := if d.status = .indexed ∨ d.status = .failed then .queued else d.status }
  keeps _ := rfl

def RegisterArgs.document (a : RegisterArgs) : Document where
  id := a.documentId
  tenantId := a.tenantId
  filename := a.filename
  storageRef := a.storageRef
  contentSha256 := a.contentSha256
  status := .queued
  activeVersionId := none

def RegisterArgs.attempt (a : RegisterArgs) (attemptNumber : ℕ) : Attempt where
  id := a.attemptId
  documentId := a.documentId
  tenantId := a.tenantId
  workflowId := a.workflowId
  attemptNumber := attemptNumber
  status := .queued
  currentStage := none
  errorCode := none

def RegisterArgs.version (a : RegisterArgs) (versionNumber : ℕ) : Version where
  id := a.versionId
  documentId := a.documentId
  tenantId := a.tenantId
  attemptId := a.attemptId
  versionNumber := versionNumber
  contentSha256 := a.contentSha256
  storageRef := a.storageRef
  status := .staged
  chunkCount := 0

def upsertDocument (a : RegisterArgs) (db : Db) : Except PyError Db := do
  require (isSha256 a.contentSha256) (.integrityError "content_sha256")
  match db.documents.select fun d => d.id = a.documentId with
  | none =>
      require (a.tenantId ∈ db.tenants) (.integrityError "tenant_id")
      let documents ← fetch (db.documents.insert a.document) (.integrityError "id")
      return { db with documents }
  | some d =>
      require (d.tenantId = a.tenantId ∧ d.filename = a.filename ∧ d.status ≠ .deleted)
        (.valueError "Ingestion document identity conflict")
      return { db with
        documents := db.documents.update (fun d => d.id = a.documentId) (requeueDocument a) }

def ensureAttempt (a : RegisterArgs) (db : Db) : Except PyError Db :=
  match db.attempts.select fun r => r.workflowId = a.workflowId with
  | some r => do
      require (r.id = a.attemptId ∧ r.documentId = a.documentId ∧ r.tenantId = a.tenantId)
        (.valueError "Ingestion attempt identity conflict")
      return db
  | none => do
      let last := db.attempts.maxOf
        (fun r => r.documentId = a.documentId ∧ r.tenantId = a.tenantId) Attempt.attemptNumber
      let attempts ← fetch (db.attempts.insert (a.attempt (last + 1))) (.integrityError "id")
      return { db with attempts }

def ensureVersion (a : RegisterArgs) (db : Db) : Except PyError Db :=
  match db.versions.select fun v => v.id = a.versionId with
  | some v => do
      require (v.documentId = a.documentId ∧ v.tenantId = a.tenantId ∧
          v.attemptId = a.attemptId ∧ v.contentSha256 = a.contentSha256 ∧
          v.storageRef = a.storageRef)
        (.valueError "Ingestion version identity conflict")
      return db
  | none => do
      let last := db.versions.maxOf
        (fun v => v.documentId = a.documentId ∧ v.tenantId = a.tenantId) Version.versionNumber
      let versions ← fetch (db.versions.insert (a.version (last + 1))) (.integrityError "id")
      return { db with versions }

def registerIngestion (a : RegisterArgs) (db : Db) : Except PyError Db := do
  let db ← upsertDocument a db
  let db ← ensureAttempt a db
  ensureVersion a db

/-! ### `update_ingestion_stage` -/

def allowedStages : List String :=
  ["detecting", "extracting", "chunking", "persisting", "indexing"]

def Document.isRow (documentId tenantId : Uuid) (d : Document) : Bool :=
  d.id = documentId ∧ d.tenantId = tenantId

def Attempt.isRow (attemptId documentId tenantId : Uuid) (r : Attempt) : Bool :=
  r.id = attemptId ∧ r.documentId = documentId ∧ r.tenantId = tenantId

def Version.isRow (versionId documentId tenantId : Uuid) (v : Version) : Bool :=
  v.id = versionId ∧ v.documentId = documentId ∧ v.tenantId = tenantId

/-- `status IN ('queued', 'processing')` on `ingestion_attempts`. -/
def Attempt.isOpen (r : Attempt) : Bool := r.status = .queued ∨ r.status = .processing

/-- `status IN ('queued', 'processing')` on `ingestion_documents`. -/
def Document.isOpen (d : Document) : Bool := d.status = .queued ∨ d.status = .processing

/-- The attempt row a stage update or a finish call may still change. -/
def isOpenAttempt (attemptId documentId tenantId : Uuid) (r : Attempt) : Bool :=
  r.isRow attemptId documentId tenantId && r.isOpen

def Document.setStatus (status : DocumentStatus) : Rewrite Document.id where
  toFun d := { d with status }
  keeps _ := rfl

def Version.setStatus (status : VersionStatus) : Rewrite Version.id where
  toFun v := { v with status }
  keeps _ := rfl

def Attempt.setStage (stage : String) : Rewrite Attempt.id where
  toFun r := { r with status := .processing, currentStage := some stage }
  keeps _ := rfl

def enterStage (documentId attemptId tenantId : Uuid) (stage : String) (db : Db) : Db :=
  { db with
    attempts := db.attempts.update (isOpenAttempt attemptId documentId tenantId)
      (Attempt.setStage stage)
    documents := db.documents.update (fun d => d.isRow documentId tenantId && d.isOpen)
      (Document.setStatus .processing) }

def updateIngestionStage (documentId attemptId tenantId : Uuid) (stage : String) (db : Db) :
    Except PyError Db := do
  require (stage ∈ allowedStages) (.valueError "Unknown ingestion stage")
  require (db.attempts.count (isOpenAttempt attemptId documentId tenantId) = 1)
    (.valueError "Ingestion attempt cannot enter requested stage")
  require (db.documents.count (fun d => d.isRow documentId tenantId && d.isOpen) = 1)
    (.valueError "Ingestion document cannot enter processing state")
  return enterStage documentId attemptId tenantId stage db

/-! ### `persist_chunks` for a version -/

def versionChunk (tenantId documentId versionId : Uuid) (filename : String) (idx : ℕ)
    (chunk : TextChunk) : VersionChunk where
  tenantId := tenantId
  documentId := documentId
  versionId := versionId
  filename := filename
  pageNumber := chunk.pageNumber
  chunkIndex := idx
  text := chunk.text

def VersionChunk.overwrite (row : VersionChunk) : Rewrite VersionChunk.key where
  toFun c := { c with text := row.text, filename := row.filename }
  keeps _ := rfl

/-- One `INSERT … ON CONFLICT DO UPDATE SET text, filename` with the check on
`page_number` and the foreign key to `document_versions`. -/
def insertVersionChunk (row : VersionChunk) (db : Db) : Except PyError Db := do
  require (0 < row.pageNumber) (.integrityError "page_number")
  require (∃ v ∈ db.versions.rows, v.isRow row.versionId row.documentId row.tenantId)
    (.integrityError "version_id")
  return { db with
    versionChunks := db.versionChunks.upsert row (VersionChunk.overwrite row) }

def insertVersionChunks (tenantId documentId versionId : Uuid) (filename : String) :
    ℕ → List TextChunk → Db → Except PyError Db
  | _, [], db => .ok db
  | idx, chunk :: chunks, db => do
      let db ← insertVersionChunk
        (versionChunk tenantId documentId versionId filename idx chunk) db
      insertVersionChunks tenantId documentId versionId filename (idx + 1) chunks db

def VersionChunk.isOf (tenantId documentId versionId : Uuid) (c : VersionChunk) : Bool :=
  c.tenantId = tenantId ∧ c.documentId = documentId ∧ c.versionId = versionId

def isStagedVersion (versionId documentId tenantId : Uuid) (v : Version) : Bool :=
  v.isRow versionId documentId tenantId && v.status = .staged

def Version.setChunkCount (chunkCount : ℕ) : Rewrite Version.id where
  toFun v := { v with chunkCount }
  keeps _ := rfl

def persistVersionChunks (tenantId documentId versionId : Uuid) (filename : String)
    (chunks : List TextChunk) (db : Db) : Except PyError Db := do
  let db := { db with
    versionChunks := db.versionChunks.delete (VersionChunk.isOf tenantId documentId versionId) }
  let db ← insertVersionChunks tenantId documentId versionId filename 0 chunks db
  require (db.versions.count (isStagedVersion versionId documentId tenantId) = 1)
    (.valueError "Ingestion version cannot accept staged chunks")
  return { db with
    versions := db.versions.update (isStagedVersion versionId documentId tenantId)
      (Version.setChunkCount chunks.length) }

/-! ### `activate_ingestion_version` -/

/-- `UPDATE document_versions SET status = 'superseded' … AND status = 'active'` for
the version the document pointed to, when there is one. -/
def supersedePrevious (previous : Option Uuid) (documentId tenantId : Uuid) (db : Db) : Db :=
  match previous with
  | none => db
  | some versionId =>
      { db with
        versions := db.versions.update
          (fun v => v.isRow versionId documentId tenantId && v.status = .active)
          (Version.setStatus .superseded) }

def Version.isActivatable (v : Version) : Bool := v.status = .staged ∨ v.status = .active

def Document.setPointer (versionId : Uuid) : Rewrite Document.id where
  toFun d := { d with activeVersionId := some versionId, status := .indexed }
  keeps _ := rfl

def makeActive (documentId versionId tenantId : Uuid) (db : Db) : Db :=
  { db with
    versions := db.versions.update
      (fun v => v.isRow versionId documentId tenantId && v.isActivatable)
      (Version.setStatus .active)
    documents := db.documents.update
      (fun d => d.isRow documentId tenantId && d.status ≠ .deleted)
      (Document.setPointer versionId) }

def activateIngestionVersion (documentId versionId tenantId : Uuid) (db : Db) :
    Except PyError Db := do
  let document ← fetch (db.documents.select (Document.isRow documentId tenantId))
    (.valueError "Ingestion document cannot activate a version")
  require (document.status ≠ .deleted)
    (.valueError "Ingestion document cannot activate a version")
  let version ← fetch (db.versions.select (Version.isRow versionId documentId tenantId))
    (.valueError "Ingestion version is not ready for activation")
  require (version.isActivatable)
    (.valueError "Ingestion version is not ready for activation")
  if document.activeVersionId = some versionId then
    return db
  let db := supersedePrevious document.activeVersionId documentId tenantId db
  require (db.versions.count
      (fun v => v.isRow versionId documentId tenantId && v.isActivatable) = 1)
    (.valueError "Ingestion version could not be activated")
  require (db.documents.count
      (fun d => d.isRow documentId tenantId && d.status ≠ .deleted) = 1)
    (.valueError "Ingestion document could not activate the version")
  return makeActive documentId versionId tenantId db

/-! ### `finish_ingestion_attempt` -/

/-- `re.fullmatch(r"[a-z0-9_]{1,64}", s)`. -/
def isSafeCode (s : String) : Bool :=
  1 ≤ s.length ∧ s.length ≤ 64 ∧
    s.toList.all fun c => ('a' ≤ c && c ≤ 'z') || ('0' ≤ c && c ≤ '9') || c = '_'

def safeErrorCode (errorCode : Option String) : Option String := errorCode.filter isSafeCode

def markFailed (documentId versionId tenantId : Uuid) (status : AttemptStatus) (db : Db) : Db :=
  { db with
    versions := db.versions.update (isStagedVersion versionId documentId tenantId)
      (Version.setStatus .failed)
    documents := db.documents.update
      (fun d => d.isRow documentId tenantId && d.status = .processing)
      (Document.setStatus (if status = .failed then .failed else .queued)) }

/-- The version is the active one of its document. -/
def Db.isActiveVersion (db : Db) (v : Version) : Prop :=
  v.status = .active ∧ ∃ d ∈ db.documents.rows,
    d.isRow v.documentId v.tenantId ∧ d.activeVersionId = some v.id

instance (db : Db) (v : Version) : Decidable (db.isActiveVersion v) :=
  inferInstanceAs (Decidable (_ ∧ ∃ _ ∈ _, _))

/-- The part of a finish call that fails a staged version and closes its document;
a version that is already the active one is left alone. -/
def failVersion (documentId versionId tenantId : Uuid) (status : AttemptStatus) (db : Db) :
    Except PyError Db := do
  if db.versions.count (isStagedVersion versionId documentId tenantId) ≠ 1 then
    require (∃ v ∈ db.versions.rows, v.isRow versionId documentId tenantId ∧
        db.isActiveVersion v)
      (.valueError "Ingestion version cannot be failed")
    return db
  require (db.documents.count
      (fun d => d.isRow documentId tenantId && d.status = .processing) = 1)
    (.valueError "Ingestion document cannot enter terminal state")
  return markFailed documentId versionId tenantId status db

def Attempt.close (status : AttemptStatus) (errorCode : Option String) : Rewrite Attempt.id where
  toFun r := { r with status, errorCode, currentStage := some status.text }
  keeps _ := rfl

def closeAttempt (documentId attemptId tenantId : Uuid) (status : AttemptStatus)
    (errorCode : Option String) (db : Db) : Db :=
  { db with
    attempts := db.attempts.update (isOpenAttempt attemptId documentId tenantId)
      (Attempt.close status (safeErrorCode errorCode)) }

def finishIngestionAttempt (documentId attemptId versionId tenantId : Uuid)
    (status : AttemptStatus) (errorCode : Option String) (db : Db) : Except PyError Db := do
  require (status = .indexed ∨ status = .failed ∨ status = .cancelled)
    (.valueError "Invalid terminal ingestion status")
  if db.attempts.count (isOpenAttempt attemptId documentId tenantId) ≠ 1 then
    require (∃ r ∈ db.attempts.rows, r.isRow attemptId documentId tenantId ∧
        r.status = status ∧ r.errorCode = safeErrorCode errorCode)
      (.valueError "Ingestion attempt cannot enter terminal state")
    return db
  let db := closeAttempt documentId attemptId tenantId status errorCode db
  if status = .indexed then
    return db
  failVersion documentId versionId tenantId status db

/-! ### `tombstone_ingestion_document` -/

/-- `safe_reason` of the activity that wraps the transaction. -/
def safeReason (reason : String) : String := if isSafeCode reason then reason else "user_deleted"

def Document.setDeleted : Rewrite Document.id where
  toFun d := { d with status := .deleted, activeVersionId := none }
  keeps _ := rfl

def Tombstone.overwrite (tenantId : Uuid) (reason : String) : Rewrite Tombstone.documentId where
  toFun s := { s with tenantId, reason }
  keeps _ := rfl

def retireDocument (documentId tenantId : Uuid) (db : Db) : Db :=
  { db with
    versions := db.versions.update
      (fun v => v.documentId = documentId ∧ v.tenantId = tenantId ∧ v.status = .active)
      (Version.setStatus .superseded)
    documents := db.documents.update
      (fun d => d.isRow documentId tenantId && d.status ≠ .deleted) Document.setDeleted }

def tombstoneIngestionDocument (documentId tenantId : Uuid) (reason : String) (db : Db) :
    Except PyError Db := do
  let document ← fetch (db.documents.select (Document.isRow documentId tenantId))
    (.valueError "Ingestion document does not exist")
  let db := if document.status ≠ .deleted then retireDocument documentId tenantId db else db
  require (∀ s ∈ db.tombstones.rows, s.documentId = documentId → s.tenantId = tenantId)
    (.valueError "Ingestion tombstone identity conflict")
  return { db with
    tombstones := db.tombstones.upsert ⟨documentId, tenantId, safeReason reason⟩
      (Tombstone.overwrite tenantId (safeReason reason))
    legacyChunks := db.legacyChunks.delete fun c =>
      c.tenantId = tenantId ∧ c.filename = document.filename }

/-! ### `reconcile_ingestion_indexes` -/

/-- The attempt owns a version that is the active one of its document. -/
def Db.ownsActive (db : Db) (r : Attempt) : Prop :=
  ∃ v ∈ db.versions.rows, v.attemptId = r.id ∧ db.isActiveVersion v

instance (db : Db) (r : Attempt) : Decidable (db.ownsActive r) :=
  inferInstanceAs (Decidable (∃ _ ∈ _, _))

/-- The closing `UPDATE ingestion_attempts` of a reconciliation. -/
def reconcileAttempts (db : Db) : Db :=
  { db with
    attempts := db.attempts.update
      (fun r => db.ownsActive r ∧ (r.status = .processing ∨ r.status = .failed) ∧
        (r.errorCode = none ∨ r.errorCode = some "workflow_activity_failed"))
      (Attempt.close .indexed none) }

/-! ### The transactions together -/

inductive Transaction
  | register (args : RegisterArgs)
  | stage (documentId attemptId tenantId : Uuid) (stage : String)
  | persist (tenantId documentId versionId : Uuid) (filename : String) (chunks : List TextChunk)
  | activate (documentId versionId tenantId : Uuid)
  | finish (documentId attemptId versionId tenantId : Uuid) (status : AttemptStatus)
      (errorCode : Option String)
  | tombstone (documentId tenantId : Uuid) (reason : String)
  | reconcile
  deriving DecidableEq, Repr

def Transaction.apply : Transaction → Db → Except PyError Db
  | .register a => registerIngestion a
  | .stage d a t s => updateIngestionStage d a t s
  | .persist t d v f chunks => persistVersionChunks t d v f chunks
  | .activate d v t => activateIngestionVersion d v t
  | .finish d a v t s e => finishIngestionAttempt d a v t s e
  | .tombstone d t r => tombstoneIngestionDocument d t r
  | .reconcile => fun db => .ok (reconcileAttempts db)

end Ally
