import Ally.Table

/-!
# The ingestion tables

Rows of the PostgreSQL schema the ingestion activities read and write. A
primary key is the key of its `Table`, so a database with two rows of one key
cannot be built. Timestamp columns are left out: no statement of these
activities reads one.
-/

open Relational

namespace Ally

abbrev Uuid := BitVec 128

/-- Named, so that the membership tests on ids share it. -/
instance lawfulBEq_uuid : LawfulBEq Uuid := inferInstance

inductive DocumentStatus
  | queued | processing | indexed | failed | superseded | deleted
  deriving DecidableEq, Repr

inductive AttemptStatus
  | queued | processing | indexed | failed | cancelled
  deriving DecidableEq, Repr

inductive VersionStatus
  | staged | active | superseded | failed
  deriving DecidableEq, Repr

def AttemptStatus.text : AttemptStatus → String
  | .queued => "queued"
  | .processing => "processing"
  | .indexed => "indexed"
  | .failed => "failed"
  | .cancelled => "cancelled"

/-- A row of `ingestion_documents`. -/
structure Document where
  id : Uuid
  tenantId : Uuid
  filename : String
  storageRef : String
  contentSha256 : String
  status : DocumentStatus
  activeVersionId : Option Uuid
  deriving DecidableEq, Repr

/-- A row of `ingestion_attempts`. -/
structure Attempt where
  id : Uuid
  documentId : Uuid
  tenantId : Uuid
  workflowId : String
  attemptNumber : ℕ
  status : AttemptStatus
  currentStage : Option String
  errorCode : Option String
  deriving DecidableEq, Repr

/-- A row of `document_versions`. -/
structure Version where
  id : Uuid
  documentId : Uuid
  tenantId : Uuid
  attemptId : Uuid
  versionNumber : ℕ
  contentSha256 : String
  storageRef : String
  status : VersionStatus
  chunkCount : ℕ
  deriving DecidableEq, Repr

/-- One chunk of extracted text, as `chunk_pages` produces it. -/
structure TextChunk where
  pageNumber : ℤ
  text : String
  deriving DecidableEq, Repr

/-- A row of `document_version_chunks`. -/
structure VersionChunk where
  tenantId : Uuid
  documentId : Uuid
  versionId : Uuid
  filename : String
  pageNumber : ℤ
  chunkIndex : ℕ
  text : String
  deriving DecidableEq, Repr

def VersionChunk.key (c : VersionChunk) : Uuid × Uuid × ℤ × ℕ :=
  (c.tenantId, c.versionId, c.pageNumber, c.chunkIndex)

/-- A row of `document_chunks`; its `version_id` column is never written. -/
structure LegacyChunk where
  tenantId : Uuid
  filename : String
  pageNumber : ℤ
  chunkIndex : ℕ
  text : String
  deriving DecidableEq, Repr

def LegacyChunk.key (c : LegacyChunk) : Uuid × String × ℤ × ℕ :=
  (c.tenantId, c.filename, c.pageNumber, c.chunkIndex)

/-- A row of `ingestion_tombstones`. -/
structure Tombstone where
  documentId : Uuid
  tenantId : Uuid
  reason : String
  deriving DecidableEq, Repr

structure Db where
  tenants : List Uuid
  documents : Table Document.id
  attempts : Table Attempt.id
  versions : Table Version.id
  versionChunks : Table VersionChunk.key
  legacyChunks : Table LegacyChunk.key
  tombstones : Table Tombstone.documentId

/-- The migrated schema with its tenants and no ingestion yet. -/
def Db.initial (tenants : List Uuid) : Db where
  tenants := tenants
  documents := .empty
  attempts := .empty
  versions := .empty
  versionChunks := .empty
  legacyChunks := .empty
  tombstones := .empty

inductive PyError
  | valueError (message : String)
  | runtimeError (message : String)
  | integrityError (constraint : String)
  deriving DecidableEq, Repr

/-- `if not condition: raise error`. -/
def require (condition : Prop) [Decidable condition] (error : PyError) : Except PyError Unit :=
  if condition then .ok () else .error error

/-- `row = cur.fetchone()` followed by `if row is None: raise error`. -/
def fetch {α : Type} (row : Option α) (error : PyError) : Except PyError α :=
  match row with
  | some a => .ok a
  | none => .error error

@[simp] theorem require_bind_ok {α : Type} {c : Prop} [Decidable c] {e : PyError}
    {f : Unit → Except PyError α} {r : α} :
    (require c e >>= f) = .ok r ↔ c ∧ f () = .ok r := by
  unfold require
  split_ifs with h
  · exact (and_iff_right h).symm
  · exact iff_of_false (by rintro ⟨⟩) (fun hc => h hc.1)

@[simp] theorem fetch_bind_ok {α β : Type} {row : Option α} {e : PyError}
    {f : α → Except PyError β} {r : β} :
    (fetch row e >>= f) = .ok r ↔ ∃ a, row = some a ∧ f a = .ok r := by
  cases row with
  | none => exact iff_of_false (by rintro ⟨⟩) (by rintro ⟨a, ⟨⟩, -⟩)
  | some a =>
      change f a = .ok r ↔ _
      simp only [Option.some.injEq, exists_eq_left']

theorem bind_ok {α β : Type} {x : Except PyError α} {f : α → Except PyError β} {r : β} :
    (x >>= f) = .ok r ↔ ∃ a, x = .ok a ∧ f a = .ok r := by
  cases x with
  | error e => exact iff_of_false (by rintro ⟨⟩) (by rintro ⟨a, ⟨⟩, -⟩)
  | ok a =>
      change f a = .ok r ↔ _
      simp only [Except.ok.injEq, exists_eq_left']

end Ally
