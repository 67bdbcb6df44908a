import Ally.VersionLifecycle

/-!
# Runs of `IngestDocumentWorkflow`

Any number of runs upload the same document. The world is the database together
with the call each run awaits; an action lets one run go on, or lets an activity
attempt reach the database whose outcome the run does not see: an attempt that
Temporal retries, or one that was timed out and whose thread still finishes.
-/

namespace Ally

/-- What one run is started with, and the chunks its extraction produces. -/
structure Upload where
  attemptId : Uuid
  versionId : Uuid
  storageRef : String
  contentSha256 : String
  workflowId : String
  chunks : List TextChunk

/-- Uploads of one document: the identities are fresh for each run, the hash is a
SHA-256 in hexadecimal, and pages are counted from one. -/
structure Uploads (ι : Type) where
  documentId : Uuid
  tenantId : Uuid
  filename : String
  tenants : List Uuid
  upload : ι → Upload
  tenant_mem : tenantId ∈ tenants
  attemptId_inj : ∀ i j, (upload i).attemptId = (upload j).attemptId → i = j
  versionId_inj : ∀ i j, (upload i).versionId = (upload j).versionId → i = j
  workflowId_inj : ∀ i j, (upload i).workflowId = (upload j).workflowId → i = j
  sha256 : ∀ i, isSha256 (upload i).contentSha256 = true
  pages : ∀ i, ∀ c ∈ (upload i).chunks, 0 < c.pageNumber

namespace Uploads

variable {ι : Type} (u : Uploads ι)

def registerArgs (i : ι) : RegisterArgs where
  documentId := u.documentId
  attemptId := (u.upload i).attemptId
  versionId := (u.upload i).versionId
  storageRef := (u.upload i).storageRef
  contentSha256 := (u.upload i).contentSha256
  filename := u.filename
  tenantId := u.tenantId
  workflowId := (u.upload i).workflowId

/-- `record_stage(stage)`. -/
def recordStage (i : ι) (stage : String) : Transaction :=
  .stage u.documentId (u.upload i).attemptId u.tenantId stage

/-- `finish(status, error_code)`. -/
def finish (i : ι) (status : AttemptStatus) (errorCode : Option String) : Transaction :=
  .finish u.documentId (u.upload i).attemptId (u.upload i).versionId u.tenantId status errorCode

/-- The database activities of a run that meets no failure, in order. -/
def plan (i : ι) : List Transaction :=
  [.register (u.registerArgs i),
    u.recordStage i "detecting",
    u.recordStage i "extracting",
    u.recordStage i "chunking",
    u.recordStage i "persisting",
    .persist u.tenantId u.documentId (u.upload i).versionId u.filename (u.upload i).chunks,
    u.recordStage i "indexing",
    .activate u.documentId (u.upload i).versionId u.tenantId,
    u.finish i .indexed none]

end Uploads

/-- Where a run is: it awaits the call `next` of its plan, past which it awaits
the cleanup of its artifacts; it awaits the finish call of an `except` clause; or
it has ended. -/
inductive RunPhase
  | running (next : ℕ)
  | finishing (status : AttemptStatus) (errorCode : String)
  | ended
  deriving DecidableEq, Repr

/-- The finish call of a run that returned or raised last: its status, the
database it found, and whether it reached the database at all. -/
structure FinishCall where
  status : AttemptStatus
  db : Db
  executed : Bool

structure World (ι : Type) where
  db : Db
  phase : ι → RunPhase
  /-- The calls of its plan a run no longer awaits. -/
  passed : ι → ℕ
  raised : List (ι × Transaction)
  lastFinish : ι → Option FinishCall

inductive Action (ι : Type)
  | proceed (i : ι)
  | attempt (i : ι)
  | late (i : ι) (k : ℕ)
  | fail (i : ι)
  | cancel (i : ι)
  | tombstone (reason : String)
  deriving DecidableEq

section Steps
variable {ι : Type} [DecidableEq ι] (u : Uploads ι)

def World.initial : World ι where
  db := .initial u.tenants
  phase _ := .running 0
  passed _ := 0
  raised := []
  lastFinish _ := none

def World.setPhase (i : ι) (phase : RunPhase) (w : World ι) : World ι :=
  { w with phase := Function.update w.phase i phase }

/-- The run stops awaiting the call `k` of its plan. -/
def World.leave (i : ι) (k : ℕ) (phase : RunPhase) (w : World ι) : World ι :=
  { w.setPhase i phase with passed := Function.update w.passed i (k + 1) }

def World.setFinish (i : ι) (call : FinishCall) (w : World ι) : World ι :=
  { w with lastFinish := Function.update w.lastFinish i (some call) }

/-- An activity attempt reaches the database. -/
def World.execute (i : ι) (t : Transaction) (w : World ι) : World ι :=
  match t.apply w.db with
  | .ok db => { w with db }
  | .error _ => { w with raised := w.raised ++ [(i, t)] }

/-- Where a run goes when the call `k` raises: registration is outside the `try`. -/
def RunPhase.afterError (k : ℕ) (status : AttemptStatus) (errorCode : String) : RunPhase :=
  if k = 0 then .ended else .finishing status errorCode

/-- The call `k` of the plan reaches the database and the run sees its outcome. -/
def World.proceedPlan (i : ι) (k : ℕ) (t : Transaction) (w : World ι) : World ι :=
  let after := match t.apply w.db with
    | .ok _ => RunPhase.running (k + 1)
    | .error _ => RunPhase.afterError k .failed "workflow_activity_failed"
  let w' := (w.execute i t).leave i k after
  if k = 8 then w'.setFinish i ⟨.indexed, w.db, true⟩ else w'

def proceed (i : ι) (w : World ι) : Option (World ι) :=
  match w.phase i with
  | .running k =>
      match (u.plan i)[k]? with
      | some t => some (w.proceedPlan i k t)
      | none => some (w.setPhase i .ended)
  | .finishing status errorCode =>
      some (((w.execute i (u.finish i status (some errorCode))).setFinish i
        ⟨status, w.db, true⟩).setPhase i .ended)
  | .ended => none

/-- An attempt of the awaited call whose outcome is not reported. -/
def attempt (i : ι) (w : World ι) : Option (World ι) :=
  match w.phase i with
  | .running k => ((u.plan i)[k]?).map fun t => w.execute i t
  | .finishing status errorCode => some (w.execute i (u.finish i status (some errorCode)))
  | .ended => none

/-- A timed-out attempt of a call the run no longer awaits. -/
def late (i : ι) (k : ℕ) (w : World ι) : Option (World ι) :=
  if k < w.passed i ∧ k < 8 then ((u.plan i)[k]?).map fun t => w.execute i t else none

/-- The await of the call `k` raises and the call does not reach the database. -/
def World.giveUp (i : ι) (k : ℕ) (status : AttemptStatus) (errorCode : String) (w : World ι) :
    World ι :=
  let w' := w.leave i k (.afterError k status errorCode)
  if k = 8 then w'.setFinish i ⟨.indexed, w.db, false⟩ else w'

/-- The finish call of an `except` clause raises without reaching the database. -/
def World.abandon (i : ι) (status : AttemptStatus) (w : World ι) : World ι :=
  (w.setFinish i ⟨status, w.db, false⟩).setPhase i .ended

/-- The awaited call, or an activity without a transaction before it, fails for
good. A failed cleanup is only logged. -/
def failRun (i : ι) (w : World ι) : Option (World ι) :=
  match w.phase i with
  | .running k =>
      if k < 9 then some (w.giveUp i k .failed "workflow_activity_failed")
      else some (w.setPhase i .ended)
  | .finishing status _ => some (w.abandon i status)
  | .ended => none

/-- The run is cancelled at its await. -/
def cancelRun (i : ι) (w : World ι) : Option (World ι) :=
  match w.phase i with
  | .running k => some (w.giveUp i k .cancelled "workflow_cancelled")
  | .finishing status _ => some (w.abandon i status)
  | .ended => none

def tombstoneDocument (reason : String) (w : World ι) : World ι :=
  match tombstoneIngestionDocument u.documentId u.tenantId reason w.db with
  | .ok db => { w with db }
  | .error _ => w

def World.step (w : World ι) : Action ι → Option (World ι)
  | .proceed i => proceed u i w
  | .attempt i => attempt u i w
  | .late i k => late u i k w
  | .fail i => failRun i w
  | .cancel i => cancelRun i w
  | .tombstone reason => some (tombstoneDocument u reason w)

/-- The world after a list of actions, from the migrated, empty schema. -/
abbrev Uploads.run (as : List (Action ι)) : Option (World ι) :=
  Machine.run (World.step u) (World.initial u) as

end Steps

/-- Two uploads of one document. -/
def twoUploads : Uploads Bool where
  documentId := 1
  tenantId := 7
  filename := "a.pdf"
  tenants := [7]
  upload
    | false => ⟨2, 3, "s3://b/1", "".pushn 'a' 64, "ingest-2", [⟨1, "first"⟩]⟩
    | true => ⟨4, 5, "s3://b/2", "".pushn 'b' 64, "ingest-4", [⟨1, "second"⟩]⟩
  tenant_mem := by decide
  attemptId_inj := by decide
  versionId_inj := by decide
  workflowId_inj := by decide
  sha256 := by decide
  pages i := by cases i <;> decide

end Ally
