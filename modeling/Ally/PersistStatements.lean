import Ally.VersionLifecycle

/-!
# `persist_chunks` statement by statement

A versioned `persist_chunks` call is a transaction of many statements under READ
COMMITTED. Here any number of such transactions are open at once and every other
transaction commits between their statements.

A DELETE acts on the rows its snapshot holds, waits for whoever has locked one of
them, and does not see a row that commits meanwhile. An INSERT waits for an open
transaction that has written or deleted its key, and locks the version and the
document FOR KEY SHARE through its foreign keys. The count update locks the version
row. What a transaction writes is seen by the others when it commits.
-/

open Relational

namespace Ally

/-- The arguments of a versioned `persist_chunks` call. -/
structure PersistCall where
  tenantId : Uuid
  documentId : Uuid
  versionId : Uuid
  filename : String
  chunks : List TextChunk
  deriving DecidableEq, Repr

namespace PersistCall

variable (c : PersistCall)

def rows : List VersionChunk :=
  c.chunks.mapIdx (versionChunk c.tenantId c.documentId c.versionId c.filename)

def transaction : Transaction :=
  .persist c.tenantId c.documentId c.versionId c.filename c.chunks

/-- The `WHERE` clause of the DELETE. -/
def owns (r : VersionChunk) : Bool := r.isOf c.tenantId c.documentId c.versionId

/-- The `WHERE` clause of the count update. -/
def isStaged (v : Version) : Bool := isStagedVersion c.versionId c.documentId c.tenantId v

end PersistCall

/-- The statement an open transaction is at: its DELETE waits for locks, the INSERT
of the chunk `next` is to come, or the count update has been made. -/
inductive PersistPhase
  | deleting
  | inserting (next : ℕ)
  | counted
  deriving DecidableEq, Repr

/-- An open transaction of the server process `pid`. -/
structure PersistTx where
  pid : ℕ
  call : PersistCall
  /-- The keys of the rows its DELETE found that no other transaction has deleted since. -/
  doomed : List (Uuid × Uuid × ℤ × ℕ)
  phase : PersistPhase
  deriving DecidableEq, Repr

namespace PersistTx

def inserted (p : PersistTx) : ℕ :=
  match p.phase with
  | .deleting => 0
  | .inserting next => next
  | .counted => p.call.chunks.length

/-- The keys of the chunk rows it has deleted or written. -/
def lockedChunks (p : PersistTx) : List (Uuid × Uuid × ℤ × ℕ) :=
  match p.phase with
  | .deleting => []
  | _ => p.doomed ++ (p.call.rows.take p.inserted).map VersionChunk.key

def setPhase (phase : PersistPhase) : Rewrite PersistTx.pid where
  toFun p := { p with phase }
  keeps _ := rfl

/-- Rows another transaction deleted are no longer there to delete. -/
def forget (deleted : List (Uuid × Uuid × ℤ × ℕ)) : Rewrite PersistTx.pid where
  toFun p := { p with doomed := p.doomed.filter (· ∉ deleted) }
  keeps _ := rfl

/-- What the transaction makes of the committed tables. -/
def commit (p : PersistTx) (db : Db) : Db :=
  { db with
    versionChunks := (db.versionChunks.delete (fun r => r.key ∈ p.doomed)).upsertAll
      p.call.rows VersionChunk.overwrite
    versions := db.versions.update p.call.isStaged
      (Version.setChunkCount p.call.chunks.length) }

end PersistTx

/-- The lock a transaction of one of the other activities waits for. -/
def Transaction.waitsFor (t : Transaction) (p : PersistTx) : Bool :=
  match t with
  | .activate documentId versionId _ =>
      (p.call.versionId = versionId ∧ (0 < p.inserted ∨ p.phase = .counted)) ∨
        (p.call.documentId = documentId ∧ 0 < p.inserted)
  | .finish _ _ versionId _ _ _ => p.call.versionId = versionId ∧ p.phase = .counted
  | .tombstone documentId _ _ => p.call.documentId = documentId ∧ 0 < p.inserted
  | _ => false

def Transaction.isPersist : Transaction → Bool
  | .persist .. => true
  | _ => false

structure PersistWorld where
  db : Db
  txs : Table PersistTx.pid
  /-- The last persist that committed for a version. -/
  last : Uuid → Option PersistCall

inductive Statement
  | transact (t : Transaction)
  | startDelete (pid : ℕ) (call : PersistCall)
  | endDelete (pid : ℕ)
  | insert (pid : ℕ)
  | count (pid : ℕ)
  | commit (pid : ℕ)
  | rollback (pid : ℕ)
  deriving DecidableEq, Repr

namespace PersistWorld

def initial (tenants : List Uuid) : PersistWorld where
  db := .initial tenants
  txs := .empty
  last _ := none

variable (w : PersistWorld)

def tx (pid : ℕ) : Option PersistTx := w.txs.select fun p => p.pid = pid

def toPhase (pid : ℕ) (phase : PersistPhase) : PersistWorld :=
  { w with txs := w.txs.update (fun p => p.pid = pid) (PersistTx.setPhase phase) }

/-- The connection closes without a commit. -/
def close (pid : ℕ) : PersistWorld :=
  { w with txs := w.txs.delete fun p => p.pid = pid }

/-- Another open transaction has a lock on the key. -/
def blocks (pid : ℕ) (key : Uuid × Uuid × ℤ × ℕ) : Bool :=
  w.txs.rows.any fun q => q.pid ≠ pid ∧ key ∈ q.lockedChunks

/-- Another open transaction has updated the version row. -/
def blocksCount (pid : ℕ) (versionId : Uuid) : Bool :=
  w.txs.rows.any fun q => q.pid ≠ pid ∧ q.phase = .counted ∧ q.call.versionId = versionId

def transact (t : Transaction) : Option PersistWorld :=
  if t.isPersist ∨ w.txs.rows.any t.waitsFor then none
  else match t.apply w.db with
    | .ok db => some { w with db }
    | .error _ => some w

def startDelete (pid : ℕ) (call : PersistCall) : Option PersistWorld :=
  (w.txs.insert ⟨pid, call,
    (w.db.versionChunks.rows.filter call.owns).map VersionChunk.key, .deleting⟩).map
    fun txs => { w with txs }

def endDelete (pid : ℕ) (p : PersistTx) : Option PersistWorld :=
  if p.phase = .deleting ∧ ∀ key ∈ p.doomed, w.blocks pid key = false then
    some (w.toPhase pid (.inserting 0))
  else none

def insert (pid : ℕ) (p : PersistTx) : Option PersistWorld :=
  match p.phase with
  | .inserting next =>
      match p.call.rows[next]? with
      | some row =>
          if w.blocks pid row.key then none
          else match insertVersionChunk row w.db with
            | .ok _ => some (w.toPhase pid (.inserting (next + 1)))
            | .error _ => some (w.close pid)
      | none => none
  | _ => none

def count (pid : ℕ) (p : PersistTx) : Option PersistWorld :=
  if p.phase = .inserting p.call.chunks.length ∧ w.blocksCount pid p.call.versionId = false then
    if w.db.versions.count p.call.isStaged = 1 then some (w.toPhase pid .counted)
    else some (w.close pid)
  else none

def commit (pid : ℕ) (p : PersistTx) : Option PersistWorld :=
  if p.phase = .counted then
    some { w with
      db := p.commit w.db
      txs := (w.close pid).txs.update (fun _ => true) (PersistTx.forget p.doomed)
      last := Function.update w.last p.call.versionId (some p.call) }
  else none

def step : Statement → Option PersistWorld
  | .transact t => w.transact t
  | .startDelete pid call => w.startDelete pid call
  | .endDelete pid => (w.tx pid).bind (w.endDelete pid)
  | .insert pid => (w.tx pid).bind (w.insert pid)
  | .count pid => (w.tx pid).bind (w.count pid)
  | .commit pid => (w.tx pid).bind (w.commit pid)
  | .rollback pid => (w.tx pid).map fun _ => w.close pid

end PersistWorld
end Ally
