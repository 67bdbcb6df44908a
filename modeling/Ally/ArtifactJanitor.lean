import Ally.ChunkIdentity
import Ally.VersionLifecycle

/-!
# The artifact janitor

A janitor run selects the identities of expired failed attempts once and deletes their
artifacts afterwards, one by one and without a lock, while all transactions go on. Any
number of runs may overlap, and each may be given any cutoff and any list of workflows.
-/

open Relational

namespace Ally
namespace Artifacts

/-- What the artifacts of a version are stored under. -/
structure Identity where
  tenantId : Uuid
  documentId : Uuid
  versionId : Uuid
  deriving DecidableEq, Repr

inductive Stage
  | pages | chunks
  deriving DecidableEq, Repr

def Stage.text : Stage → String
  | .pages => "pages"
  | .chunks => "chunks"

/-- `IngestionArtifactStore._key`. -/
def key (identity : Identity) (stage : Stage) : String :=
  "tenants/" ++ Uuid.text identity.tenantId ++ "/documents/" ++ Uuid.text identity.documentId ++
    "/versions/" ++ Uuid.text identity.versionId ++ "/artifacts/" ++ stage.text ++ ".json.gz"

inductive Janitor
  | idle
  | deleting (todo : List (Identity × Stage)) (deleted : ℕ)
  | returned (deleted : ℕ)
  | failed
  deriving DecidableEq, Repr

/-- The run with these deletions before it. -/
def Janitor.next (deleted : ℕ) : List (Identity × Stage) → Janitor
  | [] => .returned deleted
  | todo => .deleting todo deleted

structure World (ι : Type) where
  db : Db
  /-- The column `finished_at` of the attempts. -/
  finishedAt : Uuid → Option ℤ
  /-- The keys under which there is an artifact. -/
  artifacts : List String
  janitor : ι → Janitor

inductive Action (ι : Type)
  | transact (t : Transaction) (now : ℤ)
  | put (identity : Identity) (stage : Stage)
  | cleanup (identity : Identity) (stage : Stage)
  | select (i : ι) (finishedBefore : ℤ) (activeWorkflowIds : List String)
  | delete (i : ι)
  /-- A deletion raises, after it took effect or before. -/
  | fail (i : ι) (deleted : Bool)
  deriving DecidableEq

/-- `NOW()` in the rows a transaction closes. -/
def stampFinished (t : Transaction) (now : ℤ) (db : Db) (finishedAt : Uuid → Option ℤ) :
    Uuid → Option ℤ :=
  match t with
  | .finish documentId attemptId _ tenantId _ _ =>
      if db.attempts.count (isOpenAttempt attemptId documentId tenantId) = 1 then
        Function.update finishedAt attemptId (some now)
      else finishedAt
  | .reconcile => fun i =>
      if ∃ r ∈ db.attempts.rows, r.id = i ∧ db.ownsActive r ∧
          (r.status = .processing ∨ r.status = .failed) ∧
          (r.errorCode = none ∨ r.errorCode = some "workflow_activity_failed") then
        (finishedAt i).or (some now)
      else finishedAt i
  | _ => finishedAt

/-- The `WHERE` clause of `_expired_artifact_identities_sync` on a joined row. -/
def isExpired (finishedBefore : ℤ) (activeWorkflowIds : List String)
    (finishedAt : Uuid → Option ℤ) (r : Attempt) (d : Document) (v : Version) : Bool :=
  d.id = r.documentId ∧ d.tenantId = r.tenantId ∧
    v.attemptId = r.id ∧ v.documentId = r.documentId ∧ v.tenantId = r.tenantId ∧
    (r.status = .failed ∨ r.status = .cancelled) ∧
    (finishedAt r.id).any (· < finishedBefore) ∧ r.workflowId ∉ activeWorkflowIds ∧
    v.status = .failed ∧ d.activeVersionId ≠ some v.id

/-- `_expired_artifact_identities_sync`. -/
def expiredIdentities {ι : Type} (finishedBefore : ℤ) (activeWorkflowIds : List String)
    (w : World ι) : List Identity :=
  (w.db.attempts.rows.flatMap fun r =>
    w.db.documents.rows.flatMap fun d =>
      (w.db.versions.rows.filter (isExpired finishedBefore activeWorkflowIds w.finishedAt r d)).map
        fun v => ⟨d.tenantId, d.id, v.id⟩).dedup

namespace World

variable {ι : Type}

def initial (tenants : List Uuid) : World ι where
  db := .initial tenants
  finishedAt _ := none
  artifacts := []
  janitor _ := .idle

variable [DecidableEq ι]

def setJanitor (i : ι) (j : Janitor) (w : World ι) : World ι :=
  { w with janitor := Function.update w.janitor i j }

def deleteArtifact (identity : Identity) (stage : Stage) (w : World ι) : World ι :=
  { w with artifacts := w.artifacts.filter (· ≠ key identity stage) }

/-- The loop over the identities and `("pages", "chunks")`. -/
def deletions (identities : List Identity) : List (Identity × Stage) :=
  identities.flatMap fun identity => [(identity, .pages), (identity, .chunks)]

def step (w : World ι) : Action ι → World ι
  | .transact t now =>
      match t.apply w.db with
      | .ok db => { w with db, finishedAt := stampFinished t now w.db w.finishedAt }
      | .error _ => w
  | .put identity stage => { w with artifacts := key identity stage :: w.artifacts }
  | .cleanup identity stage => w.deleteArtifact identity stage
  | .select i finishedBefore activeWorkflowIds =>
      w.setJanitor i (.next 0 (deletions (expiredIdentities finishedBefore activeWorkflowIds w)))
  | .delete i =>
      match w.janitor i with
      | .deleting ((identity, stage) :: todo) deleted =>
          (w.deleteArtifact identity stage).setJanitor i (.next (deleted + 1) todo)
      | _ => w
  | .fail i deleted =>
      match w.janitor i with
      | .deleting ((identity, stage) :: _) _ =>
          (if deleted then w.deleteArtifact identity stage else w).setJanitor i .failed
      | _ => w

def run (tenants : List Uuid) (as : List (Action ι)) : World ι := as.foldl step (initial tenants)

/-- The artifact a step of the janitor deletes. -/
def janitorDeletes (w : World ι) : Action ι → Option (Identity × Stage)
  | .delete i | .fail i true =>
      match w.janitor i with
      | .deleting (next :: _) _ => some next
      | _ => none
  | _ => none

end World

/-! ### The keys of the store -/

/-- A key starts with a fixed text and the text of an id. -/
theorem uuid_part_inj {a : String} {u v : Uuid} {b b' : String}
    (h : a ++ Uuid.text u ++ b = a ++ Uuid.text v ++ b') : u = v ∧ b = b' := by
  have hchars : a.toList ++ (Uuid.chars u ++ b.toList) = a.toList ++ (Uuid.chars v ++ b'.toList) := by
    simpa [Uuid.text, String.toList_append] using congrArg String.toList h
  obtain ⟨hid, hrest⟩ := List.append_inj (List.append_cancel_left hchars)
    (by rw [Uuid.chars_length, Uuid.chars_length])
  exact ⟨Uuid.chars_inj hid, String.toList_inj.mp hrest⟩

theorem Stage.text_inj {s s' : Stage}
    (h : "/artifacts/" ++ s.text ++ ".json.gz" = "/artifacts/" ++ s'.text ++ ".json.gz") :
    s = s' := by
  cases s <;> cases s' <;> first | rfl | exact absurd h (by decide)

theorem key_eq (identity : Identity) (stage : Stage) : key identity stage =
    "tenants/" ++ Uuid.text identity.tenantId ++ ("/documents/" ++ Uuid.text identity.documentId ++
      ("/versions/" ++ Uuid.text identity.versionId ++
        ("/artifacts/" ++ stage.text ++ ".json.gz"))) := by
  simp only [key, String.append_assoc]

theorem key_inj {i i' : Identity} {s s' : Stage} (h : key i s = key i' s') : i = i' ∧ s = s' := by
  rw [key_eq, key_eq] at h
  obtain ⟨ht, hdocuments⟩ := uuid_part_inj h
  obtain ⟨hd, hversions⟩ := uuid_part_inj hdocuments
  obtain ⟨hv, hartifacts⟩ := uuid_part_inj hversions
  refine ⟨?_, Stage.text_inj hartifacts⟩
  obtain ⟨t, d, v⟩ := i
  obtain ⟨t', d', v'⟩ := i'
  exact congr (congr (congrArg Identity.mk ht) hd) hv

/-! ### Failed versions -/

/-- The version of the identity is failed. -/
def Failed (identity : Identity) (db : Db) : Prop :=
  ∃ v ∈ db.versions, v.id = identity.versionId ∧ v.documentId = identity.documentId ∧
    v.tenantId = identity.tenantId ∧ v.status = .failed

/-- The version has been activated. -/
def WasActivated (versionId : Uuid) (db : Db) : Prop :=
  ∃ v ∈ db.versions, v.id = versionId ∧ v.status.Activated

variable {ι : Type} {db db' : Db} {t : Transaction} {identity : Identity} {versionId : Uuid}

theorem Failed.not_wasActivated (h : Failed identity db) :
    ¬ WasActivated identity.versionId db := by
  obtain ⟨v, hv, hid, -, -, hfailed⟩ := h
  rintro ⟨w, hw, hwid, hact⟩
  rw [← Table.eq_of_key_eq hv hw (hid.trans hwid.symm), hfailed] at hact
  rcases hact with hact | hact <;> cases hact

theorem Failed.apply (hc : db.Coherent) (hf : Failed identity db) (h : t.apply db = .ok db') :
    Failed identity db' := by
  obtain ⟨v, hv, hid, hdoc, ht, hfailed⟩ := hf
  obtain ⟨v', hv', hsame, hmoves⟩ := version_moves hc h hv
  refine ⟨v', hv', hsame.id.trans hid, hsame.documentId.trans hdoc, hsame.tenantId.trans ht, ?_⟩
  -- no edge of the state machine leaves `failed`
  rw [hfailed] at hmoves
  generalize v'.status = status at hmoves
  cases hmoves
  rfl

theorem WasActivated.apply (hc : db.Coherent) (ha : WasActivated versionId db)
    (h : t.apply db = .ok db') : WasActivated versionId db' := by
  obtain ⟨v, hv, hid, hact⟩ := ha
  obtain ⟨v', hv', hsame, hmoves⟩ := version_moves hc h hv
  exact ⟨v', hv', hsame.id.trans hid, hmoves.activated hact⟩

theorem wasActivated_of_activate {documentId tenantId : Uuid} (hc : db.Coherent)
    (h : activateIngestionVersion documentId versionId tenantId db = .ok db') :
    WasActivated versionId db' := by
  have hc' : db'.Coherent := hc.apply (t := .activate documentId versionId tenantId) h
  obtain ⟨d, hd, -, hp⟩ := activate_points hc h
  obtain ⟨v, hv, hid, -, hact⟩ := hc'.pointer d hd versionId hp
  exact ⟨v, hv, hid, Or.inl hact⟩

/-- A failed version cannot be activated. -/
theorem Failed.not_activated {documentId tenantId : Uuid} (hf : Failed identity db)
    (h : activateIngestionVersion documentId identity.versionId tenantId db = .ok db') : False := by
  obtain ⟨-, -, -, -, w, hw, ⟨hwid, -⟩, hst, -⟩ := activateIngestionVersion_ok h
  obtain ⟨v, hv, hid, -, -, hfailed⟩ := hf
  rw [← Table.eq_of_key_eq hv hw (hid.trans hwid.symm), hfailed] at hst
  rcases hst with hst | hst <;> cases hst

theorem mem_expiredIdentities {w : World ι} {finishedBefore : ℤ} {active : List String}
    (h : identity ∈ expiredIdentities finishedBefore active w) : Failed identity w.db := by
  rw [expiredIdentities, List.mem_dedup, List.mem_flatMap] at h
  obtain ⟨r, -, h⟩ := h
  obtain ⟨d, -, h⟩ := List.mem_flatMap.mp h
  obtain ⟨v, hv, rfl⟩ := List.mem_map.mp h
  obtain ⟨hv, hexpired⟩ := List.mem_filter.mp hv
  obtain ⟨hid, ht, -, hdoc, hten, -, -, -, hfailed, -⟩ := of_decide_eq_true hexpired
  exact ⟨v, hv, rfl, hdoc.trans hid.symm, hten.trans ht.symm, hfailed⟩

/-! ### What a step does -/

namespace World

variable [DecidableEq ι] {w : World ι} {a : Action ι}

@[simp] theorem janitor_self (i : ι) (j : Janitor) (w : World ι) :
    (w.setJanitor i j).janitor i = j := Function.update_self ..

theorem janitor_of_ne {i i' : ι} (h : i' ≠ i) (j : Janitor) (w : World ι) :
    (w.setJanitor i j).janitor i' = w.janitor i' := Function.update_of_ne h ..

/-- One case for each way a step changes the world. -/
inductive Moves (w : World ι) : Action ι → World ι → Prop
  | stay (a : Action ι) : Moves w a w
  | transact (t : Transaction) (now : ℤ) (db : Db) (commits : t.apply w.db = .ok db) :
      Moves w (.transact t now)
        { w with db, finishedAt := stampFinished t now w.db w.finishedAt }
  | put (identity : Identity) (stage : Stage) :
      Moves w (.put identity stage) { w with artifacts := key identity stage :: w.artifacts }
  | cleanup (identity : Identity) (stage : Stage) :
      Moves w (.cleanup identity stage) (w.deleteArtifact identity stage)
  | select (i : ι) (finishedBefore : ℤ) (active : List String) :
      Moves w (.select i finishedBefore active)
        (w.setJanitor i (.next 0 (deletions (expiredIdentities finishedBefore active w))))
  | delete (i : ι) (identity : Identity) (stage : Stage) (todo : List (Identity × Stage))
      (deleted : ℕ) (turn : w.janitor i = .deleting ((identity, stage) :: todo) deleted) :
      Moves w (.delete i)
        ((w.deleteArtifact identity stage).setJanitor i (.next (deleted + 1) todo))
  | fail (i : ι) (identity : Identity) (stage : Stage) (todo : List (Identity × Stage))
      (deleted : ℕ) (effect : Bool)
      (turn : w.janitor i = .deleting ((identity, stage) :: todo) deleted) :
      Moves w (.fail i effect)
        ((if effect then w.deleteArtifact identity stage else w).setJanitor i .failed)

theorem step_moves (w : World ι) (a : Action ι) : w.Moves a (w.step a) := by
  cases a with
  | transact t now =>
    rw [step]
    cases h : t.apply w.db with
    | error e => exact .stay _
    | ok db => exact .transact t now db h
  | put identity stage => exact .put identity stage
  | cleanup identity stage => exact .cleanup identity stage
  | select i finishedBefore active => exact .select i finishedBefore active
  | delete i =>
    rw [step]
    split
    · exact .delete _ _ _ _ _ ‹_›
    · exact .stay _
  | fail i effect =>
    rw [step]
    split
    · exact .fail _ _ _ _ _ _ ‹_›
    · exact .stay _

/-- Only a transaction changes the database. -/
theorem step_db (w : World ι) (a : Action ι) :
    (w.step a).db = w.db ∨ ∃ t now, a = .transact t now ∧ t.apply w.db = .ok (w.step a).db := by
  have h := w.step_moves a
  generalize w.step a = w' at h
  cases h with
  | transact t now db commits => exact Or.inr ⟨t, now, rfl, commits⟩
  | fail i identity stage todo deleted effect turn => cases effect <;> exact Or.inl rfl
  | _ => exact Or.inl rfl

/-- Every committed transaction keeps the property. -/
def KeptByCommits (P : Db → Prop) : Prop :=
  ∀ (db : Db) (t : Transaction) (db' : Db), db.Coherent → P db → t.apply db = .ok db' → P db'

theorem step_invariant {P : Db → Prop} (hP : KeptByCommits P) {w : World ι} (hc : w.db.Coherent) (hw : P w.db) (a : Action ι) : P (w.step a).db := by
  rcases w.step_db a with he | ⟨t, now, -, h⟩
  · rw [he]
    exact hw
  · exact hP _ t _ hc hw h

theorem coherent_step {w : World ι} (a : Action ι) (hc : w.db.Coherent) :
    (w.step a).db.Coherent :=
  step_invariant (fun _ _ _ hc _ h => hc.apply h) hc hc a

/-- Run lemma: what transactions keep holds in every later state. -/
theorem later {P : Db → Prop} (hP : KeptByCommits P) {w : World ι} (hc : w.db.Coherent)
    (hw : P w.db) (as : List (Action ι)) : P (as.foldl step w).db := by
  have hboth : (as.foldl step w).db.Coherent ∧ P (as.foldl step w).db :=
    Machine.foldl_invariant (P := fun w : World ι => w.db.Coherent ∧ P w.db)
      (fun _ a h => ⟨coherent_step a h.1, step_invariant hP h.1 h.2 a⟩) ⟨hc, hw⟩ as
  exact hboth.2

theorem coherent_run (tenants : List Uuid) (as : List (Action ι)) :
    (run tenants as).db.Coherent :=
  Machine.foldl_invariant (P := fun w : World ι => w.db.Coherent) (fun _ a h => coherent_step a h)
    (Db.coherent_initial tenants) as

theorem run_append (tenants : List Uuid) (as bs : List (Action ι)) :
    run tenants (as ++ bs) = bs.foldl step (run tenants as) :=
  List.foldl_append

/-! ### Where a deletion comes from -/

/-- The janitor run has the deletion before it. -/
def Pending (w : World ι) (r : ι × Identity × Stage) : Prop :=
  ∃ todo deleted, w.janitor r.1 = .deleting todo deleted ∧ r.2 ∈ todo

/-- The selection that put the deletion on the list of its run. -/
def Selects (w : World ι) (a : Action ι) (r : ι × Identity × Stage) : Prop :=
  ∃ finishedBefore active, a = .select r.1 finishedBefore active ∧
    r.2.1 ∈ expiredIdentities finishedBefore active w

theorem pending_next {i : ι} {n : ℕ} {todo : List (Identity × Stage)} {r : ι × Identity × Stage}
    (h : (w.setJanitor i (.next n todo)).Pending r) : w.Pending r ∨ (r.1 = i ∧ r.2 ∈ todo) := by
  obtain ⟨left, deleted, hj, hmem⟩ := h
  by_cases hi : r.1 = i
  · right
    rw [hi, janitor_self] at hj
    cases todo with
    | nil => cases hj
    | cons next todo =>
      obtain ⟨rfl, -⟩ := Janitor.deleting.inj hj
      exact ⟨hi, hmem⟩
  · left
    rw [janitor_of_ne hi] at hj
    exact ⟨left, deleted, hj, hmem⟩

theorem pending_step {r : ι × Identity × Stage} (h : (w.step a).Pending r) :
    w.Pending r ∨ w.Selects a r := by
  have hmoves := w.step_moves a
  generalize w.step a = w' at h hmoves
  cases hmoves with
  | stay => exact Or.inl h
  | transact t now db commits => exact Or.inl h
  | put identity stage => exact Or.inl h
  | cleanup identity stage => exact Or.inl h
  | select i finishedBefore active =>
    rcases pending_next h with hold | ⟨rfl, hmem⟩
    · exact Or.inl hold
    · right
      obtain ⟨identity, hid, hmem⟩ := List.mem_flatMap.mp hmem
      refine ⟨finishedBefore, active, rfl, ?_⟩
      rcases List.mem_pair.mp hmem with he | he <;> rw [he] <;> exact hid
  | delete i identity stage todo deleted turn =>
    left
    rcases pending_next h with hold | ⟨rfl, hmem⟩
    · exact hold
    · exact ⟨_, deleted, turn, List.mem_cons_of_mem _ hmem⟩
  | fail i identity stage todo deleted effect turn =>
    left
    obtain ⟨left, n, hj, hmem⟩ := h
    by_cases hi : r.1 = i
    · rw [hi, janitor_self] at hj
      cases hj
    · rw [janitor_of_ne hi] at hj
      cases effect <;> exact ⟨left, n, hj, hmem⟩

omit [DecidableEq ι] in
theorem janitorDeletes_pending {identity : Identity} {stage : Stage}
    (h : w.janitorDeletes a = some (identity, stage)) :
    ∃ i, w.Pending (i, identity, stage) := by
  have hhead : ∀ i, (match w.janitor i with
      | .deleting (next :: _) _ => some next
      | _ => none) = some (identity, stage) → w.Pending (i, identity, stage) := by
    intro i hi
    cases hj : w.janitor i with
    | deleting todo deleted =>
      cases todo with
      | nil => simp [hj] at hi
      | cons next todo =>
        simp only [hj, Option.some.injEq] at hi
        subst hi
        exact ⟨_, deleted, hj, List.mem_cons_self⟩
    | _ => simp [hj] at hi
  cases a with
  | delete i => exact ⟨i, hhead i h⟩
  | fail i effect =>
    cases effect with
    | true => exact ⟨i, hhead i h⟩
    | false => cases h
  | _ => cases h

/-! ### Safety -/

/-- A deletion was selected earlier, when its version was failed. -/
theorem deletion_selected (tenants : List Uuid) {as : List (Action ι)} {a : Action ι}
    {identity : Identity} {stage : Stage}
    (h : (run tenants as).janitorDeletes a = some (identity, stage)) :
    ∃ before i finishedBefore active between,
      as = before ++ .select i finishedBefore active :: between ∧
      identity ∈ expiredIdentities finishedBefore active (run tenants before) := by
  obtain ⟨i, hpending⟩ := janitorDeletes_pending h
  have hnone : ∀ r, ¬ (initial tenants : World ι).Pending r := by
    rintro r ⟨todo, deleted, hj, -⟩
    cases hj
  obtain ⟨before, _, between, rfl, ⟨finishedBefore, active, rfl, hmem⟩, -⟩ :=
    Machine.exists_origin (f := step) (fun _ => True) Pending Selects (fun _ _ _ => False)
      (fun _ _ _ => trivial)
      (fun w a r _ hr => (pending_step hr).imp (fun hold => ⟨hold, not_false⟩) id)
      trivial hnone as hpending
  exact ⟨before, i, finishedBefore, active, between, rfl, hmem⟩

theorem failed_later (tenants : List Uuid) {as : List (Action ι)} {identity : Identity}
    (h : Failed identity (run tenants as).db) (more : List (Action ι)) :
    Failed identity (run tenants (as ++ more)).db := by
  rw [run_append]
  exact later (fun _ _ _ hc hf h => hf.apply hc h) (coherent_run tenants as) h more

/-- An activation that commits anywhere in a run leaves its version out of every deletion. -/
theorem not_deleted_of_activated (tenants : List Uuid) {as before after pre post : List (Action ι)}
    {documentId versionId tenantId : Uuid} {now : ℤ} {db' : Db} {a : Action ι}
    {identity : Identity} {stage : Stage}
    (has : as = before ++ .transact (.activate documentId versionId tenantId) now :: after)
    (hactivate : activateIngestionVersion documentId versionId tenantId
      (run tenants before).db = .ok db')
    (has' : as = pre ++ a :: post)
    (hdelete : (run tenants pre).janitorDeletes a = some (identity, stage)) :
    identity.versionId ≠ versionId := by
  rintro rfl
  obtain ⟨start, i, finishedBefore, active, between, rfl, hmem⟩ := deletion_selected tenants hdelete
  have hfailed : Failed identity (run tenants start).db := mem_expiredIdentities hmem
  have hstart : start <+: as := by
    rw [has', List.append_assoc]
    exact List.prefix_append _ _
  have hbefore : before <+: as := has ▸ List.prefix_append _ _
  rcases List.prefix_or_prefix_of_prefix hstart hbefore with ⟨more, rfl⟩ | ⟨more, rfl⟩
  · -- the selection came first: the version is still failed when it is activated
    exact (failed_later tenants hfailed more).not_activated hactivate
  · cases more with
    | nil =>
      rw [List.append_nil] at hfailed
      exact hfailed.not_activated hactivate
    | cons first more =>
      -- the activation came first: the version has been activated when it is selected
      obtain rfl : first = .transact (.activate documentId identity.versionId tenantId) now := by
        rw [has, List.append_assoc, List.append_assoc] at has'
        exact (List.cons.inj (List.append_cancel_left has')).1.symm
      have hstep : ((run tenants before).step
          (.transact (.activate documentId identity.versionId tenantId) now)).db = db' := by
        have happly : (Transaction.activate documentId identity.versionId tenantId).apply
            (run tenants before).db = .ok db' := hactivate
        simp only [step, happly]
      have hact : WasActivated identity.versionId db' :=
        wasActivated_of_activate (coherent_run tenants before) hactivate
      rw [run_append, List.foldl_cons] at hfailed
      refine hfailed.not_wasActivated (later (fun _ _ _ hc ha h => ha.apply hc h)
        (coherent_step _ (coherent_run tenants before)) ?_ more)
      rw [hstep]
      exact hact

/-- An artifact disappears by a cleanup or by a deletion of the janitor. -/
theorem artifact_stays {k : String} (hk : k ∈ w.artifacts)
    (hcleanup : ∀ identity stage, a = .cleanup identity stage → key identity stage ≠ k)
    (hjanitor : ∀ identity stage, w.janitorDeletes a = some (identity, stage) →
      key identity stage ≠ k) : k ∈ (w.step a).artifacts := by
  have hkeep : ∀ identity stage, key identity stage ≠ k →
      k ∈ (w.deleteArtifact identity stage).artifacts := by
    intro identity stage hne
    exact List.mem_filter.mpr ⟨hk, decide_eq_true hne.symm⟩
  have hmoves := w.step_moves a
  generalize w.step a = w' at hmoves
  cases hmoves with
  | stay => exact hk
  | transact t now db commits => exact hk
  | put identity stage => exact List.mem_cons_of_mem _ hk
  | cleanup identity stage => exact hkeep identity stage (hcleanup identity stage rfl)
  | select i finishedBefore active => exact hk
  | delete i identity stage todo deleted turn =>
    exact hkeep identity stage (hjanitor identity stage (by simp only [janitorDeletes, turn]))
  | fail i identity stage todo deleted effect turn =>
    cases effect with
    | true => exact hkeep identity stage (hjanitor identity stage (by simp only [janitorDeletes, turn]))
    | false => exact hk

/-- Artifacts that no cleanup removes are there when their version is activated. -/
theorem artifact_at_activation (tenants : List Uuid) {pre mid : List (Action ι)}
    {documentId versionId tenantId : Uuid} {stage : Stage} {db' : Db}
    (hactivate : activateIngestionVersion documentId versionId tenantId
      (run tenants (pre ++ mid)).db = .ok db')
    (hcleanup : .cleanup ⟨tenantId, documentId, versionId⟩ stage ∉ mid)
    (hk : key ⟨tenantId, documentId, versionId⟩ stage ∈ (run tenants pre).artifacts) :
    key ⟨tenantId, documentId, versionId⟩ stage ∈ (run tenants (pre ++ mid)).artifacts := by
  -- the steps up to any point between the two
  have hprefix : ∀ done rest, mid = done ++ rest →
      key ⟨tenantId, documentId, versionId⟩ stage ∈ (run tenants (pre ++ done)).artifacts := by
    intro done
    induction done using List.reverseRecOn with
    | nil =>
      intro rest _
      rwa [List.append_nil]
    | append_singleton done a ih =>
      intro rest hmid
      rw [← List.append_assoc, run_append, List.foldl_cons, List.foldl_nil]
      refine artifact_stays (ih (a :: rest) (by rw [hmid]; simp)) ?_ ?_
      · rintro identity stage' rfl hkey
        obtain ⟨rfl, rfl⟩ := key_inj hkey
        exact hcleanup (by rw [hmid]; simp)
      · intro identity stage' hdelete hkey
        obtain ⟨rfl, rfl⟩ := key_inj hkey
        have hsplit : pre ++ mid ++ [.transact (.activate documentId versionId tenantId) 0] =
            (pre ++ done) ++ a :: (rest ++
              [.transact (.activate documentId versionId tenantId) 0]) := by
          rw [hmid]
          simp
        exact not_deleted_of_activated tenants rfl hactivate hsplit hdelete rfl
  exact hprefix mid [] (List.append_nil mid).symm

/-- The janitor never removes what a document can still need. -/
theorem janitor_safe (tenants : List Uuid) (as : List (Action ι)) :
    (∀ pre a post identity stage, as = pre ++ a :: post →
      (run tenants pre).janitorDeletes a = some (identity, stage) →
      ∃ before i finishedBefore active between,
        pre = before ++ .select i finishedBefore active :: between ∧
        identity ∈ expiredIdentities finishedBefore active (run tenants before) ∧
        ∀ more, Failed identity (run tenants (before ++ more)).db ∧
          ∀ d ∈ (run tenants (before ++ more)).db.documents,
            d.activeVersionId ≠ some identity.versionId) ∧
    (∀ before after documentId versionId tenantId now db',
      as = before ++ .transact (.activate documentId versionId tenantId) now :: after →
      activateIngestionVersion documentId versionId tenantId (run tenants before).db = .ok db' →
      ∀ pre a post identity stage, as = pre ++ a :: post →
        (run tenants pre).janitorDeletes a = some (identity, stage) →
        identity.versionId ≠ versionId) ∧
    ∀ pre mid documentId versionId tenantId stage db', as = pre ++ mid →
      activateIngestionVersion documentId versionId tenantId (run tenants as).db = .ok db' →
      .cleanup ⟨tenantId, documentId, versionId⟩ stage ∉ mid →
      key ⟨tenantId, documentId, versionId⟩ stage ∈ (run tenants pre).artifacts →
      key ⟨tenantId, documentId, versionId⟩ stage ∈ (run tenants as).artifacts := by
  refine ⟨?_, ?_, ?_⟩
  · intro pre a post identity stage _ hdelete
    obtain ⟨before, i, finishedBefore, active, between, rfl, hmem⟩ :=
      deletion_selected tenants hdelete
    refine ⟨before, i, finishedBefore, active, between, rfl, hmem, fun more => ?_⟩
    have hfailed := failed_later tenants (mem_expiredIdentities hmem) more
    refine ⟨hfailed, fun d hd hp => hfailed.not_wasActivated ?_⟩
    obtain ⟨v, hv, hid, -, hact⟩ := (coherent_run tenants _).pointer d hd _ hp
    exact ⟨v, hv, hid, Or.inl hact⟩
  · intro before after documentId versionId tenantId now db' has hactivate pre a post identity
      stage has' hdelete
    exact not_deleted_of_activated tenants has hactivate has' hdelete
  · rintro pre mid documentId versionId tenantId stage db' rfl hactivate hcleanup hk
    exact artifact_at_activation tenants hactivate hcleanup hk

/-- An upload that fails after its first stage, and a janitor run after it. -/
def failedUpload : List (Action ℕ) :=
  [.transact (.register ⟨1, 2, 3, "s3://b/a.pdf", "".pushn 'a' 64, "a.pdf", 7, "ingest-2"⟩) 0,
    .transact (.stage 1 2 7 "detecting") 1, .put ⟨7, 1, 3⟩ .pages,
    .transact (.finish 1 2 3 7 .failed none) 2, .select 0 9 [], .delete 0]

set_option maxRecDepth 8000 in
theorem failedUpload_deletes : (run [7] (failedUpload.take 5)).janitorDeletes (.delete 0) =
    some (⟨7, 1, 3⟩, .pages) := by decide +kernel

theorem janitor_safe_failedUpload : Failed ⟨7, 1, 3⟩ (run [7] failedUpload).db := by
  obtain ⟨before, i, finishedBefore, active, between, hsplit, -, hfailed⟩ :=
    (janitor_safe [7] failedUpload).1 (failedUpload.take 5) (.delete 0) [] ⟨7, 1, 3⟩ .pages rfl
      failedUpload_deletes
  have hrun : failedUpload =
      before ++ (.select i finishedBefore active :: between ++ [.delete 0]) := by
    rw [← List.append_assoc, ← hsplit]
    rfl
  rw [hrun]
  exact (hfailed _).1

end World
end Artifacts
end Ally
