import Ally.ActivationOrder

/-!
# The ledger of registrations

`_register_ingestion_sync` upserts the document before it looks at the attempt and the
version, so a late conflict undoes a write. The rows as they were registered only grow,
and their numbers are allocated as the maximum plus one.
-/

open Relational

namespace Ally

/-! ### The transaction and its rollback -/

/-- The committed database and the one the open transaction sees. -/
structure Connection where
  committed : Db
  working : Db

namespace Connection

def commit (c : Connection) : Connection := { c with committed := c.working }

def rollback (c : Connection) : Connection := { c with working := c.committed }

/-- The statements up to the first one that raises. -/
def execute : List (Db → Except PyError Db) → Connection → Connection × Option PyError
  | [], c => (c, none)
  | s :: ss, c =>
      match s c.working with
      | .ok db => execute ss { c with working := db }
      | .error e => (c, some e)

end Connection

/-- `_register_ingestion_sync`: the connection it closes and its result. -/
def registerIngestionSync (a : RegisterArgs) (db : Db) : Connection × Except PyError Bool :=
  match Connection.execute [upsertDocument a, ensureAttempt a, ensureVersion a] ⟨db, db⟩ with
  | (c, none) => (c.commit, .ok true)
  | (c, some e) => (c.rollback, .error e)

variable {db db' : Db} {a : RegisterArgs} {t : Transaction}

/-- The transaction takes effect as a whole or not at all. -/
theorem registerIngestionSync_eq (a : RegisterArgs) (db : Db) :
    registerIngestionSync a db = match registerIngestion a db with
      | .ok db' => (⟨db', db'⟩, .ok true)
      | .error e => (⟨db, db⟩, .error e) := by
  unfold registerIngestionSync registerIngestion
  cases h₁ : upsertDocument a db with
  | error e => simp [Connection.execute, h₁, Connection.rollback, bind, Except.bind]
  | ok db₁ =>
    cases h₂ : ensureAttempt a db₁ with
    | error e => simp [Connection.execute, h₁, h₂, Connection.rollback, bind, Except.bind]
    | ok db₂ =>
      cases h₃ : ensureVersion a db₂ with
      | error e => simp [Connection.execute, h₁, h₂, h₃, Connection.rollback, bind, Except.bind]
      | ok db₃ => simp [Connection.execute, h₁, h₂, h₃, Connection.commit, bind, Except.bind]

/-! ### Rows as they were registered -/

def Attempt.asRegistered (r : Attempt) : Attempt :=
  { r with status := .queued, currentStage := none, errorCode := none }

def Version.asRegistered (v : Version) : Version := { v with status := .staged, chunkCount := 0 }

/-- The attempts as they were registered, in commit order. -/
def Db.attemptLedger (db : Db) : List Attempt := db.attempts.rows.map Attempt.asRegistered

/-- The versions as they were registered, in commit order. -/
def Db.versionLedger (db : Db) : List Version := db.versions.rows.map Version.asRegistered

def Db.attemptNumbers (db : Db) (documentId : Uuid) : List ℕ :=
  Table.numbersOf Attempt.documentId Attempt.attemptNumber db.attempts.rows documentId

def Db.versionNumbers (db : Db) (documentId : Uuid) : List ℕ :=
  Table.numbersOf Version.documentId Version.versionNumber db.versions.rows documentId

theorem attemptNumbers_eq (db : Db) (documentId : Uuid) : db.attemptNumbers documentId =
    Table.numbersOf Attempt.documentId Attempt.attemptNumber db.attemptLedger documentId := by
  simp only [Db.attemptNumbers, Db.attemptLedger, Table.numbersOf, List.filter_map, List.map_map]
  rfl

theorem versionNumbers_eq (db : Db) (documentId : Uuid) : db.versionNumbers documentId =
    Table.numbersOf Version.documentId Version.versionNumber db.versionLedger documentId := by
  simp only [Db.versionNumbers, Db.versionLedger, Table.numbersOf, List.filter_map, List.map_map]
  rfl

/-- The ledgers of two databases are the same. -/
structure Db.SameLedger (db db' : Db) : Prop where
  attempts : db'.attemptLedger = db.attemptLedger
  versions : db'.versionLedger = db.versionLedger

theorem Db.SameLedger.refl (db : Db) : db.SameLedger db := ⟨rfl, rfl⟩

theorem Db.SameLedger.trans {db'' : Db} (h : db.SameLedger db') (h' : db'.SameLedger db'') :
    db.SameLedger db'' :=
  ⟨h'.attempts.trans h.attempts, h'.versions.trans h.versions⟩

theorem sameLedger_failVersion {documentId versionId tenantId : Uuid} {status : AttemptStatus}
    (h : failVersion documentId versionId tenantId status db = .ok db') : db.SameLedger db' := by
  rcases failVersion_ok_iff.mp h with ⟨-, -, rfl⟩ | ⟨-, -, rfl⟩
  · exact .refl _
  · exact ⟨rfl, Table.map_update fun _ => rfl⟩

/-- Step lemma of the ledgers: only a registration writes in them. -/
theorem sameLedger (ht : ∀ a, t ≠ .register a) (h : t.apply db = .ok db') :
    db.SameLedger db' := by
  cases t with
  | register a => exact absurd rfl (ht a)
  | stage documentId attemptId tenantId stage =>
    obtain ⟨-, -, -, rfl⟩ := updateIngestionStage_ok_iff.mp h
    exact ⟨Table.map_update fun _ => rfl, rfl⟩
  | persist tenantId documentId versionId filename chunks =>
    obtain ⟨-, _, rfl⟩ := persistVersionChunks_ok h
    exact ⟨rfl, Table.map_update fun _ => rfl⟩
  | activate documentId versionId tenantId =>
    obtain ⟨d, -, -, -, -, -, -, -, ⟨-, rfl⟩ | ⟨-, rfl⟩⟩ := activateIngestionVersion_ok h
    · exact .refl _
    · have hprevious : db.SameLedger
          (supersedePrevious d.activeVersionId documentId tenantId db) := by
        cases d.activeVersionId with
        | none => exact .refl _
        | some i => exact ⟨rfl, Table.map_update fun _ => rfl⟩
      have hactive : (supersedePrevious d.activeVersionId documentId tenantId db).SameLedger
          (makeActive documentId versionId tenantId
            (supersedePrevious d.activeVersionId documentId tenantId db)) :=
        ⟨rfl, Table.map_update fun _ => rfl⟩
      exact hprevious.trans hactive
  | finish documentId attemptId versionId tenantId status errorCode =>
    obtain ⟨-, ⟨-, -, rfl⟩ | ⟨-, hclose⟩⟩ := finishIngestionAttempt_ok_iff.mp h
    · exact .refl _
    · have hclosed : db.SameLedger
          (closeAttempt documentId attemptId tenantId status errorCode db) :=
        ⟨Table.map_update fun _ => rfl, rfl⟩
      rcases hclose with ⟨-, rfl⟩ | ⟨-, hfail⟩
      · exact hclosed
      · exact hclosed.trans (sameLedger_failVersion hfail)
  | tombstone documentId tenantId reason =>
    obtain ⟨d, -, -, _, _, ⟨-, rfl⟩ | ⟨-, rfl⟩⟩ := tombstoneIngestionDocument_ok h
    · exact ⟨rfl, rfl⟩
    · exact ⟨rfl, Table.map_update fun _ => rfl⟩
  | reconcile =>
    obtain rfl := Except.ok.inj h
    exact ⟨Table.map_update fun _ => rfl, rfl⟩

/-! ### What a registration adds -/

theorem upsertDocument_ledger (h : upsertDocument a db = .ok db') : db.SameLedger db' := by
  rcases upsertDocument_ok h with ⟨-, _, -, rfl⟩ | ⟨-, rfl⟩ <;> exact ⟨rfl, rfl⟩

/-- The attempt of the workflow is there, or a new one gets the next number. -/
theorem ensureAttempt_cases (h : ensureAttempt a db = .ok db') :
    (db' = db ∧ ∃ r ∈ db.attempts, r.workflowId = a.workflowId ∧ r.id = a.attemptId ∧
        r.documentId = a.documentId ∧ r.tenantId = a.tenantId) ∨
      ((∀ r ∈ db.attempts, r.workflowId ≠ a.workflowId) ∧ ∃ attempts,
        attempts.rows = db.attempts.rows ++ [a.attempt (db.attempts.maxOf
          (fun r => r.documentId = a.documentId ∧ r.tenantId = a.tenantId)
          Attempt.attemptNumber + 1)] ∧
        db' = { db with attempts }) := by
  rcases ensureAttempt_ok h with hold | ⟨hfresh, -⟩
  · exact Or.inl hold
  · refine Or.inr ⟨hfresh, ?_⟩
    have hs : db.attempts.select (fun r => r.workflowId = a.workflowId) = none :=
      Table.select_none.mpr fun r hr => decide_eq_false (hfresh r hr)
    unfold ensureAttempt at h
    simp only [hs, fetch_bind_ok] at h
    obtain ⟨attempts, hi, he⟩ := h
    exact ⟨attempts, Table.rows_insert hi, (Except.ok.inj he).symm⟩

theorem ensureVersion_cases (h : ensureVersion a db = .ok db') :
    (db' = db ∧ ∃ v ∈ db.versions, v.id = a.versionId ∧ v.documentId = a.documentId ∧
        v.tenantId = a.tenantId ∧ v.attemptId = a.attemptId ∧
        v.contentSha256 = a.contentSha256 ∧ v.storageRef = a.storageRef) ∨
      ((∀ v ∈ db.versions, v.id ≠ a.versionId) ∧ ∃ versions,
        versions.rows = db.versions.rows ++ [a.version (db.versions.maxOf
          (fun v => v.documentId = a.documentId ∧ v.tenantId = a.tenantId)
          Version.versionNumber + 1)] ∧
        db' = { db with versions }) := by
  unfold ensureVersion at h
  cases hs : db.versions.select fun v => v.id = a.versionId with
  | none =>
    simp only [hs, fetch_bind_ok] at h
    obtain ⟨versions, hi, he⟩ := h
    have hfresh := Table.select_none.mp hs
    simp only [decide_eq_false_iff_not] at hfresh
    exact Or.inr ⟨hfresh, versions, Table.rows_insert hi, (Except.ok.inj he).symm⟩
  | some v =>
    simp only [hs, require_bind_ok] at h
    obtain ⟨hv, he⟩ := h
    obtain ⟨hm, hid⟩ := Table.select_some hs
    exact Or.inl ⟨(Except.ok.inj he).symm, v, hm, of_decide_eq_true hid, hv⟩

/-! ### The numbering -/

/-- The attempts belong to documents, one to each workflow, and all numbers are dense. -/
structure Db.Numbered (db : Db) : Prop where
  owner : ∀ r ∈ db.attempts, ∃ d ∈ db.documents, d.id = r.documentId ∧ d.tenantId = r.tenantId
  workflows : (db.attempts.rows.map Attempt.workflowId).Nodup
  attempts : Table.Dense Attempt.documentId Attempt.attemptNumber db.attemptLedger
  versions : Table.Dense Version.documentId Version.versionNumber db.versionLedger

theorem Db.numbered_initial (tenants : List Uuid) : (Db.initial tenants).Numbered where
  owner r hr := absurd hr (Table.notMem_empty r)
  workflows := List.nodup_nil
  attempts _ := rfl
  versions _ := rfl

/-- The document rows keep their identity. -/
theorem documentRow_stays (hc : db.Coherent) (h : t.apply db = .ok db') {d : Document}
    (hd : d ∈ db.documents) : ∃ d' ∈ db'.documents, d'.id = d.id ∧ d'.tenantId = d.tenantId ∧
      d'.filename = d.filename := by
  rcases apply_cases hc h with hn | ⟨e, v, _, -, ha⟩ | ⟨e, _, _, -, hr⟩
  · obtain ⟨d', hd', hsp⟩ := hn.documentTo d hd
    exact ⟨d', hd', hsp.id, hsp.tenantId, hsp.filename⟩
  · refine ⟨_, (ha.documents _).mpr ⟨d, hd, rfl⟩, ?_⟩
    unfold Document.pointedTo
    split_ifs <;> exact ⟨rfl, rfl, rfl⟩
  · refine ⟨_, (hr.documents _).mpr ⟨d, hd, rfl⟩, ?_⟩
    unfold Document.retired
    split_ifs <;> exact ⟨rfl, rfl, rfl⟩

theorem workflows_eq (db : Db) :
    db.attempts.rows.map Attempt.workflowId = db.attemptLedger.map Attempt.workflowId := by
  rw [Db.attemptLedger, List.map_map]
  rfl

/-- The owner of an attempt, read off the ledger. -/
theorem owner_iff (db : Db) :
    (∀ r ∈ db.attempts, ∃ d ∈ db.documents, d.id = r.documentId ∧ d.tenantId = r.tenantId) ↔
      ∀ r ∈ db.attemptLedger, ∃ d ∈ db.documents,
        d.id = r.documentId ∧ d.tenantId = r.tenantId := by
  rw [Db.attemptLedger, List.forall_mem_map]
  rfl

/-- The maximum over the rows of a document and its tenant is the one over the document. -/
theorem maxOf_eq {α κ : Type} {key : α → κ} (table : Table key) (owner tenant : α → Uuid)
    (number : α → ℕ) {documentId tenantId : Uuid}
    (h : ∀ r ∈ table, owner r = documentId → tenant r = tenantId) :
    table.maxOf (fun r => owner r = documentId ∧ tenant r = tenantId) number =
      (Table.numbersOf owner number table.rows documentId).foldr max 0 := by
  have hfilter : (table.rows.filter fun r => owner r = documentId ∧ tenant r = tenantId) =
      table.rows.filter fun r => owner r = documentId := by
    refine List.filter_congr fun r hr => ?_
    simp only [decide_eq_decide]
    exact and_iff_left_of_imp (h r hr)
  rw [Table.maxOf, hfilter, Table.numbersOf]

/-- Rows of a document whose owner is recorded carry the tenant of the document. -/
theorem tenant_of_owner {d : Document} {i tenantId : Uuid}
    (howner : ∃ e ∈ db.documents, e.id = i ∧ e.tenantId = tenantId) (hd : d ∈ db.documents)
    (hid : d.id = i) : tenantId = d.tenantId := by
  obtain ⟨e, he, heid, rfl⟩ := howner
  rw [Table.eq_of_key_eq he hd (heid.trans hid.symm)]

theorem Db.Numbered.ensureAttempt (hn : db.Numbered) (h : Ally.ensureAttempt a db = .ok db')
    (hdoc : ∃ d ∈ db.documents, d.id = a.documentId ∧ d.tenantId = a.tenantId) :
    db'.Numbered := by
  rcases ensureAttempt_cases h with ⟨rfl, -⟩ | ⟨hfresh, attempts, hrows, rfl⟩
  · exact hn
  · obtain ⟨d, hd, hid, ht⟩ := hdoc
    have htenant : ∀ r ∈ db.attempts, r.documentId = a.documentId → r.tenantId = a.tenantId :=
      fun r hr hrd => (tenant_of_owner (hn.owner r hr) hd (hid.trans hrd.symm)).trans ht
    rw [maxOf_eq db.attempts Attempt.documentId Attempt.tenantId Attempt.attemptNumber htenant]
      at hrows
    have hledger : ({ db with attempts } : Db).attemptLedger =
        db.attemptLedger ++ [a.attempt ((db.attemptNumbers a.documentId).foldr max 0 + 1)] := by
      change attempts.rows.map _ = db.attempts.rows.map _ ++ _
      rw [hrows, List.map_append]
      rfl
    refine ⟨?_, ?_, ?_, hn.versions⟩
    · intro r hr
      change r ∈ attempts.rows at hr
      rw [hrows, List.mem_append, List.mem_singleton] at hr
      rcases hr with hr | rfl
      · exact hn.owner r hr
      · exact ⟨d, hd, hid, ht⟩
    · change (attempts.rows.map _).Nodup
      rw [hrows, List.map_append, List.nodup_append]
      refine ⟨hn.workflows, List.nodup_singleton _, ?_⟩
      intro w hw w' hw' he
      obtain ⟨r, hr, rfl⟩ := List.mem_map.mp hw
      rw [List.map_singleton, List.mem_singleton] at hw'
      exact hfresh r hr (he.trans hw')
    · rw [hledger]
      refine hn.attempts.append ?_
      rw [attemptNumbers_eq]
      rfl

theorem Db.Numbered.ensureVersion (hn : db.Numbered) (h : Ally.ensureVersion a db = .ok db')
    (howner : ∀ v ∈ db.versions, ∃ d ∈ db.documents, d.id = v.documentId ∧
      d.tenantId = v.tenantId)
    (hdoc : ∃ d ∈ db.documents, d.id = a.documentId ∧ d.tenantId = a.tenantId) :
    db'.Numbered := by
  rcases ensureVersion_cases h with ⟨rfl, -⟩ | ⟨-, versions, hrows, rfl⟩
  · exact hn
  · obtain ⟨d, hd, hid, ht⟩ := hdoc
    have htenant : ∀ v ∈ db.versions, v.documentId = a.documentId → v.tenantId = a.tenantId :=
      fun v hv hvd => (tenant_of_owner (howner v hv) hd (hid.trans hvd.symm)).trans ht
    rw [maxOf_eq db.versions Version.documentId Version.tenantId Version.versionNumber htenant]
      at hrows
    have hledger : ({ db with versions } : Db).versionLedger =
        db.versionLedger ++ [a.version ((db.versionNumbers a.documentId).foldr max 0 + 1)] := by
      change versions.rows.map _ = db.versions.rows.map _ ++ _
      rw [hrows, List.map_append]
      rfl
    refine ⟨hn.owner, hn.workflows, hn.attempts, ?_⟩
    rw [hledger]
    refine hn.versions.append ?_
    rw [versionNumbers_eq]
    rfl

theorem Db.Numbered.register (hc : db.Coherent) (hn : db.Numbered)
    (h : registerIngestion a db = .ok db') : db'.Numbered := by
  obtain ⟨db₁, db₂, h₁, h₂, h₃⟩ := registerIngestion_ok h
  obtain ⟨hto, -, hdoc, hversions₁⟩ := upsertDocument_documents h₁
  have howner₁ : ∀ i tenantId, (∃ d ∈ db.documents, d.id = i ∧ d.tenantId = tenantId) →
      ∃ d ∈ db₁.documents, d.id = i ∧ d.tenantId = tenantId := by
    rintro i tenantId ⟨d, hd, hid, ht⟩
    obtain ⟨d', hd', hsp⟩ := hto d hd
    exact ⟨d', hd', hsp.id.trans hid, hsp.tenantId.trans ht⟩
  have hattempts₁ : db₁.attempts = db.attempts := by
    rcases upsertDocument_ok h₁ with ⟨-, _, -, rfl⟩ | ⟨-, rfl⟩ <;> rfl
  have hledger := upsertDocument_ledger h₁
  have hn₁ : db₁.Numbered := by
    refine ⟨?_, hattempts₁ ▸ hn.workflows, hledger.attempts ▸ hn.attempts,
      hledger.versions ▸ hn.versions⟩
    intro r hr
    exact howner₁ _ _ (hn.owner r (hattempts₁ ▸ hr))
  obtain ⟨hdocuments₂, hversions₂⟩ := ensureAttempt_frame h₂
  refine (hn₁.ensureAttempt h₂ hdoc).ensureVersion h₃ ?_ (hdocuments₂ ▸ hdoc)
  intro v hv
  rw [hversions₂, hversions₁] at hv
  rw [hdocuments₂]
  exact howner₁ _ _ (hc.owner v hv)

/-- Step lemma of the numbering. -/
theorem Db.Numbered.apply (hc : db.Coherent) (hn : db.Numbered) (h : t.apply db = .ok db') :
    db'.Numbered := by
  by_cases ht : ∃ a, t = .register a
  · obtain ⟨a, rfl⟩ := ht
    exact hn.register hc h
  · push Not at ht
    have hledger := sameLedger ht h
    refine ⟨(owner_iff db').mpr ?_, ?_, hledger.attempts ▸ hn.attempts,
      hledger.versions ▸ hn.versions⟩
    · intro r hr
      rw [hledger.attempts] at hr
      obtain ⟨d, hd, hid, hten⟩ := (owner_iff db).mp hn.owner r hr
      obtain ⟨d', hd', hid', hten', -⟩ := documentRow_stays hc h hd
      exact ⟨d', hd', hid'.trans hid, hten'.trans hten⟩
    · rw [workflows_eq, hledger.attempts, ← workflows_eq]
      exact hn.workflows

/-- Run lemma of the numbering. -/
theorem history_numbered {tenants : List Uuid} {ts : List Transaction}
    (h : history tenants ts = some db) : db.Numbered := by
  have hboth : db.Coherent ∧ db.Numbered := Machine.run_invariant
    (P := fun db => db.Coherent ∧ db.Numbered)
    (fun _ _ _ hdb hs => ⟨hdb.1.apply (commit_some.mp hs), hdb.2.apply hdb.1 (commit_some.mp hs)⟩)
    ⟨Db.coherent_initial tenants, Db.numbered_initial tenants⟩ h
  exact hboth.2

/-! ### The ledgers only grow -/

theorem ledger_register (h : registerIngestion a db = .ok db') :
    db.attemptLedger <+: db'.attemptLedger ∧ db.versionLedger <+: db'.versionLedger := by
  obtain ⟨db₁, db₂, h₁, h₂, h₃⟩ := registerIngestion_ok h
  have hledger := upsertDocument_ledger h₁
  have hattempts : db.attemptLedger <+: db₂.attemptLedger ∧
      db₂.versionLedger = db.versionLedger := by
    rcases ensureAttempt_cases h₂ with ⟨rfl, -⟩ | ⟨-, attempts, hrows, rfl⟩
    · exact ⟨hledger.attempts ▸ List.prefix_rfl, hledger.versions⟩
    · refine ⟨?_, hledger.versions⟩
      rw [← hledger.attempts]
      change _ <+: attempts.rows.map _
      rw [hrows, List.map_append]
      exact List.prefix_append _ _
  rw [← hattempts.2]
  rcases ensureVersion_cases h₃ with ⟨rfl, -⟩ | ⟨-, versions, hrows, rfl⟩
  · exact ⟨hattempts.1, List.prefix_rfl⟩
  · refine ⟨hattempts.1, ?_⟩
    change _ <+: versions.rows.map _
    rw [hrows, List.map_append]
    exact List.prefix_append _ _

theorem ledger_prefix (h : t.apply db = .ok db') :
    db.attemptLedger <+: db'.attemptLedger ∧ db.versionLedger <+: db'.versionLedger := by
  by_cases ht : ∃ a, t = .register a
  · obtain ⟨a, rfl⟩ := ht
    exact ledger_register h
  · push Not at ht
    have hledger := sameLedger ht h
    rw [hledger.attempts, hledger.versions]
    exact ⟨List.prefix_rfl, List.prefix_rfl⟩

/-- Numbers that were given stay where they are, and new ones come after them. -/
theorem numbers_prefix (h : t.apply db = .ok db') (documentId : Uuid) :
    db.attemptNumbers documentId <+: db'.attemptNumbers documentId ∧
      db.versionNumbers documentId <+: db'.versionNumbers documentId := by
  obtain ⟨hattempts, hversions⟩ := ledger_prefix h
  rw [attemptNumbers_eq, attemptNumbers_eq, versionNumbers_eq, versionNumbers_eq]
  exact ⟨(hattempts.filter _).map _, (hversions.filter _).map _⟩

/-! ### A repeated registration -/

/-- What a committed registration leaves for good. -/
structure Db.Registered (db : Db) (a : RegisterArgs) : Prop where
  sha256 : isSha256 a.contentSha256 = true
  document : ∃ d ∈ db.documents, d.id = a.documentId ∧ d.tenantId = a.tenantId ∧
    d.filename = a.filename
  attempt : ∃ n, a.attempt n ∈ db.attemptLedger
  version : ∃ n, a.version n ∈ db.versionLedger

theorem asRegistered_attempt {r : Attempt} (hw : r.workflowId = a.workflowId)
    (hid : r.id = a.attemptId) (hdoc : r.documentId = a.documentId)
    (ht : r.tenantId = a.tenantId) : r.asRegistered = a.attempt r.attemptNumber := by
  rw [Attempt.asRegistered, RegisterArgs.attempt, hw, hid, hdoc, ht]

theorem asRegistered_version {v : Version} (hid : v.id = a.versionId)
    (hdoc : v.documentId = a.documentId) (ht : v.tenantId = a.tenantId)
    (ha : v.attemptId = a.attemptId) (hsha : v.contentSha256 = a.contentSha256)
    (href : v.storageRef = a.storageRef) : v.asRegistered = a.version v.versionNumber := by
  rw [Version.asRegistered, RegisterArgs.version, hid, hdoc, ht, ha, hsha, href]

theorem registered_of_commit (h : registerIngestion a db = .ok db') : db'.Registered a := by
  obtain ⟨db₁, db₂, h₁, h₂, h₃⟩ := registerIngestion_ok h
  have hsha : isSha256 a.contentSha256 = true := by
    rw [upsertDocument, require_bind_ok] at h₁
    exact h₁.1
  have hdoc₁ : ∃ d ∈ db₁.documents, d.id = a.documentId ∧ d.tenantId = a.tenantId ∧
      d.filename = a.filename := by
    rcases upsertDocument_ok h₁ with ⟨-, documents, hi, rfl⟩ | ⟨⟨d, hd, hid, ht, hf, -⟩, rfl⟩
    · exact ⟨a.document, ((Table.insert_some hi).2 _).mpr (Or.inr rfl), rfl, rfl, rfl⟩
    · refine ⟨_, Table.update_mem hd, ?_⟩
      split_ifs <;> exact ⟨hid, ht, hf⟩
  have hattempt : ∃ n, a.attempt n ∈ db₂.attemptLedger := by
    rcases ensureAttempt_cases h₂ with ⟨rfl, r, hr, hw, hid, hdoc, ht⟩ | ⟨-, attempts, hrows, rfl⟩
    · exact ⟨_, List.mem_map.mpr ⟨r, hr, asRegistered_attempt hw hid hdoc ht⟩⟩
    · obtain ⟨n, hrows⟩ : ∃ n, attempts.rows = db₁.attempts.rows ++ [a.attempt n] := ⟨_, hrows⟩
      refine ⟨n, ?_⟩
      change _ ∈ attempts.rows.map _
      rw [hrows, List.map_append, List.mem_append]
      exact Or.inr (List.mem_singleton.mpr rfl)
  have hversion : ∃ n, a.version n ∈ db'.versionLedger := by
    rcases ensureVersion_cases h₃ with
      ⟨rfl, v, hv, hid, hdoc, ht, ha, hs, href⟩ | ⟨-, versions, hrows, rfl⟩
    · exact ⟨_, List.mem_map.mpr ⟨v, hv, asRegistered_version hid hdoc ht ha hs href⟩⟩
    · obtain ⟨n, hrows⟩ : ∃ n, versions.rows = db₂.versions.rows ++ [a.version n] := ⟨_, hrows⟩
      refine ⟨n, ?_⟩
      change _ ∈ versions.rows.map _
      rw [hrows, List.map_append, List.mem_append]
      exact Or.inr (List.mem_singleton.mpr rfl)
  obtain ⟨hdocuments₂, -⟩ := ensureAttempt_frame h₂
  rcases ensureVersion_cases h₃ with ⟨rfl, -⟩ | ⟨-, versions, -, rfl⟩
  · exact ⟨hsha, hdocuments₂ ▸ hdoc₁, hattempt, hversion⟩
  · exact ⟨hsha, hdocuments₂ ▸ hdoc₁, hattempt, hversion⟩

theorem Db.Registered.apply (hc : db.Coherent) (hr : db.Registered a)
    (h : t.apply db = .ok db') : db'.Registered a := by
  obtain ⟨hattempts, hversions⟩ := ledger_prefix h
  refine ⟨hr.sha256, ?_, ?_, ?_⟩
  · obtain ⟨d, hd, hid, ht, hf⟩ := hr.document
    obtain ⟨d', hd', hid', ht', hf'⟩ := documentRow_stays hc h hd
    exact ⟨d', hd', hid'.trans hid, ht'.trans ht, hf'.trans hf⟩
  · obtain ⟨n, hn⟩ := hr.attempt
    exact ⟨n, hattempts.subset hn⟩
  · obtain ⟨n, hn⟩ := hr.version
    exact ⟨n, hversions.subset hn⟩

theorem history_registered {tenants : List Uuid} {ts : List Transaction}
    (h : history tenants ts = some db) (ha : .register a ∈ ts) : db.Registered a := by
  induction ts using List.reverseRecOn generalizing db with
  | nil => cases ha
  | append_singleton ts t ih =>
    obtain ⟨m, hm, hs⟩ := Machine.run_concat_some.mp h
    rcases List.mem_append.mp ha with hold | hnew
    · exact (ih hm hold).apply (history_coherent hm) (commit_some.mp hs)
    · obtain rfl := List.mem_singleton.mp hnew
      exact registered_of_commit (commit_some.mp hs)

theorem ensureAttempt_again (hn : (db.attempts.rows.map Attempt.workflowId).Nodup)
    (hr : db.Registered a) : ensureAttempt a db = .ok db := by
  obtain ⟨n, hrow⟩ := hr.attempt
  obtain ⟨r, hr, hreg⟩ := List.mem_map.mp hrow
  have hw : r.workflowId = a.workflowId := congrArg Attempt.workflowId hreg
  cases hs : db.attempts.select fun r => r.workflowId = a.workflowId with
  | none =>
    have hfresh := Table.select_none.mp hs r hr
    rw [decide_eq_false_iff_not] at hfresh
    exact absurd hw hfresh
  | some r' =>
    obtain ⟨hm, hw'⟩ := Table.select_some hs
    -- the workflow owns one attempt
    obtain rfl : r' = r := List.inj_on_of_nodup_map hn hm hr
      ((of_decide_eq_true hw').trans hw.symm)
    have hid : r'.id = a.attemptId ∧ r'.documentId = a.documentId ∧ r'.tenantId = a.tenantId :=
      ⟨congrArg Attempt.id hreg, congrArg Attempt.documentId hreg, congrArg Attempt.tenantId hreg⟩
    simp only [ensureAttempt, hs, require_bind_ok]
    exact ⟨hid, rfl⟩

theorem ensureVersion_again (hr : db.Registered a) : ensureVersion a db = .ok db := by
  obtain ⟨n, hrow⟩ := hr.version
  obtain ⟨v, hv, hreg⟩ := List.mem_map.mp hrow
  have hid : v.id = a.versionId := congrArg Version.id hreg
  have hs : (db.versions.select fun v => v.id = a.versionId) = some v :=
    (Table.select_eq_some_iff fun _ h => of_decide_eq_true h).mpr ⟨hv, decide_eq_true hid⟩
  have hrow : v.documentId = a.documentId ∧ v.tenantId = a.tenantId ∧ v.attemptId = a.attemptId ∧
      v.contentSha256 = a.contentSha256 ∧ v.storageRef = a.storageRef :=
    ⟨congrArg Version.documentId hreg, congrArg Version.tenantId hreg,
      congrArg Version.attemptId hreg, congrArg Version.contentSha256 hreg,
      congrArg Version.storageRef hreg⟩
  simp only [ensureVersion, hs, require_bind_ok]
  exact ⟨hrow, rfl⟩

/-- A committed registration, called again on a document that is not deleted, commits and
adds no row. -/
theorem register_again (hn : db.Numbered) (hr : db.Registered a)
    (hnd : ∀ d ∈ db.documents, d.id = a.documentId → d.status ≠ .deleted) :
    ∃ documents, registerIngestion a db = .ok { db with documents } ∧
      documents.rows.map Document.id = db.documents.rows.map Document.id := by
  obtain ⟨d, hd, hid, ht, hf⟩ := hr.document
  have hs : (db.documents.select fun d => d.id = a.documentId) = some d :=
    (Table.select_eq_some_iff fun _ h => of_decide_eq_true h).mpr ⟨hd, decide_eq_true hid⟩
  let documents := db.documents.update (fun d => d.id = a.documentId) (requeueDocument a)
  have hupsert : upsertDocument a db = .ok { db with documents } := by
    simp only [upsertDocument, require_bind_ok, hs]
    exact ⟨hr.sha256, ⟨ht, hf, hnd d hd hid⟩, rfl⟩
  have hreg : ({ db with documents } : Db).Registered a := by
    refine ⟨hr.sha256, ⟨_, Table.update_mem hd, ?_⟩, hr.attempt, hr.version⟩
    split_ifs <;> exact ⟨hid, ht, hf⟩
  have hattempt : ensureAttempt a { db with documents } = .ok { db with documents } :=
    ensureAttempt_again hn.workflows hreg
  refine ⟨documents, ?_, Table.map_update (requeueDocument a).keeps⟩
  rw [registerIngestion, hupsert]
  change (ensureAttempt a { db with documents } >>= ensureVersion a) = _
  rw [hattempt]
  exact ensureVersion_again hreg

/-! ### Identity conflicts -/

/-- The identities of the call overlap with rows that do not agree with it. -/
inductive RegisterArgs.Conflicts (a : RegisterArgs) (db : Db) : Prop
  | document (d : Document) (row : d ∈ db.documents) (id : d.id = a.documentId)
      (differs : d.tenantId ≠ a.tenantId ∨ d.filename ≠ a.filename ∨ d.status = .deleted)
  | attempt (r : Attempt) (row : r ∈ db.attempts) (workflowId : r.workflowId = a.workflowId)
      (differs : r.id ≠ a.attemptId ∨ r.documentId ≠ a.documentId ∨ r.tenantId ≠ a.tenantId)
  | version (v : Version) (row : v ∈ db.versions) (id : v.id = a.versionId)
      (differs : v.documentId ≠ a.documentId ∨ v.tenantId ≠ a.tenantId ∨
        v.attemptId ≠ a.attemptId ∨ v.contentSha256 ≠ a.contentSha256 ∨
        v.storageRef ≠ a.storageRef)

theorem conflict_raises (hn : db.Numbered) (ha : a.Conflicts db) :
    ∃ e, registerIngestion a db = .error e := by
  cases h : registerIngestion a db with
  | error e => exact ⟨e, rfl⟩
  | ok db' =>
    exfalso
    obtain ⟨db₁, db₂, h₁, h₂, h₃⟩ := registerIngestion_ok h
    have hattempts₁ : db₁.attempts = db.attempts := by
      rcases upsertDocument_ok h₁ with ⟨-, _, -, rfl⟩ | ⟨-, rfl⟩ <;> rfl
    have hversions₂ : db₂.versions = db.versions :=
      (ensureAttempt_frame h₂).2.trans (upsertDocument_documents h₁).2.2.2
    cases ha with
    | document d hd hid differs =>
      rcases upsertDocument_ok h₁ with ⟨hfresh, -⟩ | ⟨⟨e, he, heid, ht, hf, hnd⟩, -⟩
      · exact hfresh d hd hid
      · obtain rfl : d = e := Table.eq_of_key_eq hd he (hid.trans heid.symm)
        rcases differs with hne | hne | hdel
        · exact hne ht
        · exact hne hf
        · exact hnd hdel
    | attempt r hr hw differs =>
      rcases ensureAttempt_cases h₂ with ⟨-, s, hs, hsw, hid, hdoc, ht⟩ | ⟨hfresh, -⟩
      · rw [hattempts₁] at hs
        obtain rfl : r = s := List.inj_on_of_nodup_map hn.workflows hr hs (hw.trans hsw.symm)
        rcases differs with hne | hne | hne
        · exact hne hid
        · exact hne hdoc
        · exact hne ht
      · exact hfresh r (hattempts₁ ▸ hr) hw
    | version v hv hid differs =>
      rcases ensureVersion_cases h₃ with ⟨-, w, hw, hwid, hdoc, ht, ha, hsha, href⟩ | ⟨hfresh, -⟩
      · rw [hversions₂] at hw
        obtain rfl : v = w := Table.eq_of_key_eq hv hw (hid.trans hwid.symm)
        rcases differs with hne | hne | hne | hne | hne
        · exact hne hdoc
        · exact hne ht
        · exact hne ha
        · exact hne hsha
        · exact hne href
      · exact hfresh v (hversions₂ ▸ hv) hid

/-- Registration is atomic, idempotent and densely numbered, after every history. -/
theorem registration_laws (tenants : List Uuid) (ts : List Transaction) (db : Db)
    (h : history tenants ts = some db) :
    (∀ documentId,
      db.attemptNumbers documentId = List.range' 1 (db.attemptNumbers documentId).length ∧
      db.versionNumbers documentId = List.range' 1 (db.versionNumbers documentId).length) ∧
    (∀ t db', commit db t = some db' → ∀ documentId,
      db.attemptNumbers documentId <+: db'.attemptNumbers documentId ∧
      db.versionNumbers documentId <+: db'.versionNumbers documentId) ∧
    (∀ a, .register a ∈ ts → (∀ d ∈ db.documents, d.id = a.documentId → d.status ≠ .deleted) →
      ∃ documents, registerIngestionSync a db =
          (⟨{ db with documents }, { db with documents }⟩, .ok true) ∧
        documents.rows.map Document.id = db.documents.rows.map Document.id) ∧
    (∀ r ∈ db.attempts, ∀ s ∈ db.attempts, r.workflowId = s.workflowId → r = s) ∧
    (∀ a e, (registerIngestionSync a db).2 = .error e →
      (registerIngestionSync a db).1 = ⟨db, db⟩) ∧
    ∀ a, a.Conflicts db → ∃ e, (registerIngestionSync a db).2 = .error e := by
  have hn : db.Numbered := history_numbered h
  refine ⟨?_, ?_, ?_, ?_, ?_, ?_⟩
  · intro documentId
    rw [attemptNumbers_eq, versionNumbers_eq]
    exact ⟨hn.attempts documentId, hn.versions documentId⟩
  · intro t db' ht documentId
    exact numbers_prefix (commit_some.mp ht) documentId
  · intro a ha hnd
    obtain ⟨documents, hcommit, hrows⟩ := register_again hn (history_registered h ha) hnd
    exact ⟨documents, by rw [registerIngestionSync_eq, hcommit], hrows⟩
  · intro r hr s hs hw
    exact List.inj_on_of_nodup_map hn.workflows hr hs hw
  · intro a e he
    rw [registerIngestionSync_eq] at he ⊢
    cases hresult : registerIngestion a db with
    | error e' => rfl
    | ok db' =>
      rw [hresult] at he
      cases he
  · intro a ha
    obtain ⟨e, he⟩ := conflict_raises hn ha
    exact ⟨e, by rw [registerIngestionSync_eq, he]⟩

theorem registration_laws_indexedUpload : ∃ db, history [7] indexedUpload = some db ∧
    db.attemptNumbers 1 = List.range' 1 (db.attemptNumbers 1).length ∧
    db.versionNumbers 1 = List.range' 1 (db.versionNumbers 1).length := by
  obtain ⟨db, h⟩ := Option.isSome_iff_exists.mp indexedUpload_isSome
  exact ⟨db, h, (registration_laws [7] indexedUpload db h).1 1⟩

end Ally
