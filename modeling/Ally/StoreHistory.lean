import Ally.ActivityRetries

/-!
# Histories of the two stores

Versioned ingestions activity by activity, ingestions without a version, reconciliations and
backfills, each performed up to its end, and what each of them makes of the tables.
-/

open Relational

namespace Ally

/-! ### The chunk rows as points -/

section Points

variable {κ : Type} (uuid5 : String → κ)

/-- The retrieval chunk `load_chunks_from_postgres` makes of a row. -/
def LegacyChunk.chunk (r : LegacyChunk) : Chunk κ where
  id := makeChunkId uuid5 r.tenantId r.filename r.pageNumber r.chunkIndex none
  text := r.text
  filename := r.filename
  pageNumber := r.pageNumber
  chunkIndex := r.chunkIndex
  tenantId := r.tenantId
  documentId := none
  versionId := none

def LegacyChunk.point (r : LegacyChunk) : Point κ := Qdrant.point (r.chunk uuid5)

def VersionChunk.point (isActive : Bool) (r : VersionChunk) : Point κ where
  id := makeChunkId uuid5 r.tenantId r.filename r.pageNumber r.chunkIndex (some r.versionId)
  text := r.text
  filename := r.filename
  pageNumber := r.pageNumber
  chunkIndex := r.chunkIndex
  tenantId := r.tenantId
  documentId := some r.documentId
  versionId := some r.versionId
  isActive := some isActive

theorem PersistCall.points (c : PersistCall) :
    (Qdrant.versionChunks uuid5 c.tenantId c.documentId c.versionId c.filename c.chunks).map
        Qdrant.point = c.rows.map (VersionChunk.point uuid5 false) := by
  rw [Qdrant.versionChunks, PersistCall.rows]
  apply List.ext_getElem
  · simp
  · intro i h h'
    simp [Qdrant.point, VersionChunk.point, versionChunk]

theorem points_legacyChunks (tenantId : Uuid) (filename : String) (chunks : List TextChunk) :
    (Qdrant.legacyChunks uuid5 tenantId filename chunks).map Qdrant.point =
      (chunks.mapIdx (legacyChunk tenantId filename)).map (LegacyChunk.point uuid5) := by
  rw [Qdrant.legacyChunks]
  apply List.ext_getElem
  · simp
  · intro i h h'
    simp [LegacyChunk.point, LegacyChunk.chunk, legacyChunk]

end Points

/-! ### Steps -/

namespace Stores

/-- An activity, an ingestion without a version, a reconciliation or a backfill. -/
inductive Step
  | activity (a : Activity)
  | ingestUnversioned (tenantId : Uuid) (filename : String) (chunks : List TextChunk)
  | reconcile
  | backfill
  deriving DecidableEq, Repr

def persist (c : PersistCall) : Step :=
  .activity (.persistChunks c.tenantId c.documentId c.versionId c.filename c.chunks)

def embed (c : PersistCall) : Step :=
  .activity (.embedAndIndex c.tenantId c.documentId c.versionId c.filename c.chunks)

def activate (documentId versionId tenantId : Uuid) : Step :=
  .activity (.activateIngestionVersion documentId versionId tenantId)

section Run

variable {κ : Type} [DecidableEq κ] (uuid5 : String → κ)

/-- The loop of `_reconcile_ingestion_indexes_sync` when nothing raises. -/
def reconcileCalls (db : Db) : List (Qdrant.Call κ) :=
  (Reconcile.snapshot db).flatMap Reconcile.calls

/-- `load_chunks_from_postgres` and the upsert of `main`; the order of the rows does not
reach the points. -/
def backfillCalls (db : Db) : List (Qdrant.Call κ) :=
  Qdrant.indexChunks (db.legacyChunks.rows.map (LegacyChunk.chunk uuid5))

/-- `embed_and_index` without a version. -/
def unversionedCalls (tenantId : Uuid) (filename : String) (chunks : List TextChunk) :
    List (Qdrant.Call κ) :=
  Qdrant.deleteByFilename tenantId filename ++
    Qdrant.indexChunks (Qdrant.legacyChunks uuid5 tenantId filename chunks)

def Step.commit (db : Db) : Step → Except PyError Db
  | .activity a =>
      match a.transaction with
      | none => .ok db
      | some t => t.apply db
  | .ingestUnversioned tenantId filename chunks => persistLegacyChunks tenantId filename chunks db
  | .reconcile => .ok (reconcileAttempts db)
  | .backfill => .ok db

def Step.calls (db : Db) : Step → List (Qdrant.Call κ)
  | .activity a => a.calls uuid5 db
  | .ingestUnversioned tenantId filename chunks => unversionedCalls uuid5 tenantId filename chunks
  | .reconcile => reconcileCalls db
  | .backfill => backfillCalls uuid5 db

/-- A step that completes; one that raises leaves the tables and is not part of a run. -/
def step (s : Indexed κ) (a : Step) : Option (Indexed κ) :=
  match a.commit s.db with
  | .ok db => some ⟨db, Qdrant.runCalls (a.calls uuid5 db) s.collection⟩
  | .error _ => none

def run (tenants : List Uuid) (steps : List Step) : Option (Indexed κ) :=
  Machine.run (step uuid5) ⟨.initial tenants, none⟩ steps

variable {uuid5}

theorem step_some {s s' : Indexed κ} {a : Step} : step uuid5 s a = some s' ↔
    a.commit s.db = .ok s'.db ∧
      s'.collection = Qdrant.runCalls (a.calls uuid5 s'.db) s.collection := by
  obtain ⟨db', collection'⟩ := s'
  unfold step
  cases h : a.commit s.db with
  | error e => simp
  | ok db =>
      simp only [Option.some.injEq, Indexed.mk.injEq, Except.ok.injEq]
      constructor
      · rintro ⟨rfl, rfl⟩
        exact ⟨rfl, rfl⟩
      · rintro ⟨rfl, rfl⟩
        exact ⟨rfl, rfl⟩

/-- An activity that completes does what an execution of it that is not cut off does. -/
theorem step_activity (s : Indexed κ) (a : Activity) :
    step uuid5 s (.activity a) = ((a.task uuid5).commit s).toOption.map fun m =>
      Redelivery.applyAll ((a.task uuid5).effects m) m := by
  have heffects : ∀ m : Indexed κ, Redelivery.applyAll ((a.task uuid5).effects m) m =
      ⟨m.db, Qdrant.runCalls (a.calls uuid5 m.db) m.collection⟩ := fun m => applyAll_call _ m
  cases ht : a.transaction with
  | none =>
      have hstep : step uuid5 s (.activity a) =
          some ⟨s.db, Qdrant.runCalls (a.calls uuid5 s.db) s.collection⟩ := by
        simp only [step, Step.commit, ht]
        rfl
      have hcommit : (a.task uuid5).commit s = .ok s := by simp only [Activity.task, ht]
      rw [hstep, hcommit, ← heffects]
      rfl
  | some t =>
      cases h : t.apply s.db with
      | error e =>
          have hcommit : (a.task uuid5).commit s = .error e := by
            simp only [Activity.task, ht, h]
            rfl
          rw [hcommit]
          simp only [step, Step.commit, ht, h]
          rfl
      | ok db =>
          have hcommit : (a.task uuid5).commit s = .ok ⟨db, s.collection⟩ := by
            simp only [Activity.task, ht, h]
            rfl
          rw [hcommit]
          simp only [step, Step.commit, ht, h]
          exact congrArg some (heffects ⟨db, s.collection⟩).symm

end Run
end Stores

/-! ### Files over a transaction -/

section Files

def Document.file (d : Document) : Uuid × String := (d.tenantId, d.filename)

def LegacyChunk.file (r : LegacyChunk) : Uuid × String := (r.tenantId, r.filename)

/-- The files of the documents and the rows of the unversioned files are the same. -/
structure Db.SameFiles (db db' : Db) : Prop where
  documents : db'.documents.rows.map Document.file = db.documents.rows.map Document.file
  legacyChunks : db'.legacyChunks = db.legacyChunks

variable {db db' : Db} {t : Transaction}

theorem Db.SameFiles.refl (db : Db) : db.SameFiles db := ⟨rfl, rfl⟩

theorem Db.SameFiles.trans {db'' : Db} (h : db.SameFiles db') (h' : db'.SameFiles db'') :
    db.SameFiles db'' :=
  ⟨h'.documents.trans h.documents, h'.legacyChunks.trans h.legacyChunks⟩

theorem sameFiles_failVersion {documentId versionId tenantId : Uuid} {status : AttemptStatus}
    (h : failVersion documentId versionId tenantId status db = .ok db') : db.SameFiles db' := by
  rcases failVersion_ok_iff.mp h with ⟨-, -, rfl⟩ | ⟨-, -, rfl⟩
  · exact .refl _
  · exact ⟨Table.map_update fun _ => rfl, rfl⟩

theorem sameFiles (hr : ∀ a, t ≠ .register a) (ht : ∀ d i reason, t ≠ .tombstone d i reason)
    (h : t.apply db = .ok db') : db.SameFiles db' := by
  cases t with
  | register a => exact absurd rfl (hr a)
  | stage documentId attemptId tenantId stage =>
      obtain ⟨-, -, -, rfl⟩ := updateIngestionStage_ok_iff.mp h
      exact ⟨Table.map_update fun _ => rfl, rfl⟩
  | persist tenantId documentId versionId filename chunks =>
      obtain ⟨-, _, rfl⟩ := persistVersionChunks_ok h
      exact ⟨rfl, rfl⟩
  | activate documentId versionId tenantId =>
      obtain ⟨d, -, -, -, -, -, -, -, ⟨-, rfl⟩ | ⟨-, rfl⟩⟩ := activateIngestionVersion_ok h
      · exact .refl _
      · have hprevious : db.SameFiles
            (supersedePrevious d.activeVersionId documentId tenantId db) := by
          cases d.activeVersionId with
          | none => exact .refl db
          | some i => exact ⟨rfl, rfl⟩
        exact hprevious.trans ⟨Table.map_update fun _ => rfl, rfl⟩
  | finish documentId attemptId versionId tenantId status errorCode =>
      obtain ⟨-, ⟨-, -, rfl⟩ | ⟨-, hclose⟩⟩ := finishIngestionAttempt_ok_iff.mp h
      · exact .refl _
      · have hclosed : db.SameFiles
            (closeAttempt documentId attemptId tenantId status errorCode db) := ⟨rfl, rfl⟩
        rcases hclose with ⟨-, rfl⟩ | ⟨-, hfail⟩
        · exact hclosed
        · exact hclosed.trans (sameFiles_failVersion hfail)
  | tombstone documentId tenantId reason => exact absurd rfl (ht documentId tenantId reason)
  | reconcile =>
      obtain rfl := Except.ok.inj h
      exact ⟨rfl, rfl⟩

theorem Db.SameFiles.document (h : db.SameFiles db') {d' : Document} (hd' : d' ∈ db'.documents) :
    ∃ d ∈ db.documents, d.file = d'.file := by
  have hmem : d'.file ∈ db'.documents.rows.map Document.file := List.mem_map_of_mem hd'
  rw [h.documents] at hmem
  obtain ⟨d, hd, hfile⟩ := List.mem_map.mp hmem
  exact ⟨d, hd, hfile⟩

theorem register_files {a : RegisterArgs} (h : registerIngestion a db = .ok db') :
    db'.legacyChunks = db.legacyChunks ∧ ∀ d' ∈ db'.documents,
      d'.file = (a.tenantId, a.filename) ∨ ∃ d ∈ db.documents, d.file = d'.file := by
  obtain ⟨db₁, db₂, h₁, h₂, h₃⟩ := registerIngestion_ok h
  have hrest : db₁.SameFiles db' := by
    have hattempt : db₁.SameFiles db₂ := by
      rcases ensureAttempt_ok h₂ with ⟨rfl, -⟩ | ⟨-, n, attempts, -, rfl⟩ <;> exact ⟨rfl, rfl⟩
    have hversion : db₂.SameFiles db' := by
      rcases ensureVersion_ok h₃ with ⟨rfl, -⟩ | ⟨n, versions, -, -, rfl⟩ <;> exact ⟨rfl, rfl⟩
    exact hattempt.trans hversion
  have hdocument : db₁.legacyChunks = db.legacyChunks ∧ ∀ d' ∈ db₁.documents,
      d'.file = (a.tenantId, a.filename) ∨ ∃ d ∈ db.documents, d.file = d'.file := by
    rcases upsertDocument_ok h₁ with ⟨-, documents, hinsert, rfl⟩ | ⟨-, rfl⟩
    · refine ⟨rfl, fun d' hd' => ?_⟩
      rcases ((Table.insert_some hinsert).2 d').mp hd' with hd | rfl
      · exact .inr ⟨d', hd, rfl⟩
      · exact .inl rfl
    · refine ⟨rfl, fun d' hd' => .inr ?_⟩
      obtain ⟨d, hd, rfl⟩ := Table.mem_update.mp hd'
      refine ⟨d, hd, ?_⟩
      split_ifs <;> rfl
  refine ⟨hrest.legacyChunks.trans hdocument.1, fun d' hd' => ?_⟩
  obtain ⟨d₁, hd₁, hfile⟩ := hrest.document hd'
  rw [← hfile]
  exact hdocument.2 d₁ hd₁

/-- A deleted document takes with it the unversioned rows of its file and no others. -/
theorem tombstone_files {documentId tenantId : Uuid} {reason : String}
    (h : tombstoneIngestionDocument documentId tenantId reason db = .ok db') :
    (∃ d ∈ db.documents, d.id = documentId ∧ d.tenantId = tenantId ∧
      ∀ r, r ∈ db'.legacyChunks ↔ r ∈ db.legacyChunks ∧ r.file ≠ d.file) ∧
      ∀ d' ∈ db'.documents, ∃ d ∈ db.documents, d.file = d'.file := by
  rw [tombstoneIngestionDocument, fetch_bind_ok] at h
  obtain ⟨d, hselect, h⟩ := h
  obtain ⟨hd, hid, ht⟩ := select_document.mp hselect
  rw [require_bind_ok] at h
  obtain rfl := Except.ok.inj h.2
  have hlegacy : (if d.status ≠ .deleted then retireDocument documentId tenantId db
      else db).legacyChunks = db.legacyChunks := by
    split_ifs <;> rfl
  refine ⟨⟨d, hd, hid, ht, fun r => ?_⟩, fun d' hd' => ?_⟩
  · change r ∈ (Table.delete _ _) ↔ _
    rw [hlegacy, Table.mem_delete, decide_eq_false_iff_not, ← ht]
    simp only [LegacyChunk.file, Document.file, ne_eq, Prod.mk.injEq]
  · have hfiles : db.SameFiles (if d.status ≠ .deleted then retireDocument documentId tenantId db
        else db) := by
      split_ifs
      · exact ⟨Table.map_update fun _ => rfl, rfl⟩
      · exact .refl db
    exact hfiles.document hd'

end Files

/-! ### Served versions over a transaction -/

section Serves

/-- The version is the active one of its document. -/
def Db.serves (db : Db) (versionId : Uuid) : Bool :=
  db.versions.rows.any fun v => v.id = versionId && v.status = .active

variable {db db' : Db} {t : Transaction} {w : Uuid}

theorem Db.serves_iff : db.serves w = true ↔ ∃ v ∈ db.versions, v.id = w ∧ v.status = .active := by
  rw [Db.serves, List.any_eq_true]
  simp only [Bool.and_eq_true, decide_eq_true_eq]
  rfl

theorem Db.isServed_eq (hdb : db.Owned) {r : VersionChunk} (hr : r ∈ db.versionChunks) :
    db.isServed r = db.serves r.versionId := by
  obtain ⟨v, hv, hid, hdoc, ht⟩ := hdb r hr
  rw [Bool.eq_iff_iff, Db.serves_iff, Db.isServed, List.any_eq_true]
  simp only [Bool.and_eq_true, Version.isRow_iff, decide_eq_true_eq]
  constructor
  · rintro ⟨x, hx, ⟨hxid, -, -⟩, hst⟩
    exact ⟨x, hx, hxid, hst⟩
  · rintro ⟨x, hx, hxid, hst⟩
    obtain rfl : x = v := Table.eq_of_key_eq hx hv (hxid.trans hid.symm)
    exact ⟨x, hx, ⟨hid, hdoc, ht⟩, hst⟩

/-- The document whose pointer a transaction moves or clears. -/
def Transaction.pointed : Transaction → Option Uuid
  | .activate documentId _ _ => some documentId
  | .tombstone documentId _ _ => some documentId
  | _ => none

/-- A transaction leaves the versions of other documents as visible as they were. -/
theorem serves_elsewhere (hc : db.Coherent) (h : t.apply db = .ok db')
    (hw : ∀ v ∈ db.versions, v.id = w → t.pointed ≠ some v.documentId) :
    db'.serves w = db.serves w := by
  rw [Bool.eq_iff_iff, Db.serves_iff, Db.serves_iff]
  rcases apply_cases hc h with hn | ⟨e, i, _, rfl, ha⟩ | ⟨e, _, _, rfl, hr⟩
  · constructor
    · rintro ⟨v', hv', hid, hst⟩
      rcases hn.versionOf v' hv' with ⟨v, hv, hsame, hv'st | ⟨-, hfailed⟩⟩ | ⟨hstaged, -⟩
      · exact ⟨v, hv, hsame.id.symm.trans hid, hv'st.symm.trans hst⟩
      · rw [hst] at hfailed
        cases hfailed
      · rw [hst] at hstaged
        cases hstaged
    · rintro ⟨v, hv, hid, hst⟩
      obtain ⟨v', hv', hsame, hv'st | ⟨hstaged, -⟩⟩ := hn.versionTo v hv
      · exact ⟨v', hv', hsame.id.trans hid, hv'st.trans hst⟩
      · rw [hst] at hstaged
        cases hstaged
  · have hstays : ∀ v ∈ db.versions, v.id = w → v.activated e i = v := by
      intro v hv hid
      have hdoc : v.documentId ≠ e := fun he => hw v hv hid (congrArg some he.symm)
      obtain ⟨x, hx, hxid, hxdoc, -⟩ := ha.version
      have hne : v.id ≠ i := by
        intro hvi
        rw [Table.eq_of_key_eq hx hv (hxid.trans hvi.symm)] at hxdoc
        exact hdoc hxdoc
      rw [Version.activated, if_neg hne, if_neg fun hv => hdoc hv.1]
    constructor
    · rintro ⟨v', hv', hid, hst⟩
      obtain ⟨v, hv, rfl⟩ := (ha.versions v').mp hv'
      have hvid : v.id = w := (v.activated_sameRow e i).id.symm.trans hid
      rw [hstays v hv hvid] at hst
      exact ⟨v, hv, hvid, hst⟩
    · rintro ⟨v, hv, hid, hst⟩
      exact ⟨v, (ha.versions v).mpr ⟨v, hv, (hstays v hv hid).symm⟩, hid, hst⟩
  · have hstays : ∀ v ∈ db.versions, v.id = w → v.retired e = v := by
      intro v hv hid
      have hdoc : v.documentId ≠ e := fun he => hw v hv hid (congrArg some he.symm)
      rw [Version.retired, if_neg fun hv => hdoc hv.1]
    constructor
    · rintro ⟨v', hv', hid, hst⟩
      obtain ⟨v, hv, rfl⟩ := (hr.versions v').mp hv'
      have hvid : v.id = w := (v.retired_sameRow e).id.symm.trans hid
      rw [hstays v hv hvid] at hst
      exact ⟨v, hv, hvid, hst⟩
    · rintro ⟨v, hv, hid, hst⟩
      exact ⟨v, (hr.versions v).mpr ⟨v, hv, (hstays v hv hid).symm⟩, hid, hst⟩

/-- A version becomes active only by its activation. -/
theorem active_cases (hc : db.Coherent) (h : t.apply db = .ok db') {v' : Version}
    (hv' : v' ∈ db'.versions) (hst : v'.status = .active) :
    (∃ v ∈ db.versions, v.id = v'.id ∧ v.status = .active) ∨
      ∃ d tenantId, t = .activate d v'.id tenantId := by
  rcases apply_cases hc h with hn | ⟨e, i, tenantId, rfl, ha⟩ | ⟨e, _, _, -, hr⟩
  · rcases hn.versionOf v' hv' with ⟨v, hv, hsame, hv'st | ⟨-, hfailed⟩⟩ | ⟨hstaged, -⟩
    · exact .inl ⟨v, hv, hsame.id.symm, hv'st.symm.trans hst⟩
    · rw [hst] at hfailed
      cases hfailed
    · rw [hst] at hstaged
      cases hstaged
  · obtain ⟨v, hv, rfl⟩ := (ha.versions v').mp hv'
    by_cases hvi : v.id = i
    · refine .inr ⟨e, tenantId, ?_⟩
      rw [(v.activated_sameRow e i).id, hvi]
    · rw [Version.activated, if_neg hvi] at hst ⊢
      split_ifs at hst ⊢ with hprevious
      · cases hst
      · exact .inl ⟨v, hv, rfl, hst⟩
  · obtain ⟨v, hv, rfl⟩ := (hr.versions v').mp hv'
    rw [Version.retired] at hst ⊢
    split_ifs at hst ⊢
    · cases hst
    · exact .inl ⟨v, hv, rfl, hst⟩

end Serves
end Ally
