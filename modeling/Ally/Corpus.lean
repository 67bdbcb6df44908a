import Ally.FrozenChunks
import Ally.Qdrant
import Ally.Retrieval

/-!
# The chunk rows and the lexical corpus

`persist_chunks` without a version, the documents `_rebuild_now` makes of the chunk rows,
and the agreement of their ids with those of the points `embed_and_index` upserts.
-/

open Relational

namespace Ally

/-! ### `persist_chunks` without a version -/

def legacyChunk (tenantId : Uuid) (filename : String) (idx : ℕ) (chunk : TextChunk) :
    LegacyChunk where
  tenantId := tenantId
  filename := filename
  pageNumber := chunk.pageNumber
  chunkIndex := idx
  text := chunk.text

def LegacyChunk.overwrite (row : LegacyChunk) : Rewrite LegacyChunk.key where
  toFun c := { c with text := row.text }
  keeps _ := rfl

/-- One `INSERT … ON CONFLICT DO UPDATE SET text` with the foreign key to `tenants`. -/
def insertLegacyChunk (row : LegacyChunk) (db : Db) : Except PyError Db := do
  require (row.tenantId ∈ db.tenants) (.integrityError "tenant_id")
  return { db with legacyChunks := db.legacyChunks.upsert row (LegacyChunk.overwrite row) }

def insertLegacyChunks (tenantId : Uuid) (filename : String) :
    ℕ → List TextChunk → Db → Except PyError Db
  | _, [], db => .ok db
  | idx, chunk :: chunks, db => do
      let db ← insertLegacyChunk (legacyChunk tenantId filename idx chunk) db
      insertLegacyChunks tenantId filename (idx + 1) chunks db

def LegacyChunk.isOf (tenantId : Uuid) (filename : String) (c : LegacyChunk) : Bool :=
  c.tenantId = tenantId ∧ c.filename = filename

def persistLegacyChunks (tenantId : Uuid) (filename : String) (chunks : List TextChunk) (db : Db) :
    Except PyError Db :=
  insertLegacyChunks tenantId filename 0 chunks { db with
    legacyChunks := db.legacyChunks.delete (LegacyChunk.isOf tenantId filename) }

/-! ### `_rebuild_now` -/

section Rebuild

variable (uuid5 : String → String)

/-- The document of a row of `document_chunks`. -/
def LegacyChunk.document (c : LegacyChunk) : Retrieval.Document where
  id := makeChunkId uuid5 c.tenantId c.filename c.pageNumber c.chunkIndex none
  text := c.text
  filename := c.filename
  pageNumber := c.pageNumber
  chunkIndex := c.chunkIndex
  tenantId := Uuid.text c.tenantId
  versionId := none

/-- The document of a row of `document_version_chunks`. -/
def VersionChunk.document (c : VersionChunk) : Retrieval.Document where
  id := makeChunkId uuid5 c.tenantId c.filename c.pageNumber c.chunkIndex (some c.versionId)
  text := c.text
  filename := c.filename
  pageNumber := c.pageNumber
  chunkIndex := c.chunkIndex
  tenantId := Uuid.text c.tenantId
  versionId := some (Uuid.text c.versionId)

/-- The join with the active versions. -/
def Db.isServed (db : Db) (c : VersionChunk) : Bool :=
  db.versions.rows.any fun v => v.isRow c.versionId c.documentId c.tenantId && v.status = .active

/-- The documents of the index; the rank of a document does not depend on their order. -/
def rebuildDocuments (db : Db) : List Retrieval.Document :=
  db.legacyChunks.rows.map (LegacyChunk.document uuid5) ++
    (db.versionChunks.rows.filter db.isServed).map (VersionChunk.document uuid5)

end Rebuild

/-! ### The rows a persist stores -/

/-- The foreign key of `document_version_chunks`. -/
def Db.Owned (db : Db) : Prop :=
  ∀ r ∈ db.versionChunks, ∃ v ∈ db.versions, v.id = r.versionId ∧ v.documentId = r.documentId ∧
    v.tenantId = r.tenantId

variable {db db' : Db} {tenantId documentId versionId : Uuid} {filename : String}

theorem insertVersionChunks_eq {idx : ℕ} {chunks : List TextChunk}
    (h : insertVersionChunks tenantId documentId versionId filename idx chunks db = .ok db') :
    db' = { db with
      versionChunks := db.versionChunks.upsertAll
        (chunks.mapIdx fun i => versionChunk tenantId documentId versionId filename (idx + i))
        VersionChunk.overwrite } := by
  induction chunks generalizing idx db with
  | nil => exact (Except.ok.inj h).symm
  | cons chunk chunks ih =>
    obtain ⟨db₁, h₁, h₂⟩ := bind_ok.mp h
    obtain ⟨-, -, rfl⟩ := insertVersionChunk_ok h₁
    rw [ih h₂, List.mapIdx_cons]
    simp only [Table.upsertAll, List.foldl_cons, Nat.add_zero, Nat.add_assoc, Nat.add_comm 1]

/-- A persist that commits leaves as rows of its version those it inserts. -/
theorem mem_persistVersionChunks {chunks : List TextChunk} (hdb : db.Owned)
    (h : persistVersionChunks tenantId documentId versionId filename chunks db = .ok db')
    (r : VersionChunk) :
    r ∈ db'.versionChunks ↔
      r ∈ chunks.mapIdx (versionChunk tenantId documentId versionId filename) ∨
      r ∈ db.versionChunks ∧ r.isOf tenantId documentId versionId = false := by
  let call : PersistCall := ⟨tenantId, documentId, versionId, filename, chunks⟩
  have hrows : (fun i => versionChunk tenantId documentId versionId filename (0 + i)) =
      versionChunk tenantId documentId versionId filename := by
    funext i
    rw [Nat.zero_add]
  obtain ⟨⟨v, hv, ⟨hid, hdoc, hten⟩, -⟩, -⟩ := persistVersionChunks_ok h
  rw [persistVersionChunks, bind_ok] at h
  obtain ⟨db₁, h₁, h⟩ := h
  have hdb₁ := insertVersionChunks_eq h₁
  rw [require_bind_ok] at h
  obtain rfl := Except.ok.inj h.2
  -- no row that is left has the version, by the foreign key
  have hother : ∀ o ∈ db.versionChunks.delete (VersionChunk.isOf tenantId documentId versionId),
      o.versionId ≠ versionId ∨ o.tenantId ≠ tenantId := by
    intro o ho
    obtain ⟨ho, hnot⟩ := Table.mem_delete.mp ho
    by_contra hsame
    push Not at hsame
    obtain ⟨w, hw, hwid, hwdoc, hwten⟩ := hdb o ho
    have hvw : v = w := Table.eq_of_key_eq hv hw (hid.trans (hwid.trans hsame.1).symm)
    have hof : o.isOf tenantId documentId versionId = true :=
      VersionChunk.isOf_iff.mpr ⟨hsame.2, by rw [← hwdoc, ← hvw, hdoc], hsame.1⟩
    rw [hnot] at hof
    cases hof
  have hkey : ∀ o ∈ db.versionChunks.delete (VersionChunk.isOf tenantId documentId versionId),
      o.key ∉ call.rows.map VersionChunk.key := by
    intro o ho hmem
    obtain ⟨r, hr, hk⟩ := List.mem_map.mp hmem
    obtain ⟨hrt, -, hrv⟩ := PersistCall.mem_rows hr
    simp only [VersionChunk.key, Prod.mk.injEq] at hk
    rcases hother o ho with hne | hne
    · exact hne (hk.2.1.symm.trans hrv)
    · exact hne (hk.1.symm.trans hrt)
  have hupsert := Table.mem_upsertAll
    (t := db.versionChunks.delete (VersionChunk.isOf tenantId documentId versionId))
    (f := VersionChunk.overwrite) call.rows_nodupKeys
    (fun r hr o ho hk => absurd (hk ▸ List.mem_map_of_mem hr) (hkey o ho)) (s := r)
  rw [hdb₁, hrows]
  refine hupsert.trans (or_congr Iff.rfl ?_)
  constructor
  · exact fun hr => Table.mem_delete.mp hr.1
  · exact fun hr => ⟨Table.mem_delete.mpr hr, hkey r (Table.mem_delete.mpr hr)⟩

theorem isOf_of_mem_mapIdx {chunks : List TextChunk} {r : VersionChunk}
    (hr : r ∈ chunks.mapIdx (versionChunk tenantId documentId versionId filename)) :
    r.isOf tenantId documentId versionId = true := by
  obtain ⟨i, hi, rfl⟩ := List.mem_mapIdx.mp hr
  exact VersionChunk.isOf_iff.mpr ⟨rfl, rfl, rfl⟩

theorem rows_persistVersionChunks {chunks : List TextChunk} (hdb : db.Owned)
    (h : persistVersionChunks tenantId documentId versionId filename chunks db = .ok db') :
    (db'.versionChunks.rows.filter (VersionChunk.isOf tenantId documentId versionId)).Perm
      (chunks.mapIdx (versionChunk tenantId documentId versionId filename)) := by
  let call : PersistCall := ⟨tenantId, documentId, versionId, filename, chunks⟩
  refine (List.perm_ext_iff_of_nodup (db'.versionChunks.nodupKeys.of_map.filter _)
    call.rows_nodupKeys.of_map).mpr fun r => ?_
  have hmem := mem_persistVersionChunks hdb h r
  rw [List.mem_filter]
  constructor
  · rintro ⟨hr, hof⟩
    rcases hmem.mp hr with hrow | ⟨-, hnot⟩
    · exact hrow
    · rw [hnot] at hof
      cases hof
  · exact fun hrow => ⟨hmem.mpr (Or.inl hrow), isOf_of_mem_mapIdx hrow⟩

theorem insertLegacyChunk_ok {row : LegacyChunk} (h : insertLegacyChunk row db = .ok db') :
    row.tenantId ∈ db.tenants ∧ db' = { db with
      legacyChunks := db.legacyChunks.upsert row (LegacyChunk.overwrite row) } := by
  simp only [insertLegacyChunk, require_bind_ok] at h
  exact ⟨h.1, (Except.ok.inj h.2).symm⟩

theorem insertLegacyChunks_eq {idx : ℕ} {chunks : List TextChunk}
    (h : insertLegacyChunks tenantId filename idx chunks db = .ok db') :
    db' = { db with
      legacyChunks := db.legacyChunks.upsertAll
        (chunks.mapIdx fun i => legacyChunk tenantId filename (idx + i)) LegacyChunk.overwrite } := by
  induction chunks generalizing idx db with
  | nil => exact (Except.ok.inj h).symm
  | cons chunk chunks ih =>
    obtain ⟨db₁, h₁, h₂⟩ := bind_ok.mp h
    obtain ⟨-, rfl⟩ := insertLegacyChunk_ok h₁
    rw [ih h₂, List.mapIdx_cons]
    simp only [Table.upsertAll, List.foldl_cons, Nat.add_zero, Nat.add_assoc, Nat.add_comm 1]

theorem isOf_of_mem_mapIdx_legacy {chunks : List TextChunk} {r : LegacyChunk}
    (hr : r ∈ chunks.mapIdx (legacyChunk tenantId filename)) :
    r.isOf tenantId filename = true := by
  obtain ⟨i, hi, rfl⟩ := List.mem_mapIdx.mp hr
  exact decide_eq_true ⟨rfl, rfl⟩

theorem nodupKeys_mapIdx_legacy (tenantId : Uuid) (filename : String) (chunks : List TextChunk) :
    ((chunks.mapIdx (legacyChunk tenantId filename)).map LegacyChunk.key).Nodup := by
  have hindex : ((chunks.mapIdx (legacyChunk tenantId filename)).map LegacyChunk.key).map
      (fun k => k.2.2.2) = List.range chunks.length := by
    apply List.ext_getElem
    · simp
    · intro i h₁ h₂
      simp [LegacyChunk.key, legacyChunk]
  exact List.Nodup.of_map _ (hindex ▸ List.nodup_range)

/-- A legacy persist leaves as rows of its file those it inserts. -/
theorem mem_persistLegacyChunks {chunks : List TextChunk}
    (h : persistLegacyChunks tenantId filename chunks db = .ok db') (r : LegacyChunk) :
    r ∈ db'.legacyChunks ↔ r ∈ chunks.mapIdx (legacyChunk tenantId filename) ∨
      r ∈ db.legacyChunks ∧ r.isOf tenantId filename = false := by
  have hrows : (fun i => legacyChunk tenantId filename (0 + i)) = legacyChunk tenantId filename := by
    funext i
    rw [Nat.zero_add]
  have hkey : ∀ o ∈ db.legacyChunks.delete (LegacyChunk.isOf tenantId filename),
      o.key ∉ (chunks.mapIdx (legacyChunk tenantId filename)).map LegacyChunk.key := by
    intro o ho hmem
    obtain ⟨r, hr, hk⟩ := List.mem_map.mp hmem
    obtain ⟨i, hi, rfl⟩ := List.mem_mapIdx.mp hr
    simp only [LegacyChunk.key, legacyChunk, Prod.mk.injEq] at hk
    have hof : o.isOf tenantId filename = true := decide_eq_true ⟨hk.1.symm, hk.2.1.symm⟩
    rw [(Table.mem_delete.mp ho).2] at hof
    cases hof
  have hupsert := Table.mem_upsertAll
    (t := db.legacyChunks.delete (LegacyChunk.isOf tenantId filename))
    (f := LegacyChunk.overwrite) (nodupKeys_mapIdx_legacy tenantId filename chunks)
    (fun r hr o ho hk => absurd (hk ▸ List.mem_map_of_mem hr) (hkey o ho)) (s := r)
  rw [insertLegacyChunks_eq h, hrows]
  refine hupsert.trans (or_congr Iff.rfl ?_)
  constructor
  · exact fun hr => Table.mem_delete.mp hr.1
  · exact fun hr => ⟨Table.mem_delete.mpr hr, hkey r (Table.mem_delete.mpr hr)⟩

theorem rows_persistLegacyChunks {chunks : List TextChunk}
    (h : persistLegacyChunks tenantId filename chunks db = .ok db') :
    (db'.legacyChunks.rows.filter (LegacyChunk.isOf tenantId filename)).Perm
      (chunks.mapIdx (legacyChunk tenantId filename)) := by
  refine (List.perm_ext_iff_of_nodup (db'.legacyChunks.nodupKeys.of_map.filter _)
    (nodupKeys_mapIdx_legacy tenantId filename chunks).of_map).mpr fun r => ?_
  have hmem := mem_persistLegacyChunks h r
  rw [List.mem_filter]
  constructor
  · rintro ⟨hr, hof⟩
    rcases hmem.mp hr with hrow | ⟨-, hnot⟩
    · exact hrow
    · rw [hnot] at hof
      cases hof
  · exact fun hrow => ⟨hmem.mpr (Or.inl hrow), isOf_of_mem_mapIdx_legacy hrow⟩

/-! ### The foreign key over runs -/

theorem Db.Owned.apply {t : Transaction} (hdb : db.Owned) (h : t.apply db = .ok db') :
    db'.Owned := by
  by_cases ht : t.isPersist = true
  · cases t with
    | persist tenantId documentId versionId filename chunks =>
      obtain ⟨⟨v, hv, ⟨hid, hdoc, hten⟩, -⟩, rows, hdb'⟩ := persistVersionChunks_ok h
      have hversions : ∀ w ∈ db.versions, ∃ w' ∈ db'.versions, w'.id = w.id ∧
          w'.documentId = w.documentId ∧ w'.tenantId = w.tenantId := by
        intro w hw
        have hmem : (if isStagedVersion versionId documentId tenantId w then
            Version.setChunkCount chunks.length w else w) ∈ db'.versions := by
          rw [hdb']
          exact Table.update_mem hw
        refine ⟨_, hmem, ?_⟩
        split_ifs <;> exact ⟨rfl, rfl, rfl⟩
      have howner : ∀ r ∈ db'.versionChunks, ∃ w ∈ db.versions, w.id = r.versionId ∧
          w.documentId = r.documentId ∧ w.tenantId = r.tenantId := by
        intro r hr
        rcases (mem_persistVersionChunks hdb h r).mp hr with hrow | ⟨hrow, -⟩
        · obtain ⟨ht, hd, hver⟩ := VersionChunk.isOf_iff.mp (isOf_of_mem_mapIdx hrow)
          exact ⟨v, hv, hid.trans hver.symm, hdoc.trans hd.symm, hten.trans ht.symm⟩
        · exact hdb r hrow
      intro r hr
      obtain ⟨w, hw, hwid, hwdoc, hwten⟩ := howner r hr
      obtain ⟨w', hw', hid', hdoc', hten'⟩ := hversions w hw
      exact ⟨w', hw', hid'.trans hwid, hdoc'.trans hwdoc, hten'.trans hwten⟩
    | _ => cases ht
  · have hkeeps := keepsChunks (by simpa using ht) h
    intro r hr
    obtain ⟨v, hv, hid, hdoc, hten⟩ := hdb r (hkeeps.rows ▸ hr)
    obtain ⟨v', hv', hsame⟩ := hkeeps.versionTo v hv
    exact ⟨v', hv', hsame.row.id.trans hid, hsame.row.documentId.trans hdoc,
      hsame.row.tenantId.trans hten⟩

theorem history_owned {tenants : List Uuid} {ts : List Transaction}
    (h : history tenants ts = some db) : db.Owned :=
  Machine.run_invariant (fun _ _ _ hdb hs => hdb.apply (commit_some.mp hs))
    (fun r hr => absurd hr (Table.notMem_empty r)) h

/-! ### The identity of a chunk -/

section Identity

variable (uuid5 : String → String)

theorem ids_versionChunks (chunks : List TextChunk) :
    (chunks.mapIdx (versionChunk tenantId documentId versionId filename)).map
        (fun r => (r.document uuid5).id) =
      (Qdrant.versionChunks uuid5 tenantId documentId versionId filename chunks).map Chunk.id := by
  rw [Qdrant.versionChunks]
  apply List.ext_getElem <;> simp [versionChunk, VersionChunk.document]

theorem ids_legacyChunks (chunks : List TextChunk) :
    (chunks.mapIdx (legacyChunk tenantId filename)).map (fun r => (r.document uuid5).id) =
      (Qdrant.legacyChunks uuid5 tenantId filename chunks).map Chunk.id := by
  rw [Qdrant.legacyChunks]
  apply List.ext_getElem <;> simp [legacyChunk, LegacyChunk.document]

end Identity

end Ally
