import Ally.TransactionSpecs

/-!
# Pointer coherence of the ingestion tables

`Coherent` links the active pointer of a document with the status of its
versions. A committed transaction leaves every pointer alone (`Neutral`), moves
one pointer to a staged version (`Activates`) or deletes one document
(`Retires`); all later invariants are derived from these three relations.
-/

open Relational

namespace Ally

/-- The columns no statement changes, together with the pointer and whether the
document is deleted. -/
structure Document.SamePointer (d d' : Document) : Prop where
  id : d'.id = d.id
  tenantId : d'.tenantId = d.tenantId
  filename : d'.filename = d.filename
  activeVersionId : d'.activeVersionId = d.activeVersionId
  deleted : d'.status = .deleted ↔ d.status = .deleted

/-- The columns of a version that no statement changes. -/
structure Version.SameRow (v v' : Version) : Prop where
  id : v'.id = v.id
  documentId : v'.documentId = v.documentId
  tenantId : v'.tenantId = v.tenantId
  attemptId : v'.attemptId = v.attemptId
  versionNumber : v'.versionNumber = v.versionNumber

theorem Document.SamePointer.refl (d : Document) : d.SamePointer d :=
  ⟨rfl, rfl, rfl, rfl, Iff.rfl⟩

theorem Version.SameRow.refl (v : Version) : v.SameRow v := ⟨rfl, rfl, rfl, rfl, rfl⟩

theorem Version.SameRow.trans {u v w : Version} (h : u.SameRow v) (h' : v.SameRow w) :
    u.SameRow w :=
  ⟨h'.id.trans h.id, h'.documentId.trans h.documentId, h'.tenantId.trans h.tenantId,
    h'.attemptId.trans h.attemptId, h'.versionNumber.trans h.versionNumber⟩

structure Db.Coherent (db : Db) : Prop where
  owner : ∀ v ∈ db.versions, ∃ d ∈ db.documents, d.id = v.documentId ∧ d.tenantId = v.tenantId
  pointer : ∀ d ∈ db.documents, ∀ i, d.activeVersionId = some i →
    ∃ v ∈ db.versions, v.id = i ∧ v.documentId = d.id ∧ v.status = .active
  active : ∀ v ∈ db.versions, v.status = .active →
    ∃ d ∈ db.documents, d.id = v.documentId ∧ d.activeVersionId = some v.id
  deleted : ∀ d ∈ db.documents, d.status = .deleted → d.activeVersionId = none

theorem Db.coherent_initial (tenants : List Uuid) : (Db.initial tenants).Coherent where
  owner v hv := absurd hv (Table.notMem_empty v)
  pointer d hd := absurd hd (Table.notMem_empty d)
  active v hv := absurd hv (Table.notMem_empty v)
  deleted d hd := absurd hd (Table.notMem_empty d)

/-- A version of a document carries the tenant of the document row. -/
theorem Db.Coherent.tenant {db : Db} (h : db.Coherent) {v : Version} {d : Document}
    (hv : v ∈ db.versions) (hd : d ∈ db.documents) (he : d.id = v.documentId) :
    d.tenantId = v.tenantId := by
  obtain ⟨d₁, hd₁, hid, ht⟩ := h.owner v hv
  rw [Table.eq_of_key_eq hd hd₁ (he.trans hid.symm), ht]

/-- Only the version a document points to is active. -/
theorem Db.Coherent.active_iff {db : Db} (h : db.Coherent) {v : Version} {d : Document}
    (hv : v ∈ db.versions) (hd : d ∈ db.documents) (he : d.id = v.documentId) :
    v.status = .active ↔ d.activeVersionId = some v.id := by
  constructor
  · intro hs
    obtain ⟨d₁, hd₁, hid, hp⟩ := h.active v hv hs
    rwa [Table.eq_of_key_eq hd hd₁ (he.trans hid.symm)]
  · intro hp
    obtain ⟨w, hw, hid, -, hs⟩ := h.pointer d hd v.id hp
    rwa [← Table.eq_of_key_eq hw hv hid]

/-! ### The three kinds of committed transaction -/

structure Db.Neutral (db db' : Db) : Prop where
  documentTo : ∀ d ∈ db.documents, ∃ d' ∈ db'.documents, d.SamePointer d'
  documentOf : ∀ d' ∈ db'.documents, (∃ d ∈ db.documents, d.SamePointer d') ∨
    (d'.activeVersionId = none ∧ d'.status ≠ .deleted ∧ ∀ d ∈ db.documents, d.id ≠ d'.id)
  versionTo : ∀ v ∈ db.versions, ∃ v' ∈ db'.versions, v.SameRow v' ∧
    (v'.status = v.status ∨ (v.status = .staged ∧ v'.status = .failed))
  versionOf : ∀ v' ∈ db'.versions,
    (∃ v ∈ db.versions, v.SameRow v' ∧
      (v'.status = v.status ∨ (v.status = .staged ∧ v'.status = .failed))) ∨
    (v'.status = .staged ∧ (∀ v ∈ db.versions, v.id ≠ v'.id) ∧
      (∀ v ∈ db.versions, v.documentId = v'.documentId → v.versionNumber < v'.versionNumber) ∧
      ∃ d ∈ db'.documents, d.id = v'.documentId ∧ d.tenantId = v'.tenantId)

theorem Db.Neutral.of_eq {db db' : Db} (hd : db'.documents = db.documents)
    (hv : db'.versions = db.versions) : db.Neutral db' where
  documentTo d h := ⟨d, hd ▸ h, .refl d⟩
  documentOf d h := Or.inl ⟨d, hd ▸ h, .refl d⟩
  versionTo v h := ⟨v, hv ▸ h, .refl v, Or.inl rfl⟩
  versionOf v h := Or.inl ⟨v, hv ▸ h, .refl v, Or.inl rfl⟩

/-- A transaction that only rewrites rows in place, keeping pointers and failing
at most staged versions, is neutral. -/
theorem Db.Neutral.of_update {db db' : Db} (f : Document → Document) (g : Version → Version)
    (hd : ∀ d', d' ∈ db'.documents ↔ ∃ d ∈ db.documents, d' = f d)
    (hv : ∀ v', v' ∈ db'.versions ↔ ∃ v ∈ db.versions, v' = g v)
    (hf : ∀ d : Document, d.SamePointer (f d))
    (hg : ∀ v : Version, v.SameRow (g v) ∧
      ((g v).status = v.status ∨ (v.status = .staged ∧ (g v).status = .failed))) :
    db.Neutral db' where
  documentTo d h := ⟨f d, (hd _).mpr ⟨d, h, rfl⟩, hf d⟩
  documentOf d' h := by
    obtain ⟨d, hm, rfl⟩ := (hd d').mp h
    exact Or.inl ⟨d, hm, hf d⟩
  versionTo v h := ⟨g v, (hv _).mpr ⟨v, h, rfl⟩, hg v⟩
  versionOf v' h := by
    obtain ⟨v, hm, rfl⟩ := (hv v').mp h
    exact Or.inl ⟨v, hm, hg v⟩

/-- The row of a version after another version of its document became active. -/
def Version.activated (documentId versionId : Uuid) (v : Version) : Version :=
  if v.id = versionId then Version.setStatus .active v
  else if v.documentId = documentId ∧ v.status = .active then Version.setStatus .superseded v
  else v

def Document.pointedTo (documentId versionId : Uuid) (d : Document) : Document :=
  if d.id = documentId then Document.setPointer versionId d else d

structure Db.Activates (documentId versionId : Uuid) (db db' : Db) : Prop where
  document : ∃ d ∈ db.documents, d.id = documentId ∧ d.status ≠ .deleted ∧
    d.activeVersionId ≠ some versionId
  version : ∃ v ∈ db.versions, v.id = versionId ∧ v.documentId = documentId ∧ v.status = .staged
  documents : ∀ d', d' ∈ db'.documents ↔ ∃ d ∈ db.documents, d' = d.pointedTo documentId versionId
  versions : ∀ v', v' ∈ db'.versions ↔ ∃ v ∈ db.versions, v' = v.activated documentId versionId

def Version.retired (documentId : Uuid) (v : Version) : Version :=
  if v.documentId = documentId ∧ v.status = .active then Version.setStatus .superseded v else v

def Document.retired (documentId : Uuid) (d : Document) : Document :=
  if d.id = documentId then Document.setDeleted d else d

structure Db.Retires (documentId : Uuid) (db db' : Db) : Prop where
  document : ∃ d ∈ db.documents, d.id = documentId ∧ d.status ≠ .deleted
  documents : ∀ d', d' ∈ db'.documents ↔ ∃ d ∈ db.documents, d' = d.retired documentId
  versions : ∀ v', v' ∈ db'.versions ↔ ∃ v ∈ db.versions, v' = v.retired documentId

/-! ### Each kind keeps coherence -/

theorem Db.Coherent.neutral {db db' : Db} (h : db.Coherent) (hn : db.Neutral db') :
    db'.Coherent where
  owner v' hv' := by
    rcases hn.versionOf v' hv' with ⟨v, hv, hsame, -⟩ | ⟨-, -, -, hd⟩
    · obtain ⟨d, hd, hid, ht⟩ := h.owner v hv
      obtain ⟨d', hd', hsp⟩ := hn.documentTo d hd
      exact ⟨d', hd', by rw [hsp.id, hid, hsame.documentId],
        by rw [hsp.tenantId, ht, hsame.tenantId]⟩
    · exact hd
  pointer d' hd' i hi := by
    rcases hn.documentOf d' hd' with ⟨d, hd, hsp⟩ | ⟨hnone, -, -⟩
    · obtain ⟨v, hv, hid, hdoc, hs⟩ := h.pointer d hd i (hsp.activeVersionId ▸ hi)
      obtain ⟨v', hv', hsame, hst | hst⟩ := hn.versionTo v hv
      · exact ⟨v', hv', by rw [hsame.id, hid], by rw [hsame.documentId, hdoc, hsp.id],
          by rw [hst, hs]⟩
      · rw [hs] at hst
        cases hst.1
    · rw [hnone] at hi
      cases hi
  active v' hv' hs' := by
    rcases hn.versionOf v' hv' with ⟨v, hv, hsame, hst | hst⟩ | ⟨hstaged, -⟩
    · obtain ⟨d, hd, hid, hp⟩ := h.active v hv (hst ▸ hs')
      obtain ⟨d', hd', hsp⟩ := hn.documentTo d hd
      exact ⟨d', hd', by rw [hsp.id, hid, hsame.documentId],
        by rw [hsp.activeVersionId, hp, hsame.id]⟩
    · rw [hst.2] at hs'
      cases hs'
    · rw [hstaged] at hs'
      cases hs'
  deleted d' hd' hs' := by
    rcases hn.documentOf d' hd' with ⟨d, hd, hsp⟩ | ⟨-, hnd, -⟩
    · rw [hsp.activeVersionId]
      exact h.deleted d hd (hsp.deleted.mp hs')
    · exact absurd hs' hnd

theorem Version.activated_sameRow (documentId versionId : Uuid) (v : Version) :
    v.SameRow (v.activated documentId versionId) := by
  unfold Version.activated
  split_ifs <;> exact ⟨rfl, rfl, rfl, rfl, rfl⟩

theorem Version.retired_sameRow (documentId : Uuid) (v : Version) :
    v.SameRow (v.retired documentId) := by
  unfold Version.retired
  split_ifs <;> exact ⟨rfl, rfl, rfl, rfl, rfl⟩

theorem Document.pointedTo_id (documentId versionId : Uuid) (d : Document) :
    (d.pointedTo documentId versionId).id = d.id ∧
      (d.pointedTo documentId versionId).tenantId = d.tenantId := by
  unfold Document.pointedTo
  split_ifs <;> exact ⟨rfl, rfl⟩

theorem Document.retired_id (documentId : Uuid) (d : Document) :
    (d.retired documentId).id = d.id ∧ (d.retired documentId).tenantId = d.tenantId := by
  unfold Document.retired
  split_ifs <;> exact ⟨rfl, rfl⟩

/-- An activated row is active exactly when it is the target or an active
version of another document. -/
theorem Version.activated_active {documentId versionId : Uuid} {v : Version} :
    (v.activated documentId versionId).status = .active ↔
      v.id = versionId ∨ (v.documentId ≠ documentId ∧ v.status = .active) := by
  unfold Version.activated
  split_ifs with hid hprev
  · simp [hid]
  · simp [hid, hprev.1]
  · have hn : v.status = .active → v.documentId ≠ documentId := fun hs hd => hprev ⟨hd, hs⟩
    simp only [hid, false_or]
    exact ⟨fun hs => ⟨hn hs, hs⟩, fun hs => hs.2⟩

theorem Version.retired_active {documentId : Uuid} {v : Version} :
    (v.retired documentId).status = .active ↔ v.documentId ≠ documentId ∧ v.status = .active := by
  unfold Version.retired
  split_ifs with hprev
  · simp [hprev.1]
  · have hn : v.status = .active → v.documentId ≠ documentId := fun hs hd => hprev ⟨hd, hs⟩
    exact ⟨fun hs => ⟨hn hs, hs⟩, fun hs => hs.2⟩

theorem Db.Coherent.activates {db db' : Db} {documentId versionId : Uuid} (h : db.Coherent)
    (ha : db.Activates documentId versionId db') : db'.Coherent where
  owner v' hv' := by
    obtain ⟨v, hv, rfl⟩ := (ha.versions v').mp hv'
    obtain ⟨d, hd, hid, ht⟩ := h.owner v hv
    have hsame := v.activated_sameRow documentId versionId
    have hkeep := d.pointedTo_id documentId versionId
    exact ⟨_, (ha.documents _).mpr ⟨d, hd, rfl⟩, by rw [hkeep.1, hid, hsame.documentId],
      by rw [hkeep.2, ht, hsame.tenantId]⟩
  pointer d' hd' i hi := by
    obtain ⟨d, hd, rfl⟩ := (ha.documents d').mp hd'
    have hkeep := d.pointedTo_id documentId versionId
    by_cases hid : d.id = documentId
    · rw [Document.pointedTo, if_pos hid] at hi
      obtain ⟨v, hv, hvid, hvdoc, -⟩ := ha.version
      have hsame := v.activated_sameRow documentId versionId
      exact ⟨_, (ha.versions _).mpr ⟨v, hv, rfl⟩,
        by rw [hsame.id, hvid]; exact Option.some.inj hi,
        by rw [hsame.documentId, hvdoc, hkeep.1, hid],
        Version.activated_active.mpr (Or.inl hvid)⟩
    · rw [Document.pointedTo, if_neg hid] at hi
      obtain ⟨v, hv, hvid, hvdoc, hs⟩ := h.pointer d hd i hi
      have hsame := v.activated_sameRow documentId versionId
      refine ⟨_, (ha.versions _).mpr ⟨v, hv, rfl⟩, by rw [hsame.id, hvid],
        by rw [hsame.documentId, hvdoc, hkeep.1], ?_⟩
      exact Version.activated_active.mpr (Or.inr ⟨hvdoc ▸ hid, hs⟩)
  active v' hv' hs' := by
    obtain ⟨v, hv, rfl⟩ := (ha.versions v').mp hv'
    have hsame := v.activated_sameRow documentId versionId
    rcases Version.activated_active.mp hs' with hvid | ⟨hvdoc, hs⟩
    · obtain ⟨w, hw, hwid, hwdoc, -⟩ := ha.version
      have hvw : v = w := Table.eq_of_key_eq hv hw (hvid.trans hwid.symm)
      obtain ⟨d, hd, hid, -⟩ := ha.document
      refine ⟨_, (ha.documents _).mpr ⟨d, hd, rfl⟩, ?_, ?_⟩
      · rw [(d.pointedTo_id documentId versionId).1, hid, hsame.documentId, hvw, hwdoc]
      · rw [Document.pointedTo, if_pos hid, Document.setPointer_activeVersionId, hsame.id, hvid]
    · obtain ⟨d, hd, hid, hp⟩ := h.active v hv hs
      refine ⟨_, (ha.documents _).mpr ⟨d, hd, rfl⟩, ?_, ?_⟩
      · rw [(d.pointedTo_id documentId versionId).1, hid, hsame.documentId]
      · rw [Document.pointedTo, if_neg (hid ▸ hvdoc), hp, hsame.id]
  deleted d' hd' hs' := by
    obtain ⟨d, hd, rfl⟩ := (ha.documents d').mp hd'
    by_cases hid : d.id = documentId
    · rw [Document.pointedTo, if_pos hid] at hs'
      cases hs'
    · rw [Document.pointedTo, if_neg hid] at hs' ⊢
      exact h.deleted d hd hs'

theorem Db.Coherent.retires {db db' : Db} {documentId : Uuid} (h : db.Coherent)
    (hr : db.Retires documentId db') : db'.Coherent where
  owner v' hv' := by
    obtain ⟨v, hv, rfl⟩ := (hr.versions v').mp hv'
    obtain ⟨d, hd, hid, ht⟩ := h.owner v hv
    have hsame := v.retired_sameRow documentId
    have hkeep := d.retired_id documentId
    exact ⟨_, (hr.documents _).mpr ⟨d, hd, rfl⟩, by rw [hkeep.1, hid, hsame.documentId],
      by rw [hkeep.2, ht, hsame.tenantId]⟩
  pointer d' hd' i hi := by
    obtain ⟨d, hd, rfl⟩ := (hr.documents d').mp hd'
    have hkeep := d.retired_id documentId
    by_cases hid : d.id = documentId
    · rw [Document.retired, if_pos hid] at hi
      cases hi
    · rw [Document.retired, if_neg hid] at hi
      obtain ⟨v, hv, hvid, hvdoc, hs⟩ := h.pointer d hd i hi
      have hsame := v.retired_sameRow documentId
      refine ⟨_, (hr.versions _).mpr ⟨v, hv, rfl⟩, by rw [hsame.id, hvid],
        by rw [hsame.documentId, hvdoc, hkeep.1], ?_⟩
      exact Version.retired_active.mpr ⟨hvdoc ▸ hid, hs⟩
  active v' hv' hs' := by
    obtain ⟨v, hv, rfl⟩ := (hr.versions v').mp hv'
    have hsame := v.retired_sameRow documentId
    obtain ⟨hvdoc, hs⟩ := Version.retired_active.mp hs'
    obtain ⟨d, hd, hid, hp⟩ := h.active v hv hs
    refine ⟨_, (hr.documents _).mpr ⟨d, hd, rfl⟩, ?_, ?_⟩
    · rw [(d.retired_id documentId).1, hid, hsame.documentId]
    · rw [Document.retired, if_neg (hid ▸ hvdoc), hp, hsame.id]
  deleted d' hd' hs' := by
    obtain ⟨d, hd, rfl⟩ := (hr.documents d').mp hd'
    by_cases hid : d.id = documentId
    · rw [Document.retired, if_pos hid]
      rfl
    · rw [Document.retired, if_neg hid] at hs' ⊢
      exact h.deleted d hd hs'

end Ally
