import Ally.ActivationOrder
import Ally.Qdrant

/-!
# Operations on one document that meet in the vector collection

Attempts of `embed_and_index`, `activate`, `tombstone` and `reconcile` run at the same
time. An attempt first commits or reads in PostgreSQL, then asks which collections
there are, then issues its calls one by one; any other attempt may come between two of
these steps, and an attempt may fail at each. Retries are further attempts of the same
operation, and a timed-out attempt is one that goes on.
-/

open Relational

namespace Ally

/-- What visibility follows: the document's pointer and whether it is deleted. -/
structure Target where
  pointer : Option Uuid
  deleted : Bool
  deriving DecidableEq, Repr

def Db.target (tenantId documentId : Uuid) (db : Db) : Target :=
  match db.documents.select (Document.isRow documentId tenantId) with
  | some d => ⟨d.activeVersionId, d.status = .deleted⟩
  | none => ⟨none, false⟩

def Db.filename (tenantId documentId : Uuid) (db : Db) : String :=
  match db.documents.select (Document.isRow documentId tenantId) with
  | some d => d.filename
  | none => ""

namespace Dense

inductive Operation
  | embed (versionId : Uuid) (filename : String) (chunks : List TextChunk)
  | activate (versionId : Uuid)
  | tombstone (reason : String)
  | reconcile
  deriving DecidableEq, Repr

/-- Where an attempt is; `found` is what its transaction or its snapshot made it expect. -/
inductive Attempt (κ : Type)
  | idle
  | ready (op : Operation)
  | opening (op : Operation) (found : Target) (calls : List (Qdrant.Call κ))
  | calling (op : Operation) (found : Option Target) (calls : List (Qdrant.Call κ))
  | done (op : Operation)
  | failed (op : Operation)

/-- A call that reached the server, with what its attempt expects and what the
document row was at that moment. The call is `none` where `get_collections` did not
list the collection and the attempt ended there. -/
structure Entry (κ : Type) where
  call : Option (Qdrant.Call κ)
  found : Option Target
  target : Target

structure World (ι κ : Type) where
  db : Db
  collection : Option (Qdrant.Points κ)
  attempt : ι → Attempt κ
  log : List (Entry κ)

inductive Action (ι : Type)
  | start (i : ι) (op : Operation)
  | transact (i : ι)
  | getCollections (i : ι)
  | call (i : ι)
  | fail (i : ι)
  | other (t : Transaction)

/-- The attempt with these calls before it. -/
def Attempt.next {κ : Type} (op : Operation) (found : Option Target) :
    List (Qdrant.Call κ) → Attempt κ
  | [] => .done op
  | calls => .calling op found calls

section Steps
variable {ι κ : Type} [DecidableEq ι] [DecidableEq κ] (tenantId documentId : Uuid)
  (uuid5 : String → κ)

def World.initial (tenants : List Uuid) : World ι κ where
  db := .initial tenants
  collection := none
  attempt _ := .idle
  log := []

def World.setAttempt (i : ι) (a : Attempt κ) (w : World ι κ) : World ι κ :=
  { w with attempt := Function.update w.attempt i a }

/-- The transaction of an operation, or the snapshot of a reconciliation. -/
def World.transact (i : ι) (op : Operation) (w : World ι κ) : World ι κ :=
  match op with
  | .embed versionId filename chunks =>
      w.setAttempt i (.next op none (Qdrant.indexChunks
        (Qdrant.versionChunks uuid5 tenantId documentId versionId filename chunks)))
  | .activate versionId =>
      match activateIngestionVersion documentId versionId tenantId w.db with
      | .ok db => { w with db }.setAttempt i (.opening op ⟨some versionId, false⟩
          (Qdrant.reconcileDocumentVersion tenantId documentId (some versionId)
            (db.filename tenantId documentId) false true))
      | .error _ => w.setAttempt i (.failed op)
  | .tombstone reason =>
      match tombstoneIngestionDocument documentId tenantId reason w.db with
      | .ok db => { w with db }.setAttempt i (.opening op ⟨none, true⟩
          (Qdrant.reconcileDocumentVersion tenantId documentId none
            (db.filename tenantId documentId) true false))
      | .error _ => w.setAttempt i (.failed op)
  | .reconcile =>
      match w.db.documents.select (Document.isRow documentId tenantId) with
      | some d => w.setAttempt i (.opening op ⟨d.activeVersionId, d.status = .deleted⟩
          (Qdrant.reconcileDocumentVersion tenantId documentId d.activeVersionId d.filename
            (d.status = .deleted) d.activeVersionId.isSome))
      | none => w.setAttempt i (.done op)

def World.getCollections (i : ι) (op : Operation) (found : Target)
    (calls : List (Qdrant.Call κ)) (w : World ι κ) : World ι κ :=
  match w.collection with
  | some _ => w.setAttempt i (.next op (some found) calls)
  | none =>
      World.setAttempt i (.done op)
        { w with log := w.log ++ [⟨none, some found, w.db.target tenantId documentId⟩] }

def World.call (i : ι) (op : Operation) (found : Option Target) (c : Qdrant.Call κ)
    (calls : List (Qdrant.Call κ)) (w : World ι κ) : World ι κ :=
  World.setAttempt i (.next op found calls)
    { w with
      collection := c.run w.collection
      log := w.log ++ [⟨some c, found, w.db.target tenantId documentId⟩] }

/-- A transaction that neither activates a version of the document nor deletes it. -/
def World.other (t : Transaction) (w : World ι κ) : Option (World ι κ) :=
  if t.activates documentId = none ∧ t.retires documentId = false then
    match t.apply w.db with
    | .ok db => some { w with db }
    | .error _ => some w
  else none

def World.step (w : World ι κ) : Action ι → Option (World ι κ)
  | .start i op =>
      match w.attempt i with
      | .idle => some (w.setAttempt i (.ready op))
      | _ => none
  | .transact i =>
      match w.attempt i with
      | .ready op => some (w.transact tenantId documentId uuid5 i op)
      | _ => none
  | .getCollections i =>
      match w.attempt i with
      | .opening op found calls => some (w.getCollections tenantId documentId i op found calls)
      | _ => none
  | .call i =>
      match w.attempt i with
      | .calling op found (c :: calls) =>
          some (w.call tenantId documentId i op found c calls)
      | _ => none
  | .fail i =>
      match w.attempt i with
      | .ready op | .opening op _ _ | .calling op _ _ => some (w.setAttempt i (.failed op))
      | _ => none
  | .other t => w.other documentId t

end Steps
end Dense

/-! ### The target of a document over a transaction -/

variable {db db' : Db} {tenantId documentId : Uuid} {t : Transaction}

theorem Db.target_eq {d : Document} (hd : d ∈ db.documents) (hid : d.id = documentId)
    (ht : d.tenantId = tenantId) :
    db.target tenantId documentId = ⟨d.activeVersionId, d.status = .deleted⟩ := by
  rw [Db.target, select_document.mpr ⟨hd, hid, ht⟩]

theorem Db.target_none
    (h : ∀ d ∈ db.documents, ¬ (d.id = documentId ∧ d.tenantId = tenantId)) :
    db.target tenantId documentId = ⟨none, false⟩ := by
  cases hs : db.documents.select (Document.isRow documentId tenantId) with
  | none => rw [Db.target, hs]
  | some d =>
      obtain ⟨hd, hrow⟩ := select_document.mp hs
      exact absurd hrow (h d hd)

/-- A target the document had at some time up to now. -/
structure Db.Past (tenantId documentId : Uuid) (db : Db) (r : Target) : Prop where
  activated : ∀ v, r.pointer = some v → ∃ x ∈ db.versions, x.id = v ∧ x.status.Activated
  deleted : r.deleted = true → (db.target tenantId documentId).deleted = true

theorem Db.Coherent.past_target (hc : db.Coherent) :
    db.Past tenantId documentId (db.target tenantId documentId) where
  activated := by
    intro v hv
    by_cases hrow : ∃ d ∈ db.documents, d.id = documentId ∧ d.tenantId = tenantId
    · obtain ⟨d, hd, hid, ht⟩ := hrow
      rw [Db.target_eq hd hid ht] at hv
      obtain ⟨x, hx, hxid, -, hst⟩ := hc.pointer d hd v hv
      exact ⟨x, hx, hxid, Or.inl hst⟩
    · push Not at hrow
      rw [Db.target_none fun d hd h => hrow d hd h.1 h.2] at hv
      cases hv
  deleted h := h

theorem Db.target_neutral (hn : db.Neutral db') :
    db'.target tenantId documentId = db.target tenantId documentId := by
  by_cases hrow : ∃ d ∈ db.documents, d.id = documentId ∧ d.tenantId = tenantId
  · obtain ⟨d, hd, hid, ht⟩ := hrow
    obtain ⟨d', hd', hsame⟩ := hn.documentTo d hd
    rw [Db.target_eq hd hid ht,
      Db.target_eq hd' (hsame.id.trans hid) (hsame.tenantId.trans ht), hsame.activeVersionId]
    simp only [hsame.deleted]
  · push Not at hrow
    have hnone : db.target tenantId documentId = ⟨none, false⟩ :=
      Db.target_none fun d hd h => hrow d hd h.1 h.2
    by_cases hrow' : ∃ d' ∈ db'.documents, d'.id = documentId ∧ d'.tenantId = tenantId
    · obtain ⟨d', hd', hid, ht⟩ := hrow'
      rcases hn.documentOf d' hd' with ⟨d, hd, hsame⟩ | ⟨hp, hst, -⟩
      · exact absurd (hsame.tenantId.symm.trans ht) (hrow d hd (hsame.id.symm.trans hid))
      · rw [hnone, Db.target_eq hd' hid ht, hp, decide_eq_false hst]
    · push Not at hrow'
      rw [hnone, Db.target_none fun d hd h => hrow' d hd h.1 h.2]

/-- The rows of a table that maps each document by a function that keeps its key. -/
theorem Db.target_map {f : Document → Document}
    (hf : ∀ d, (f d).id = d.id ∧ (f d).tenantId = d.tenantId)
    (hdocs : ∀ d', d' ∈ db'.documents ↔ ∃ d ∈ db.documents, d' = f d) :
    (∃ d ∈ db.documents, (d.id = documentId ∧ d.tenantId = tenantId) ∧
      db'.target tenantId documentId = ⟨(f d).activeVersionId, (f d).status = .deleted⟩) ∨
    db'.target tenantId documentId = db.target tenantId documentId := by
  by_cases hrow : ∃ d ∈ db.documents, d.id = documentId ∧ d.tenantId = tenantId
  · obtain ⟨d, hd, hid, ht⟩ := hrow
    have hd' : f d ∈ db'.documents := (hdocs _).mpr ⟨d, hd, rfl⟩
    exact Or.inl ⟨d, hd, ⟨hid, ht⟩,
      Db.target_eq hd' ((hf d).1.trans hid) ((hf d).2.trans ht)⟩
  · push Not at hrow
    right
    rw [Db.target_none fun d hd h => hrow d hd h.1 h.2, Db.target_none]
    rintro d' hd' ⟨hid, ht⟩
    obtain ⟨d, hd, rfl⟩ := (hdocs d').mp hd'
    exact hrow d hd ((hf d).1.symm.trans hid) ((hf d).2.symm.trans ht)

/-- A transaction leaves the target as it is, or gives it a value it never had. -/
theorem Db.target_step (hc : db.Coherent) (h : t.apply db = .ok db') :
    db'.target tenantId documentId = db.target tenantId documentId ∨
      ∀ r, db.Past tenantId documentId r → r ≠ db'.target tenantId documentId := by
  rcases apply_cases hc h with hn | ⟨e, v, _, -, ha⟩ | ⟨e, _, _, -, hr⟩
  · exact Or.inl (Db.target_neutral hn)
  · rcases Db.target_map (fun d => d.pointedTo_id e v) ha.documents with
      ⟨d, hd, ⟨hid, ht⟩, htarget⟩ | hsame
    · by_cases he : d.id = e
      · right
        intro r hpast hr
        rw [htarget, Document.pointedTo, if_pos he] at hr
        obtain ⟨x, hx, hxid, hact⟩ := hpast.activated v (by rw [hr]; rfl)
        obtain ⟨y, hy, hyid, -, hst⟩ := ha.version
        rw [Table.eq_of_key_eq hx hy (hxid.trans hyid.symm), hst] at hact
        rcases hact with hact | hact <;> cases hact
      · left
        rw [htarget, Db.target_eq hd hid ht, Document.pointedTo, if_neg he]
    · exact Or.inl hsame
  · rcases Db.target_map (fun d => d.retired_id e) hr.documents with
      ⟨d, hd, ⟨hid, ht⟩, htarget⟩ | hsame
    · by_cases he : d.id = e
      · right
        intro r hpast hr'
        rw [htarget, Document.retired, if_pos he] at hr'
        obtain ⟨y, hy, hyid, hst⟩ := hr.document
        have hdel := hpast.deleted (by rw [hr']; rfl)
        rw [Db.target_eq hd hid ht, decide_eq_true_eq] at hdel
        rw [Table.eq_of_key_eq hy hd (hyid.trans he.symm)] at hst
        exact hst hdel
      · left
        rw [htarget, Db.target_eq hd hid ht, Document.retired, if_neg he]
    · exact Or.inl hsame

theorem Db.deleted_target_stays (hc : db.Coherent) (h : t.apply db = .ok db')
    (hdel : (db.target tenantId documentId).deleted = true) :
    (db'.target tenantId documentId).deleted = true := by
  by_cases hrow : ∃ d ∈ db.documents, d.id = documentId ∧ d.tenantId = tenantId
  · obtain ⟨d, hd, hid, ht⟩ := hrow
    rw [Db.target_eq hd hid ht, decide_eq_true_eq] at hdel
    rcases apply_cases hc h with hn | ⟨e, v, _, -, ha⟩ | ⟨e, _, _, -, hr⟩
    · rw [Db.target_neutral hn, Db.target_eq hd hid ht, decide_eq_true_eq]
      exact hdel
    · obtain ⟨y, hy, hyid, hst, -⟩ := ha.document
      have hne : d.id ≠ e := fun he => hst (Table.eq_of_key_eq hy hd (hyid.trans he.symm) ▸ hdel)
      have hd' : d ∈ db'.documents := (ha.documents d).mpr ⟨d, hd, (if_neg hne).symm⟩
      rw [Db.target_eq hd' hid ht, decide_eq_true_eq]
      exact hdel
    · obtain ⟨y, hy, hyid, hst⟩ := hr.document
      have hne : d.id ≠ e := fun he => hst (Table.eq_of_key_eq hy hd (hyid.trans he.symm) ▸ hdel)
      have hd' : d ∈ db'.documents := (hr.documents d).mpr ⟨d, hd, (if_neg hne).symm⟩
      rw [Db.target_eq hd' hid ht, decide_eq_true_eq]
      exact hdel
  · push Not at hrow
    rw [Db.target_none fun d hd h => hrow d hd h.1 h.2] at hdel
    cases hdel

theorem Db.Past.step {r : Target} (hp : db.Past tenantId documentId r) (hc : db.Coherent)
    (h : t.apply db = .ok db') : db'.Past tenantId documentId r where
  activated v hv := by
    obtain ⟨x, hx, hid, hact⟩ := hp.activated v hv
    obtain ⟨x', hx', hsame, hmoves⟩ := version_moves hc h hx
    exact ⟨x', hx', hsame.id.trans hid, hmoves.activated hact⟩
  deleted hr := Db.deleted_target_stays hc h (hp.deleted hr)

theorem Db.target_activate {versionId : Uuid}
    (h : activateIngestionVersion documentId versionId tenantId db = .ok db') :
    db'.target tenantId documentId = ⟨some versionId, false⟩ := by
  obtain ⟨d, hd, ⟨hid, ht⟩, hnd, v, -, -, -, ⟨hp, rfl⟩ | ⟨hp, rfl⟩⟩ :=
    activateIngestionVersion_ok h
  · rw [Db.target_eq hd hid ht, hp, decide_eq_false hnd]
  · have hd' : Document.setPointer versionId d ∈ (makeActive documentId versionId tenantId
        (supersedePrevious d.activeVersionId documentId tenantId db)).documents := by
      rw [makeActive, supersedePrevious_documents, Table.mem_update]
      refine ⟨d, hd, ?_⟩
      rw [if_pos ((isRow_undeleted hd hid ht hnd hd).mpr hid)]
    rw [Db.target_eq hd' hid ht]
    rfl

theorem Db.target_tombstone {reason : String} (hc : db.Coherent)
    (h : tombstoneIngestionDocument documentId tenantId reason db = .ok db') :
    db'.target tenantId documentId = ⟨none, true⟩ := by
  obtain ⟨d, hd, ⟨hid, ht⟩, tombstones, legacyChunks, ⟨hdel, rfl⟩ | ⟨hnd, rfl⟩⟩ :=
    tombstoneIngestionDocument_ok h
  · have hd' : d ∈ ({ db with tombstones, legacyChunks } : Db).documents := hd
    rw [Db.target_eq hd' hid ht, hc.deleted d hd hdel, decide_eq_true hdel]
  · have hd' : Document.setDeleted d ∈ (retireDocument documentId tenantId db).documents := by
      rw [retireDocument, Table.mem_update]
      refine ⟨d, hd, ?_⟩
      rw [if_pos ((isRow_undeleted hd hid ht hnd hd).mpr hid)]
    have hd'' : Document.setDeleted d ∈ ({ retireDocument documentId tenantId db with
      tombstones, legacyChunks } : Db).documents := hd'
    exact Db.target_eq hd'' hid ht

/-- A transaction that neither activates nor deletes the document leaves its target. -/
theorem Db.target_other (hc : db.Coherent) (h : t.apply db = .ok db')
    (ha : t.activates documentId = none) (hr : t.retires documentId = false) :
    db'.target tenantId documentId = db.target tenantId documentId := by
  rcases apply_cases hc h with hn | ⟨e, v, _, rfl, hact⟩ | ⟨e, _, _, rfl, hret⟩
  · exact Db.target_neutral hn
  · have hne : e ≠ documentId := by
      rintro rfl
      simp [Transaction.activates] at ha
    rcases Db.target_map (fun d => d.pointedTo_id e v) hact.documents with
      ⟨d, hd, ⟨hid, ht⟩, htarget⟩ | hsame
    · rw [htarget, Db.target_eq hd hid ht, Document.pointedTo,
        if_neg fun he => hne (he.symm.trans hid)]
    · exact hsame
  · have hne : e ≠ documentId := by simpa [Transaction.retires] using hr
    rcases Db.target_map (fun d => d.retired_id e) hret.documents with
      ⟨d, hd, ⟨hid, ht⟩, htarget⟩ | hsame
    · rw [htarget, Db.target_eq hd hid ht, Document.retired,
        if_neg fun he => hne (he.symm.trans hid)]
    · exact hsame

theorem Db.Coherent.deleted_pointer (hc : db.Coherent)
    (h : (db.target tenantId documentId).deleted = true) :
    (db.target tenantId documentId).pointer = none := by
  by_cases hrow : ∃ d ∈ db.documents, d.id = documentId ∧ d.tenantId = tenantId
  · obtain ⟨d, hd, hid, ht⟩ := hrow
    rw [Db.target_eq hd hid ht] at h ⊢
    exact hc.deleted d hd (of_decide_eq_true h)
  · push Not at hrow
    rw [Db.target_none fun d hd h => hrow d hd h.1 h.2]

end Ally
