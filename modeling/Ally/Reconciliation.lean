import Ally.Corpus
import Ally.PointEdits

/-!
# Reconciliation of the indexes with the database

`_reconcile_ingestion_indexes_sync` reads all documents, updates the points of one after
the other, rebuilds the lexical index and closes attempts. The update of a document may
raise after any number of its calls took effect.
-/

open Relational

namespace Ally

/-- What the ingestion activities keep in step. -/
structure Stores (κ : Type) where
  db : Db
  collection : Option (Qdrant.Points κ)
  corpus : List Retrieval.Document

namespace Reconcile

variable {κ : Type}

/-- What raises during a call. The update of a document that raises has performed the
given number of its calls; a rebuild that raises may have saved the index. -/
structure Faults where
  read : Option PyError
  document : Uuid → Option ℕ
  rebuild : Option (Bool × PyError)
  close : Option PyError

/-- The snapshot, `ORDER BY tenant_id, id`. -/
def snapshot (db : Db) : List Document :=
  db.documents.rows.insertionSort fun d e =>
    d.tenantId < e.tenantId ∨ d.tenantId = e.tenantId ∧ d.id ≤ e.id

def calls (d : Document) : List (Qdrant.Call κ) :=
  Qdrant.reconcileDocumentVersion d.tenantId d.id d.activeVersionId d.filename
    (d.status = .deleted) d.activeVersionId.isSome

/-- The calls of the document's update that took effect. -/
def performed (faults : Faults) (d : Document) : List (Qdrant.Call κ) :=
  match faults.document d.id with
  | none => calls d
  | some n => (calls d).take n

structure Progress (κ : Type) where
  collection : Option (Qdrant.Points κ)
  reconciled : ℕ
  failures : ℕ

section Call

variable [DecidableEq κ] (uuid5 : String → String) (faults : Faults)

/-- One turn of the loop over the documents. -/
def reconcileDocument (s : Progress κ) (d : Document) : Progress κ :=
  let collection := Qdrant.runCalls (performed faults d) s.collection
  match faults.document d.id with
  | none => { s with collection, reconciled := s.reconciled + 1 }
  | some _ => { s with collection, failures := s.failures + 1 }

def reconcileDocuments (s : Stores κ) : Progress κ :=
  (snapshot s.db).foldl (reconcileDocument faults) ⟨s.collection, 0, 0⟩

def failureMessage (failures : ℕ) : String :=
  s!"Ingestion index reconciliation failed for {failures} documents"

/-- `_reconcile_ingestion_indexes_sync`: the state it leaves and its result. -/
def reconcileIngestionIndexes (s : Stores κ) : Stores κ × Except PyError ℕ :=
  match faults.read with
  | some e => (s, .error e)
  | none =>
    let progress := reconcileDocuments faults s
    let s := { s with collection := progress.collection }
    match faults.rebuild with
    | some (saved, e) =>
      ({ s with corpus := if saved then rebuildDocuments uuid5 s.db else s.corpus }, .error e)
    | none =>
      let s := { s with corpus := rebuildDocuments uuid5 s.db }
      if progress.failures ≠ 0 then
        (s, .error (.runtimeError (failureMessage progress.failures)))
      else match faults.close with
        | some e => (s, .error e)
        | none => ({ s with db := reconcileAttempts s.db }, .ok progress.reconciled)

end Call
/-! ### The points of a document -/

end Reconcile

section Points

variable {κ : Type} (d : Document) (p : Point κ)

/-- The payload names the document. -/
def Document.owns : Bool := p.tenantId = d.tenantId ∧ p.documentId = some d.id

/-- A point of the document's file whose payload names no version. -/
def Document.ownsLegacy : Bool :=
  p.tenantId = d.tenantId ∧ p.filename = d.filename ∧ p.versionId = none

/-- The points the document's update removes. -/
def Document.drops : Bool :=
  d.status = .deleted && d.owns p ||
    (d.status = .deleted || d.activeVersionId.isSome) && d.ownsLegacy p

/-- The point is of the version the document points to. -/
def Document.serves : Bool := d.activeVersionId.isSome && p.versionId = d.activeVersionId

variable {d p}

@[simp] theorem Document.owns_flag (flag : Option Bool) :
    d.owns { p with isActive := flag } = d.owns p := rfl

@[simp] theorem Document.drops_flag (flag : Option Bool) :
    d.drops { p with isActive := flag } = d.drops p := rfl

@[simp] theorem Document.serves_flag (flag : Option Bool) :
    d.serves { p with isActive := flag } = d.serves p := rfl

theorem Document.owns_iff :
    d.owns p = true ↔ p.tenantId = d.tenantId ∧ p.documentId = some d.id := by
  simp [Document.owns]

theorem Document.ownsLegacy_iff : d.ownsLegacy p = true ↔
    p.tenantId = d.tenantId ∧ p.filename = d.filename ∧ p.versionId = none := by
  simp [Document.ownsLegacy]

theorem Document.drops_iff : d.drops p = true ↔ d.status = .deleted ∧ d.owns p = true ∨
    (d.status = .deleted ∨ d.activeVersionId ≠ none) ∧ d.ownsLegacy p = true := by
  simp [Document.drops, Option.isSome_iff_ne_none]

end Points

namespace Reconcile

section Edits

variable {κ : Type} {d : Document} {p p' : Point κ} {c : Qdrant.Call κ}

theorem selects_documentConditions :
    Qdrant.Filter.selects ⟨Qdrant.documentConditions d.tenantId d.id, []⟩ p = d.owns p := by
  simp [Qdrant.Filter.selects, Qdrant.documentConditions, Qdrant.Condition.holds, Document.owns]

theorem selects_version (versionId : Uuid) :
    Qdrant.Filter.selects
        ⟨Qdrant.documentConditions d.tenantId d.id ++ [.versionId versionId], []⟩ p =
      (d.owns p && decide (p.versionId = some versionId)) := by
  simp [Qdrant.Filter.selects, Qdrant.documentConditions, Qdrant.Condition.holds, Document.owns,
    Bool.and_assoc]

theorem selects_otherVersions (versionId : Uuid) :
    Qdrant.Filter.selects
        ⟨Qdrant.documentConditions d.tenantId d.id, [.versionId versionId]⟩ p =
      (d.owns p && !decide (p.versionId = some versionId)) := by
  simp [Qdrant.Filter.selects, Qdrant.documentConditions, Qdrant.Condition.holds, Document.owns]

theorem selects_legacy :
    Qdrant.Filter.selects ⟨[.tenantId d.tenantId, .filename d.filename, .versionEmpty], []⟩ p =
      d.ownsLegacy p := by
  simp [Qdrant.Filter.selects, Qdrant.Condition.holds, Document.ownsLegacy]

/-- The calls of a document's update, and when each is made. -/
theorem mem_calls (h : c ∈ calls d) :
    (d.status ≠ .deleted ∧ ∃ flag f, c = .setPayload flag f ∧
      ∀ p : Point κ, f.selects p = true → d.owns p = true) ∨
    ∃ f, c = .delete f ∧ ∀ p : Point κ, f.selects p = true → d.drops p = true := by
  rw [calls, Qdrant.reconcileDocumentVersion, List.mem_append] at h
  rcases h with h | h
  · by_cases hdel : d.status = .deleted
    · simp only [Qdrant.visibilityCalls, decide_eq_true hdel, if_true, List.mem_singleton] at h
      refine Or.inr ⟨_, h, fun p hp => ?_⟩
      rw [selects_documentConditions] at hp
      exact Document.drops_iff.mpr (Or.inl ⟨hdel, hp⟩)
    · simp only [Qdrant.visibilityCalls, decide_eq_false hdel, Bool.false_eq_true, if_false] at h
      refine Or.inl ⟨hdel, ?_⟩
      cases hv : d.activeVersionId with
      | none =>
        rw [hv, List.mem_singleton] at h
        exact ⟨false, _, h, fun p hp => selects_documentConditions (p := p) ▸ hp⟩
      | some v =>
        rw [hv, List.mem_cons, List.mem_singleton] at h
        rcases h with h | h
        · refine ⟨true, _, h, fun p hp => ?_⟩
          rw [selects_version, Bool.and_eq_true] at hp
          exact hp.1
        · refine ⟨false, _, h, fun p hp => ?_⟩
          rw [selects_otherVersions, Bool.and_eq_true] at hp
          exact hp.1
  · right
    split_ifs at h with hlegacy
    · rw [List.mem_singleton] at h
      refine ⟨_, h, fun p hp => ?_⟩
      rw [selects_legacy] at hp
      rw [Bool.or_eq_true, decide_eq_true_eq, Option.isSome_iff_ne_none] at hlegacy
      exact Document.drops_iff.mpr (Or.inr ⟨hlegacy, hp⟩)
    · cases h

theorem isEdit_of_mem_calls (h : c ∈ calls d) : c.isEdit = true := by
  rcases mem_calls h with ⟨-, flag, f, rfl, -⟩ | ⟨f, rfl, -⟩ <;> rfl

theorem drops_of_onPoint (h : c ∈ calls d) (hp : c.onPoint p = none) : d.drops p = true := by
  rcases mem_calls h with ⟨-, flag, f, rfl, -⟩ | ⟨f, rfl, hf⟩
  · cases hp
  · rw [Qdrant.Call.onPoint] at hp
    split_ifs at hp with hs
    exact hf p hs

theorem onPoint_unowned (h : c ∈ calls d) (hp : d.owns p = false) (he : c.onPoint p = some p') :
    p' = p := by
  rcases mem_calls h with ⟨-, flag, f, rfl, hf⟩ | ⟨f, rfl, -⟩
  · have hs : ¬ f.selects p = true := fun hs => by
      rw [hf p hs] at hp
      cases hp
    rw [Qdrant.Call.onPoint, if_neg hs] at he
    exact (Option.some.inj he).symm
  · rw [Qdrant.Call.onPoint] at he
    split_ifs at he
    exact (Option.some.inj he).symm

theorem editPoint_visibilityCalls : Qdrant.editPoint
      (Qdrant.visibilityCalls d.tenantId d.id d.activeVersionId (d.status = .deleted)) p =
    if d.status = .deleted ∧ d.owns p = true then none
    else some (if d.owns p then Qdrant.setActive (d.serves p) p else p) := by
  by_cases hown : d.owns p = true
  · have hactive : ∀ flag, d.owns (Qdrant.setActive flag p) = true := fun _ => hown
    by_cases hdel : d.status = .deleted
    · simp [Qdrant.visibilityCalls, hdel, hown, Qdrant.editPoint_cons, Qdrant.Call.onPoint,
        selects_documentConditions]
    · cases hv : d.activeVersionId with
      | none =>
        simp [Qdrant.visibilityCalls, hdel, hown, hv, Qdrant.editPoint_cons, Qdrant.Call.onPoint,
          selects_documentConditions, Document.serves]
      | some v =>
        by_cases hver : p.versionId = some v
        · have hsame : (Qdrant.setActive true p).versionId = some v := hver
          simp [Qdrant.visibilityCalls, hdel, hown, hv, hver, hsame, hactive,
            Qdrant.editPoint_cons, Qdrant.Call.onPoint, selects_version, selects_otherVersions,
            Document.serves]
        · simp [Qdrant.visibilityCalls, hdel, hown, hv, hver, Qdrant.editPoint_cons,
            Qdrant.Call.onPoint, selects_version, selects_otherVersions, Document.serves]
  · rw [if_neg fun h => hown h.2, if_neg hown]
    refine Qdrant.editPoint_frame fun c hc => ?_
    have hmem : c ∈ calls d := List.mem_append_left _ hc
    rcases mem_calls hmem with ⟨-, flag, f, rfl, hf⟩ | ⟨f, rfl, -⟩
    · rw [Qdrant.Call.onPoint, if_neg fun hs => hown (hf p hs)]
    · simp only [Qdrant.visibilityCalls] at hc
      split_ifs at hc
      · obtain rfl : f = _ := Qdrant.Call.delete.inj (List.mem_singleton.mp hc)
        rw [Qdrant.Call.onPoint, if_neg fun hs => hown (selects_documentConditions (p := p) ▸ hs)]
      · cases hv : d.activeVersionId <;> simp [hv] at hc

theorem editPoint_legacyCalls : Qdrant.editPoint
      (if (decide (d.status = .deleted) || d.activeVersionId.isSome) = true then
        [Qdrant.Call.delete
          ⟨[.tenantId d.tenantId, .filename d.filename, .versionEmpty], []⟩] else []) p =
      if (d.status = .deleted ∨ d.activeVersionId ≠ none) ∧ d.ownsLegacy p = true then none
      else some p := by
  simp only [Bool.or_eq_true, decide_eq_true_eq, Option.isSome_iff_ne_none]
  by_cases hd : d.status = .deleted ∨ d.activeVersionId ≠ none
  · rw [if_pos hd, Qdrant.editPoint_cons, Qdrant.Call.onPoint, selects_legacy]
    by_cases hp : d.ownsLegacy p = true
    · rw [if_pos hp, if_pos ⟨hd, hp⟩]
      rfl
    · rw [if_neg hp, if_neg fun h => hp h.2]
      rfl
  · rw [if_neg hd, if_neg fun h => hd h.1, Qdrant.editPoint_nil]

/-- A document's whole update on one point. -/
theorem editPoint_calls : Qdrant.editPoint (calls d) p =
    if d.drops p then none
    else some (if d.owns p then Qdrant.setActive (d.serves p) p else p) := by
  rw [calls, Qdrant.reconcileDocumentVersion, Qdrant.editPoint_append, editPoint_visibilityCalls]
  by_cases hown : d.status = .deleted ∧ d.owns p = true
  · rw [if_pos hown, if_pos (Document.drops_iff.mpr (Or.inl hown))]
    rfl
  · have hleg : ∀ flag, d.ownsLegacy (if d.owns p then Qdrant.setActive flag p else p) =
        d.ownsLegacy p := by
      intro flag
      split_ifs <;> rfl
    rw [if_neg hown, Option.bind_some, editPoint_legacyCalls, hleg]
    simp only [Document.drops_iff, hown, false_or]

end Edits

/-! ### The loop over the documents -/

section Loop

variable {κ : Type} {faults : Faults} {docs : List Document} {p p' : Point κ}
  {cs : List (Qdrant.Call κ)}

def loopCalls (faults : Faults) (docs : List Document) : List (Qdrant.Call κ) :=
  docs.flatMap (performed faults)

/-- Each call is one of the update of some document. -/
def CallsOf (docs : List Document) (cs : List (Qdrant.Call κ)) : Prop :=
  ∀ c ∈ cs, ∃ d ∈ docs, c ∈ calls d

theorem callsOf_loopCalls (faults : Faults) (docs : List Document) :
    CallsOf docs (loopCalls (κ := κ) faults docs) := by
  intro c hc
  obtain ⟨d, hd, hc⟩ := List.mem_flatMap.mp hc
  refine ⟨d, hd, ?_⟩
  unfold performed at hc
  cases hf : faults.document d.id with
  | none => rwa [hf] at hc
  | some n =>
    rw [hf] at hc
    exact List.mem_of_mem_take hc

theorem CallsOf.isEdit (hcs : CallsOf docs cs) : ∀ c ∈ cs, c.isEdit = true := by
  intro c hc
  obtain ⟨d, -, hd⟩ := hcs c hc
  exact isEdit_of_mem_calls hd

theorem CallsOf.tail {c : Qdrant.Call κ} (hcs : CallsOf docs (c :: cs)) : CallsOf docs cs :=
  fun c' hc' => hcs c' (List.mem_cons_of_mem c hc')

/-- A point is only removed by a document that drops it. -/
theorem editPoint_none (hcs : CallsOf docs cs) (h : Qdrant.editPoint cs p = none) :
    ∃ d ∈ docs, d.drops p = true := by
  induction cs generalizing p with
  | nil => cases h
  | cons c cs ih =>
    obtain ⟨d, hd, hc⟩ := hcs c List.mem_cons_self
    rw [Qdrant.editPoint_cons] at h
    cases hp : c.onPoint p with
    | none => exact ⟨d, hd, drops_of_onPoint hc hp⟩
    | some q =>
      rw [hp] at h
      obtain ⟨e, he, hdrops⟩ := ih hcs.tail h
      obtain ⟨flag, rfl⟩ := Qdrant.onPoint_flag hp
      exact ⟨e, he, hdrops⟩

/-- The update of a document leaves the flags of the points it does not own. -/
theorem editPoint_unowned (hcs : CallsOf docs cs) (hp : ∀ d ∈ docs, d.owns p = false)
    (h : Qdrant.editPoint cs p = some p') : p' = p := by
  induction cs with
  | nil => exact (Option.some.inj h).symm
  | cons c cs ih =>
    obtain ⟨d, hd, hc⟩ := hcs c List.mem_cons_self
    rw [Qdrant.editPoint_cons, Option.bind_eq_some_iff] at h
    obtain ⟨q, hq, h⟩ := h
    rw [onPoint_unowned hc (hp d hd) hq] at h
    exact ih hcs.tail h

/-- A point no document has a claim on passes through the loop. -/
theorem editPoint_outside (hcs : CallsOf docs cs) (hown : ∀ d ∈ docs, d.owns p = false)
    (hdrops : ∀ d ∈ docs, d.drops p = false) : Qdrant.editPoint cs p = some p := by
  cases h : Qdrant.editPoint cs p with
  | none =>
    obtain ⟨d, hd, hp⟩ := editPoint_none hcs h
    rw [hdrops d hd] at hp
    cases hp
  | some p' => rw [editPoint_unowned hcs hown h]

/-- The documents of a database are owners of disjoint sets of points. -/
theorem owns_inj {d e : Document} (hd : d.owns p = true) (he : e.owns p = true) :
    d.id = e.id :=
  Option.some.inj ((Document.owns_iff.mp hd).2.symm.trans (Document.owns_iff.mp he).2)

/-- What the loop makes of a point with respect to a document whose update did not raise. -/
theorem editPoint_repaired {d : Document} (hnd : (docs.map Document.id).Nodup) (hd : d ∈ docs)
    (hf : faults.document d.id = none)
    (h : Qdrant.editPoint (loopCalls faults docs) p = some p') :
    d.drops p = false ∧ (d.owns p = true → p'.isActive = some (d.serves p)) := by
  obtain ⟨l, r, rfl⟩ := List.append_of_mem hd
  have hcalls : performed (κ := κ) faults d = calls d := by rw [performed, hf]
  rw [loopCalls, List.flatMap_append, List.flatMap_cons, hcalls, Qdrant.editPoint_append,
    Option.bind_eq_some_iff] at h
  obtain ⟨q, hq, h⟩ := h
  obtain ⟨flag, rfl⟩ := Qdrant.editPoint_flag hq
  rw [Qdrant.editPoint_append, editPoint_calls, Option.bind_eq_some_iff] at h
  obtain ⟨q, hq, h⟩ := h
  rw [Document.drops_flag, Document.owns_flag, Document.serves_flag] at hq
  have hdrops : ¬ d.drops p = true := by
    intro hdrops
    rw [if_pos hdrops] at hq
    cases hq
  refine ⟨by simpa using hdrops, fun hown => ?_⟩
  rw [if_neg hdrops, if_pos hown, Option.some.injEq] at hq
  subst hq
  -- the documents after it own none of its points
  have hrest : ∀ e ∈ r, e.owns (Qdrant.setActive (d.serves p) { p with isActive := flag }) =
      false := by
    intro e he
    by_contra howns
    rw [Bool.not_eq_false] at howns
    have hid : d.id = e.id := owns_inj (p := p) hown howns
    rw [List.map_append, List.map_cons, List.nodup_append, List.nodup_cons] at hnd
    exact hnd.2.1.1 (hid ▸ List.mem_map_of_mem he)
  rw [editPoint_unowned (callsOf_loopCalls faults r) hrest h]
  rfl

variable [DecidableEq κ]

theorem collection_foldl (s : Progress κ) :
    (docs.foldl (reconcileDocument faults) s).collection =
      Qdrant.runCalls (loopCalls faults docs) s.collection := by
  induction docs generalizing s with
  | nil => rfl
  | cons d docs ih =>
    have hcons : loopCalls (κ := κ) faults (d :: docs) = performed faults d ++ loopCalls faults docs :=
      List.flatMap_cons ..
    have hstep : (reconcileDocument faults s d).collection =
        Qdrant.runCalls (performed faults d) s.collection := by
      unfold reconcileDocument
      cases faults.document d.id <;> rfl
    rw [List.foldl_cons, ih, hcons, Qdrant.runCalls_append, hstep]

theorem failures_foldl (s : Progress κ) :
    (docs.foldl (reconcileDocument faults) s).failures =
      s.failures + docs.countP fun d => (faults.document d.id).isSome := by
  induction docs generalizing s with
  | nil => rfl
  | cons d docs ih =>
    rw [List.foldl_cons, ih, reconcileDocument]
    cases h : faults.document d.id <;> simp [h]
    omega

theorem reconciled_foldl (s : Progress κ) :
    (docs.foldl (reconcileDocument faults) s).reconciled =
      s.reconciled + docs.countP fun d => (faults.document d.id).isNone := by
  induction docs generalizing s with
  | nil => rfl
  | cons d docs ih =>
    rw [List.foldl_cons, ih, reconcileDocument]
    cases h : faults.document d.id <;> simp [h]
    omega

end Loop

section Result

variable {κ : Type} {db : Db} {d : Document}

theorem perm_snapshot (db : Db) : (snapshot db).Perm db.documents.rows :=
  List.perm_insertionSort _ _

theorem mem_snapshot : d ∈ snapshot db ↔ d ∈ db.documents := (perm_snapshot db).mem_iff

theorem nodup_snapshot (db : Db) : ((snapshot db).map Document.id).Nodup :=
  ((perm_snapshot db).map _).nodup_iff.mpr db.documents.nodupKeys

variable [DecidableEq κ] {uuid5 : String → String} {faults : Faults} {s s' : Stores κ} {n : ℕ}

/-- What a call that read the documents leaves in the collection. -/
theorem collection_reconcile (hread : faults.read = none) :
    (reconcileIngestionIndexes uuid5 faults s).1.collection =
      Qdrant.runCalls (loopCalls faults (snapshot s.db)) s.collection := by
  have hloop : (reconcileDocuments faults s).collection =
      Qdrant.runCalls (loopCalls faults (snapshot s.db)) s.collection := collection_foldl _
  unfold reconcileIngestionIndexes
  rw [hread]
  cases faults.rebuild with
  | some fault => exact hloop
  | none =>
    by_cases hf : (reconcileDocuments faults s).failures ≠ 0
    · simp only [if_pos hf]
      exact hloop
    · simp only [if_neg hf]
      cases faults.close <;> exact hloop

/-- A call that returns met no fault, and leaves the database with closed attempts and
the corpus of its rows. -/
theorem reconcile_ok (h : reconcileIngestionIndexes uuid5 faults s = (s', .ok n)) :
    faults.read = none ∧ (∀ d ∈ s.db.documents, faults.document d.id = none) ∧
      s'.db = reconcileAttempts s.db ∧ s'.corpus = rebuildDocuments uuid5 s.db ∧
      n = s.db.documents.rows.length := by
  unfold reconcileIngestionIndexes at h
  cases hread : faults.read with
  | some e => simp [hread] at h
  | none =>
    rw [hread] at h
    cases hrebuild : faults.rebuild with
    | some fault => simp [hrebuild] at h
    | none =>
      by_cases hf : (reconcileDocuments faults s).failures ≠ 0
      · simp [hrebuild, if_pos hf] at h
      · cases hclose : faults.close with
        | some e => simp [hrebuild, if_neg hf, hclose] at h
        | none =>
          simp only [hrebuild, if_neg hf, hclose, Prod.mk.injEq, Except.ok.injEq] at h
          obtain ⟨rfl, rfl⟩ := h
          rw [not_not, reconcileDocuments, failures_foldl, Nat.zero_add,
            List.countP_eq_zero] at hf
          have hnone : ∀ d ∈ snapshot s.db, faults.document d.id = none := by
            intro d hd
            simpa using hf d hd
          refine ⟨rfl, fun d hd => hnone d (mem_snapshot.mpr hd), rfl, rfl, ?_⟩
          rw [reconcileDocuments, reconciled_foldl, Nat.zero_add, ← (perm_snapshot s.db).length_eq,
            List.countP_eq_length]
          intro d hd
          rw [hnone d hd]
          rfl

end Result
end Reconcile

/-! ### Repaired documents -/

section Repaired

variable {κ : Type}

def Stores.Has (s : Stores κ) (p : Point κ) : Prop := ∃ points ∈ s.collection, p ∈ points

/-- The points of a document follow its pointer and its deletion. A point without a version
that names a document of the database belongs to that document, not to the file. -/
structure Document.Repaired (d : Document) (before after : Stores κ) : Prop where
  visible : ∀ p, after.Has p → d.owns p = true → p.versionId ≠ none →
    (Qdrant.visible p = true ↔ p.versionId = d.activeVersionId ∧ d.status ≠ .deleted)
  versioned : d.status ≠ .deleted → ∀ p, before.Has p → d.owns p = true → p.versionId ≠ none →
    ∃ flag, after.Has { p with isActive := flag }
  deleted : d.status = .deleted → ∀ p, after.Has p → d.owns p = false
  legacyGone : d.status = .deleted ∨ d.activeVersionId ≠ none →
    ∀ p, after.Has p → d.ownsLegacy p = false
  legacyKept : d.status ≠ .deleted → d.activeVersionId = none → ∀ p, d.ownsLegacy p = true →
    (∀ e ∈ before.db.documents, e.owns p = false) → (after.Has p ↔ before.Has p)

/-- No two documents share a tenant and a file. -/
def Db.FilesDistinct (db : Db) : Prop :=
  ∀ d ∈ db.documents, ∀ e ∈ db.documents, d.tenantId = e.tenantId → d.filename = e.filename →
    d = e

end Repaired

namespace Reconcile

section Repairs

variable {κ : Type} [DecidableEq κ] {uuid5 : String → String} {faults : Faults} {s s' : Stores κ}
  {d : Document} {p : Point κ} {n : ℕ}

theorem has_reconcile (hread : faults.read = none) :
    (reconcileIngestionIndexes uuid5 faults s).1.Has p ↔ ∃ points ∈ s.collection, ∃ q ∈ points,
      Qdrant.editPoint (loopCalls faults (snapshot s.db)) q = some p := by
  rw [Stores.Has, collection_reconcile hread]
  exact Qdrant.mem_runCalls_edits (callsOf_loopCalls faults _).isEdit

/-- A point outside all documents and their files is where it was. -/
theorem has_outside (hown : ∀ d ∈ s.db.documents, d.owns p = false)
    (hdrops : ∀ d ∈ s.db.documents, d.drops p = false) :
    (reconcileIngestionIndexes uuid5 faults s).1.Has p ↔ s.Has p := by
  cases hread : faults.read with
  | some e => rw [reconcileIngestionIndexes, hread]
  | none =>
    have hpass : ∀ q : Point κ, (∃ flag, p = { q with isActive := flag }) →
        Qdrant.editPoint (loopCalls faults (snapshot s.db)) q = some q := by
      rintro q ⟨flag, rfl⟩
      exact editPoint_outside (callsOf_loopCalls faults _)
        (fun d hd => hown d (mem_snapshot.mp hd)) fun d hd => hdrops d (mem_snapshot.mp hd)
    rw [has_reconcile hread]
    constructor
    · rintro ⟨points, hpoints, q, hq, hedit⟩
      rw [hpass q (Qdrant.editPoint_flag hedit), Option.some.injEq] at hedit
      exact ⟨points, hpoints, hedit ▸ hq⟩
    · rintro ⟨points, hpoints, hp⟩
      exact ⟨points, hpoints, p, hp, hpass p ⟨p.isActive, rfl⟩⟩

/-- A document whose update did not raise is repaired, whatever happened to the others. -/
theorem repaired_of_no_fault (hfiles : s.db.FilesDistinct) (hread : faults.read = none)
    (hd : d ∈ s.db.documents) (hf : faults.document d.id = none) :
    d.Repaired s (reconcileIngestionIndexes uuid5 faults s).1 := by
  have hpoint : ∀ p, (reconcileIngestionIndexes uuid5 faults s).1.Has p →
      d.drops p = false ∧ (d.owns p = true → p.isActive = some (d.serves p)) := by
    intro p hp
    obtain ⟨points, -, q, -, hedit⟩ := (has_reconcile hread).mp hp
    have hrep := editPoint_repaired (nodup_snapshot s.db) (mem_snapshot.mpr hd) hf hedit
    obtain ⟨flag, rfl⟩ := Qdrant.editPoint_flag hedit
    exact hrep
  refine ⟨?_, ?_, ?_, ?_, ?_⟩
  · intro p hp hown hver
    obtain ⟨hdrops, hflag⟩ := hpoint p hp
    have hnd : d.status ≠ .deleted := by
      intro hdel
      rw [Document.drops_iff.mpr (Or.inl ⟨hdel, hown⟩)] at hdrops
      cases hdrops
    have hserves : d.serves p = true ↔ p.versionId = d.activeVersionId := by
      rw [Document.serves, Bool.and_eq_true, decide_eq_true_eq, Option.isSome_iff_ne_none]
      exact ⟨fun h => h.2, fun h => ⟨h ▸ hver, h⟩⟩
    rw [Qdrant.visible, decide_eq_true_eq, hflag hown, Option.some.injEq, hserves]
    exact ⟨fun h => ⟨h.resolve_left hver, hnd⟩, fun h => Or.inr h.1⟩
  · intro hnd p ⟨points, hpoints, hp⟩ hown hver
    cases hedit : Qdrant.editPoint (loopCalls faults (snapshot s.db)) p with
    | none =>
      -- a versioned point is only removed with its own document
      obtain ⟨e, he, hdrops⟩ := editPoint_none (callsOf_loopCalls faults _) hedit
      rcases Document.drops_iff.mp hdrops with ⟨hdel, howns⟩ | ⟨-, hleg⟩
      · rw [Table.eq_of_key_eq hd (mem_snapshot.mp he) (owns_inj hown howns)] at hnd
        exact absurd hdel hnd
      · exact absurd (Document.ownsLegacy_iff.mp hleg).2.2 hver
    | some q =>
      obtain ⟨flag, rfl⟩ := Qdrant.editPoint_flag hedit
      exact ⟨flag, (has_reconcile hread).mpr ⟨points, hpoints, p, hp, hedit⟩⟩
  · intro hdel p hp
    by_contra hown
    rw [Bool.not_eq_false] at hown
    have hdrops := (hpoint p hp).1
    rw [Document.drops_iff.mpr (Or.inl ⟨hdel, hown⟩)] at hdrops
    cases hdrops
  · intro hserved p hp
    by_contra hleg
    rw [Bool.not_eq_false] at hleg
    have hdrops := (hpoint p hp).1
    rw [Document.drops_iff.mpr (Or.inr ⟨hserved, hleg⟩)] at hdrops
    cases hdrops
  · intro hnd hnone p hleg hown
    refine has_outside hown fun e he => ?_
    by_contra hdrops
    rw [Bool.not_eq_false] at hdrops
    rcases Document.drops_iff.mp hdrops with ⟨-, howns⟩ | ⟨hserved, heleg⟩
    · rw [hown e he] at howns
      cases howns
    · obtain ⟨ht, hfile, -⟩ := Document.ownsLegacy_iff.mp hleg
      obtain ⟨ht', hfile', -⟩ := Document.ownsLegacy_iff.mp heleg
      have hde : d = e := hfiles d hd e he (ht.symm.trans ht') (hfile.symm.trans hfile')
      rcases hserved with hdel | hact
      · exact hnd (hde ▸ hdel)
      · exact hact (hde ▸ hnone)

omit [DecidableEq κ] in
/-- A point that has been through the loop passes through it unchanged. -/
theorem editPoint_again {docs : List Document} {p' : Point κ}
    (hnd : (docs.map Document.id).Nodup) (hf : ∀ d ∈ docs, faults.document d.id = none)
    (h : Qdrant.editPoint (loopCalls faults docs) p = some p') :
    Qdrant.editPoint (loopCalls faults docs) p' = some p' := by
  have hrep : ∀ d ∈ docs, d.drops p' = false ∧
      (d.owns p' = true → p'.isActive = some (d.serves p')) := by
    intro d hd
    have hd' := editPoint_repaired hnd hd (hf d hd) h
    obtain ⟨flag, rfl⟩ := Qdrant.editPoint_flag h
    exact hd'
  cases hedit : Qdrant.editPoint (loopCalls faults docs) p' with
  | none =>
    obtain ⟨d, hd, hdrops⟩ := editPoint_none (callsOf_loopCalls faults docs) hedit
    rw [(hrep d hd).1] at hdrops
    cases hdrops
  | some q =>
    by_cases hown : ∃ d ∈ docs, d.owns p' = true
    · obtain ⟨d, hd, hown⟩ := hown
      have hflag := (editPoint_repaired hnd hd (hf d hd) hedit).2 hown
      obtain ⟨flag, rfl⟩ := Qdrant.editPoint_flag hedit
      obtain rfl : flag = p'.isActive := hflag.trans ((hrep d hd).2 hown).symm
      rfl
    · push Not at hown
      rw [editPoint_unowned (callsOf_loopCalls faults docs)
        (fun d hd => by simpa using hown d hd) hedit]

omit [DecidableEq κ] in
theorem loopCalls_eq {docs : List Document} {faults' : Faults}
    (hf : ∀ d ∈ docs, faults.document d.id = none)
    (hf' : ∀ d ∈ docs, faults'.document d.id = none) :
    loopCalls (κ := κ) faults' docs = loopCalls faults docs := by
  refine List.flatMap_congr fun d hd => ?_
  rw [performed, performed, hf d hd, hf' d hd]

theorem runCalls_again {docs : List Document} (hnd : (docs.map Document.id).Nodup)
    (hf : ∀ d ∈ docs, faults.document d.id = none) (collection : Option (Qdrant.Points κ)) :
    Qdrant.runCalls (loopCalls faults docs)
        (Qdrant.runCalls (loopCalls faults docs) collection) =
      Qdrant.runCalls (loopCalls faults docs) collection := by
  have hedits := (callsOf_loopCalls (κ := κ) faults docs).isEdit
  cases collection with
  | none => rw [Qdrant.runCalls_none hedits, Qdrant.runCalls_none hedits]
  | some points =>
    obtain ⟨once, hone, hrows⟩ := Qdrant.runCalls_edits hedits points
    obtain ⟨twice, htwo, hrows'⟩ := Qdrant.runCalls_edits hedits once
    have hsame : twice.rows = once.rows := by
      rw [hrows', hrows, List.filterMap_filterMap]
      refine List.filterMap_congr fun p _ => ?_
      cases hp : Qdrant.editPoint (loopCalls faults docs) p with
      | none => rfl
      | some p' => exact editPoint_again hnd hf hp
    obtain ⟨rows, hnodup⟩ := once
    obtain ⟨rows', hnodup'⟩ := twice
    obtain rfl : rows' = rows := hsame
    rw [hone, htwo]

/-- The attempts a reconciliation closes are not closed again. -/
theorem reconcileAttempts_again (db : Db) :
    reconcileAttempts (reconcileAttempts db) = reconcileAttempts db := by
  have hattempts : (reconcileAttempts (reconcileAttempts db)).attempts =
      (reconcileAttempts db).attempts := by
    refine Table.update_again fun r _ hr => ?_
    obtain ⟨-, hstatus, -⟩ := of_decide_eq_true hr
    rcases hstatus with hstatus | hstatus <;> cases hstatus
  exact congrArg (fun attempts => { db with attempts }) hattempts

/-- A second call that returns changes nothing. -/
theorem reconcile_again {faults' : Faults} {s'' : Stores κ} {n' : ℕ}
    (h : reconcileIngestionIndexes uuid5 faults s = (s', .ok n))
    (h' : reconcileIngestionIndexes uuid5 faults' s' = (s'', .ok n')) : s'' = s' ∧ n' = n := by
  obtain ⟨hread, hnone, hdb, hcorpus, hn⟩ := reconcile_ok h
  obtain ⟨hread', hnone', hdb', hcorpus', hn'⟩ := reconcile_ok h'
  have hcollection : s'.collection =
      Qdrant.runCalls (loopCalls faults (snapshot s.db)) s.collection := by
    have hcall : (reconcileIngestionIndexes uuid5 faults s).1.collection = _ :=
      collection_reconcile hread
    rwa [h] at hcall
  have hcollection' : s''.collection =
      Qdrant.runCalls (loopCalls faults' (snapshot s'.db)) s'.collection := by
    have hcall : (reconcileIngestionIndexes uuid5 faults' s').1.collection = _ :=
      collection_reconcile hread'
    rwa [h'] at hcall
  have hdocuments : s'.db.documents = s.db.documents := by
    rw [hdb]
    rfl
  have hsnapshot : snapshot s'.db = snapshot s.db := by
    rw [snapshot, snapshot, hdocuments]
  have hf : ∀ d ∈ snapshot s.db, faults.document d.id = none :=
    fun d hd => hnone d (mem_snapshot.mp hd)
  have hf' : ∀ d ∈ snapshot s.db, faults'.document d.id = none :=
    fun d hd => hnone' d (hdocuments ▸ mem_snapshot.mp hd)
  rw [hsnapshot, loopCalls_eq hf hf', hcollection, runCalls_again (nodup_snapshot s.db) hf,
    ← hcollection] at hcollection'
  have hdb'' : s''.db = s'.db := by rw [hdb', hdb, reconcileAttempts_again]
  have hcorpus'' : s''.corpus = s'.corpus := by
    rw [hcorpus', hcorpus, hdb]
    rfl
  refine ⟨?_, by rw [hn', hn, hdocuments]⟩
  obtain ⟨db, collection, corpus⟩ := s'
  obtain ⟨db'', collection'', corpus''⟩ := s''
  obtain rfl : db'' = db := hdb''
  obtain rfl : collection'' = collection := hcollection'
  obtain rfl : corpus'' = corpus := hcorpus''
  rfl

/-- Reconciliation repairs from any state. -/
theorem reconciliation_repairs (faults : Faults) (s : Stores κ) (hfiles : s.db.FilesDistinct) :
    (∀ n, (reconcileIngestionIndexes uuid5 faults s).2 = .ok n →
      ∀ d ∈ s.db.documents, d.Repaired s (reconcileIngestionIndexes uuid5 faults s).1) ∧
    (faults.read = none → ∀ d ∈ s.db.documents, faults.document d.id = none →
      d.Repaired s (reconcileIngestionIndexes uuid5 faults s).1) ∧
    ((∃ d ∈ s.db.documents, faults.document d.id ≠ none) →
      ∃ e, (reconcileIngestionIndexes uuid5 faults s).2 = .error e) ∧
    (∀ p, (∀ d ∈ s.db.documents, d.owns p = false ∧ d.ownsLegacy p = false) →
      ((reconcileIngestionIndexes uuid5 faults s).1.Has p ↔ s.Has p)) ∧
    ∀ n faults' n', (reconcileIngestionIndexes uuid5 faults s).2 = .ok n →
      (reconcileIngestionIndexes uuid5 faults'
        (reconcileIngestionIndexes uuid5 faults s).1).2 = .ok n' →
      reconcileIngestionIndexes uuid5 faults' (reconcileIngestionIndexes uuid5 faults s).1 =
        reconcileIngestionIndexes uuid5 faults s := by
  have hresult : ∀ {f : Faults} {s : Stores κ} {n : ℕ},
      (reconcileIngestionIndexes uuid5 f s).2 = .ok n →
      reconcileIngestionIndexes uuid5 f s = ((reconcileIngestionIndexes uuid5 f s).1, .ok n) :=
    fun h => Prod.ext rfl h
  refine ⟨?_, ?_, ?_, ?_, ?_⟩
  · intro n hok d hd
    obtain ⟨hread, hnone, -⟩ := reconcile_ok (hresult hok)
    exact repaired_of_no_fault hfiles hread hd (hnone d hd)
  · intro hread d hd hf
    exact repaired_of_no_fault hfiles hread hd hf
  · rintro ⟨d, hd, hf⟩
    cases hok : (reconcileIngestionIndexes uuid5 faults s).2 with
    | error e => exact ⟨e, rfl⟩
    | ok n =>
      obtain ⟨-, hnone, -⟩ := reconcile_ok (hresult hok)
      exact absurd (hnone d hd) hf
  · intro p hp
    refine has_outside (fun d hd => (hp d hd).1) fun d hd => ?_
    rw [Document.drops, (hp d hd).1, (hp d hd).2, Bool.and_false, Bool.and_false, Bool.or_false]
  · intro n faults' n' hok hok'
    obtain ⟨hs, hn⟩ := reconcile_again (hresult hok) (hresult hok')
    rw [hresult hok', hs, hn, ← hresult hok]

/-- An indexed document next to a deleted one, with points that follow neither. -/
def strayStores : Stores String where
  db := { Db.initial [7] with
    documents := ⟨[⟨1, 7, "a.pdf", "s3://b/a.pdf", "", .indexed, some 3⟩,
      ⟨2, 7, "b.pdf", "s3://b/b.pdf", "", .deleted, none⟩], by decide⟩ }
  collection := some ⟨[⟨"x", "", "a.pdf", 1, 0, 7, some 1, some 3, some false⟩,
    ⟨"y", "", "a.pdf", 1, 0, 7, none, none, none⟩,
    ⟨"z", "", "b.pdf", 1, 0, 7, some 2, some 4, some true⟩], by decide⟩
  corpus := []

def noFaults : Faults := ⟨none, fun _ => none, none, none⟩

theorem strayStores_filesDistinct : strayStores.db.FilesDistinct := by
  change ∀ d ∈ strayStores.db.documents.rows, ∀ e ∈ strayStores.db.documents.rows, _
  decide

theorem reconciliation_repairs_strayStores :
    (reconcileIngestionIndexes id noFaults strayStores).2 = .ok 2 ∧
      ∀ d ∈ strayStores.db.documents,
        d.Repaired strayStores (reconcileIngestionIndexes id noFaults strayStores).1 :=
  ⟨by decide, (reconciliation_repairs noFaults strayStores strayStores_filesDistinct).1 2
    (by decide)⟩

end Repairs
end Reconcile
end Ally
