import Ally.Coherence

/-!
# Every committed transaction is neutral, an activation or a retirement

The case analysis over the seven transactions is made once, here. It also says
which transaction moved the pointer and which one retired the document.
-/

open Relational

namespace Ally

variable {db db' : Db}

/-- A status written over a status that is not `deleted` keeps the pointer. -/
theorem Document.samePointer_status {d : Document} {p : Bool} {s : DocumentStatus}
    (hs : s ≠ .deleted) (hp : p = true → d.status ≠ .deleted) :
    d.SamePointer (if p then Document.setStatus s d else d) := by
  by_cases h : p = true
  · rw [if_pos h]
    exact ⟨rfl, rfl, rfl, rfl, iff_of_false hs (hp h)⟩
  · rw [if_neg h]
    exact .refl d

/-! ### Registration -/

section Register
variable {a : RegisterArgs}

theorem requeueDocument_status {d : Document} (hd : d.status ≠ .deleted) :
    (requeueDocument a d).status ≠ .deleted := by
  change (if _ then _ else _) ≠ _
  split_ifs
  · decide
  · exact hd

/-- Registering a document requeues its row or adds a fresh one. -/
theorem upsertDocument_documents (h : upsertDocument a db = .ok db') :
    (∀ d ∈ db.documents, ∃ d' ∈ db'.documents, d.SamePointer d') ∧
    (∀ d' ∈ db'.documents, (∃ d ∈ db.documents, d.SamePointer d') ∨
      (d'.activeVersionId = none ∧ d'.status ≠ .deleted ∧ ∀ d ∈ db.documents, d.id ≠ d'.id)) ∧
    (∃ d' ∈ db'.documents, d'.id = a.documentId ∧ d'.tenantId = a.tenantId) ∧
    db'.versions = db.versions := by
  rcases upsertDocument_ok h with ⟨hfresh, documents, hi, rfl⟩ | ⟨⟨d, hd, hid, ht, hf, hnd⟩, rfl⟩
  · obtain ⟨-, hmem⟩ := Table.insert_some hi
    refine ⟨?_, ?_, ⟨a.document, (hmem _).mpr (Or.inr rfl), rfl, rfl⟩, rfl⟩
    · intro d hd
      exact ⟨d, (hmem d).mpr (Or.inl hd), .refl d⟩
    · intro d' hd'
      rcases (hmem d').mp hd' with hd | rfl
      · exact Or.inl ⟨d', hd, .refl d'⟩
      · exact Or.inr ⟨rfl, (by decide : DocumentStatus.queued ≠ .deleted), hfresh⟩
  · have hsame : ∀ e ∈ db.documents,
        e.SamePointer (if e.id = a.documentId then requeueDocument a e else e) := by
      intro e he
      by_cases hea : e.id = a.documentId
      · rw [if_pos hea]
        have hed : e = d := Table.eq_of_key_eq he hd (hea.trans hid.symm)
        have hne : e.status ≠ .deleted := hed ▸ hnd
        exact ⟨rfl, rfl, rfl, rfl, iff_of_false (requeueDocument_status hne) hne⟩
      · rw [if_neg hea]
        exact .refl e
    have hmem : ∀ e ∈ db.documents, (if e.id = a.documentId then requeueDocument a e else e) ∈
        db.documents.update (fun d => d.id = a.documentId) (requeueDocument a) := by
      intro e he
      rw [Table.mem_update]
      exact ⟨e, he, by simp only [decide_eq_true_eq]⟩
    refine ⟨fun e he => ⟨_, hmem e he, hsame e he⟩, ?_, ⟨_, hmem d hd, ?_⟩, rfl⟩
    · intro d' hd'
      rw [Table.mem_update] at hd'
      obtain ⟨e, he, rfl⟩ := hd'
      simp only [decide_eq_true_eq]
      exact Or.inl ⟨e, he, hsame e he⟩
    · exact ⟨(hsame d hd).id.trans hid, (hsame d hd).tenantId.trans ht⟩

theorem ensureAttempt_frame (h : ensureAttempt a db = .ok db') :
    db'.documents = db.documents ∧ db'.versions = db.versions := by
  rcases ensureAttempt_ok h with ⟨rfl, -⟩ | ⟨-, n, attempts, -, rfl⟩ <;> exact ⟨rfl, rfl⟩

theorem neutral_register (hc : db.Coherent) (h : registerIngestion a db = .ok db') :
    db.Neutral db' := by
  obtain ⟨db₁, db₂, h₁, h₂, h₃⟩ := registerIngestion_ok h
  obtain ⟨hto, hof, ⟨d, hd, hid, ht⟩, hv₁⟩ := upsertDocument_documents h₁
  obtain ⟨hd₂, hv₂⟩ := ensureAttempt_frame h₂
  rcases ensureVersion_ok h₃ with ⟨rfl, -⟩ | ⟨n, versions, hn, hi, rfl⟩
  · rw [← hd₂] at hto hof
    have hv : db'.versions = db.versions := hv₂.trans hv₁
    exact ⟨hto, hof, fun v hm => ⟨v, hv ▸ hm, .refl v, Or.inl rfl⟩,
      fun v hm => Or.inl ⟨v, hv ▸ hm, .refl v, Or.inl rfl⟩⟩
  · obtain ⟨hfresh, hmem⟩ := Table.insert_some hi
    have hv : db₂.versions = db.versions := hv₂.trans hv₁
    rw [hv] at hn hfresh hmem
    refine ⟨?_, ?_, fun v hm => ⟨v, (hmem v).mpr (Or.inl hm), .refl v, Or.inl rfl⟩, ?_⟩
    · rw [← hd₂] at hto
      exact hto
    · rw [← hd₂] at hof
      exact hof
    · intro v hm
      rcases (hmem v).mp hm with hold | rfl
      · exact Or.inl ⟨v, hold, .refl v, Or.inl rfl⟩
      · refine Or.inr ⟨rfl, hfresh, ?_, d, hd₂ ▸ hd, hid, ht⟩
        intro w hw hdoc
        -- the rows of one document share its tenant, so the maximum covers them all
        obtain ⟨e, he, heid, het⟩ := hc.owner w hw
        obtain ⟨e', he', hsp⟩ := hto e he
        have hed : e' = d := Table.eq_of_key_eq he' hd (by rw [hsp.id, heid, hdoc, hid]; rfl)
        exact hn w hw hdoc (by rw [← het, ← hsp.tenantId, hed, ht])

end Register

/-! ### The other neutral transactions -/

section Neutral
variable {documentId attemptId versionId tenantId : Uuid}

theorem neutral_enterStage {stage : String} :
    db.Neutral (enterStage documentId attemptId tenantId stage db) := by
  refine Db.Neutral.of_update _ id (fun d' => by rw [enterStage, Table.mem_update])
    (fun v' => ⟨fun h => ⟨v', h, rfl⟩, by rintro ⟨v, h, rfl⟩; exact h⟩) ?_
    (fun v => ⟨.refl v, Or.inl rfl⟩)
  intro d
  refine Document.samePointer_status (by decide) fun hp => ?_
  rw [Bool.and_eq_true, Document.isOpen_iff] at hp
  rcases hp.2 with h | h <;> rw [h] <;> decide

theorem neutral_persist {filename : String} {chunks : List TextChunk}
    (h : persistVersionChunks tenantId documentId versionId filename chunks db = .ok db') :
    db.Neutral db' := by
  obtain ⟨-, rows, rfl⟩ := persistVersionChunks_ok h
  refine Db.Neutral.of_update id _
    (fun d' => ⟨fun h => ⟨d', h, rfl⟩, by rintro ⟨d, h, rfl⟩; exact h⟩)
    (fun v' => by rw [Table.mem_update]) Document.SamePointer.refl ?_
  intro v
  split_ifs <;> exact ⟨⟨rfl, rfl, rfl, rfl, rfl⟩, Or.inl rfl⟩

theorem neutral_markFailed {status : AttemptStatus} :
    db.Neutral (markFailed documentId versionId tenantId status db) := by
  refine Db.Neutral.of_update _ _ (fun d' => by rw [markFailed, Table.mem_update])
    (fun v' => by rw [markFailed, Table.mem_update]) ?_ ?_
  · intro d
    refine Document.samePointer_status ?_ fun hp => ?_
    · split_ifs <;> decide
    · rw [Bool.and_eq_true, decide_eq_true_eq] at hp
      rw [hp.2]
      decide
  · intro v
    split_ifs with hs
    · exact ⟨⟨rfl, rfl, rfl, rfl, rfl⟩, Or.inr ⟨(isStagedVersion_iff.mp hs).2, rfl⟩⟩
    · exact ⟨.refl v, Or.inl rfl⟩

theorem neutral_finish {status : AttemptStatus} {errorCode : Option String}
    (h : finishIngestionAttempt documentId attemptId versionId tenantId status errorCode db =
      .ok db') : db.Neutral db' := by
  obtain ⟨-, ⟨-, -, rfl⟩ | ⟨-, ⟨-, rfl⟩ | ⟨-, h⟩⟩⟩ := finishIngestionAttempt_ok_iff.mp h
  · exact .of_eq rfl rfl
  · exact .of_eq rfl rfl
  · rcases failVersion_ok_iff.mp h with ⟨-, -, rfl⟩ | ⟨-, -, rfl⟩
    · exact .of_eq rfl rfl
    · -- closing the attempt first leaves documents and versions as they were
      have hn : (closeAttempt documentId attemptId tenantId status errorCode db).Neutral
          (markFailed documentId versionId tenantId status
            (closeAttempt documentId attemptId tenantId status errorCode db)) :=
        neutral_markFailed
      exact ⟨hn.documentTo, hn.documentOf, hn.versionTo, hn.versionOf⟩

end Neutral

/-! ### Activation and tombstone -/

section Pointer
variable {documentId versionId tenantId : Uuid}

/-- The rows a statement on one undeleted document touches: the row itself. -/
theorem isRow_undeleted {d e : Document} (hd : d ∈ db.documents) (hid : d.id = documentId)
    (ht : d.tenantId = tenantId) (hnd : d.status ≠ .deleted) (he : e ∈ db.documents) :
    (e.isRow documentId tenantId && decide (e.status ≠ .deleted)) = true ↔ e.id = documentId := by
  rw [Bool.and_eq_true, Document.isRow_iff, decide_eq_true_eq]
  refine ⟨fun h => h.1.1, fun h => ?_⟩
  have hed : e = d := Table.eq_of_key_eq he hd (h.trans hid.symm)
  exact ⟨⟨h, hed ▸ ht⟩, hed ▸ hnd⟩

theorem Db.Coherent.tenant_eq (hc : db.Coherent) {d : Document} (hd : d ∈ db.documents)
    (hid : d.id = documentId) (ht : d.tenantId = tenantId) {w : Version} (hw : w ∈ db.versions)
    (hwd : w.documentId = documentId) : w.tenantId = tenantId := by
  rw [← hc.tenant hw hd (hid.trans hwd.symm), ht]

theorem supersedePrevious_documents (previous : Option Uuid) :
    (supersedePrevious previous documentId tenantId db).documents = db.documents := by
  cases previous <;> rfl

/-- Under coherence the superseded rows are the active rows of the document. -/
theorem mem_supersedePrevious (hc : db.Coherent) {d : Document} (hd : d ∈ db.documents)
    (hid : d.id = documentId) (ht : d.tenantId = tenantId) {w' : Version} :
    w' ∈ (supersedePrevious d.activeVersionId documentId tenantId db).versions ↔
      ∃ w ∈ db.versions, w' = w.retired documentId := by
  have hiff : ∀ w ∈ db.versions, w.documentId = documentId →
      (w.status = .active ↔ d.activeVersionId = some w.id) :=
    fun w hw hwd => hc.active_iff hw hd (hid.trans hwd.symm)
  cases hprevious : d.activeVersionId with
  | none =>
      have hkeep : ∀ w ∈ db.versions, w.retired documentId = w := by
        intro w hw
        rw [Version.retired, if_neg]
        rintro ⟨hwd, hws⟩
        rw [hiff w hw hwd, hprevious] at hws
        cases hws
      refine ⟨fun hw => ⟨w', hw, (hkeep w' hw).symm⟩, ?_⟩
      rintro ⟨w, hw, rfl⟩
      rw [hkeep w hw]
      exact hw
  | some i =>
      change w' ∈ db.versions.update _ _ ↔ _
      rw [Table.mem_update]
      refine exists_congr fun w => and_congr_right fun hw => ?_
      have hcond : (w.isRow i documentId tenantId && decide (w.status = .active)) = true ↔
          w.documentId = documentId ∧ w.status = .active := by
        rw [Bool.and_eq_true, Version.isRow_iff, decide_eq_true_eq]
        refine ⟨fun h => ⟨h.1.2.1, h.2⟩, fun ⟨hwd, hws⟩ => ⟨⟨?_, hwd, ?_⟩, hws⟩⟩
        · have hp := (hiff w hw hwd).mp hws
          rw [hprevious] at hp
          exact (Option.some.inj hp).symm
        · exact hc.tenant_eq hd hid ht hw hwd
      simp only [hcond, Version.retired]

/-- The activation of a coherent database that moves the pointer. The version
was staged, and the only row it supersedes is the previous active version. -/
theorem activates_makeActive (hc : db.Coherent) {d : Document} {v : Version}
    (hd : d ∈ db.documents) (hid : d.id = documentId) (ht : d.tenantId = tenantId)
    (hnd : d.status ≠ .deleted) (hv : v ∈ db.versions) (hvid : v.id = versionId)
    (hvdoc : v.documentId = documentId) (hst : v.status = .staged ∨ v.status = .active)
    (hp : d.activeVersionId ≠ some versionId) :
    db.Activates documentId versionId (makeActive documentId versionId tenantId
      (supersedePrevious d.activeVersionId documentId tenantId db)) := by
  have hstaged : v.status = .staged := by
    refine hst.resolve_right fun hs => hp ?_
    rw [(hc.active_iff hv hd (hid.trans hvdoc.symm)).mp hs, hvid]
  have hrow : ∀ w ∈ db.versions, (if (w.retired documentId).isRow versionId documentId tenantId &&
      (w.retired documentId).isActivatable then Version.setStatus .active (w.retired documentId)
      else w.retired documentId) = w.activated documentId versionId := by
    intro w hw
    by_cases hwv : w.id = versionId
    · obtain rfl : w = v := Table.eq_of_key_eq hw hv (hwv.trans hvid.symm)
      have hret : w.retired documentId = w := by simp [Version.retired, hstaged]
      have htw := hc.tenant_eq hd hid ht hw hvdoc
      rw [hret, if_pos (by simp [hvid, hvdoc, htw, hstaged]), Version.activated, if_pos hwv]
    · have hret := w.retired_sameRow documentId
      rw [if_neg (by simp [hret.id, hwv]), Version.activated, if_neg hwv, Version.retired]
  refine ⟨⟨d, hd, hid, hnd, hp⟩, ⟨v, hv, hvid, hvdoc, hstaged⟩, ?_, ?_⟩
  · intro d'
    change d' ∈ (supersedePrevious _ _ _ db).documents.update _ _ ↔ _
    rw [supersedePrevious_documents, Table.mem_update]
    refine exists_congr fun e => and_congr_right fun he => ?_
    simp only [isRow_undeleted hd hid ht hnd he, Document.pointedTo]
  · intro w'
    change w' ∈ (supersedePrevious _ _ _ db).versions.update _ _ ↔ _
    rw [Table.mem_update]
    constructor
    · rintro ⟨r, hr, rfl⟩
      obtain ⟨w, hw, rfl⟩ := (mem_supersedePrevious hc hd hid ht).mp hr
      exact ⟨w, hw, hrow w hw⟩
    · rintro ⟨w, hw, rfl⟩
      exact ⟨_, (mem_supersedePrevious hc hd hid ht).mpr ⟨w, hw, rfl⟩, (hrow w hw).symm⟩

theorem retires_retireDocument (hc : db.Coherent) {d : Document} (hd : d ∈ db.documents)
    (hid : d.id = documentId) (ht : d.tenantId = tenantId) (hnd : d.status ≠ .deleted)
    (hdocs : db'.documents = (retireDocument documentId tenantId db).documents)
    (hvers : db'.versions = (retireDocument documentId tenantId db).versions) :
    db.Retires documentId db' := by
  refine ⟨⟨d, hd, hid, hnd⟩, ?_, ?_⟩
  · intro d'
    rw [hdocs, retireDocument, Table.mem_update]
    refine exists_congr fun e => and_congr_right fun he => ?_
    simp only [isRow_undeleted hd hid ht hnd he, Document.retired]
  · intro v'
    rw [hvers, retireDocument, Table.mem_update]
    refine exists_congr fun v => and_congr_right fun hv => ?_
    have hcond : (v.documentId = documentId ∧ v.tenantId = tenantId ∧ v.status = .active) ↔
        v.documentId = documentId ∧ v.status = .active := by
      refine and_congr_right fun hvd => and_iff_right ?_
      exact hc.tenant_eq hd hid ht hv hvd
    simp only [decide_eq_true_eq, hcond, Version.retired]

end Pointer

/-- The case analysis every invariant of the tables rests on. -/
theorem apply_cases (hc : db.Coherent) {t : Transaction} (h : t.apply db = .ok db') :
    db.Neutral db' ∨
      (∃ documentId versionId tenantId, t = .activate documentId versionId tenantId ∧
        db.Activates documentId versionId db') ∨
      (∃ documentId tenantId reason, t = .tombstone documentId tenantId reason ∧
        db.Retires documentId db') := by
  cases t with
  | register a => exact Or.inl (neutral_register hc h)
  | stage documentId attemptId tenantId stage =>
      obtain ⟨-, -, -, rfl⟩ := updateIngestionStage_ok_iff.mp h
      exact Or.inl neutral_enterStage
  | persist tenantId documentId versionId filename chunks => exact Or.inl (neutral_persist h)
  | activate documentId versionId tenantId =>
      obtain ⟨d, hd, ⟨hid, ht⟩, hnd, v, hv, ⟨hvid, hvdoc, -⟩, hst, h⟩ :=
        activateIngestionVersion_ok h
      rcases h with ⟨-, rfl⟩ | ⟨hp, rfl⟩
      · exact Or.inl (.of_eq rfl rfl)
      · exact Or.inr (Or.inl ⟨documentId, versionId, tenantId, rfl,
          activates_makeActive hc hd hid ht hnd hv hvid hvdoc hst hp⟩)
  | finish documentId attemptId versionId tenantId status errorCode =>
      exact Or.inl (neutral_finish h)
  | tombstone documentId tenantId reason =>
      obtain ⟨d, hd, ⟨hid, ht⟩, tombstones, legacyChunks, ⟨-, rfl⟩ | ⟨hnd, rfl⟩⟩ :=
        tombstoneIngestionDocument_ok h
      · exact Or.inl (.of_eq rfl rfl)
      · exact Or.inr (Or.inr ⟨documentId, tenantId, reason, rfl,
          retires_retireDocument hc hd hid ht hnd rfl rfl⟩)
  | reconcile =>
      obtain rfl := Except.ok.inj h
      exact Or.inl (.of_eq rfl rfl)

/-- Step lemma: every committed transaction keeps coherence. -/
theorem Db.Coherent.apply (hc : db.Coherent) {t : Transaction} (h : t.apply db = .ok db') :
    db'.Coherent := by
  rcases apply_cases hc h with hn | ⟨_, _, _, -, ha⟩ | ⟨_, _, _, -, hr⟩
  · exact hc.neutral hn
  · exact hc.activates ha
  · exact hc.retires hr

end Ally
