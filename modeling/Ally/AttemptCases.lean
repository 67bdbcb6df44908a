import Ally.CommitCases

/-!
# How a committed transaction moves an attempt

An attempt keeps its identity columns. Its status changes by a stage update or
a finish call while the attempt is open, or by the closing update of a
reconciliation when the attempt owns the active version.
-/

open Relational

namespace Ally

structure Attempt.SameRow (r r' : Attempt) : Prop where
  id : r'.id = r.id
  documentId : r'.documentId = r.documentId
  tenantId : r'.tenantId = r.tenantId

theorem Attempt.SameRow.refl (r : Attempt) : r.SameRow r := ⟨rfl, rfl, rfl⟩

/-- The status changes a transaction `t` on `db` may make to the row `r`. -/
inductive Attempt.Moves (db : Db) (t : Transaction) (r r' : Attempt) : Prop
  | stay (status : r'.status = r.status)
  | stage (isOpen : r.status = .queued ∨ r.status = .processing) (status : r'.status = .processing)
  | finish (documentId versionId tenantId : Uuid) (status : AttemptStatus)
      (errorCode : Option String)
      (call : t = .finish documentId r.id versionId tenantId status errorCode)
      (isOpen : r.status = .queued ∨ r.status = .processing) (final : r'.status = status)
      (terminal : status = .indexed ∨ status = .failed ∨ status = .cancelled)
  | reconcile (call : t = .reconcile) (owns : db.ownsActive r) (status : r'.status = .indexed)

/-- Both directions of the correspondence between attempts before and after. -/
structure Db.AttemptStep (t : Transaction) (db db' : Db) : Prop where
  attemptTo : ∀ r ∈ db.attempts, ∃ r' ∈ db'.attempts, r.SameRow r' ∧ Attempt.Moves db t r r'
  attemptOf : ∀ r' ∈ db'.attempts,
    (∃ r ∈ db.attempts, r.SameRow r' ∧ Attempt.Moves db t r r') ∨
    (r'.status = .queued ∧ ∃ a, t = .register a ∧ r'.id = a.attemptId)

variable {db db' : Db} {t : Transaction}

theorem Db.AttemptStep.of_eq (h : db'.attempts = db.attempts) : db.AttemptStep t db' where
  attemptTo r hr := ⟨r, h ▸ hr, .refl r, .stay rfl⟩
  attemptOf r hr := Or.inl ⟨r, h ▸ hr, .refl r, .stay rfl⟩

theorem Db.AttemptStep.of_update {p : Attempt → Bool} {f : Rewrite Attempt.id}
    (h : db'.attempts = db.attempts.update p f)
    (hf : ∀ r, p r = true → r.SameRow (f r) ∧ Attempt.Moves db t r (f r)) :
    db.AttemptStep t db' := by
  have hrow : ∀ r : Attempt, r.SameRow (if p r then f r else r) ∧
      Attempt.Moves db t r (if p r then f r else r) := by
    intro r
    by_cases hp : p r = true
    · rw [if_pos hp]
      exact hf r hp
    · rw [if_neg hp]
      exact ⟨.refl r, .stay rfl⟩
  constructor
  · intro r hr
    refine ⟨_, ?_, hrow r⟩
    rw [h]
    exact Table.update_mem hr
  · intro r' hr'
    rw [h] at hr'
    obtain ⟨r, hr, rfl⟩ := Table.mem_update.mp hr'
    exact Or.inl ⟨r, hr, hrow r⟩

theorem attemptStep_register {a : RegisterArgs} (h : registerIngestion a db = .ok db') :
    db.AttemptStep (.register a) db' := by
  obtain ⟨db₁, db₂, h₁, h₂, h₃⟩ := registerIngestion_ok h
  have h₁' : db₁.attempts = db.attempts := by
    rcases upsertDocument_ok h₁ with ⟨-, _, -, rfl⟩ | ⟨-, rfl⟩ <;> rfl
  have h₃' : db'.attempts = db₂.attempts := by
    rcases ensureVersion_ok h₃ with ⟨rfl, -⟩ | ⟨_, _, -, -, rfl⟩ <;> rfl
  rcases ensureAttempt_ok h₂ with ⟨rfl, -⟩ | ⟨-, n, attempts, hi, rfl⟩
  · exact .of_eq (h₃'.trans h₁')
  · obtain ⟨-, hmem⟩ := Table.insert_some hi
    rw [h₁'] at hmem
    change db'.attempts = attempts at h₃'
    constructor
    · intro r hr
      exact ⟨r, h₃' ▸ (hmem r).mpr (Or.inl hr), .refl r, .stay rfl⟩
    · intro r' hr'
      rw [h₃'] at hr'
      rcases (hmem r').mp hr' with hr | rfl
      · exact Or.inl ⟨r', hr, .refl r', .stay rfl⟩
      · exact Or.inr ⟨rfl, a, rfl, rfl⟩

theorem failVersion_attempts {documentId versionId tenantId : Uuid} {status : AttemptStatus}
    (h : failVersion documentId versionId tenantId status db = .ok db') :
    db'.attempts = db.attempts := by
  rcases failVersion_ok_iff.mp h with ⟨-, -, rfl⟩ | ⟨-, -, rfl⟩ <;> rfl

theorem attemptStep_finish {documentId attemptId versionId tenantId : Uuid}
    {status : AttemptStatus} {errorCode : Option String}
    (h : finishIngestionAttempt documentId attemptId versionId tenantId status errorCode db =
      .ok db') :
    db.AttemptStep (.finish documentId attemptId versionId tenantId status errorCode) db' := by
  obtain ⟨hterm, ⟨-, -, rfl⟩ | ⟨-, hclose⟩⟩ := finishIngestionAttempt_ok_iff.mp h
  · exact .of_eq rfl
  · have hattempts : db'.attempts =
        (closeAttempt documentId attemptId tenantId status errorCode db).attempts := by
      rcases hclose with ⟨-, rfl⟩ | ⟨-, hf⟩
      · rfl
      · exact failVersion_attempts hf
    refine .of_update hattempts fun r hr => ⟨⟨rfl, rfl, rfl⟩, ?_⟩
    obtain ⟨⟨rfl, -, -⟩, hopen⟩ := isOpenAttempt_iff.mp hr
    exact .finish documentId versionId tenantId status errorCode rfl hopen rfl hterm

theorem attemptStep (h : t.apply db = .ok db') : db.AttemptStep t db' := by
  cases t with
  | register a => exact attemptStep_register h
  | stage documentId attemptId tenantId stage =>
      obtain ⟨-, -, -, rfl⟩ := updateIngestionStage_ok_iff.mp h
      refine .of_update rfl fun r hr => ⟨⟨rfl, rfl, rfl⟩, ?_⟩
      exact .stage (isOpenAttempt_iff.mp hr).2 rfl
  | persist tenantId documentId versionId filename chunks =>
      obtain ⟨-, _, rfl⟩ := persistVersionChunks_ok h
      exact .of_eq rfl
  | activate documentId versionId tenantId =>
      obtain ⟨d, -, -, -, -, -, -, -, ⟨-, rfl⟩ | ⟨-, rfl⟩⟩ := activateIngestionVersion_ok h
      · exact .of_eq rfl
      · cases hp : d.activeVersionId <;> exact .of_eq rfl
  | finish documentId attemptId versionId tenantId status errorCode =>
      exact attemptStep_finish h
  | tombstone documentId tenantId reason =>
      obtain ⟨-, -, -, _, _, ⟨-, rfl⟩ | ⟨-, rfl⟩⟩ := tombstoneIngestionDocument_ok h <;>
        exact .of_eq rfl
  | reconcile =>
      obtain rfl := Except.ok.inj h
      refine .of_update rfl fun r hr => ⟨⟨rfl, rfl, rfl⟩, ?_⟩
      exact .reconcile rfl (of_decide_eq_true hr).1 rfl

end Ally
