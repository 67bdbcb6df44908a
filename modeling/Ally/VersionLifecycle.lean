import Ally.AttemptCases
import Ally.Machine

/-!
# The version and pointer state machine over whole histories

A history is the list of transactions that committed, in commit order; one that
raises is rolled back and leaves no trace. Everything here holds after every
history that starts from the migrated, empty schema.
-/

open Relational

namespace Ally

/-- One committed transaction as a step of the database. -/
def commit (db : Db) (t : Transaction) : Option Db := (t.apply db).toOption

theorem commit_some {db db' : Db} {t : Transaction} :
    commit db t = some db' ↔ t.apply db = .ok db' := by
  unfold commit
  cases t.apply db <;> simp [Except.toOption]

def history (tenants : List Uuid) (ts : List Transaction) : Option Db :=
  Machine.run commit (.initial tenants) ts

theorem Db.Coherent.run {db db' : Db} {ts : List Transaction} (hc : db.Coherent)
    (h : Machine.run commit db ts = some db') : db'.Coherent :=
  Machine.run_invariant (fun _ _ _ hc hs => hc.apply (commit_some.mp hs)) hc h

theorem history_coherent {tenants : List Uuid} {ts : List Transaction} {db : Db}
    (h : history tenants ts = some db) : db.Coherent :=
  (Db.coherent_initial tenants).run h

/-! ### Version statuses -/

/-- The moves of a version status: `staged → active → superseded` and
`staged → failed`. -/
inductive VersionStatus.Moves : VersionStatus → VersionStatus → Prop
  | stay (s : VersionStatus) : Moves s s
  | activate : Moves .staged .active
  | supersede : Moves .active .superseded
  | fail : Moves .staged .failed

variable {db db' : Db} {t : Transaction}

theorem Version.activated_moves {documentId versionId : Uuid} {v w : Version}
    (hw : w.status = .staged) (hvw : v.id = versionId → v = w) :
    VersionStatus.Moves v.status (v.activated documentId versionId).status := by
  unfold Version.activated
  split_ifs with hid hprev
  · rw [hvw hid, hw]
    exact .activate
  · rw [hprev.2]
    exact .supersede
  · exact .stay _

theorem Version.retired_moves (documentId : Uuid) (v : Version) :
    VersionStatus.Moves v.status (v.retired documentId).status := by
  unfold Version.retired
  split_ifs with hprev
  · rw [hprev.2]
    exact .supersede
  · exact .stay _

/-- Step lemma for versions: no row disappears, and its status moves along an
edge of the state machine. -/
theorem version_moves (hc : db.Coherent) (h : t.apply db = .ok db') {v : Version}
    (hv : v ∈ db.versions) :
    ∃ v' ∈ db'.versions, v.SameRow v' ∧ VersionStatus.Moves v.status v'.status := by
  rcases apply_cases hc h with hn | ⟨documentId, versionId, _, -, ha⟩ | ⟨documentId, _, _, -, hr⟩
  · obtain ⟨v', hv', hsame, hst | ⟨hst, hst'⟩⟩ := hn.versionTo v hv
    · exact ⟨v', hv', hsame, hst ▸ .stay _⟩
    · exact ⟨v', hv', hsame, by rw [hst, hst']; exact .fail⟩
  · obtain ⟨w, hw, hwid, -, hws⟩ := ha.version
    exact ⟨_, (ha.versions _).mpr ⟨v, hv, rfl⟩, v.activated_sameRow documentId versionId,
      Version.activated_moves hws fun hid => Table.eq_of_key_eq hv hw (hid.trans hwid.symm)⟩
  · exact ⟨_, (hr.versions _).mpr ⟨v, hv, rfl⟩, v.retired_sameRow documentId,
      v.retired_moves documentId⟩

/-- A version row enters the table as `staged`. -/
theorem version_enters_staged (hc : db.Coherent) (h : t.apply db = .ok db') {v' : Version}
    (hv' : v' ∈ db'.versions) (hnew : ∀ v ∈ db.versions, v.id ≠ v'.id) :
    v'.status = .staged := by
  rcases apply_cases hc h with hn | ⟨documentId, versionId, _, -, ha⟩ | ⟨documentId, _, _, -, hr⟩
  · rcases hn.versionOf v' hv' with ⟨v, hv, hsame, -⟩ | ⟨hst, -⟩
    · exact absurd hsame.id.symm (hnew v hv)
    · exact hst
  · obtain ⟨v, hv, rfl⟩ := (ha.versions v').mp hv'
    exact absurd (v.activated_sameRow documentId versionId).id.symm (hnew v hv)
  · obtain ⟨v, hv, rfl⟩ := (hr.versions v').mp hv'
    exact absurd (v.retired_sameRow documentId).id.symm (hnew v hv)

/-- Statuses a version only has once it has been activated. -/
def VersionStatus.Activated (s : VersionStatus) : Prop := s = .active ∨ s = .superseded

theorem VersionStatus.Moves.activated {s s' : VersionStatus} (h : Moves s s')
    (hs : s.Activated) : s'.Activated := by
  cases h with
  | stay => exact hs
  | activate => exact Or.inl rfl
  | supersede => exact Or.inr rfl
  | fail => rcases hs with hs | hs <;> cases hs

/-! ### Deleted documents -/

/-- Step lemma for deletion: a deleted document stays in the table as deleted. -/
theorem deleted_stays (hc : db.Coherent) (h : t.apply db = .ok db') {d : Document}
    (hd : d ∈ db.documents) (hs : d.status = .deleted) :
    ∃ d' ∈ db'.documents, d'.id = d.id ∧ d'.status = .deleted := by
  rcases apply_cases hc h with hn | ⟨documentId, versionId, _, -, ha⟩ | ⟨documentId, _, _, -, hr⟩
  · obtain ⟨d', hd', hsp⟩ := hn.documentTo d hd
    exact ⟨d', hd', hsp.id, hsp.deleted.mpr hs⟩
  · refine ⟨_, (ha.documents _).mpr ⟨d, hd, rfl⟩, (d.pointedTo_id documentId versionId).1, ?_⟩
    obtain ⟨e, he, heid, hne, -⟩ := ha.document
    rw [Document.pointedTo, if_neg]
    · exact hs
    · intro hid
      have hde : d = e := Table.eq_of_key_eq hd he (hid.trans heid.symm)
      exact hne (hde ▸ hs)
  · refine ⟨_, (hr.documents _).mpr ⟨d, hd, rfl⟩, (d.retired_id documentId).1, ?_⟩
    unfold Document.retired
    split_ifs
    · rfl
    · exact hs

theorem deleted_stays_run {ts : List Transaction} (hc : db.Coherent)
    (h : Machine.run commit db ts = some db') {d : Document} (hd : d ∈ db.documents)
    (hs : d.status = .deleted) : ∃ d' ∈ db'.documents, d'.id = d.id ∧ d'.status = .deleted := by
  let R : Db → Db → Prop := fun a b => ∀ d ∈ a.documents, d.status = .deleted →
    ∃ d' ∈ b.documents, d'.id = d.id ∧ d'.status = .deleted
  have hR : R db db' := by
    refine Machine.run_relation (P := Db.Coherent) (fun a d hd hs => ⟨d, hd, rfl, hs⟩) ?_
      (fun a t b ha hs => ha.apply (commit_some.mp hs))
      (fun a t b ha hs d hd hs' => deleted_stays ha (commit_some.mp hs) hd hs') hc h
    intro a b c hab hbc d hd hs
    obtain ⟨e, he, hid, hes⟩ := hab d hd hs
    obtain ⟨f, hf, hid', hfs⟩ := hbc e he hes
    exact ⟨f, hf, hid'.trans hid, hfs⟩
  exact hR d hd hs

/-! ### Indexed attempts -/

/-- In the history `ts`, each `finish('indexed')` comes after a committed
activation of a version that belongs to the finished attempt. -/
def IndexedAfterActivate (tenants : List Uuid) (ts : List Transaction) : Prop :=
  ∀ before after documentId attemptId versionId tenantId errorCode,
    ts = before ++ .finish documentId attemptId versionId tenantId .indexed errorCode :: after →
    ∃ documentId' versionId' tenantId', .activate documentId' versionId' tenantId' ∈ before ∧
      ∀ db, history tenants before = some db →
        ∃ v ∈ db.versions, v.id = versionId' ∧ v.attemptId = attemptId

theorem IndexedAfterActivate.of_concat {tenants : List Uuid} {ts : List Transaction}
    (h : IndexedAfterActivate tenants (ts ++ [t])) : IndexedAfterActivate tenants ts := by
  intro before after documentId attemptId versionId tenantId errorCode he
  refine h before (after ++ [t]) documentId attemptId versionId tenantId errorCode ?_
  rw [he, List.append_assoc, List.cons_append]

/-- A committed activation leaves its document pointing to its version. -/
theorem activate_points {documentId versionId tenantId : Uuid} (hc : db.Coherent)
    (h : activateIngestionVersion documentId versionId tenantId db = .ok db') :
    ∃ d ∈ db'.documents, d.id = documentId ∧ d.activeVersionId = some versionId := by
  obtain ⟨d, hd, ⟨hid, ht⟩, hnd, v, hv, ⟨hvid, hvdoc, -⟩, hst, ⟨hp, rfl⟩ | ⟨hp, rfl⟩⟩ :=
    activateIngestionVersion_ok h
  · exact ⟨d, hd, hid, hp⟩
  · have ha := activates_makeActive hc hd hid ht hnd hv hvid hvdoc hst hp
    refine ⟨_, (ha.documents _).mpr ⟨d, hd, rfl⟩, ?_, ?_⟩
    · rw [(d.pointedTo_id documentId versionId).1, hid]
    · rw [Document.pointedTo, if_pos hid, Document.setPointer_activeVersionId]

/-- A version whose activation committed is active or superseded ever after. -/
theorem activated_stays {tenants : List Uuid} {ts : List Transaction}
    (h : history tenants ts = some db) {documentId versionId tenantId : Uuid}
    (ha : .activate documentId versionId tenantId ∈ ts) :
    ∃ v ∈ db.versions, v.id = versionId ∧ v.status.Activated := by
  induction ts using List.reverseRecOn generalizing db with
  | nil => cases ha
  | append_singleton ts t ih =>
      obtain ⟨m, hm, hs⟩ := Machine.run_concat_some.mp h
      have hmc : m.Coherent := history_coherent hm
      rcases List.mem_append.mp ha with hold | hnew
      · obtain ⟨v, hv, hid, hact⟩ := ih hm hold
        obtain ⟨v', hv', hsame, hmoves⟩ := version_moves hmc (commit_some.mp hs) hv
        exact ⟨v', hv', hsame.id.trans hid, hmoves.activated hact⟩
      · obtain rfl := List.mem_singleton.mp hnew
        obtain ⟨d, hd, -, hp⟩ := activate_points hmc (commit_some.mp hs)
        obtain ⟨v, hv, hid, -, hact⟩ := (history_coherent h).pointer d hd versionId hp
        exact ⟨v, hv, hid, Or.inl hact⟩

/-- The invariant of the attempts in a history that finishes after activating. -/
def Db.IndexedOwns (db : Db) : Prop :=
  ∀ r ∈ db.attempts, r.status = .indexed →
    ∃ v ∈ db.versions, v.attemptId = r.id ∧ v.status.Activated

/-- Step lemma for indexed attempts: besides a finish call only a reconciliation
makes an attempt `indexed`, and only one that owns the active version. -/
theorem indexedOwns_step (hc : db.Coherent) (h : t.apply db = .ok db') (hi : db.IndexedOwns)
    (hfinish : ∀ documentId attemptId versionId tenantId errorCode,
      t = .finish documentId attemptId versionId tenantId .indexed errorCode →
      ∃ v ∈ db.versions, v.attemptId = attemptId ∧ v.status.Activated) : db'.IndexedOwns := by
  have hkeep : ∀ r : Attempt, (∃ v ∈ db.versions, v.attemptId = r.id ∧ v.status.Activated) →
      ∃ v ∈ db'.versions, v.attemptId = r.id ∧ v.status.Activated := by
    rintro r ⟨v, hv, ha, hact⟩
    obtain ⟨v', hv', hsame, hmoves⟩ := version_moves hc h hv
    exact ⟨v', hv', hsame.attemptId.trans ha, hmoves.activated hact⟩
  intro r' hr' hs'
  rcases (attemptStep h).attemptOf r' hr' with ⟨r, hr, hsame, hmoves⟩ | ⟨hq, -⟩
  · rw [hsame.id]
    apply hkeep
    cases hmoves with
    | stay hst => exact hi r hr (hst ▸ hs')
    | stage _ hst =>
        rw [hst] at hs'
        cases hs'
    | finish documentId versionId tenantId status errorCode hcall _ hst _ =>
        obtain rfl := hst.symm.trans hs'
        exact hfinish documentId r.id versionId tenantId errorCode hcall
    | reconcile _ howns _ =>
        obtain ⟨v, hv, ha, hact, -⟩ := howns
        exact ⟨v, hv, ha, Or.inl hact⟩
  · rw [hq] at hs'
    cases hs'

/-- Run lemma for indexed attempts. -/
theorem history_indexedOwns {tenants : List Uuid} {ts : List Transaction}
    (h : history tenants ts = some db) (hts : IndexedAfterActivate tenants ts) :
    db.IndexedOwns := by
  induction ts using List.reverseRecOn generalizing db with
  | nil =>
      obtain rfl := Option.some.inj h
      exact fun r hr => absurd hr (Table.notMem_empty r)
  | append_singleton ts t ih =>
      obtain ⟨m, hm, hs⟩ := Machine.run_concat_some.mp h
      have hmc : m.Coherent := history_coherent hm
      refine indexedOwns_step hmc (commit_some.mp hs) (ih hm hts.of_concat) ?_
      rintro documentId attemptId versionId tenantId errorCode rfl
      obtain ⟨_, versionId', _, hact, hown⟩ := hts ts [] documentId attemptId versionId tenantId
        errorCode rfl
      obtain ⟨v, hv, hid, ha⟩ := hown m hm
      obtain ⟨w, hw, hwid, hwact⟩ := activated_stays hm hact
      have hvw : v = w := Table.eq_of_key_eq hv hw (hid.trans hwid.symm)
      exact ⟨v, hv, ha, hvw ▸ hwact⟩

/-- The version and pointer state machine: after every history, active is the
same as pointed to, deletion is final, statuses only move along the edges, and
an indexed attempt owns a version that was activated. -/
theorem version_pointer_state_machine (tenants : List Uuid) (ts : List Transaction) (db : Db)
    (h : history tenants ts = some db) :
    (∀ v ∈ db.versions, v.status = .active ↔
      ∃ d ∈ db.documents, d.id = v.documentId ∧ d.activeVersionId = some v.id) ∧
    (∀ d ∈ db.documents, ∀ i, d.activeVersionId = some i →
      ∃ v ∈ db.versions, v.id = i ∧ v.documentId = d.id) ∧
    (∀ v ∈ db.versions, ∀ w ∈ db.versions, v.documentId = w.documentId →
      v.status = .active → w.status = .active → v = w) ∧
    (∀ us db', Machine.run commit db us = some db' →
      ∀ d ∈ db.documents, d.status = .deleted →
        ∃ d' ∈ db'.documents, d'.id = d.id ∧ d'.status = .deleted ∧ d'.activeVersionId = none ∧
          ∀ v ∈ db'.versions, v.documentId = d.id → v.status ≠ .active) ∧
    (∀ t db', commit db t = some db' →
      (∀ v ∈ db.versions, ∃ v' ∈ db'.versions, v.SameRow v' ∧
        VersionStatus.Moves v.status v'.status) ∧
      ∀ v' ∈ db'.versions, (∀ v ∈ db.versions, v.id ≠ v'.id) → v'.status = .staged) ∧
    (IndexedAfterActivate tenants ts → ∀ r ∈ db.attempts, r.status = .indexed →
      ∃ v ∈ db.versions, v.attemptId = r.id ∧
        (v.status = .active ∨ v.status = .superseded)) := by
  have hc := history_coherent h
  refine ⟨?_, ?_, ?_, ?_, ?_, history_indexedOwns h⟩
  · intro v hv
    refine ⟨hc.active v hv, ?_⟩
    rintro ⟨d, hd, hid, hp⟩
    exact (hc.active_iff hv hd hid).mpr hp
  · intro d hd i hi
    obtain ⟨v, hv, hid, hdoc, -⟩ := hc.pointer d hd i hi
    exact ⟨v, hv, hid, hdoc⟩
  · intro v hv w hw hdoc hvs hws
    obtain ⟨d, hd, hid, -⟩ := hc.owner v hv
    have hpv := (hc.active_iff hv hd hid).mp hvs
    have hpw := (hc.active_iff hw hd (hid.trans hdoc)).mp hws
    exact Table.eq_of_key_eq hv hw (Option.some.inj (hpv.symm.trans hpw))
  · intro us db' hrun d hd hs
    have hc' := hc.run hrun
    obtain ⟨d', hd', hid, hs'⟩ := deleted_stays_run hc hrun hd hs
    have hp' := hc'.deleted d' hd' hs'
    refine ⟨d', hd', hid, hs', hp', ?_⟩
    intro v hv hdoc hact
    have hp := (hc'.active_iff hv hd' (hid.trans hdoc.symm)).mp hact
    rw [hp'] at hp
    cases hp
  · intro t db' hs
    exact ⟨fun v hv => version_moves hc (commit_some.mp hs) hv,
      fun v' hv' => version_enters_staged hc (commit_some.mp hs) hv'⟩

/-- One upload that is registered, activated and finished. -/
def indexedUpload : List Transaction :=
  [.register ⟨1, 2, 3, "s3://b/a.pdf", "".pushn 'a' 64, "a.pdf", 7, "ingest-2"⟩,
    .activate 1 3 7, .finish 1 2 3 7 .indexed none]

set_option maxRecDepth 4000 in
theorem indexedUpload_isSome : (history [7] indexedUpload).isSome = true := by decide

set_option maxRecDepth 4000 in
theorem version_pointer_state_machine_indexedUpload :
    ∃ db, history [7] indexedUpload = some db ∧
      ∀ v ∈ db.versions, v.status = .active ↔
        ∃ d ∈ db.documents, d.id = v.documentId ∧ d.activeVersionId = some v.id := by
  obtain ⟨db, h⟩ := Option.isSome_iff_exists.mp indexedUpload_isSome
  exact ⟨db, h, (version_pointer_state_machine [7] indexedUpload db h).1⟩

end Ally
