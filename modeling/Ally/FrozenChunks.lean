import Ally.IngestRuns
import Ally.PersistStatements

/-!
# The chunk rows of a version

A version's rows are those of the last persist that committed for it, as long as no
commit leaves behind rows that its DELETE did not see and its INSERTs do not
overwrite. Once a version has left `staged` its rows are final: the count update
holds the version row until the commit.
-/

open Relational

namespace Ally

variable {t : Transaction} {db db' db'' : Db}

/-! ### What the other transactions keep -/

/-- The version a transaction may take out of `staged`. -/
def Transaction.writesVersion : Transaction → Option Uuid
  | .activate _ versionId _ => some versionId
  | .finish _ _ versionId _ _ _ => some versionId
  | _ => none

structure Version.Keeps (t : Transaction) (v v' : Version) : Prop where
  row : v.SameRow v'
  chunkCount : v'.chunkCount = v.chunkCount
  left : v.status ≠ .staged → v'.status ≠ .staged
  staged : v.status = .staged → t.writesVersion ≠ some v.id → v'.status = .staged

theorem Version.Keeps.refl (t : Transaction) (v : Version) : v.Keeps t v :=
  ⟨.refl v, rfl, fun h => h, fun h _ => h⟩

theorem Version.Keeps.trans {u v w : Version} (h : u.Keeps t v) (h' : v.Keeps t w) :
    u.Keeps t w where
  row := h.row.trans h'.row
  chunkCount := h'.chunkCount.trans h.chunkCount
  left hs := h'.left (h.left hs)
  staged hs hw := h'.staged (h.staged hs hw) (by rwa [h.row.id])

/-- What a transaction that is no persist makes of chunk rows and counts. -/
structure Db.KeepsChunks (t : Transaction) (db db' : Db) : Prop where
  rows : db'.versionChunks = db.versionChunks
  versionTo : ∀ v ∈ db.versions, ∃ v' ∈ db'.versions, v.Keeps t v'
  versionOf : ∀ v' ∈ db'.versions, (∃ v ∈ db.versions, v.Keeps t v') ∨
    (v'.chunkCount = 0 ∧ ∀ v ∈ db.versions, v.id ≠ v'.id)

theorem Db.KeepsChunks.of_eq (hr : db'.versionChunks = db.versionChunks)
    (hv : db'.versions = db.versions) : db.KeepsChunks t db' where
  rows := hr
  versionTo v hm := ⟨v, hv ▸ hm, .refl t v⟩
  versionOf v hm := Or.inl ⟨v, hv ▸ hm, .refl t v⟩

theorem Db.KeepsChunks.trans (h : db.KeepsChunks t db') (h' : db'.KeepsChunks t db'') :
    db.KeepsChunks t db'' where
  rows := h'.rows.trans h.rows
  versionTo v hv := by
    obtain ⟨v', hv', hk⟩ := h.versionTo v hv
    obtain ⟨v'', hv'', hk'⟩ := h'.versionTo v' hv'
    exact ⟨v'', hv'', hk.trans hk'⟩
  versionOf v'' hv'' := by
    rcases h'.versionOf v'' hv'' with ⟨v', hv', hk'⟩ | ⟨hz, hnew⟩
    · rcases h.versionOf v' hv' with ⟨v, hv, hk⟩ | ⟨hz, hnew⟩
      · exact Or.inl ⟨v, hv, hk.trans hk'⟩
      · exact Or.inr ⟨hk'.chunkCount.trans hz, fun v hv => hk'.row.id ▸ hnew v hv⟩
    · refine Or.inr ⟨hz, fun v hv => ?_⟩
      obtain ⟨v', hv', hk⟩ := h.versionTo v hv
      exact hk.row.id ▸ hnew v' hv'

/-- A status other than `staged`, written to staged rows of one version at most. -/
theorem Db.KeepsChunks.of_setStatus {p : Version → Bool} {s : VersionStatus}
    (hs : s ≠ .staged) (hr : db'.versionChunks = db.versionChunks)
    (hv : db'.versions = db.versions.update p (Version.setStatus s))
    (hp : ∀ v, p v = true → v.status = .staged → t.writesVersion = some v.id) :
    db.KeepsChunks t db' := by
  have hkeeps : ∀ v : Version, v.Keeps t (if p v then Version.setStatus s v else v) := by
    intro v
    by_cases hpv : p v = true
    · rw [if_pos hpv]
      exact ⟨⟨rfl, rfl, rfl, rfl, rfl⟩, rfl, fun _ => hs, fun hst hw => absurd (hp v hpv hst) hw⟩
    · rw [if_neg hpv]
      exact .refl t v
  refine ⟨hr, fun v hm => ⟨_, hv ▸ Table.update_mem hm, hkeeps v⟩, fun v' hv' => ?_⟩
  rw [hv, Table.mem_update] at hv'
  obtain ⟨v, hm, rfl⟩ := hv'
  exact Or.inl ⟨v, hm, hkeeps v⟩

theorem upsertDocument_chunks {a : RegisterArgs} (h : upsertDocument a db = .ok db') :
    db'.versionChunks = db.versionChunks := by
  rcases upsertDocument_ok h with ⟨-, documents, -, rfl⟩ | ⟨-, rfl⟩
  · rfl
  · rfl

theorem ensureAttempt_chunks {a : RegisterArgs} (h : ensureAttempt a db = .ok db') :
    db'.versionChunks = db.versionChunks := by
  rcases ensureAttempt_ok h with ⟨rfl, -⟩ | ⟨-, n, attempts, -, rfl⟩
  · rfl
  · rfl

theorem keepsChunks_register {a : RegisterArgs} (h : registerIngestion a db = .ok db') :
    db.KeepsChunks t db' := by
  obtain ⟨db₁, db₂, h₁, h₂, h₃⟩ := registerIngestion_ok h
  have hv₁ : db₁.versions = db.versions := (upsertDocument_documents h₁).2.2.2
  have h₁₂ : db.KeepsChunks t db₂ := by
    refine .of_eq ?_ ?_
    · rw [ensureAttempt_chunks h₂, upsertDocument_chunks h₁]
    · rw [(ensureAttempt_frame h₂).2, hv₁]
  refine h₁₂.trans ?_
  rcases ensureVersion_ok h₃ with ⟨rfl, -⟩ | ⟨n, versions, -, hi, rfl⟩
  · exact .of_eq rfl rfl
  · obtain ⟨hfresh, hmem⟩ := Table.insert_some hi
    refine ⟨rfl, fun v hv => ⟨v, (hmem v).mpr (Or.inl hv), .refl t v⟩, fun v' hv' => ?_⟩
    rcases (hmem v').mp hv' with hv | rfl
    · exact Or.inl ⟨v', hv, .refl t v'⟩
    · exact Or.inr ⟨rfl, hfresh⟩

theorem keepsChunks_activate {documentId versionId tenantId : Uuid}
    (h : activateIngestionVersion documentId versionId tenantId db = .ok db') :
    db.KeepsChunks (.activate documentId versionId tenantId) db' := by
  obtain ⟨d, -, -, -, v, -, -, -, ⟨-, rfl⟩ | ⟨-, rfl⟩⟩ := activateIngestionVersion_ok h
  · exact .of_eq rfl rfl
  · have hprevious : db.KeepsChunks (.activate documentId versionId tenantId)
        (supersedePrevious d.activeVersionId documentId tenantId db) := by
      cases d.activeVersionId with
      | none => exact .of_eq rfl rfl
      | some i =>
          refine .of_setStatus (by decide) rfl rfl fun v hp hst => ?_
          rw [Bool.and_eq_true, decide_eq_true_eq, hst] at hp
          exact nomatch hp.2
    refine hprevious.trans (.of_setStatus (by decide) rfl rfl fun v hp _ => ?_)
    rw [Bool.and_eq_true, Version.isRow_iff] at hp
    exact congrArg some hp.1.1.symm

theorem keepsChunks_finish {documentId attemptId versionId tenantId : Uuid}
    {status : AttemptStatus} {errorCode : Option String}
    (h : finishIngestionAttempt documentId attemptId versionId tenantId status errorCode db =
      .ok db') :
    db.KeepsChunks (.finish documentId attemptId versionId tenantId status errorCode) db' := by
  obtain ⟨-, ⟨-, -, rfl⟩ | ⟨-, ⟨-, rfl⟩ | ⟨-, h⟩⟩⟩ := finishIngestionAttempt_ok_iff.mp h
  · exact .of_eq rfl rfl
  · exact .of_eq rfl rfl
  · rcases failVersion_ok_iff.mp h with ⟨-, -, rfl⟩ | ⟨-, -, rfl⟩
    · exact .of_eq rfl rfl
    · refine .of_setStatus (by decide) rfl rfl fun v hp _ => ?_
      exact congrArg some (isStagedVersion_iff.mp hp).1.1.symm

theorem keepsChunks_tombstone {documentId tenantId : Uuid} {reason : String}
    (h : tombstoneIngestionDocument documentId tenantId reason db = .ok db') :
    db.KeepsChunks t db' := by
  obtain ⟨d, -, -, tombstones, legacyChunks, ⟨-, rfl⟩ | ⟨-, rfl⟩⟩ :=
    tombstoneIngestionDocument_ok h
  · exact .of_eq rfl rfl
  · refine .of_setStatus (by decide) rfl rfl fun v hp hst => ?_
    rw [decide_eq_true_eq, hst] at hp
    exact nomatch hp.2.2

theorem keepsChunks (ht : t.isPersist = false) (h : t.apply db = .ok db') :
    db.KeepsChunks t db' := by
  cases t with
  | register a => exact keepsChunks_register h
  | stage documentId attemptId tenantId stage =>
      obtain ⟨-, -, -, rfl⟩ := updateIngestionStage_ok_iff.mp h
      exact .of_eq rfl rfl
  | persist tenantId documentId versionId filename chunks => cases ht
  | activate documentId versionId tenantId => exact keepsChunks_activate h
  | finish documentId attemptId versionId tenantId status errorCode => exact keepsChunks_finish h
  | tombstone documentId tenantId reason => exact keepsChunks_tombstone h
  | reconcile =>
      obtain rfl := Except.ok.inj h
      exact .of_eq rfl rfl

/-! ### The rows of a call -/

namespace PersistCall

variable (c : PersistCall)

theorem rows_length : c.rows.length = c.chunks.length := List.length_mapIdx

theorem mem_rows {c : PersistCall} {r : VersionChunk} (hr : r ∈ c.rows) :
    r.tenantId = c.tenantId ∧ r.documentId = c.documentId ∧ r.versionId = c.versionId := by
  obtain ⟨i, hi, rfl⟩ := List.mem_mapIdx.mp hr
  exact ⟨rfl, rfl, rfl⟩

/-- The chunk index alone tells the rows of a call apart. -/
theorem rows_nodupKeys : (c.rows.map VersionChunk.key).Nodup := by
  have hindex : (c.rows.map VersionChunk.key).map (fun k => k.2.2.2) =
      List.range c.chunks.length := by
    apply List.ext_getElem
    · simp [rows_length]
    · intro i h₁ h₂
      simp [rows, VersionChunk.key, versionChunk]
  exact List.Nodup.of_map _ (hindex ▸ List.nodup_range)

end PersistCall

/-- Every row its DELETE did not find has the key of a row it inserts. -/
def PersistTx.Overwrites (p : PersistTx) (db : Db) : Prop :=
  ∀ r ∈ db.versionChunks, p.call.owns r = true → r.key ∉ p.doomed →
    r.key ∈ p.call.rows.map VersionChunk.key

instance (p : PersistTx) (db : Db) : Decidable (p.Overwrites db) :=
  inferInstanceAs (Decidable (∀ _ ∈ _, _))

/-- A persist that commits overwrites the rows its DELETE did not find. -/
def Statement.Overwrites (w : PersistWorld) : Statement → Prop
  | .commit pid => ∀ p ∈ w.tx pid, p.Overwrites w.db
  | _ => True

instance (w : PersistWorld) : (s : Statement) → Decidable (s.Overwrites w)
  | .commit pid => inferInstanceAs (Decidable (∀ p ∈ w.tx pid, p.Overwrites w.db))
  | .transact _ | .startDelete _ _ | .endDelete _ | .insert _ | .count _ | .rollback _ =>
      .isTrue trivial

namespace PersistWorld

variable {w w' : PersistWorld}

/-- The rows of the last persist that committed for the version. -/
def lastRows (w : PersistWorld) (versionId : Uuid) : List VersionChunk :=
  match w.last versionId with
  | some call => call.rows
  | none => []

def HasRows (w : PersistWorld) (v : Version) : Prop :=
  ∀ r, r ∈ w.db.versionChunks ∧ r.isOf v.tenantId v.documentId v.id = true ↔
    r ∈ w.lastRows v.id

/-- Each version has as many rows as it counts, and they are the rows of the last
persist that committed for it. -/
def ChunksMatch (w : PersistWorld) : Prop :=
  ∀ v ∈ w.db.versions,
    v.chunkCount = w.db.versionChunks.count (VersionChunk.isOf v.tenantId v.documentId v.id) ∧
    w.HasRows v

structure Sound (db : Db) (p : PersistTx) : Prop where
  doomed : ∀ k ∈ p.doomed, k.2.1 = p.call.versionId
  staged : p.phase = .counted → ∃ v ∈ db.versions, p.call.isStaged v = true

structure Inv (w : PersistWorld) : Prop where
  owner : ∀ r ∈ w.db.versionChunks, ∃ v ∈ w.db.versions, v.id = r.versionId ∧
    v.documentId = r.documentId ∧ v.tenantId = r.tenantId
  chunkCount : ∀ v ∈ w.db.versions, v.chunkCount = (w.lastRows v.id).length
  last : ∀ i c, w.last i = some c → c.versionId = i ∧ ∃ v ∈ w.db.versions, v.id = i ∧
    v.documentId = c.documentId ∧ v.tenantId = c.tenantId
  sound : ∀ p ∈ w.txs, Sound w.db p

theorem inv_initial (tenants : List Uuid) : (initial tenants).Inv where
  owner _ hr := absurd hr (Table.notMem_empty _)
  chunkCount _ hv := absurd hv (Table.notMem_empty _)
  last _ _ h := nomatch h
  sound _ hp := absurd hp (Table.notMem_empty _)

/-! ### What a statement does -/

theorem tx_some {pid : ℕ} {p : PersistTx} : w.tx pid = some p ↔ p ∈ w.txs ∧ p.pid = pid := by
  rw [tx, Table.select_eq_some_iff (k := pid) (fun r hr => of_decide_eq_true hr),
    decide_eq_true_eq]

/-- The committed world of the open transaction `p`. -/
def committed (w : PersistWorld) (p : PersistTx) : PersistWorld where
  db := p.commit w.db
  txs := (w.close p.pid).txs.update (fun _ => true) (PersistTx.forget p.doomed)
  last := Function.update w.last p.call.versionId (some p.call)

inductive Moves (w : PersistWorld) : Statement → PersistWorld → Prop
  | quiet {s : Statement} {w' : PersistWorld} (other : ∀ pid, s ≠ .commit pid)
      (db : w'.db = w.db) (last : w'.last = w.last)
      (sound : (∀ p ∈ w.txs, Sound w.db p) → ∀ p ∈ w'.txs, Sound w.db p) : Moves w s w'
  | transact {t : Transaction} {db : Db} (other : t.isPersist = false)
      (free : ∀ p ∈ w.txs, t.waitsFor p = false) (ok : t.apply w.db = .ok db) :
      Moves w (.transact t) { w with db }
  | commit {pid : ℕ} {p : PersistTx} (tx : w.tx pid = some p) (counted : p.phase = .counted) :
      Moves w (.commit pid) (w.committed p)

theorem sound_close {pid : ℕ} (h : ∀ p ∈ w.txs, Sound w.db p) :
    ∀ p ∈ (w.close pid).txs, Sound w.db p :=
  fun p hp => h p (Table.mem_delete.mp hp).1

theorem sound_toPhase {pid : ℕ} {phase : PersistPhase}
    (hc : phase = .counted → ∀ p ∈ w.txs, p.pid = pid →
      ∃ v ∈ w.db.versions, p.call.isStaged v = true)
    (h : ∀ p ∈ w.txs, Sound w.db p) : ∀ p ∈ (w.toPhase pid phase).txs, Sound w.db p := by
  intro p' hp'
  obtain ⟨p, hp, rfl⟩ := Table.mem_update.mp hp'
  by_cases hpid : p.pid = pid
  · rw [if_pos (decide_eq_true hpid)]
    exact ⟨(h p hp).doomed, fun hphase => hc hphase p hp hpid⟩
  · rw [if_neg (by rwa [decide_eq_true_eq])]
    exact h p hp

theorem transact_cases {t : Transaction} (h : w.transact t = some w') :
    w.Moves (.transact t) w' := by
  unfold transact at h
  split_ifs at h with hw
  push Not at hw
  have hother : t.isPersist = false := by simpa using hw.1
  have hfree : ∀ p ∈ w.txs, t.waitsFor p = false := by
    intro p hp
    have hany : w.txs.rows.any t.waitsFor = false := by simpa using hw.2
    simpa using List.any_eq_false.mp hany p hp
  cases ht : t.apply w.db with
  | ok db =>
      rw [ht] at h
      obtain rfl := Option.some.inj h
      exact .transact hother hfree ht
  | error e =>
      rw [ht] at h
      obtain rfl := Option.some.inj h
      exact .quiet (fun _ => nofun) rfl rfl fun hs => hs

theorem startDelete_cases {pid : ℕ} {call : PersistCall}
    (h : w.startDelete pid call = some w') : w.Moves (.startDelete pid call) w' := by
  obtain ⟨txs, hi, rfl⟩ := Option.map_eq_some_iff.mp h
  refine .quiet (fun _ => nofun) rfl rfl fun hs p hp => ?_
  rcases ((Table.insert_some hi).2 p).mp hp with hold | rfl
  · exact hs p hold
  · refine ⟨fun k hk => ?_, nofun⟩
    obtain ⟨r, hr, rfl⟩ := List.mem_map.mp hk
    exact (VersionChunk.isOf_iff.mp (List.mem_filter.mp hr).2).2.2

theorem endDelete_cases {pid : ℕ} {p : PersistTx} (h : w.endDelete pid p = some w') :
    w.Moves (.endDelete pid) w' := by
  unfold endDelete at h
  split_ifs at h
  obtain rfl := Option.some.inj h
  exact .quiet (fun _ => nofun) rfl rfl (sound_toPhase nofun)

theorem insert_cases {pid : ℕ} {p : PersistTx} (h : w.insert pid p = some w') :
    w.Moves (.insert pid) w' := by
  unfold insert at h
  split at h
  · split at h
    · split_ifs at h
      split at h
      · obtain rfl := Option.some.inj h
        exact .quiet (fun _ => nofun) rfl rfl (sound_toPhase nofun)
      · obtain rfl := Option.some.inj h
        exact .quiet (fun _ => nofun) rfl rfl sound_close
    · cases h
  · cases h

theorem count_cases {pid : ℕ} {p : PersistTx} (hp : w.tx pid = some p)
    (h : w.count pid p = some w') : w.Moves (.count pid) w' := by
  unfold count at h
  split_ifs at h with hphase hstaged
  · obtain rfl := Option.some.inj h
    refine .quiet (fun _ => nofun) rfl rfl (sound_toPhase fun _ q hq hpid => ?_)
    have hqp : q = p :=
      Table.eq_of_key_eq hq (tx_some.mp hp).1 (hpid.trans (tx_some.mp hp).2.symm)
    obtain ⟨v, hv, hrow⟩ := count_stagedVersion.mp hstaged
    exact ⟨v, hv, hqp ▸ isStagedVersion_iff.mpr hrow⟩
  · obtain rfl := Option.some.inj h
    exact .quiet (fun _ => nofun) rfl rfl sound_close

theorem step_cases {s : Statement} (h : w.step s = some w') : w.Moves s w' := by
  cases s with
  | transact t => exact transact_cases h
  | startDelete pid call => exact startDelete_cases h
  | endDelete pid =>
      obtain ⟨p, -, h⟩ := Option.bind_eq_some_iff.mp h
      exact endDelete_cases h
  | insert pid =>
      obtain ⟨p, -, h⟩ := Option.bind_eq_some_iff.mp h
      exact insert_cases h
  | count pid =>
      obtain ⟨p, hp, h⟩ := Option.bind_eq_some_iff.mp h
      exact count_cases hp h
  | commit pid =>
      obtain ⟨p, hp, h⟩ := Option.bind_eq_some_iff.mp h
      unfold commit at h
      split_ifs at h with hphase
      obtain rfl := Option.some.inj h
      have hpid := (tx_some.mp hp).2
      subst hpid
      exact .commit hp hphase
  | rollback pid =>
      obtain ⟨p, -, rfl⟩ := Option.map_eq_some_iff.mp h
      exact .quiet (fun _ => nofun) rfl rfl sound_close

/-! ### A commit -/

section Commit
variable {p : PersistTx}

/-- The version row a counted transaction holds. -/
theorem Inv.target (hi : w.Inv) (hp : p ∈ w.txs) (hc : p.phase = .counted) :
    ∃ v ∈ w.db.versions, (v.id = p.call.versionId ∧ v.documentId = p.call.documentId ∧
      v.tenantId = p.call.tenantId) ∧ v.status = .staged := by
  obtain ⟨v, hv, hst⟩ := (hi.sound p hp).staged hc
  exact ⟨v, hv, isStagedVersion_iff.mp hst⟩

theorem Inv.mem_commit (hi : w.Inv) (hp : p ∈ w.txs) (hc : p.phase = .counted)
    {r : VersionChunk} :
    r ∈ (p.commit w.db).versionChunks ↔ r ∈ p.call.rows ∨
      ((r ∈ w.db.versionChunks ∧ r.key ∉ p.doomed) ∧
        r.key ∉ p.call.rows.map VersionChunk.key) := by
  obtain ⟨v, hv, ⟨hid, hdoc, -⟩, -⟩ := hi.target hp hc
  rw [PersistTx.commit, Table.mem_upsertAll p.call.rows_nodupKeys, Table.mem_delete,
    decide_eq_false_iff_not]
  intro row hrow o ho hkey
  obtain ⟨ht, hd, hvid⟩ := PersistCall.mem_rows hrow
  -- the row it meets belongs to the same version, hence to the same document
  obtain ⟨v', hv', hid', hdoc', -⟩ := hi.owner o (Table.mem_delete.mp ho).1
  have hokey : o.tenantId = row.tenantId ∧ o.versionId = row.versionId ∧
      o.pageNumber = row.pageNumber ∧ o.chunkIndex = row.chunkIndex := by
    simpa [VersionChunk.key] using hkey
  have hvv : v' = v := by
    apply Table.eq_of_key_eq hv' hv
    rw [hid', hid, hokey.2.1, hvid]
  have hodoc : o.documentId = row.documentId := by rw [← hdoc', hvv, hdoc, hd]
  cases o
  cases row
  simp only [VersionChunk.overwrite] at hokey hodoc ⊢
  simp [hokey, hodoc]

/-- The chunk counts after a commit. -/
theorem mem_commit_versions {v' : Version} :
    v' ∈ (p.commit w.db).versions ↔ ∃ v ∈ w.db.versions,
      v' = if p.call.isStaged v then Version.setChunkCount p.call.chunks.length v else v :=
  Table.mem_update

theorem commit_version (v : Version) :
    v.SameRow (if p.call.isStaged v then Version.setChunkCount p.call.chunks.length v else v) ∧
    (if p.call.isStaged v then Version.setChunkCount p.call.chunks.length v else v).status =
      v.status := by
  split_ifs
  · exact ⟨⟨rfl, rfl, rfl, rfl, rfl⟩, rfl⟩
  · exact ⟨.refl v, rfl⟩

theorem Inv.isStaged_iff (hi : w.Inv) (hp : p ∈ w.txs) (hc : p.phase = .counted) {v : Version}
    (hv : v ∈ w.db.versions) : p.call.isStaged v = true ↔ v.id = p.call.versionId := by
  obtain ⟨u, hu, ⟨hid, hdoc, ht⟩, hst⟩ := hi.target hp hc
  refine ⟨fun h => (isStagedVersion_iff.mp h).1.1, fun h => ?_⟩
  obtain rfl : v = u := Table.eq_of_key_eq hv hu (h.trans hid.symm)
  exact isStagedVersion_iff.mpr ⟨⟨hid, hdoc, ht⟩, hst⟩

theorem lastRows_committed_self : (w.committed p).lastRows p.call.versionId = p.call.rows := by
  simp [lastRows, committed]

theorem lastRows_committed_ne {i : Uuid} (h : i ≠ p.call.versionId) :
    (w.committed p).lastRows i = w.lastRows i := by
  simp [lastRows, committed, Function.update_of_ne h]

theorem Inv.commit (hi : w.Inv) (hp : p ∈ w.txs) (hc : p.phase = .counted) :
    (w.committed p).Inv where
  owner := by
    have hto : ∀ v ∈ w.db.versions, ∃ v' ∈ (p.commit w.db).versions, v.SameRow v' :=
      fun v hv => ⟨_, Table.update_mem hv, (commit_version v).1⟩
    intro r hr
    rcases (hi.mem_commit hp hc).mp hr with hrow | ⟨⟨hold, -⟩, -⟩
    · obtain ⟨v, hv, ⟨hid, hdoc, ht⟩, -⟩ := hi.target hp hc
      obtain ⟨v', hv', hsame⟩ := hto v hv
      obtain ⟨hrt, hrd, hrv⟩ := PersistCall.mem_rows hrow
      exact ⟨v', hv', by rw [hsame.id, hid, hrv], by rw [hsame.documentId, hdoc, hrd],
        by rw [hsame.tenantId, ht, hrt]⟩
    · obtain ⟨v, hv, hid, hdoc, ht⟩ := hi.owner r hold
      obtain ⟨v', hv', hsame⟩ := hto v hv
      exact ⟨v', hv', hsame.id.trans hid, hsame.documentId.trans hdoc, hsame.tenantId.trans ht⟩
  chunkCount := by
    intro v' hv'
    obtain ⟨v, hv, rfl⟩ := mem_commit_versions.mp hv'
    by_cases hid : v.id = p.call.versionId
    · rw [if_pos ((hi.isStaged_iff hp hc hv).mpr hid)]
      change p.call.chunks.length = ((w.committed p).lastRows v.id).length
      rw [hid, lastRows_committed_self, PersistCall.rows_length]
    · rw [if_neg fun h => hid ((hi.isStaged_iff hp hc hv).mp h), lastRows_committed_ne hid]
      exact hi.chunkCount v hv
  last := by
    intro i c h
    have hlift : ∀ v ∈ w.db.versions, ∃ v' ∈ (p.commit w.db).versions, v.SameRow v' :=
      fun v hv => ⟨_, Table.update_mem hv, (commit_version v).1⟩
    by_cases hid : i = p.call.versionId
    · subst hid
      have hcall : p.call = c := by simpa [committed] using h
      subst hcall
      obtain ⟨v, hv, ⟨hid, hdoc, ht⟩, -⟩ := hi.target hp hc
      obtain ⟨v', hv', hsame⟩ := hlift v hv
      exact ⟨rfl, v', hv', hsame.id.trans hid, hsame.documentId.trans hdoc,
        hsame.tenantId.trans ht⟩
    · have hold : w.last i = some c := by simpa [committed, Function.update_of_ne hid] using h
      obtain ⟨hci, v, hv, hvi, hdoc, ht⟩ := hi.last i c hold
      obtain ⟨v', hv', hsame⟩ := hlift v hv
      exact ⟨hci, v', hv', hsame.id.trans hvi, hsame.documentId.trans hdoc,
        hsame.tenantId.trans ht⟩
  sound := by
    intro q' hq'
    obtain ⟨q, hq, rfl⟩ := Table.mem_update.mp hq'
    have hs := hi.sound q (Table.mem_delete.mp hq).1
    refine ⟨fun k hk => hs.doomed k (List.mem_filter.mp hk).1, fun hphase => ?_⟩
    obtain ⟨v, hv, hst⟩ := hs.staged hphase
    obtain ⟨⟨hid, hdoc, ht⟩, hstatus⟩ := isStagedVersion_iff.mp hst
    obtain ⟨hsame, hkeep⟩ := commit_version (p := p) v
    refine ⟨_, Table.update_mem hv, isStagedVersion_iff.mpr ⟨⟨?_, ?_, ?_⟩, ?_⟩⟩
    · exact hsame.id.trans hid
    · exact hsame.documentId.trans hdoc
    · exact hsame.tenantId.trans ht
    · exact hkeep.trans hstatus

end Commit

/-! ### The invariant over a run -/

/-- A transaction that does not wait for a counted persist leaves its version alone. -/
theorem writesVersion_of_free {t : Transaction} {p : PersistTx} (h : t.waitsFor p = false)
    (hc : p.phase = .counted) : t.writesVersion ≠ some p.call.versionId := by
  cases t with
  | activate documentId versionId tenantId =>
      intro he
      simp [Transaction.waitsFor, Option.some.inj he, hc] at h
  | finish documentId attemptId versionId tenantId status errorCode =>
      intro he
      simp [Transaction.waitsFor, Option.some.inj he, hc] at h
  | _ => nofun

theorem Inv.transact {t : Transaction} {db : Db} (hi : w.Inv)
    (free : ∀ p ∈ w.txs, t.waitsFor p = false) (hk : w.db.KeepsChunks t db) :
    ({ w with db } : PersistWorld).Inv where
  owner := by
    intro r hr
    obtain ⟨v, hv, hid, hdoc, ht⟩ := hi.owner r (hk.rows ▸ hr)
    obtain ⟨v', hv', hkeep⟩ := hk.versionTo v hv
    exact ⟨v', hv', hkeep.row.id.trans hid, hkeep.row.documentId.trans hdoc,
      hkeep.row.tenantId.trans ht⟩
  chunkCount := by
    intro v' hv'
    change v'.chunkCount = (w.lastRows v'.id).length
    rcases hk.versionOf v' hv' with ⟨v, hv, hkeep⟩ | ⟨hz, hnew⟩
    · rw [hkeep.chunkCount, hkeep.row.id]
      exact hi.chunkCount v hv
    · -- no persist can have committed for a version without a row
      rw [hz, lastRows]
      cases hlast : w.last v'.id with
      | none => rfl
      | some c =>
          obtain ⟨-, v, hv, hid, -⟩ := hi.last _ c hlast
          exact absurd hid (hnew v hv)
  last := by
    intro i c h
    obtain ⟨hci, v, hv, hid, hdoc, ht⟩ := hi.last i c h
    obtain ⟨v', hv', hkeep⟩ := hk.versionTo v hv
    exact ⟨hci, v', hv', hkeep.row.id.trans hid, hkeep.row.documentId.trans hdoc,
      hkeep.row.tenantId.trans ht⟩
  sound := by
    intro p hp
    have hs := hi.sound p hp
    refine ⟨hs.doomed, fun hc => ?_⟩
    obtain ⟨v, hv, hst⟩ := hs.staged hc
    obtain ⟨⟨hid, hdoc, ht⟩, hstatus⟩ := isStagedVersion_iff.mp hst
    obtain ⟨v', hv', hkeep⟩ := hk.versionTo v hv
    have hw : t.writesVersion ≠ some v.id := hid ▸ writesVersion_of_free (free p hp) hc
    refine ⟨v', hv', isStagedVersion_iff.mpr ⟨⟨?_, ?_, ?_⟩, hkeep.staged hstatus hw⟩⟩
    · exact hkeep.row.id.trans hid
    · exact hkeep.row.documentId.trans hdoc
    · exact hkeep.row.tenantId.trans ht

theorem Inv.step {s : Statement} (hi : w.Inv) (h : w.step s = some w') : w'.Inv := by
  cases step_cases h with
  | quiet other hdb hlast hsound =>
      have hrows : ∀ i, w'.lastRows i = w.lastRows i := fun i => by rw [lastRows, hlast, lastRows]
      refine ⟨?_, ?_, ?_, ?_⟩
      · rw [hdb]
        exact hi.owner
      · intro v hv
        rw [hrows]
        exact hi.chunkCount v (hdb ▸ hv)
      · rw [hdb, hlast]
        exact hi.last
      · rw [hdb]
        exact hsound hi.sound
  | transact other free ok => exact hi.transact free (keepsChunks other ok)
  | commit tx counted => exact hi.commit (tx_some.mp tx).1 counted

theorem Inv.run {ss : List Statement} (hi : w.Inv) (h : Machine.run PersistWorld.step w ss = some w') :
    w'.Inv :=
  Machine.run_invariant (fun _ _ _ hi h => Inv.step hi h) hi h

/-! ### Rows and counts over a step -/

/-- The row count follows from the rows: both lists hold each row once. -/
theorem Inv.chunksMatch_iff (hi : w.Inv) :
    w.ChunksMatch ↔ ∀ v ∈ w.db.versions, w.HasRows v := by
  refine ⟨fun h v hv => (h v hv).2, fun h v hv => ⟨?_, h v hv⟩⟩
  have hleft : (w.db.versionChunks.rows.filter
      (VersionChunk.isOf v.tenantId v.documentId v.id)).Nodup :=
    w.db.versionChunks.nodupKeys.of_map.filter _
  have hright : (w.lastRows v.id).Nodup := by
    rw [lastRows]
    cases w.last v.id with
    | none => exact List.nodup_nil
    | some c => exact c.rows_nodupKeys.of_map
  have hperm := (List.perm_ext_iff_of_nodup hleft hright).mpr fun r => by
    rw [List.mem_filter]
    exact h v hv r
  rw [hi.chunkCount v hv, Table.count, List.countP_eq_length_filter, hperm.length_eq]

/-- A commit keeps the law exactly when it overwrites what its DELETE did not find. -/
theorem Inv.chunksMatch_commit {p : PersistTx} (hi : w.Inv) (hm : w.ChunksMatch) (hp : p ∈ w.txs)
    (hc : p.phase = .counted) : (w.committed p).ChunksMatch ↔ p.Overwrites w.db := by
  rw [(hi.commit hp hc).chunksMatch_iff]
  constructor
  · intro h r hr hown hdoomed
    obtain ⟨v, hv, ⟨hid, hdoc, ht⟩, -⟩ := hi.target hp hc
    obtain ⟨hsame, -⟩ := commit_version (p := p) v
    have hiff := h _ (Table.update_mem hv) r
    by_contra hkey
    have hin : r ∈ (p.commit w.db).versionChunks :=
      (hi.mem_commit hp hc).mpr (Or.inr ⟨⟨hr, hdoomed⟩, hkey⟩)
    have hrow := hiff.mp ⟨hin, by
      rw [hsame.tenantId, hsame.documentId, hsame.id, ht, hdoc, hid]
      exact hown⟩
    rw [hsame.id, hid, lastRows_committed_self] at hrow
    exact hkey (List.mem_map_of_mem hrow)
  · intro h v' hv' r
    obtain ⟨v, hv, rfl⟩ := mem_commit_versions.mp hv'
    obtain ⟨hsame, -⟩ := commit_version (p := p) v
    rw [hsame.tenantId, hsame.documentId, hsame.id]
    change r ∈ (p.commit w.db).versionChunks ∧ _ ↔ _
    rw [hi.mem_commit hp hc]
    by_cases hid : v.id = p.call.versionId
    · obtain ⟨⟨-, hdoc, ht⟩, -⟩ :=
        isStagedVersion_iff.mp ((hi.isStaged_iff hp hc hv).mpr hid)
      rw [hid, hdoc, ht, lastRows_committed_self]
      constructor
      · rintro ⟨hrow | ⟨⟨hold, hdoomed⟩, hkey⟩, hown⟩
        · exact hrow
        · exact absurd (h r hold hown hdoomed) hkey
      · intro hrow
        exact ⟨Or.inl hrow, VersionChunk.isOf_iff.mpr (PersistCall.mem_rows hrow)⟩
    · rw [lastRows_committed_ne hid, ← (hm v hv).2 r]
      constructor
      · rintro ⟨hrow | ⟨⟨hold, -⟩, -⟩, hof⟩
        · have hrv := (PersistCall.mem_rows hrow).2.2
          exact absurd ((VersionChunk.isOf_iff.mp hof).2.2.symm.trans hrv) hid
        · exact ⟨hold, hof⟩
      · rintro ⟨hold, hof⟩
        have hrv := (VersionChunk.isOf_iff.mp hof).2.2
        refine ⟨Or.inr ⟨⟨hold, fun hk => ?_⟩, fun hk => ?_⟩, hof⟩
        · exact hid (hrv.symm.trans ((hi.sound p hp).doomed _ hk))
        · obtain ⟨row, hrow, hkey⟩ := List.mem_map.mp hk
          have hkv : row.versionId = r.versionId := congrArg (fun k => k.2.1) hkey
          exact hid (hrv.symm.trans (hkv.symm.trans (PersistCall.mem_rows hrow).2.2))

theorem chunksMatch_step {s : Statement} (hi : w.Inv) (hm : w.ChunksMatch)
    (h : w.step s = some w')
    (hcover : s.Overwrites w) : w'.ChunksMatch := by
  cases step_cases h with
  | quiet other hdb hlast hsound =>
      intro v hv
      obtain ⟨hcount, hrows⟩ := hm v (hdb ▸ hv)
      rw [HasRows, lastRows, hlast, hdb]
      exact ⟨hcount, hrows⟩
  | @transact t db other free ok =>
      have hk := keepsChunks other ok
      rw [(hi.transact free hk).chunksMatch_iff]
      intro v' hv' r
      change r ∈ db.versionChunks ∧ _ ↔ r ∈ w.lastRows v'.id
      rw [hk.rows]
      rcases hk.versionOf v' hv' with ⟨v, hv, hkeep⟩ | ⟨-, hnew⟩
      · rw [hkeep.row.id, hkeep.row.documentId, hkeep.row.tenantId]
        exact (hm v hv).2 r
      · refine iff_of_false (fun hr => ?_) fun hr => ?_
        · obtain ⟨v, hv, hid, -⟩ := hi.owner r hr.1
          exact hnew v hv (hid.trans (VersionChunk.isOf_iff.mp hr.2).2.2)
        · rw [lastRows] at hr
          cases hlast : w.last v'.id with
          | none => simp [hlast] at hr
          | some c =>
              obtain ⟨-, v, hv, hid, -⟩ := hi.last _ c hlast
              exact hnew v hv hid
  | commit tx counted =>
      exact (hi.chunksMatch_commit hm (tx_some.mp tx).1 counted).mpr (hcover _ tx)

/-- What was no longer staged in `w` has its rows and its count in `w'` as they were. -/
def Frozen (w w' : PersistWorld) : Prop :=
  ∀ v ∈ w.db.versions, v.status ≠ .staged → ∃ v' ∈ w'.db.versions, v'.id = v.id ∧
    v'.status ≠ .staged ∧ v'.chunkCount = v.chunkCount ∧
    ∀ r : VersionChunk, r.versionId = v.id → (r ∈ w'.db.versionChunks ↔ r ∈ w.db.versionChunks)

theorem Frozen.refl (w : PersistWorld) : w.Frozen w :=
  fun v hv hs => ⟨v, hv, rfl, hs, rfl, fun _ _ => Iff.rfl⟩

theorem Frozen.trans {u v w : PersistWorld} (h : u.Frozen v) (h' : v.Frozen w) : u.Frozen w := by
  intro x hx hs
  obtain ⟨y, hy, hid, hs', hcount, hrows⟩ := h x hx hs
  obtain ⟨z, hz, hid', hs'', hcount', hrows'⟩ := h' y hy hs'
  refine ⟨z, hz, hid'.trans hid, hs'', hcount'.trans hcount, fun r hr => ?_⟩
  exact (hrows' r (hr.trans hid.symm)).trans (hrows r hr)

theorem frozen_step {s : Statement} (hi : w.Inv) (h : w.step s = some w') : w.Frozen w' := by
  intro v hv hs
  cases step_cases h with
  | quiet other hdb hlast hsound =>
      rw [hdb]
      exact ⟨v, hv, rfl, hs, rfl, fun _ _ => Iff.rfl⟩
  | transact other free ok =>
      have hk := keepsChunks other ok
      obtain ⟨v', hv', hkeep⟩ := hk.versionTo v hv
      exact ⟨v', hv', hkeep.row.id, hkeep.left hs, hkeep.chunkCount, fun r _ => by rw [hk.rows]⟩
  | @commit pid p tx counted =>
      have hp := (tx_some.mp tx).1
      -- the committing call holds a staged version, so it is another one
      have hid : v.id ≠ p.call.versionId := fun hid =>
        hs (isStagedVersion_iff.mp ((hi.isStaged_iff hp counted hv).mpr hid)).2
      have hin : v ∈ (p.commit w.db).versions := by
        refine mem_commit_versions.mpr ⟨v, hv, ?_⟩
        rw [if_neg fun hst => hid ((hi.isStaged_iff hp counted hv).mp hst)]
      refine ⟨v, hin, rfl, hs, rfl, fun r hr => ?_⟩
      change r ∈ (p.commit w.db).versionChunks ↔ _
      rw [hi.mem_commit hp counted]
      constructor
      · rintro (hrow | ⟨⟨hold, -⟩, -⟩)
        · exact absurd (hr.symm.trans (PersistCall.mem_rows hrow).2.2) hid
        · exact hold
      · refine fun hold => Or.inr ⟨⟨hold, fun hk => ?_⟩, fun hk => ?_⟩
        · exact hid (hr.symm.trans ((hi.sound p hp).doomed _ hk))
        · obtain ⟨row, hrow, hkey⟩ := List.mem_map.mp hk
          have hkv : row.versionId = r.versionId := congrArg (fun k => k.2.1) hkey
          exact hid (hr.symm.trans (hkv.symm.trans (PersistCall.mem_rows hrow).2.2))

theorem frozen_run {ss : List Statement} (hi : w.Inv)
    (h : Machine.run PersistWorld.step w ss = some w') : w.Frozen w' :=
  Machine.run_relation (P := Inv) Frozen.refl (fun _ _ _ => Frozen.trans)
    (fun _ _ _ hi h => Inv.step hi h) (fun _ _ _ hi h => frozen_step hi h) hi h

/-- The committed chunk rows and counts are the same, new versions apart. -/
def SameChunks (w w' : PersistWorld) : Prop :=
  w'.db.versionChunks = w.db.versionChunks ∧
  ∀ v ∈ w.db.versions, ∃ v' ∈ w'.db.versions, v'.id = v.id ∧ v'.chunkCount = v.chunkCount

/-- Only a commit of a persist changes chunk rows and counts: not a statement of an
open call, and not the exception or the closed connection that ends one. -/
theorem sameChunks_step {s : Statement} (h : w.step s = some w') (hs : ∀ pid, s ≠ .commit pid) :
    w.SameChunks w' := by
  cases step_cases h with
  | quiet other hdb hlast hsound =>
      rw [SameChunks, hdb]
      exact ⟨rfl, fun v hv => ⟨v, hv, rfl, rfl⟩⟩
  | transact other free ok =>
      have hk := keepsChunks other ok
      refine ⟨hk.rows, fun v hv => ?_⟩
      obtain ⟨v', hv', hkeep⟩ := hk.versionTo v hv
      exact ⟨v', hv', hkeep.row.id, hkeep.chunkCount⟩
  | commit tx counted => exact absurd rfl (hs _)

end PersistWorld

/-! ### Every run -/

/-- The worlds a run passes through, its own end included. -/
def Passes (tenants : List Uuid) (ss pre : List Statement) (w : PersistWorld) : Prop :=
  pre <+: ss ∧ Machine.run PersistWorld.step (.initial tenants) pre = some w

/-- In every world of the run the rows and counts of each version are those of its
last committed persist; from there to every later world a version that is not staged
stays as it is; and no step but the commit of a persist changes rows or counts. -/
structure ChunkLaw (tenants : List Uuid) (ss : List Statement) : Prop where
  chunksMatch : ∀ pre w, Passes tenants ss pre w → w.ChunksMatch
  frozen : ∀ pre post w w', Passes tenants ss pre w → Passes tenants ss (pre ++ post) w' →
    w.Frozen w'
  unchanged : ∀ pre s w w', Passes tenants ss pre w → Passes tenants ss (pre ++ [s]) w' →
    (∀ pid, s ≠ .commit pid) → w.SameChunks w'

def CommitsOverwrite (tenants : List Uuid) (ss : List Statement) : Prop :=
  Machine.Along PersistWorld.step (fun w s => s.Overwrites w) (.initial tenants) ss

theorem Passes.inv {tenants : List Uuid} {ss pre : List Statement} {w : PersistWorld}
    (h : Passes tenants ss pre w) : w.Inv :=
  (PersistWorld.inv_initial tenants).run h.2

theorem CommitsOverwrite.chunksMatch {tenants : List Uuid} {ss pre : List Statement}
    {w : PersistWorld} (hc : CommitsOverwrite tenants ss) (h : Passes tenants ss pre w) :
    w.ChunksMatch := by
  have hstep : ∀ (w : PersistWorld) (s : Statement) (w' : PersistWorld),
      w.Inv ∧ w.ChunksMatch → s.Overwrites w → w.step s = some w' → w'.Inv ∧ w'.ChunksMatch :=
    fun w s w' hi hs h => ⟨hi.1.step h, PersistWorld.chunksMatch_step hi.1 hi.2 h hs⟩
  have hinitial : (PersistWorld.initial tenants).ChunksMatch :=
    fun v hv => absurd hv (Table.notMem_empty v)
  exact (Machine.run_invariant_along hstep ⟨PersistWorld.inv_initial tenants, hinitial⟩
    (hc.of_prefix h.1) h.2).2

/-- The chunk rows of a version keep the law along a run exactly when every persist
that commits in it overwrites what its DELETE did not find. -/
theorem chunkLaw_iff_commits_overwrite (tenants : List Uuid) (ss : List Statement)
    (w : PersistWorld) (h : Machine.run PersistWorld.step (.initial tenants) ss = some w) :
    ChunkLaw tenants ss ↔ CommitsOverwrite tenants ss := by
  constructor
  · intro hlaw pre s m hpre hm
    have hpasses : Passes tenants ss pre m := ⟨(List.prefix_append pre _).trans hpre, hm⟩
    obtain ⟨post, hpost⟩ := hpre
    rw [← hpost] at h
    obtain ⟨m', hm', -⟩ := Machine.run_append_some.mp h
    obtain ⟨m'', hm'', hs⟩ := Machine.run_concat_some.mp hm'
    obtain rfl : m'' = m := Option.some.inj (hm''.symm.trans hm)
    have hmatch := hlaw.chunksMatch _ _ ⟨⟨post, hpost⟩, hm'⟩
    cases PersistWorld.step_cases hs with
    | quiet other =>
        cases s with
        | commit pid => exact absurd rfl (other pid)
        | _ => trivial
    | transact => trivial
    | commit tx counted =>
        intro p htx
        obtain rfl := Option.some.inj (tx.symm.trans htx)
        have hp := (PersistWorld.tx_some.mp tx).1
        exact (hpasses.inv.chunksMatch_commit (hlaw.chunksMatch _ _ hpasses) hp counted).mp hmatch
  · intro hc
    refine ⟨fun pre m hm => hc.chunksMatch hm, ?_, ?_⟩
    · intro pre post m m' hm hm'
      obtain ⟨n, hn, hrun⟩ := Machine.run_append_some.mp hm'.2
      obtain rfl : n = m := Option.some.inj (hn.symm.trans hm.2)
      exact PersistWorld.frozen_run hm.inv hrun
    · intro pre s m m' hm hm' hs
      obtain ⟨n, hn, hstep⟩ := Machine.run_concat_some.mp hm'.2
      obtain rfl : n = m := Option.some.inj (hn.symm.trans hm.2)
      exact PersistWorld.sameChunks_step hstep hs

/-- A call whose thread outlived its timeout persists other chunks after the
activation: its count update raises. -/
def latePersist : List Statement :=
  [.transact (.register (twoUploads.registerArgs false)),
    .startDelete 0 ⟨7, 1, 3, "a.pdf", [⟨1, "first"⟩, ⟨2, "second"⟩]⟩, .endDelete 0, .insert 0,
    .insert 0, .count 0, .commit 0,
    .startDelete 1 ⟨7, 1, 3, "a.pdf", [⟨1, "other"⟩]⟩,
    .transact (.activate 1 3 7), .endDelete 1, .insert 1, .count 1]

set_option maxRecDepth 4000 in
theorem latePersist_isSome :
    (Machine.run PersistWorld.step (.initial [7]) latePersist).isSome = true := by decide

set_option maxRecDepth 4000 in
theorem chunkLaw_iff_commits_overwrite_latePersist :
    ∃ w, Machine.run PersistWorld.step (.initial [7]) latePersist = some w ∧
      ChunkLaw [7] latePersist := by
  obtain ⟨w, hw⟩ := Option.isSome_iff_exists.mp latePersist_isSome
  refine ⟨w, hw, (chunkLaw_iff_commits_overwrite [7] latePersist w hw).mpr ?_⟩
  exact Machine.along_of_check (g := fun w s => decide (s.Overwrites w))
    (fun _ _ => of_decide_eq_true) (by decide)

/-- Two calls for one version: the DELETE of each runs before the other commits, and
the second to commit has fewer chunks. -/
def overlappingPersists : List Statement :=
  [.transact (.register (twoUploads.registerArgs false)),
    .startDelete 0 ⟨7, 1, 3, "a.pdf", [⟨1, "first"⟩, ⟨2, "second"⟩]⟩, .endDelete 0,
    .startDelete 1 ⟨7, 1, 3, "a.pdf", [⟨1, "other"⟩]⟩, .endDelete 1,
    .insert 0, .insert 0, .count 0, .commit 0, .insert 1, .count 1, .commit 1]

set_option maxRecDepth 4000 in
theorem overlappingPersists_leave_rows :
    ∃ w, Machine.run PersistWorld.step (.initial [7]) overlappingPersists = some w ∧
      ¬ ChunkLaw [7] overlappingPersists := by
  have hcheck : ((Machine.run PersistWorld.step (.initial [7]) overlappingPersists).map fun w =>
      decide (∀ v ∈ w.db.versions.rows, v.chunkCount =
        w.db.versionChunks.count (VersionChunk.isOf v.tenantId v.documentId v.id))) =
      some false := by decide
  obtain ⟨w, hw, hcount⟩ := Option.map_eq_some_iff.mp hcheck
  refine ⟨w, hw, fun hlaw => of_decide_eq_false hcount fun v hv => ?_⟩
  exact (hlaw.chunksMatch overlappingPersists w ⟨List.prefix_refl _, hw⟩ v hv).1

end Ally
