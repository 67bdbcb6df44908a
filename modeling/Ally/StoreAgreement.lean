import Ally.StoreHistory

/-!
# Agreement of the dense and the lexical store

Over the histories in which every version has one list of chunks, is embedded before it is
activated and shares its file with no unversioned ingestion, the points that dense search may
return are the documents of a rebuilt lexical index.
-/

open Relational

namespace Ally

/-! ### Points of a collection -/

namespace Qdrant

variable {κ : Type}

def Holds (collection : Option (Points κ)) (p : Point κ) : Prop := ∃ points ∈ collection, p ∈ points

theorem not_holds_none (p : Point κ) : ¬ Holds none p := fun ⟨_, h, _⟩ => nomatch h

theorem holds_some {points : Points κ} {p : Point κ} : Holds (some points) p ↔ p ∈ points := by
  constructor
  · rintro ⟨points', h, hp⟩
    obtain rfl : points' = points := (Option.some.inj h).symm
    exact hp
  · exact fun hp => ⟨points, rfl, hp⟩

variable [DecidableEq κ] {collection : Option (Points κ)} {p : Point κ}

theorem holds_indexChunks {chunks : List (Chunk κ)}
    (hnd : ((chunks.map point).map Point.id).Nodup) :
    Holds (runCalls (indexChunks chunks) collection) p ↔ p ∈ chunks.map point ∨
      Holds collection p ∧ p.id ∉ (chunks.map point).map Point.id := by
  cases chunks with
  | nil => simp [indexChunks, runCalls]
  | cons chunk chunks =>
      have hrun : runCalls (indexChunks (chunk :: chunks)) collection =
          some ((collection.getD .empty).putAll ((chunk :: chunks).map point)) := rfl
      rw [hrun, holds_some, Table.mem_putAll hnd]
      cases collection with
      | none => simp [Table.notMem_empty, not_holds_none]
      | some points => rw [holds_some, Option.getD_some]

theorem holds_deleteByFilename {tenantId : Uuid} {filename : String} :
    Holds (runCalls (deleteByFilename tenantId filename) collection) p ↔
      Holds collection p ∧ (p.tenantId, p.filename) ≠ (tenantId, filename) := by
  have hselects : Filter.selects ⟨[.tenantId tenantId, .filename filename], []⟩ p = true ↔
      (p.tenantId, p.filename) = (tenantId, filename) := by
    simp [Filter.selects, Condition.holds]
  cases collection with
  | none =>
      constructor
      · exact fun h => absurd h (not_holds_none p)
      · exact fun h => absurd h.1 (not_holds_none p)
  | some points =>
      change Holds (some (points.delete _)) p ↔ _
      rw [holds_some, holds_some, Table.mem_delete, ← Bool.not_eq_true, hselects]

end Qdrant

/-! ### Chunk ids -/

section Ids

variable {κ : Type} {uuid5 : String → κ}

theorem VersionChunk.key_of_point_id (hu : Function.Injective uuid5) {r r' : VersionChunk}
    {flag flag' : Bool} (h : (r.point uuid5 flag).id = (r'.point uuid5 flag').id) :
    r.key = r'.key := by
  obtain ⟨ht, -, hp, hi, hv⟩ := makeChunkId_inj hu h
  rw [VersionChunk.key, VersionChunk.key, ht, hp, hi, Option.some.inj hv]

theorem LegacyChunk.key_of_point_id (hu : Function.Injective uuid5) {r r' : LegacyChunk}
    (h : (r.point uuid5).id = (r'.point uuid5).id) : r.key = r'.key := by
  obtain ⟨ht, hf, hp, hi, -⟩ := makeChunkId_inj hu h
  rw [LegacyChunk.key, LegacyChunk.key, ht, hf, hp, hi]

theorem point_id_ne (hu : Function.Injective uuid5) {r : LegacyChunk} {r' : VersionChunk}
    {flag : Bool} : (r.point uuid5).id ≠ (r'.point uuid5 flag).id := by
  intro h
  obtain ⟨-, -, -, -, hv⟩ := makeChunkId_inj hu h
  cases hv

theorem nodup_of_keys {α β δ : Type} {f : α → β} {g : α → δ} {rs : List α}
    (hg : (rs.map g).Nodup) (h : ∀ r ∈ rs, ∀ r' ∈ rs, f r = f r' → g r = g r') :
    (rs.map f).Nodup := by
  apply List.Nodup.map_on _ hg.of_map
  intro r hr r' hr' hf
  exact List.inj_on_of_nodup_map hg hr hr' (h r hr r' hr' hf)

theorem PersistCall.nodup_ids (hu : Function.Injective uuid5) (c : PersistCall) :
    (((Qdrant.versionChunks uuid5 c.tenantId c.documentId c.versionId c.filename c.chunks).map
      Qdrant.point).map Point.id).Nodup := by
  rw [c.points, List.map_map]
  apply nodup_of_keys c.rows_nodupKeys
  exact fun r _ r' _ h => VersionChunk.key_of_point_id hu h

theorem nodup_legacy_ids (hu : Function.Injective uuid5) {rs : List LegacyChunk}
    (hrs : (rs.map LegacyChunk.key).Nodup) :
    ((rs.map (LegacyChunk.point uuid5)).map Point.id).Nodup := by
  rw [List.map_map]
  apply nodup_of_keys hrs
  exact fun r _ r' _ h => LegacyChunk.key_of_point_id hu h

end Ids

namespace Stores

/-! ### Orderly histories -/

/-- The file of a versioned ingestion. -/
def Step.versionedFile : Step → Option (Uuid × String)
  | .activity (.registerIngestion a) => some (a.tenantId, a.filename)
  | .activity (.embedAndIndex tenantId _ _ filename _) => some (tenantId, filename)
  | _ => none

def Step.unversionedFile : Step → Option (Uuid × String)
  | .ingestUnversioned tenantId filename _ => some (tenantId, filename)
  | _ => none

structure Orderly (steps : List Step) : Prop where
  files : ∀ a ∈ steps, ∀ b ∈ steps, ∀ file, a.versionedFile = some file →
    b.unversionedFile ≠ some file
  chunks : ∀ c c' : PersistCall, (persist c ∈ steps ∨ embed c ∈ steps) →
    (persist c' ∈ steps ∨ embed c' ∈ steps) → c.versionId = c'.versionId → c = c'
  persisted : ∀ pre c, pre ++ [embed c] <+: steps → persist c ∈ pre
  embedded : ∀ pre d v t, pre ++ [activate d v t] <+: steps → ∃ c, c.versionId = v ∧ embed c ∈ pre
  hidden : ∀ pre c, pre ++ [embed c] <+: steps → ∀ d t, activate d c.versionId t ∉ pre

variable {steps : List Step} {a : Step}

theorem Orderly.of_concat (h : Orderly (steps ++ [a])) : Orderly steps where
  files b hb b' hb' := h.files b (List.mem_append_left _ hb) b' (List.mem_append_left _ hb')
  chunks c c' hc hc' := h.chunks c c' (hc.imp (List.mem_append_left _) (List.mem_append_left _))
    (hc'.imp (List.mem_append_left _) (List.mem_append_left _))
  persisted pre c hpre := h.persisted pre c (hpre.trans (List.prefix_append _ _))
  embedded pre d v t hpre := h.embedded pre d v t (hpre.trans (List.prefix_append _ _))
  hidden pre c hpre := h.hidden pre c (hpre.trans (List.prefix_append _ _))

theorem Orderly.of_activated (h : Orderly steps) {d v t : Uuid} (ha : activate d v t ∈ steps) :
    ∃ c, c.versionId = v ∧ embed c ∈ steps := by
  obtain ⟨pre, post, rfl⟩ := List.append_of_mem ha
  obtain ⟨c, hc, he⟩ := h.embedded pre d v t ⟨post, by simp⟩
  exact ⟨c, hc, List.mem_append_left _ he⟩

theorem Orderly.of_embedded (h : Orderly steps) {c : PersistCall} (hc : embed c ∈ steps) :
    persist c ∈ steps := by
  obtain ⟨pre, post, rfl⟩ := List.append_of_mem hc
  exact List.mem_append_left _ (h.persisted pre c ⟨post, by simp⟩)

/-! ### The tables of an orderly history -/

structure Prepared (steps : List Step) (db : Db) : Prop where
  coherent : db.Coherent
  owned : db.Owned
  documents : ∀ d ∈ db.documents, ∃ a ∈ steps, a.versionedFile = some d.file
  legacy : ∀ r ∈ db.legacyChunks, ∃ a ∈ steps, a.unversionedFile = some r.file
  rows : ∀ r ∈ db.versionChunks, ∃ c, persist c ∈ steps ∧ r ∈ c.rows
  owner : ∀ c, persist c ∈ steps → ∃ v ∈ db.versions, v.id = c.versionId ∧
    v.documentId = c.documentId ∧ v.tenantId = c.tenantId
  persisted : ∀ c, persist c ∈ steps → ∀ r ∈ c.rows, r ∈ db.versionChunks
  activated : ∀ v ∈ db.versions, v.status = .active → ∃ d t, activate d v.id t ∈ steps

theorem prepared_initial (tenants : List Uuid) : Prepared [] (.initial tenants) where
  coherent := Db.coherent_initial tenants
  owned r hr := absurd hr (Table.notMem_empty r)
  documents d hd := absurd hd (Table.notMem_empty d)
  legacy r hr := absurd hr (Table.notMem_empty r)
  rows r hr := absurd hr (Table.notMem_empty r)
  owner _ hc := absurd hc List.not_mem_nil
  persisted _ hc := absurd hc List.not_mem_nil
  activated v hv := absurd hv (Table.notMem_empty v)

section Tables

variable {db db' : Db}

/-- No document has the file of an unversioned row. -/
theorem Prepared.file_ne (hp : Prepared steps db) (ho : Orderly steps) {d : Document}
    (hd : d ∈ db.documents) {r : LegacyChunk} (hr : r ∈ db.legacyChunks) : r.file ≠ d.file := by
  obtain ⟨a, ha, hfile⟩ := hp.documents d hd
  obtain ⟨b, hb, hfile'⟩ := hp.legacy r hr
  intro he
  exact ho.files a ha b hb d.file hfile (he ▸ hfile')

/-- The transaction of an activity that is no `persist_chunks`. -/
theorem Prepared.transaction {t : Transaction} (hp : Prepared steps db)
    (h : t.apply db = .ok db') (ht : t.isPersist = false)
    (hpersist : ∀ c, persist c ≠ a) (hregister : ∀ args, t = .register args →
      a.versionedFile = some (args.tenantId, args.filename))
    (hactivate : ∀ d v i, t = .activate d v i → a = activate d v i) :
    Prepared (steps ++ [a]) db' := by
  have hold : ∀ {b : Step}, b ∈ steps → b ∈ steps ++ [a] := List.mem_append_left _
  have hmem : ∀ c, persist c ∈ steps ++ [a] → persist c ∈ steps := by
    intro c hc
    rcases List.mem_append.mp hc with hc | hc
    · exact hc
    · exact absurd (List.mem_singleton.mp hc) (hpersist c)
  have hkeeps := keepsChunks ht h
  have hfiles : (∀ d' ∈ db'.documents, (∃ args, t = .register args ∧
        d'.file = (args.tenantId, args.filename)) ∨ ∃ d ∈ db.documents, d.file = d'.file) ∧
      ∀ r ∈ db'.legacyChunks, r ∈ db.legacyChunks := by
    by_cases hr : ∃ args, t = .register args
    · obtain ⟨args, rfl⟩ := hr
      obtain ⟨hlegacy, hdocs⟩ := register_files h
      exact ⟨fun d' hd' => (hdocs d' hd').imp (fun hf => ⟨args, rfl, hf⟩) id,
        fun r hr => hlegacy ▸ hr⟩
    · by_cases hd : ∃ d i reason, t = .tombstone d i reason
      · obtain ⟨d, i, reason, rfl⟩ := hd
        obtain ⟨⟨d, -, -, -, hlegacy⟩, hdocs⟩ := tombstone_files h
        exact ⟨fun d' hd' => .inr (hdocs d' hd'), fun r hr => ((hlegacy r).mp hr).1⟩
      · have hsame := sameFiles (fun args he => hr ⟨args, he⟩)
          (fun d i reason he => hd ⟨d, i, reason, he⟩) h
        exact ⟨fun d' hd' => .inr (hsame.document hd'), fun r hr => hsame.legacyChunks ▸ hr⟩
  refine ⟨hp.coherent.apply h, hp.owned.apply h, fun d' hd' => ?_, fun r hr => ?_, fun r hr => ?_,
    fun c hc => ?_, fun c hc r hr => ?_, fun v' hv' hst => ?_⟩
  · rcases hfiles.1 d' hd' with ⟨args, he, hfile⟩ | ⟨d, hd, hfile⟩
    · exact ⟨a, List.mem_append_right _ (List.mem_singleton.mpr rfl), hfile ▸ hregister args he⟩
    · obtain ⟨b, hb, hbfile⟩ := hp.documents d hd
      exact ⟨b, hold hb, hfile ▸ hbfile⟩
  · obtain ⟨b, hb, hfile⟩ := hp.legacy r (hfiles.2 r hr)
    exact ⟨b, hold hb, hfile⟩
  · obtain ⟨c, hc, hrow⟩ := hp.rows r (hkeeps.rows ▸ hr)
    exact ⟨c, hold hc, hrow⟩
  · obtain ⟨v, hv, hid, hdoc, hten⟩ := hp.owner c (hmem c hc)
    obtain ⟨v', hv', hsame, -⟩ := version_moves hp.coherent h hv
    exact ⟨v', hv', hsame.id.trans hid, hsame.documentId.trans hdoc, hsame.tenantId.trans hten⟩
  · exact hkeeps.rows ▸ hp.persisted c (hmem c hc) r hr
  · rcases active_cases hp.coherent h hv' hst with ⟨v, hv, hid, hactive⟩ | ⟨d, i, he⟩
    · obtain ⟨d, i, hstep⟩ := hp.activated v hv hactive
      exact ⟨d, i, hold (hid ▸ hstep)⟩
    · exact ⟨d, i, List.mem_append_right _ (List.mem_singleton.mpr (hactivate d v'.id i he).symm)⟩

theorem Prepared.persist {c : PersistCall} (hp : Prepared steps db)
    (ho : Orderly (steps ++ [persist c]))
    (h : persistVersionChunks c.tenantId c.documentId c.versionId c.filename c.chunks db =
      .ok db') : Prepared (steps ++ [persist c]) db' := by
  have hold : ∀ {b : Step}, b ∈ steps → b ∈ steps ++ [Stores.persist c] := List.mem_append_left _
  have hself : Stores.persist c ∈ steps ++ [Stores.persist c] :=
    List.mem_append_right _ (List.mem_singleton.mpr rfl)
  have happly : c.transaction.apply db = .ok db' := h
  have hfiles := sameFiles (t := c.transaction) nofun nofun happly
  have hrows := mem_persistVersionChunks hp.owned h
  have hmem : ∀ c', Stores.persist c' ∈ steps ++ [Stores.persist c] →
      c' = c ∨ Stores.persist c' ∈ steps ∧ c'.versionId ≠ c.versionId := by
    intro c' hc'
    by_cases hv : c'.versionId = c.versionId
    · exact .inl (ho.chunks c' c (.inl hc') (.inl hself) hv)
    · rcases List.mem_append.mp hc' with hc' | hc'
      · exact .inr ⟨hc', hv⟩
      · injection List.mem_singleton.mp hc' with hcall
        injection hcall with ht hd hv'
        exact absurd hv' hv
  have howner : ∀ c', Stores.persist c' ∈ steps ++ [Stores.persist c] → ∃ v ∈ db.versions,
      v.id = c'.versionId ∧ v.documentId = c'.documentId ∧ v.tenantId = c'.tenantId := by
    intro c' hc'
    rcases hmem c' hc' with rfl | ⟨hc', -⟩
    · obtain ⟨⟨v, hv, hids, -⟩, -⟩ := persistVersionChunks_ok h
      exact ⟨v, hv, hids⟩
    · exact hp.owner c' hc'
  refine ⟨hp.coherent.apply happly, hp.owned.apply happly, fun d' hd' => ?_, fun r hr => ?_,
    fun r hr => ?_, fun c' hc' => ?_, fun c' hc' r hr => ?_, fun v' hv' hst => ?_⟩
  · obtain ⟨d, hd, hfile⟩ := hfiles.document hd'
    obtain ⟨b, hb, hbfile⟩ := hp.documents d hd
    exact ⟨b, hold hb, hfile ▸ hbfile⟩
  · obtain ⟨b, hb, hfile⟩ := hp.legacy r (hfiles.legacyChunks ▸ hr)
    exact ⟨b, hold hb, hfile⟩
  · rcases (hrows r).mp hr with hr | ⟨hr, -⟩
    · exact ⟨c, hself, hr⟩
    · obtain ⟨c', hc', hr⟩ := hp.rows r hr
      exact ⟨c', hold hc', hr⟩
  · obtain ⟨v, hv, hid, hdoc, hten⟩ := howner c' hc'
    obtain ⟨v', hv', hsame, -⟩ := version_moves hp.coherent happly hv
    exact ⟨v', hv', hsame.id.trans hid, hsame.documentId.trans hdoc, hsame.tenantId.trans hten⟩
  · rcases hmem c' hc' with rfl | ⟨hc', hne⟩
    · exact (hrows r).mpr (.inl hr)
    · refine (hrows r).mpr (.inr ⟨hp.persisted c' hc' r hr, ?_⟩)
      have hv := (PersistCall.mem_rows hr).2.2
      rw [← Bool.not_eq_true, VersionChunk.isOf_iff]
      exact fun hof => hne (hv.symm.trans hof.2.2)
  · rcases active_cases hp.coherent happly hv' hst with ⟨v, hv, hid, hactive⟩ | ⟨d, i, he⟩
    · obtain ⟨d, i, hstep⟩ := hp.activated v hv hactive
      exact ⟨d, i, hold (hid ▸ hstep)⟩
    · cases he

/-- A step that writes at most unversioned rows. -/
theorem Prepared.unversioned {legacyChunks : Table LegacyChunk.key} (hp : Prepared steps db)
    (hpersist : ∀ c, Stores.persist c ≠ a)
    (hlegacy : ∀ r ∈ legacyChunks, r ∈ db.legacyChunks ∨ a.unversionedFile = some r.file) :
    Prepared (steps ++ [a]) { db with legacyChunks } := by
  have hold : ∀ {b : Step}, b ∈ steps → b ∈ steps ++ [a] := List.mem_append_left _
  have hmem : ∀ c, Stores.persist c ∈ steps ++ [a] → Stores.persist c ∈ steps := by
    intro c hc
    rcases List.mem_append.mp hc with hc | hc
    · exact hc
    · exact absurd (List.mem_singleton.mp hc) (hpersist c)
  refine ⟨hp.coherent.neutral (.of_eq rfl rfl), hp.owned, fun d hd => ?_, fun r hr => ?_,
    fun r hr => ?_, fun c hc => hp.owner c (hmem c hc), fun c hc => hp.persisted c (hmem c hc),
    fun v hv hst => ?_⟩
  · obtain ⟨b, hb, hfile⟩ := hp.documents d hd
    exact ⟨b, hold hb, hfile⟩
  · rcases hlegacy r hr with hr | hfile
    · obtain ⟨b, hb, hfile⟩ := hp.legacy r hr
      exact ⟨b, hold hb, hfile⟩
    · exact ⟨a, List.mem_append_right _ (List.mem_singleton.mpr rfl), hfile⟩
  · obtain ⟨c, hc, hr⟩ := hp.rows r hr
    exact ⟨c, hold hc, hr⟩
  · obtain ⟨d, i, hstep⟩ := hp.activated v hv hst
    exact ⟨d, i, hold hstep⟩

theorem mem_ingestUnversioned {tenantId : Uuid} {filename : String} {chunks : List TextChunk}
    (h : persistLegacyChunks tenantId filename chunks db = .ok db') : ∃ legacyChunks,
    db' = { db with legacyChunks } ∧ ∀ r, r ∈ legacyChunks ↔
      r ∈ chunks.mapIdx (legacyChunk tenantId filename) ∨
        r ∈ db.legacyChunks ∧ r.file ≠ (tenantId, filename) := by
  refine ⟨db'.legacyChunks, ?_, fun r => ?_⟩
  · have hdb := insertLegacyChunks_eq h
    rw [hdb]
  · have hfile : r.isOf tenantId filename = false ↔ r.file ≠ (tenantId, filename) := by
      simp [LegacyChunk.isOf, LegacyChunk.file]
    rw [mem_persistLegacyChunks h, hfile]

theorem file_of_mem_mapIdx {tenantId : Uuid} {filename : String} {chunks : List TextChunk}
    {r : LegacyChunk} (hr : r ∈ chunks.mapIdx (legacyChunk tenantId filename)) :
    r.file = (tenantId, filename) := by
  obtain ⟨i, hi, rfl⟩ := List.mem_mapIdx.mp hr
  rfl

/-- Step lemma for the tables. -/
theorem Prepared.step (hp : Prepared steps db) (ho : Orderly (steps ++ [a]))
    (h : a.commit db = .ok db') : Prepared (steps ++ [a]) db' := by
  cases a with
  | activity x =>
      cases x with
      | registerIngestion args =>
          refine hp.transaction (t := .register args) h rfl nofun (fun args' he => ?_) nofun
          obtain rfl := Transaction.register.inj he
          rfl
      | updateIngestionStage documentId attemptId tenantId stage =>
          exact hp.transaction (t := .stage documentId attemptId tenantId stage) h rfl nofun nofun
            nofun
      | persistChunks tenantId documentId versionId filename chunks =>
          exact hp.persist (c := ⟨tenantId, documentId, versionId, filename, chunks⟩) ho h
      | embedAndIndex tenantId documentId versionId filename chunks =>
          obtain rfl := Except.ok.inj h
          exact hp.unversioned nofun fun r hr => .inl hr
      | activateIngestionVersion documentId versionId tenantId =>
          refine hp.transaction (t := .activate documentId versionId tenantId) h rfl nofun nofun
            fun d v i he => ?_
          obtain ⟨rfl, rfl, rfl⟩ := Transaction.activate.inj he
          rfl
      | finishIngestionAttempt documentId attemptId versionId tenantId status errorCode =>
          exact hp.transaction
            (t := .finish documentId attemptId versionId tenantId status errorCode) h rfl nofun
            nofun nofun
      | tombstoneIngestionDocument documentId tenantId reason =>
          exact hp.transaction (t := .tombstone documentId tenantId reason) h rfl nofun nofun nofun
  | ingestUnversioned tenantId filename chunks =>
      obtain ⟨legacyChunks, rfl, hmem⟩ := mem_ingestUnversioned h
      refine hp.unversioned nofun fun r hr => ?_
      rcases (hmem r).mp hr with hr | ⟨hr, -⟩
      · exact .inr (congrArg some (file_of_mem_mapIdx hr).symm)
      · exact .inl hr
  | reconcile => exact hp.transaction (t := .reconcile) h rfl nofun nofun nofun
  | backfill =>
      obtain rfl := Except.ok.inj h
      exact hp.unversioned nofun fun r hr => .inl hr

end Tables

/-! ### Points that follow the tables -/

section Points

variable {κ : Type} {uuid5 : String → κ} {db db' : Db}

def noFaults : Reconcile.Faults := ⟨none, fun _ => none, none, none⟩

theorem loopCalls_noFaults (docs : List Document) :
    Reconcile.loopCalls (κ := κ) noFaults docs = docs.flatMap Reconcile.calls := rfl

/-- A document shows the points of the version that is active. -/
theorem Prepared.serves_point (hp : Prepared steps db) (ho : Orderly steps) {d : Document}
    (hd : d ∈ db.documents) {c : PersistCall} (hc : embed c ∈ steps) {r : VersionChunk}
    (hr : r ∈ c.rows) {flag : Bool} (hown : d.owns (r.point uuid5 flag) = true) :
    d.serves (r.point uuid5 flag) = db.serves c.versionId := by
  obtain ⟨-, hdoc, hver⟩ := PersistCall.mem_rows hr
  have hid : d.id = c.documentId := by
    have howned := (Document.owns_iff.mp hown).2
    rw [← Option.some.inj howned, hdoc]
  have hserves : d.serves (r.point uuid5 flag) = true ↔ d.activeVersionId = some c.versionId := by
    rw [Document.serves, Bool.and_eq_true, decide_eq_true_eq]
    change _ ∧ some r.versionId = _ ↔ _
    rw [hver]
    constructor
    · exact fun h => h.2.symm
    · exact fun h => ⟨by rw [h]; rfl, h.symm⟩
  rw [Bool.eq_iff_iff, hserves, Db.serves_iff]
  constructor
  · intro hpointer
    obtain ⟨v, hv, hvid, -, hst⟩ := hp.coherent.pointer d hd _ hpointer
    exact ⟨v, hv, hvid, hst⟩
  · rintro ⟨v, hv, hvid, hst⟩
    obtain ⟨w, hw, hwid, hwdoc, -⟩ := hp.owner c (ho.of_embedded hc)
    obtain rfl : v = w := Table.eq_of_key_eq hv hw (hvid.trans hwid.symm)
    rw [← hvid]
    exact (hp.coherent.active_iff hv hd (hid.trans hwdoc.symm)).mp hst

/-- What the updates of some documents make of the points of an embedded version, when the
points they do not own are right already. -/
theorem Prepared.edit_version (hp : Prepared steps db) (ho : Orderly steps) {docs : List Document}
    (hnd : (docs.map Document.id).Nodup) (hdocs : ∀ d ∈ docs, d ∈ db.documents) {c : PersistCall}
    (hc : embed c ∈ steps) {r : VersionChunk} (hr : r ∈ c.rows) {flag : Bool}
    (hrest : (∀ d ∈ docs, d.owns (r.point uuid5 flag) = false) → flag = db.serves c.versionId)
    {p : Point κ}
    (h : Qdrant.editPoint (Reconcile.loopCalls noFaults docs) (r.point uuid5 flag) = some p) :
    p = r.point uuid5 (db.serves c.versionId) := by
  by_cases hown : ∃ d ∈ docs, d.owns (r.point uuid5 flag) = true
  · obtain ⟨d, hd, hown⟩ := hown
    have hflag := (Reconcile.editPoint_repaired hnd hd rfl h).2 hown
    obtain ⟨flag', rfl⟩ := Qdrant.editPoint_flag h
    obtain rfl : flag' = some _ := hflag
    rw [hp.serves_point ho (hdocs d hd) hc hr hown]
    rfl
  · push Not at hown
    have hunowned : ∀ d ∈ docs, d.owns (r.point uuid5 flag) = false := by
      intro d hd
      simpa using hown d hd
    rw [Reconcile.editPoint_unowned (Reconcile.callsOf_loopCalls noFaults docs) hunowned h,
      hrest hunowned]

/-- Only a deleted document's points are removed among those of versions. -/
theorem edit_version_isSome {docs : List Document} {c : PersistCall} {r : VersionChunk}
    (hr : r ∈ c.rows) {flag : Bool}
    (hdocs : ∀ d ∈ docs, d.id = c.documentId → d.status ≠ .deleted) :
    ∃ p, Qdrant.editPoint (Reconcile.loopCalls noFaults docs) (r.point uuid5 flag) = some p := by
  cases h : Qdrant.editPoint (Reconcile.loopCalls noFaults docs) (r.point uuid5 flag) with
  | some p => exact ⟨p, rfl⟩
  | none =>
      obtain ⟨d, hd, hdrops⟩ :=
        Reconcile.editPoint_none (Reconcile.callsOf_loopCalls noFaults docs) h
      rcases Document.drops_iff.mp hdrops with ⟨hdel, hown⟩ | ⟨-, hlegacy⟩
      · have hid : d.id = c.documentId := by
          rw [← (PersistCall.mem_rows hr).2.1]
          exact (Option.some.inj (Document.owns_iff.mp hown).2).symm
        exact absurd hdel (hdocs d hd hid)
      · exact nomatch (Document.ownsLegacy_iff.mp hlegacy).2.2

/-- The updates of documents pass over the points of unversioned files. -/
theorem Prepared.edit_legacy (hp : Prepared steps db) (ho : Orderly steps) {docs : List Document}
    (hdocs : ∀ d ∈ docs, d ∈ db.documents) {r : LegacyChunk} (hr : r ∈ db.legacyChunks) :
    Qdrant.editPoint (Reconcile.loopCalls noFaults docs) (r.point uuid5) =
      some (r.point uuid5) := by
  have hunowned : ∀ d : Document, d.owns (r.point uuid5) = false := by
    intro d
    rw [← Bool.not_eq_true, Document.owns_iff]
    exact fun h => nomatch h.2
  refine Reconcile.editPoint_outside (Reconcile.callsOf_loopCalls noFaults docs)
    (fun d _ => hunowned d) fun d hd => ?_
  rw [← Bool.not_eq_true, Document.drops_iff]
  rintro (⟨-, hown⟩ | ⟨-, hlegacy⟩)
  · rw [hunowned d] at hown
    cases hown
  · obtain ⟨ht, hf, -⟩ := Document.ownsLegacy_iff.mp hlegacy
    exact hp.file_ne ho (hdocs d hd) hr (Prod.ext ht hf)

end Points

/-! ### The collection of an orderly history -/

structure Synced {κ : Type} (uuid5 : String → κ) (steps : List Step) (s : Indexed κ) : Prop where
  prepared : Prepared steps s.db
  points : ∀ p, Qdrant.Holds s.collection p → (∃ r ∈ s.db.legacyChunks, p = r.point uuid5) ∨
    ∃ c, embed c ∈ steps ∧ ∃ r ∈ c.rows, p = r.point uuid5 (s.db.serves c.versionId)
  unversioned : ∀ r ∈ s.db.legacyChunks, Qdrant.Holds s.collection (r.point uuid5)
  versioned : ∀ c, embed c ∈ steps →
    (∀ d ∈ s.db.documents, d.id = c.documentId → d.status ≠ .deleted) →
    ∀ r ∈ c.rows, Qdrant.Holds s.collection (r.point uuid5 (s.db.serves c.versionId))

section Collection

variable {κ : Type} [DecidableEq κ] {uuid5 : String → κ} {s s' : Indexed κ}

omit [DecidableEq κ] in
theorem synced_initial (tenants : List Uuid) :
    Synced uuid5 [] (⟨.initial tenants, none⟩ : Indexed κ) where
  prepared := prepared_initial tenants
  points p hp := absurd hp (Qdrant.not_holds_none p)
  unversioned r hr := absurd hr (Table.notMem_empty r)
  versioned _ hc := absurd hc List.not_mem_nil

/-- A document stays deleted. -/
theorem undeleted_before {db db' : Db} {t : Transaction} (hc : db.Coherent)
    (h : t.apply db = .ok db') {i : Uuid}
    (hdocs : ∀ d ∈ db'.documents, d.id = i → d.status ≠ .deleted) :
    ∀ d ∈ db.documents, d.id = i → d.status ≠ .deleted := by
  intro d hd hid hdel
  obtain ⟨d', hd', hid', hdel'⟩ := deleted_stays hc h hd hdel
  exact hdocs d' hd' (hid'.trans hid) hdel'

/-- A step that leaves the unversioned rows and updates the points of some documents, where the
versions of all other documents are as visible as before. -/
theorem Synced.edit (docs : List Document) (hs : Synced uuid5 steps s)
    (ho : Orderly (steps ++ [a])) (hprepared : Prepared (steps ++ [a]) s'.db)
    (hembed : ∀ c, embed c ≠ a)
    (hlegacy : ∀ r, r ∈ s'.db.legacyChunks ↔ r ∈ s.db.legacyChunks)
    (hundeleted : ∀ i, (∀ d ∈ s'.db.documents, d.id = i → d.status ≠ .deleted) →
      ∀ d ∈ s.db.documents, d.id = i → d.status ≠ .deleted)
    (hnd : (docs.map Document.id).Nodup) (hdocs : ∀ d ∈ docs, d ∈ s'.db.documents)
    (hserves : ∀ c, embed c ∈ steps → ∀ r ∈ c.rows,
      (∀ d ∈ docs, d.owns (r.point uuid5 (s.db.serves c.versionId)) = false) →
      s.db.serves c.versionId = s'.db.serves c.versionId)
    (hcollection : s'.collection =
      Qdrant.runCalls (Reconcile.loopCalls noFaults docs) s.collection) :
    Synced uuid5 (steps ++ [a]) s' := by
  have hmem : ∀ c, embed c ∈ steps ++ [a] → embed c ∈ steps := by
    intro c hc
    rcases List.mem_append.mp hc with hc | hc
    · exact hc
    · exact absurd (List.mem_singleton.mp hc) (hembed c)
  have hold : ∀ {b : Step}, b ∈ steps → b ∈ steps ++ [a] := List.mem_append_left _
  have hholds : ∀ p, Qdrant.Holds s'.collection p ↔ ∃ points ∈ s.collection, ∃ q ∈ points,
      Qdrant.editPoint (Reconcile.loopCalls noFaults docs) q = some p := by
    intro p
    rw [hcollection]
    exact Qdrant.mem_runCalls_edits (Reconcile.callsOf_loopCalls noFaults docs).isEdit
  refine ⟨hprepared, fun p hp => ?_, fun r hr => ?_, fun c hc hdoc r hr => ?_⟩
  · obtain ⟨points, hpoints, q, hq, hedit⟩ := (hholds p).mp hp
    rcases hs.points q ⟨points, hpoints, hq⟩ with ⟨r, hr, rfl⟩ | ⟨c, hc, r, hr, rfl⟩
    · have hr' := (hlegacy r).mpr hr
      rw [hprepared.edit_legacy ho hdocs hr'] at hedit
      exact .inl ⟨r, hr', (Option.some.inj hedit).symm⟩
    · exact .inr ⟨c, hold hc, r, hr,
        hprepared.edit_version ho hnd hdocs (hold hc) hr (hserves c hc r hr) hedit⟩
  · obtain ⟨points, hpoints, hp⟩ := hs.unversioned r ((hlegacy r).mp hr)
    exact (hholds _).mpr ⟨points, hpoints, _, hp, hprepared.edit_legacy ho hdocs hr⟩
  · obtain ⟨points, hpoints, hp⟩ := hs.versioned c (hmem c hc) (hundeleted _ hdoc) r hr
    obtain ⟨p, hedit⟩ := edit_version_isSome hr (fun d hd => hdoc d (hdocs d hd))
    rw [← hprepared.edit_version ho hnd hdocs hc hr (hserves c (hmem c hc) r hr) hedit]
    exact (hholds p).mpr ⟨points, hpoints, _, hp, hedit⟩

/-- A transaction without calls that moves no pointer. -/
theorem Synced.transaction {t : Transaction} (hs : Synced uuid5 steps s)
    (ho : Orderly (steps ++ [a])) (hprepared : Prepared (steps ++ [a]) s'.db)
    (hembed : ∀ c, embed c ≠ a) (h : t.apply s.db = .ok s'.db) (ht : t.pointed = none)
    (hlegacy : ∀ r, r ∈ s'.db.legacyChunks ↔ r ∈ s.db.legacyChunks)
    (hcollection : s'.collection = s.collection) : Synced uuid5 (steps ++ [a]) s' := by
  refine hs.edit [] ho hprepared hembed hlegacy
    (fun _ => undeleted_before hs.prepared.coherent h) List.nodup_nil nofun
    (fun c _ r _ _ => (serves_elsewhere hs.prepared.coherent h fun v _ _ => ?_).symm) hcollection
  rw [ht]
  exact nofun

/-- A transaction that moves the pointer of one document, and the update of its points. -/
theorem Synced.repoint {t : Transaction} {d : Document} (hs : Synced uuid5 steps s)
    (ho : Orderly (steps ++ [a])) (hprepared : Prepared (steps ++ [a]) s'.db)
    (hembed : ∀ c, embed c ≠ a) (h : t.apply s.db = .ok s'.db) (ht : t.pointed = some d.id)
    (hd : d ∈ s'.db.documents)
    (hlegacy : ∀ r, r ∈ s'.db.legacyChunks ↔ r ∈ s.db.legacyChunks)
    (hcollection : s'.collection = Qdrant.runCalls (Reconcile.calls d) s.collection) :
    Synced uuid5 (steps ++ [a]) s' := by
  have hc := hs.prepared.coherent
  have ho' := ho.of_concat
  refine hs.edit [d] ho hprepared hembed hlegacy (fun _ => undeleted_before hc h)
    (List.nodup_singleton _) (fun e he => List.mem_singleton.mp he ▸ hd) (fun c hce r hr hown => ?_)
    (by rw [hcollection, loopCalls_noFaults, List.flatMap_singleton])
  -- an unowned point is of a version of another document
  refine (serves_elsewhere hc h fun v hv hid => ?_).symm
  rw [ht, ne_eq, Option.some.injEq]
  intro hdoc
  obtain ⟨w, hw, hwid, hwdoc, hwten⟩ := hs.prepared.owner c (ho'.of_embedded hce)
  obtain rfl : v = w := Table.eq_of_key_eq hv hw (hid.trans hwid.symm)
  obtain ⟨v', hv', hsame, -⟩ := version_moves hc h hv
  have hten : d.tenantId = v.tenantId :=
    (hprepared.coherent.tenant hv' hd (hdoc.trans hsame.documentId.symm)).trans hsame.tenantId
  obtain ⟨hrten, hrdoc, -⟩ := PersistCall.mem_rows hr
  have howns : d.owns (r.point uuid5 (s.db.serves c.versionId)) = true := by
    refine Document.owns_iff.mpr ⟨?_, ?_⟩
    · exact hrten.trans (hwten.symm.trans hten.symm)
    · exact congrArg some (hrdoc.trans (hwdoc.symm.trans hdoc.symm))
  rw [hown d (List.mem_singleton.mpr rfl)] at howns
  cases howns

theorem filename_of_mem_rows {c : PersistCall} {r : VersionChunk} (hr : r ∈ c.rows) :
    r.filename = c.filename := by
  obtain ⟨i, hi, rfl⟩ := List.mem_mapIdx.mp hr
  rfl

theorem Synced.embed {c : PersistCall} (hu : Function.Injective uuid5) (hs : Synced uuid5 steps s)
    (ho : Orderly (steps ++ [embed c])) (hprepared : Prepared (steps ++ [Stores.embed c]) s'.db)
    (hdb : s'.db = s.db) (hcollection : s'.collection = Qdrant.runCalls (Qdrant.indexChunks
      (Qdrant.versionChunks uuid5 c.tenantId c.documentId c.versionId c.filename c.chunks))
        s.collection) :
    Synced uuid5 (steps ++ [Stores.embed c]) s' := by
  have hold : ∀ {b : Step}, b ∈ steps → b ∈ steps ++ [Stores.embed c] := List.mem_append_left _
  have hself : Stores.embed c ∈ steps ++ [Stores.embed c] :=
    List.mem_append_right _ (List.mem_singleton.mpr rfl)
  -- the version has not been activated yet
  have hunserved : s'.db.serves c.versionId = false := by
    rw [hdb, ← Bool.not_eq_true, Db.serves_iff]
    rintro ⟨v, hv, hid, hst⟩
    obtain ⟨d, i, hactivate⟩ := hs.prepared.activated v hv hst
    exact ho.hidden steps c List.prefix_rfl d i (hid ▸ hactivate)
  have hholds : ∀ p, Qdrant.Holds s'.collection p ↔
      p ∈ c.rows.map (VersionChunk.point uuid5 false) ∨ Qdrant.Holds s.collection p ∧
        p.id ∉ (c.rows.map (VersionChunk.point uuid5 false)).map Point.id := by
    intro p
    rw [hcollection, Qdrant.holds_indexChunks (c.nodup_ids hu), c.points]
  have hkeep : ∀ p, Qdrant.Holds s.collection p → (∀ r ∈ c.rows,
      p.id ≠ (r.point uuid5 false).id) → Qdrant.Holds s'.collection p := by
    intro p hp hne
    refine (hholds p).mpr (.inr ⟨hp, fun hid => ?_⟩)
    rw [List.map_map] at hid
    obtain ⟨r, hr, hrid⟩ := List.mem_map.mp hid
    exact hne r hr hrid.symm
  refine ⟨hprepared, fun p hp => ?_, fun r hr => ?_, fun c' hc' hdoc r hr => ?_⟩
  · rcases (hholds p).mp hp with hp | ⟨hp, -⟩
    · obtain ⟨r, hr, rfl⟩ := List.mem_map.mp hp
      exact .inr ⟨c, hself, r, hr, by rw [hunserved]⟩
    · rw [hdb]
      exact (hs.points p hp).imp id fun ⟨c', hc', hr⟩ => ⟨c', hold hc', hr⟩
  · exact hkeep _ (hs.unversioned r (hdb ▸ hr)) fun r' _ => point_id_ne hu
  · by_cases hv : c'.versionId = c.versionId
    · obtain rfl : c' = c := ho.chunks c' c (.inr hc') (.inr hself) hv
      rw [hunserved]
      exact (hholds _).mpr (.inl (List.mem_map_of_mem hr))
    · have hc : Stores.embed c' ∈ steps := by
        rcases List.mem_append.mp hc' with hc | hc
        · exact hc
        · injection List.mem_singleton.mp hc with hcall
          injection hcall with ht hd hv'
          exact absurd hv' hv
      rw [hdb] at hdoc ⊢
      refine hkeep _ (hs.versioned c' hc hdoc r hr) fun r' hr' hid => ?_
      have hkey := VersionChunk.key_of_point_id hu hid
      rw [VersionChunk.key, VersionChunk.key, Prod.mk.injEq, Prod.mk.injEq] at hkey
      exact hv ((PersistCall.mem_rows hr).2.2.symm.trans
        (hkey.2.1.trans (PersistCall.mem_rows hr').2.2))

omit [DecidableEq κ] in
/-- A step that only writes unversioned rows, of files that no versioned ingestion has, and makes
the points of those rows. -/
theorem Synced.unversioned_rows {legacyChunks : Table LegacyChunk.key} (rows : List LegacyChunk)
    (hu : Function.Injective uuid5) (hs : Synced uuid5 steps s)
    (hprepared : Prepared (steps ++ [a]) s'.db)
    (hembed : ∀ c, Stores.embed c ≠ a) (hdb : s'.db = { s.db with legacyChunks })
    (hrows : ∀ r, r ∈ legacyChunks ↔ r ∈ rows ∨
      r ∈ s.db.legacyChunks ∧ a.unversionedFile ≠ some r.file ∧ r.key ∉ rows.map LegacyChunk.key)
    (hversioned : ∀ c, Stores.embed c ∈ steps → a.unversionedFile ≠ some (c.tenantId, c.filename))
    (hholds : ∀ p, Qdrant.Holds s'.collection p ↔ p ∈ rows.map (LegacyChunk.point uuid5) ∨
      Qdrant.Holds s.collection p ∧ a.unversionedFile ≠ some (p.tenantId, p.filename) ∧
        p.id ∉ (rows.map (LegacyChunk.point uuid5)).map Point.id) :
    Synced uuid5 (steps ++ [a]) s' := by
  have hmem : ∀ c, Stores.embed c ∈ steps ++ [a] → Stores.embed c ∈ steps := by
    intro c hc
    rcases List.mem_append.mp hc with hc | hc
    · exact hc
    · exact absurd (List.mem_singleton.mp hc) (hembed c)
  have hlegacy : ∀ r, r ∈ s'.db.legacyChunks ↔ r ∈ legacyChunks := fun r => by rw [hdb]
  have hserves : s'.db.serves = s.db.serves := by
    rw [hdb]
    rfl
  refine ⟨hprepared, fun p hp => ?_, fun r hr => ?_, fun c hc hdoc r hr => ?_⟩
  · rcases (hholds p).mp hp with hp | ⟨hp, hfile, hid⟩
    · obtain ⟨r, hr, rfl⟩ := List.mem_map.mp hp
      exact .inl ⟨r, (hlegacy r).mpr ((hrows r).mpr (.inl hr)), rfl⟩
    · rcases hs.points p hp with ⟨r, hr, rfl⟩ | ⟨c, hc, r, hr, rfl⟩
      · refine .inl ⟨r, (hlegacy r).mpr ((hrows r).mpr (.inr ⟨hr, hfile, fun hkey => hid ?_⟩)), rfl⟩
        obtain ⟨r', hr', hkey⟩ := List.mem_map.mp hkey
        rw [List.map_map]
        refine List.mem_map.mpr ⟨r', hr', ?_⟩
        rw [LegacyChunk.key, LegacyChunk.key, Prod.mk.injEq, Prod.mk.injEq, Prod.mk.injEq] at hkey
        obtain ⟨ht, hf, hp, hi⟩ := hkey
        change makeChunkId uuid5 _ _ _ _ _ = makeChunkId uuid5 _ _ _ _ _
        rw [ht, hf, hp, hi]
      · exact .inr ⟨c, List.mem_append_left _ hc, r, hr, by rw [hserves]⟩
  · rcases (hrows r).mp ((hlegacy r).mp hr) with hr | ⟨hr, hfile, hkey⟩
    · exact (hholds _).mpr (.inl (List.mem_map_of_mem hr))
    · refine (hholds _).mpr (.inr ⟨hs.unversioned r hr, hfile, fun hid => hkey ?_⟩)
      rw [List.map_map] at hid
      obtain ⟨r', hr', hid⟩ := List.mem_map.mp hid
      exact List.mem_map.mpr ⟨r', hr', LegacyChunk.key_of_point_id hu hid⟩
  · rw [hserves]
    have hdoc' : ∀ d ∈ s.db.documents, d.id = c.documentId → d.status ≠ .deleted := by
      intro d hd
      exact hdoc d (by rw [hdb]; exact hd)
    refine (hholds _).mpr (.inr ⟨hs.versioned c (hmem c hc) hdoc' r hr, ?_, fun hid => ?_⟩)
    · change a.unversionedFile ≠ some (r.tenantId, r.filename)
      rw [(PersistCall.mem_rows hr).1, filename_of_mem_rows hr]
      exact hversioned c (hmem c hc)
    · rw [List.map_map] at hid
      obtain ⟨r', -, hid⟩ := List.mem_map.mp hid
      exact point_id_ne hu hid

theorem Synced.ingestUnversioned {tenantId : Uuid} {filename : String} {chunks : List TextChunk}
    (hu : Function.Injective uuid5) (hs : Synced uuid5 steps s)
    (ho : Orderly (steps ++ [.ingestUnversioned tenantId filename chunks]))
    (hprepared : Prepared (steps ++ [.ingestUnversioned tenantId filename chunks]) s'.db)
    (h : persistLegacyChunks tenantId filename chunks s.db = .ok s'.db)
    (hcollection : s'.collection =
      Qdrant.runCalls (unversionedCalls uuid5 tenantId filename chunks) s.collection) :
    Synced uuid5 (steps ++ [.ingestUnversioned tenantId filename chunks]) s' := by
  obtain ⟨legacyChunks, hdb, hmem⟩ := mem_ingestUnversioned h
  let rows := chunks.mapIdx (legacyChunk tenantId filename)
  have hfile : ∀ file : Uuid × String,
      (Step.ingestUnversioned tenantId filename chunks).unversionedFile ≠ some file ↔
        file ≠ (tenantId, filename) := by
    intro file
    rw [Step.unversionedFile, ne_eq, Option.some.injEq, eq_comm]
  refine hs.unversioned_rows rows hu hprepared nofun hdb (fun r => ?_) (fun c hc => ?_)
    fun p => ?_
  · rw [hmem, hfile]
    refine or_congr Iff.rfl (and_congr_right fun _ => ?_)
    constructor
    · refine fun hne => ⟨hne, fun hkey => ?_⟩
      obtain ⟨r', hr', hkey⟩ := List.mem_map.mp hkey
      rw [LegacyChunk.key, LegacyChunk.key, Prod.mk.injEq, Prod.mk.injEq] at hkey
      exact hne ((Prod.ext hkey.1.symm hkey.2.1.symm).trans (file_of_mem_mapIdx hr'))
    · exact fun hne => hne.1
  · exact ho.files _ (List.mem_append_left _ hc) _
      (List.mem_append_right _ (List.mem_singleton.mpr rfl)) _ rfl
  · have hnd := nodup_legacy_ids hu (nodupKeys_mapIdx_legacy tenantId filename chunks)
    rw [← points_legacyChunks] at hnd
    rw [hcollection, unversionedCalls, Qdrant.runCalls_append, Qdrant.holds_indexChunks hnd,
      Qdrant.holds_deleteByFilename, points_legacyChunks, hfile, and_assoc]

theorem Synced.backfill (hu : Function.Injective uuid5) (hs : Synced uuid5 steps s)
    (hprepared : Prepared (steps ++ [.backfill]) s'.db) (hdb : s'.db = s.db)
    (hcollection : s'.collection = Qdrant.runCalls (backfillCalls uuid5 s.db) s.collection) :
    Synced uuid5 (steps ++ [.backfill]) s' := by
  have hpoints : (s.db.legacyChunks.rows.map (LegacyChunk.chunk uuid5)).map Qdrant.point =
      s.db.legacyChunks.rows.map (LegacyChunk.point uuid5) := by
    rw [List.map_map]
    rfl
  have hself : s'.db = { s.db with legacyChunks := s.db.legacyChunks } := hdb
  refine hs.unversioned_rows s.db.legacyChunks.rows hu hprepared nofun hself (fun r => ?_)
    (fun c hc => nofun) fun p => ?_
  · constructor
    · exact fun hr => .inl hr
    · rintro (hr | ⟨hr, -⟩) <;> exact hr
  · have hnd := nodup_legacy_ids hu s.db.legacyChunks.nodupKeys
    rw [← hpoints] at hnd
    rw [hcollection, backfillCalls, Qdrant.holds_indexChunks hnd, hpoints]
    refine or_congr Iff.rfl (and_congr_right fun _ => ?_)
    exact ⟨fun hid => ⟨nofun, hid⟩, fun h => h.2⟩

omit [DecidableEq κ] in
/-- The calls for a document after its transaction are the update of its row. -/
theorem calls_of_target {db : Db} {tenantId documentId : Uuid} {r : Target}
    (h : db.target tenantId documentId = r) (hr : r ≠ ⟨none, false⟩) :
    ∃ d ∈ db.documents, d.id = documentId ∧ (Reconcile.calls d : List (Qdrant.Call κ)) =
      Qdrant.reconcileDocumentVersion tenantId documentId r.pointer
        (db.filename tenantId documentId) r.deleted r.pointer.isSome := by
  rw [Db.target] at h
  rw [Db.filename]
  cases hselect : db.documents.select (Document.isRow documentId tenantId) with
  | none =>
      rw [hselect] at h
      exact absurd h.symm hr
  | some d =>
      obtain ⟨hd, hid, ht⟩ := select_document.mp hselect
      rw [hselect] at h
      subst h
      exact ⟨d, hd, hid, by rw [Reconcile.calls, hid, ht]⟩

/-- Step lemma for both stores. -/
theorem Synced.step (hu : Function.Injective uuid5) (hs : Synced uuid5 steps s)
    (ho : Orderly (steps ++ [a])) (h : Stores.step uuid5 s a = some s') :
    Synced uuid5 (steps ++ [a]) s' := by
  obtain ⟨hcommit, hcollection⟩ := step_some.mp h
  have hprepared := hs.prepared.step ho hcommit
  have hkept : ∀ {t : Transaction}, t.apply s.db = .ok s'.db → (∀ x, t ≠ .register x) →
      (∀ d i reason, t ≠ .tombstone d i reason) →
      ∀ r, r ∈ s'.db.legacyChunks ↔ r ∈ s.db.legacyChunks := by
    intro t ht hregister htombstone r
    rw [(sameFiles hregister htombstone ht).legacyChunks]
  cases a with
  | activity x =>
      cases x with
      | registerIngestion args =>
          refine hs.transaction (t := .register args) ho hprepared nofun hcommit rfl (fun r => ?_)
            hcollection
          rw [(register_files hcommit).1]
      | updateIngestionStage documentId attemptId tenantId stage =>
          exact hs.transaction (t := .stage documentId attemptId tenantId stage) ho hprepared nofun
            hcommit rfl (hkept (t := .stage documentId attemptId tenantId stage) hcommit nofun nofun)
            hcollection
      | persistChunks tenantId documentId versionId filename chunks =>
          exact hs.transaction (t := .persist tenantId documentId versionId filename chunks) ho
            hprepared nofun hcommit rfl (hkept
              (t := .persist tenantId documentId versionId filename chunks) hcommit nofun nofun)
            hcollection
      | embedAndIndex tenantId documentId versionId filename chunks =>
          exact hs.embed (c := ⟨tenantId, documentId, versionId, filename, chunks⟩) hu ho hprepared
            (Except.ok.inj hcommit).symm hcollection
      | activateIngestionVersion documentId versionId tenantId =>
          obtain ⟨d, hd, hid, hcalls⟩ := calls_of_target (κ := κ)
            (Db.target_activate hcommit) nofun
          refine hs.repoint (t := .activate documentId versionId tenantId) ho hprepared nofun
            hcommit (congrArg some hid.symm) hd (hkept
              (t := .activate documentId versionId tenantId) hcommit nofun nofun) ?_
          rw [hcollection, hcalls]
          rfl
      | finishIngestionAttempt documentId attemptId versionId tenantId status errorCode =>
          exact hs.transaction
            (t := .finish documentId attemptId versionId tenantId status errorCode) ho hprepared
            nofun hcommit rfl (hkept
              (t := .finish documentId attemptId versionId tenantId status errorCode) hcommit nofun
                nofun) hcollection
      | tombstoneIngestionDocument documentId tenantId reason =>
          obtain ⟨d, hd, hid, hcalls⟩ := calls_of_target (κ := κ)
            (Db.target_tombstone hs.prepared.coherent hcommit) nofun
          refine hs.repoint (t := .tombstone documentId tenantId reason) ho hprepared nofun
            hcommit (congrArg some hid.symm) hd (fun r => ?_) ?_
          · obtain ⟨⟨e, he, -, -, hlegacy⟩, -⟩ := tombstone_files hcommit
            rw [hlegacy]
            exact and_iff_left_of_imp fun hr => hs.prepared.file_ne ho.of_concat he hr
          · rw [hcollection, hcalls]
            rfl
  | ingestUnversioned tenantId filename chunks =>
      exact hs.ingestUnversioned hu ho hprepared hcommit hcollection
  | reconcile =>
      have hdb : s'.db = reconcileAttempts s.db := (Except.ok.inj hcommit).symm
      refine hs.edit (Reconcile.snapshot s'.db) ho hprepared nofun (fun r => ?_)
        (fun i hi => ?_) (Reconcile.nodup_snapshot s'.db)
        (fun d hd => Reconcile.mem_snapshot.mp hd) (fun c _ r _ _ => ?_) hcollection
      · rw [hdb]
        rfl
      · rw [hdb] at hi
        exact hi
      · rw [hdb]
        rfl
  | backfill =>
      have hdb : s'.db = s.db := (Except.ok.inj hcommit).symm
      exact hs.backfill hu hprepared hdb (hdb ▸ hcollection)

/-- Run lemma for both stores. -/
theorem synced_run {tenants : List Uuid} (hu : Function.Injective uuid5) (ho : Orderly steps)
    (h : run uuid5 tenants steps = some s) : Synced uuid5 steps s := by
  induction steps using List.reverseRecOn generalizing s with
  | nil =>
      obtain rfl := Option.some.inj h
      exact synced_initial tenants
  | append_singleton steps a ih =>
      obtain ⟨m, hm, hstep⟩ := Machine.run_concat_some.mp h
      exact (ih ho.of_concat hm).step hu ho hstep

end Collection

/-! ### What the two stores return -/

section Searchable

variable {uuid5 : String → String} {s : Indexed String}

/-- The document dense search makes of a point. -/
def document (p : Point String) : Retrieval.Document where
  id := p.id
  text := p.text
  filename := p.filename
  pageNumber := p.pageNumber
  chunkIndex := p.chunkIndex
  tenantId := Uuid.text p.tenantId
  versionId := p.versionId.map Uuid.text

/-- Dense search may return the points that are not hidden by their version. -/
def Searchable (s : Indexed String) (x : Retrieval.Document) : Prop :=
  ∃ p, Qdrant.Holds s.collection p ∧ Qdrant.visible p = true ∧ document p = x

theorem mem_rebuildDocuments (db : Db) (x : Retrieval.Document) :
    x ∈ rebuildDocuments uuid5 db ↔ (∃ r ∈ db.legacyChunks, r.document uuid5 = x) ∨
      ∃ r ∈ db.versionChunks, db.isServed r = true ∧ r.document uuid5 = x := by
  rw [rebuildDocuments, List.mem_append, List.mem_map, List.mem_map]
  refine or_congr Iff.rfl ?_
  constructor
  · rintro ⟨r, hr, hx⟩
    exact ⟨r, (List.mem_filter.mp hr).1, (List.mem_filter.mp hr).2, hx⟩
  · rintro ⟨r, hr, hserved, hx⟩
    exact ⟨r, List.mem_filter.mpr ⟨hr, hserved⟩, hx⟩

theorem Synced.agree (hs : Synced uuid5 steps s) (ho : Orderly steps) (x : Retrieval.Document) :
    x ∈ rebuildDocuments uuid5 s.db ↔ Searchable s x := by
  have hp := hs.prepared
  rw [mem_rebuildDocuments]
  constructor
  · rintro (⟨r, hr, rfl⟩ | ⟨r, hr, hserved, rfl⟩)
    · exact ⟨r.point uuid5, hs.unversioned r hr, rfl, rfl⟩
    · rw [Db.isServed_eq hp.owned hr] at hserved
      obtain ⟨v, hv, hid, hst⟩ := Db.serves_iff.mp hserved
      obtain ⟨d, i, hactivate⟩ := hp.activated v hv hst
      obtain ⟨c, hc, hembed⟩ := ho.of_activated hactivate
      obtain ⟨c', hpersist, hrow⟩ := hp.rows r hr
      obtain rfl : c' = c := ho.chunks c' c (.inl hpersist) (.inr hembed)
        ((PersistCall.mem_rows hrow).2.2.symm.trans (hid.symm.trans hc.symm))
      have hserves : s.db.serves c'.versionId = true := by
        rw [hc, hid]
        exact hserved
      -- a deleted document has no active version
      have hundeleted : ∀ d ∈ s.db.documents, d.id = c'.documentId → d.status ≠ .deleted := by
        intro d hd hdid hdel
        obtain ⟨w, hw, hwid, hwdoc, -⟩ := hp.owner c' hpersist
        obtain rfl : v = w := Table.eq_of_key_eq hv hw (hc.symm.trans hwid.symm)
        have hpointer := (hp.coherent.active_iff hv hd (hdid.trans hwdoc.symm)).mp hst
        rw [hp.coherent.deleted d hd hdel] at hpointer
        cases hpointer
      have hholds := hs.versioned c' hembed hundeleted r hrow
      rw [hserves] at hholds
      exact ⟨_, hholds, rfl, rfl⟩
  · rintro ⟨p, hholds, hvisible, rfl⟩
    rcases hs.points p hholds with ⟨r, hr, rfl⟩ | ⟨c, hc, r, hr, rfl⟩
    · exact .inl ⟨r, hr, rfl⟩
    · have hrow := hp.persisted c (ho.of_embedded hc) r hr
      refine .inr ⟨r, hrow, ?_, rfl⟩
      rw [Db.isServed_eq hp.owned hrow, (PersistCall.mem_rows hr).2.2]
      simpa [Qdrant.visible, VersionChunk.point] using hvisible

/-- A version's point that dense search may return is of its document's active version. -/
theorem Synced.active (hs : Synced uuid5 steps s) (ho : Orderly steps) {p : Point String}
    (hholds : Qdrant.Holds s.collection p) (hvisible : Qdrant.visible p = true)
    (hver : p.versionId ≠ none) : ∃ d ∈ s.db.documents, d.owns p = true ∧ d.status ≠ .deleted ∧
      p.versionId = d.activeVersionId := by
  have hp := hs.prepared
  rcases hs.points p hholds with ⟨r, hr, rfl⟩ | ⟨c, hc, r, hr, rfl⟩
  · exact absurd rfl hver
  · have hserves : s.db.serves c.versionId = true := by
      simpa [Qdrant.visible, VersionChunk.point] using hvisible
    obtain ⟨v, hv, hid, hst⟩ := Db.serves_iff.mp hserves
    obtain ⟨w, hw, hwid, hwdoc, hwten⟩ := hp.owner c (ho.of_embedded hc)
    obtain rfl : v = w := Table.eq_of_key_eq hv hw (hid.trans hwid.symm)
    obtain ⟨d, hd, hdid, hpointer⟩ := hp.coherent.active v hv hst
    have hten : d.tenantId = v.tenantId := hp.coherent.tenant hv hd hdid
    obtain ⟨hrten, hrdoc, hrver⟩ := PersistCall.mem_rows hr
    refine ⟨d, hd, Document.owns_iff.mpr ⟨?_, ?_⟩, fun hdel => ?_, ?_⟩
    · exact hrten.trans (hwten.symm.trans hten.symm)
    · exact congrArg some (hrdoc.trans (hwdoc.symm.trans hdid.symm))
    · rw [hp.coherent.deleted d hd hdel] at hpointer
      cases hpointer
    · rw [hpointer]
      exact congrArg some (hrver.trans hid.symm)

end Searchable
end Stores
end Ally
