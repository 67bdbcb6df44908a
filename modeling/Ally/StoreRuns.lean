import Ally.StoreAgreement

/-!
# Both stores under interleaved workflows

Any number of versioned `IngestDocumentWorkflow` runs go on activity by activity, between
ingestions without a version, deletions, reconciliations and backfills. A run may repeat the
activity it performed last and may be given up anywhere.
-/

namespace Ally
namespace Stores

structure Ingestion where
  args : RegisterArgs
  chunks : List TextChunk

namespace Ingestion

variable (u : Ingestion)

def call : PersistCall :=
  ⟨u.args.tenantId, u.args.documentId, u.args.versionId, u.args.filename, u.chunks⟩

def file : Uuid × String := (u.args.tenantId, u.args.filename)

/-- `record_stage(stage)`. -/
def recordStage (stage : String) : Activity :=
  .updateIngestionStage u.args.documentId u.args.attemptId u.args.tenantId stage

/-- `finish(status, error_code)`. -/
def finish (status : AttemptStatus) (errorCode : Option String) : Activity :=
  .finishIngestionAttempt u.args.documentId u.args.attemptId u.args.versionId u.args.tenantId
    status errorCode

/-- The activities of a run that write, in order. -/
def activities : List Activity :=
  [.registerIngestion u.args,
    u.recordStage "detecting",
    u.recordStage "extracting",
    u.recordStage "chunking",
    u.recordStage "persisting",
    .persistChunks u.args.tenantId u.args.documentId u.args.versionId u.args.filename u.chunks,
    u.recordStage "indexing",
    .embedAndIndex u.args.tenantId u.args.documentId u.args.versionId u.args.filename u.chunks,
    .activateIngestionVersion u.args.documentId u.args.versionId u.args.tenantId,
    u.finish .indexed none]

end Ingestion

inductive Turn (ι : Type)
  | proceed (i : ι)
  | again (i : ι)
  | giveUp (i : ι) (status : AttemptStatus) (errorCode : Option String)
  | tombstone (documentId tenantId : Uuid) (reason : String)
  | ingestUnversioned (tenantId : Uuid) (filename : String) (chunks : List TextChunk)
  | reconcile
  | backfill
  deriving DecidableEq

section Schedules

variable {ι : Type} [DecidableEq ι] (u : ι → Ingestion)

/-- What a turn performs after the turns `before`; a run whose activities are all performed has
nothing to do. -/
def Turn.step (before : List (Turn ι)) : Turn ι → Option Step
  | .proceed i => ((u i).activities[before.count (.proceed i)]?).map .activity
  | .again i =>
      match before.count (.proceed i) with
      | 0 => none
      | k + 1 => ((u i).activities[k]?).map .activity
  | .giveUp i status errorCode => some (.activity ((u i).finish status errorCode))
  | .tombstone documentId tenantId reason =>
      some (.activity (.tombstoneIngestionDocument documentId tenantId reason))
  | .ingestUnversioned tenantId filename chunks =>
      some (.ingestUnversioned tenantId filename chunks)
  | .reconcile => some .reconcile
  | .backfill => some .backfill

def stepsFrom (before : List (Turn ι)) : List (Turn ι) → List Step
  | [] => []
  | t :: ts => (t.step u before).toList ++ stepsFrom (before ++ [t]) ts

def stepsOf (ts : List (Turn ι)) : List Step := stepsFrom u [] ts

theorem stepsFrom_concat (before ts : List (Turn ι)) (t : Turn ι) :
    stepsFrom u before (ts ++ [t]) =
      stepsFrom u before ts ++ (t.step u (before ++ ts)).toList := by
  induction ts generalizing before with
  | nil => simp [stepsFrom]
  | cons t' ts ih => simp [stepsFrom, ih]

theorem stepsOf_concat (ts : List (Turn ι)) (t : Turn ι) :
    stepsOf u (ts ++ [t]) = stepsOf u ts ++ (t.step u ts).toList :=
  stepsFrom_concat u [] ts t

variable {u} {ts : List (Turn ι)} {t : Turn ι} {i : ι}

theorem mem_stepsOf_concat {a : Step} :
    a ∈ stepsOf u (ts ++ [t]) ↔ a ∈ stepsOf u ts ∨ t.step u ts = some a := by
  rw [stepsOf_concat, List.mem_append, Option.mem_toList]

/-- A turn performs an activity of a run at a place the run has reached. -/
inductive Turn.Does (u : ι → Ingestion) (before : List (Turn ι)) (t : Turn ι) : Step → Prop
  | place (i : ι) (k : ℕ) (x : Activity) (hx : (u i).activities[k]? = some x)
      (hk : k ≤ before.count (.proceed i)) (hnext : before.count (.proceed i) ≤ k + 1)
      (hproceed : before.count (.proceed i) = k → t = .proceed i) :
      Turn.Does u before t (.activity x)
  | finish (i : ι) (status : AttemptStatus) (errorCode : Option String) :
      Turn.Does u before t (.activity ((u i).finish status errorCode))
  | tombstone (documentId tenantId : Uuid) (reason : String) :
      Turn.Does u before t (.activity (.tombstoneIngestionDocument documentId tenantId reason))
  | ingestUnversioned (tenantId : Uuid) (filename : String) (chunks : List TextChunk)
      (ht : t = .ingestUnversioned tenantId filename chunks) :
      Turn.Does u before t (.ingestUnversioned tenantId filename chunks)
  | reconcile : Turn.Does u before t .reconcile
  | backfill : Turn.Does u before t .backfill

theorem Turn.does {a : Step} (h : t.step u ts = some a) : t.Does u ts a := by
  cases t with
  | proceed i =>
      obtain ⟨x, hx, rfl⟩ := Option.map_eq_some_iff.mp h
      exact .place i _ x hx le_rfl (Nat.le_succ _) fun _ => rfl
  | again i =>
      rw [Turn.step] at h
      cases hk : ts.count (.proceed i) with
      | zero =>
          rw [hk] at h
          cases h
      | succ k =>
          rw [hk] at h
          obtain ⟨x, hx, rfl⟩ := Option.map_eq_some_iff.mp h
          refine .place i k x hx ?_ ?_ fun he => ?_ <;> omega
  | giveUp i status errorCode =>
      obtain rfl := Option.some.inj h
      exact .finish i status errorCode
  | tombstone documentId tenantId reason =>
      obtain rfl := Option.some.inj h
      exact .tombstone documentId tenantId reason
  | ingestUnversioned tenantId filename chunks =>
      obtain rfl := Option.some.inj h
      exact .ingestUnversioned tenantId filename chunks rfl
  | reconcile =>
      obtain rfl := Option.some.inj h
      exact .reconcile
  | backfill =>
      obtain rfl := Option.some.inj h
      exact .backfill

theorem exists_turn {a : Step} (h : a ∈ stepsOf u ts) :
    ∃ before t, before ++ [t] <+: ts ∧ t.Does u before a := by
  induction ts using List.reverseRecOn with
  | nil => cases h
  | append_singleton ts t ih =>
      rcases mem_stepsOf_concat.mp h with h | h
      · obtain ⟨before, t', hts, hdoes⟩ := ih h
        exact ⟨before, t', hts.trans (List.prefix_append _ _), hdoes⟩
      · exact ⟨ts, t, List.prefix_rfl, Turn.does h⟩

/-- A run that has gone past a place has performed its activity. -/
theorem performed_place {k : ℕ} {x : Activity} (hx : (u i).activities[k]? = some x)
    (hk : k < ts.count (.proceed i)) : .activity x ∈ stepsOf u ts := by
  induction ts using List.reverseRecOn with
  | nil => cases hk
  | append_singleton ts t ih =>
      rw [mem_stepsOf_concat]
      by_cases hlt : k < ts.count (.proceed i)
      · exact .inl (ih hlt)
      · right
        by_cases ht : t = .proceed i
        · subst ht
          have hcount : ts.count (.proceed i) = k := by
            rw [List.count_append, List.count_singleton_self] at hk
            omega
          rw [Turn.step, hcount, hx]
          rfl
        · rw [List.count_append, List.count_singleton, if_neg (by simpa using ht)] at hk
          omega

/-! ### Places of a run -/

theorem place_cases {u : Ingestion} {k : ℕ} {x : Activity} (h : u.activities[k]? = some x) :
    x = .registerIngestion u.args ∨ (∃ stage, x = u.recordStage stage) ∨
      .activity x = persist u.call ∨ (k = 7 ∧ .activity x = embed u.call) ∨
      (k = 8 ∧ .activity x = activate u.args.documentId u.args.versionId u.args.tenantId) ∨
      x = u.finish .indexed none := by
  obtain ⟨hk, hx⟩ := List.getElem?_eq_some_iff.mp h
  have hlength : u.activities.length = 10 := rfl
  rw [hlength] at hk
  interval_cases k
  · exact .inl hx.symm
  · exact .inr (.inl ⟨_, hx.symm⟩)
  · exact .inr (.inl ⟨_, hx.symm⟩)
  · exact .inr (.inl ⟨_, hx.symm⟩)
  · exact .inr (.inl ⟨_, hx.symm⟩)
  · exact .inr (.inr (.inl (congrArg Step.activity hx.symm)))
  · exact .inr (.inl ⟨_, hx.symm⟩)
  · exact .inr (.inr (.inr (.inl ⟨rfl, congrArg Step.activity hx.symm⟩)))
  · exact .inr (.inr (.inr (.inr (.inl ⟨rfl, congrArg Step.activity hx.symm⟩))))
  · exact .inr (.inr (.inr (.inr (.inr hx.symm))))

theorem persist_inj {c c' : PersistCall} (h : persist c = persist c') : c = c' := by
  injection h with h
  injection h with ht hd hv hf hc
  obtain ⟨_, _, _, _, _⟩ := c
  obtain ⟨_, _, _, _, _⟩ := c'
  simp_all

theorem embed_inj {c c' : PersistCall} (h : embed c = embed c') : c = c' := by
  injection h with h
  injection h with ht hd hv hf hc
  obtain ⟨_, _, _, _, _⟩ := c
  obtain ⟨_, _, _, _, _⟩ := c'
  simp_all

variable {before : List (Turn ι)}

theorem Turn.does_persist {c : PersistCall} (h : t.Does u before (persist c)) :
    ∃ i, c = (u i).call := by
  generalize ha : persist c = a at h
  cases h with
  | place i k x hx hk hnext hproceed =>
      refine ⟨i, ?_⟩
      rcases place_cases hx with rfl | ⟨stage, rfl⟩ | he | ⟨-, he⟩ | ⟨-, he⟩ | rfl
      · cases ha
      · cases ha
      · exact persist_inj (ha.trans he)
      · cases ha.trans he
      · cases ha.trans he
      · cases ha
  | _ => cases ha

theorem Turn.does_embed {c : PersistCall} (h : t.Does u before (embed c)) :
    ∃ i, c = (u i).call ∧ 7 ≤ before.count (.proceed i) ∧ before.count (.proceed i) ≤ 8 := by
  generalize ha : embed c = a at h
  cases h with
  | place i k x hx hk hnext hproceed =>
      refine ⟨i, ?_⟩
      rcases place_cases hx with rfl | ⟨stage, rfl⟩ | he | ⟨rfl, he⟩ | ⟨-, he⟩ | rfl
      · cases ha
      · cases ha
      · cases ha.trans he
      · exact ⟨embed_inj (ha.trans he), hk, hnext⟩
      · cases ha.trans he
      · cases ha
  | _ => cases ha

theorem Turn.does_activate {d v tenantId : Uuid} (h : t.Does u before (activate d v tenantId)) :
    ∃ i, v = (u i).args.versionId ∧ 8 ≤ before.count (.proceed i) ∧
      9 ≤ (before ++ [t]).count (.proceed i) := by
  generalize ha : activate d v tenantId = a at h
  cases h with
  | place i k x hx hk hnext hproceed =>
      refine ⟨i, ?_⟩
      rcases place_cases hx with rfl | ⟨stage, rfl⟩ | he | ⟨-, he⟩ | ⟨rfl, he⟩ | rfl
      · cases ha
      · cases ha
      · cases ha.trans he
      · cases ha.trans he
      · have hcount : 9 ≤ (before ++ [t]).count (.proceed i) := by
          rw [List.count_append]
          by_cases hcount : before.count (.proceed i) = 8
          · rw [hproceed hcount, List.count_singleton_self]
            omega
          · omega
        injection ha.trans he with hactivity
        injection hactivity with hd hv ht
        exact ⟨hv, hk, hcount⟩
      · cases ha
  | _ => cases ha

theorem Turn.does_versioned {a : Step} {file : Uuid × String} (h : t.Does u before a)
    (hfile : a.versionedFile = some file) : ∃ i, file = (u i).file := by
  cases h with
  | place i k x hx =>
      refine ⟨i, ?_⟩
      rcases place_cases hx with rfl | ⟨stage, rfl⟩ | he | ⟨-, he⟩ | ⟨-, he⟩ | rfl
      · exact (Option.some.inj hfile).symm
      · cases hfile
      · rw [he] at hfile
        cases hfile
      · rw [he] at hfile
        exact (Option.some.inj hfile).symm
      · rw [he] at hfile
        cases hfile
      · cases hfile
  | _ => cases hfile

theorem Turn.does_unversioned {a : Step} {file : Uuid × String} (h : t.Does u before a)
    (hfile : a.unversionedFile = some file) :
    ∃ chunks, t = .ingestUnversioned file.1 file.2 chunks := by
  cases h with
  | place i k x hx => cases hfile
  | ingestUnversioned tenantId filename chunks ht =>
      obtain rfl := Option.some.inj hfile
      exact ⟨chunks, ht⟩
  | _ => cases hfile

/-! ### Interleaved runs are orderly -/

theorem orderly_nil : Orderly [] := by
  have hcut : ∀ {pre : List Step} {b : Step}, ¬ pre ++ [b] <+: [] := by
    intro pre b hpre
    simpa using List.prefix_nil.mp hpre
  exact ⟨fun a ha => absurd ha List.not_mem_nil, fun c c' hc => by simp at hc,
    fun pre c hpre => absurd hpre hcut, fun pre d v i hpre => absurd hpre hcut,
    fun pre c hpre => absurd hpre hcut⟩

theorem Orderly.concat {steps : List Step} {a : Step} (h : Orderly steps)
    (hfiles : ∀ b ∈ steps ++ [a], ∀ b' ∈ steps ++ [a], ∀ file, b.versionedFile = some file →
      b'.unversionedFile ≠ some file)
    (hchunks : ∀ c c' : PersistCall, (persist c ∈ steps ++ [a] ∨ embed c ∈ steps ++ [a]) →
      (persist c' ∈ steps ++ [a] ∨ embed c' ∈ steps ++ [a]) → c.versionId = c'.versionId → c = c')
    (hembed : ∀ c, a = embed c → persist c ∈ steps ∧ ∀ d i, activate d c.versionId i ∉ steps)
    (hactivate : ∀ d v i, a = activate d v i → ∃ c, c.versionId = v ∧ embed c ∈ steps) :
    Orderly (steps ++ [a]) := by
  have hcut : ∀ {pre : List Step} {b : Step}, pre ++ [b] <+: steps ++ [a] →
      pre ++ [b] <+: steps ∨ pre = steps ∧ b = a := by
    intro pre b hpre
    rcases List.prefix_concat_iff.mp hpre with he | hpre
    · exact .inr ⟨(List.append_inj' he rfl).1, List.singleton_inj.mp (List.append_inj' he rfl).2⟩
    · exact .inl hpre
  refine ⟨hfiles, hchunks, fun pre c hpre => ?_, fun pre d v i hpre => ?_, fun pre c hpre => ?_⟩
  · rcases hcut hpre with hpre | ⟨rfl, rfl⟩
    · exact h.persisted pre c hpre
    · exact (hembed c rfl).1
  · rcases hcut hpre with hpre | ⟨rfl, rfl⟩
    · exact h.embedded pre d v i hpre
    · exact hactivate d v i rfl
  · rcases hcut hpre with hpre | ⟨rfl, rfl⟩
    · exact h.hidden pre c hpre
    · exact (hembed c rfl).2

theorem count_le_of_cut {before after : List (Turn ι)} (h : before <+: after) (i : ι) :
    before.count (.proceed i) ≤ after.count (.proceed i) := h.sublist.count_le _

theorem orderly_stepsOf (hversion : ∀ i j, (u i).args.versionId = (u j).args.versionId → i = j)
    (hfiles : ∀ i tenantId filename chunks, .ingestUnversioned tenantId filename chunks ∈ ts →
      (u i).file ≠ (tenantId, filename)) : Orderly (stepsOf u ts) := by
  have hseparate : ∀ b ∈ stepsOf u ts, ∀ b' ∈ stepsOf u ts, ∀ file,
      b.versionedFile = some file → b'.unversionedFile ≠ some file := by
    intro b hb b' hb' file hfile hfile'
    obtain ⟨before, t, -, hdoes⟩ := exists_turn hb
    obtain ⟨before', t', hts, hdoes'⟩ := exists_turn hb'
    obtain ⟨i, rfl⟩ := Turn.does_versioned hdoes hfile
    obtain ⟨chunks, rfl⟩ := Turn.does_unversioned hdoes' hfile'
    have hturn : Turn.ingestUnversioned (u i).file.1 (u i).file.2 chunks ∈ ts :=
      hts.subset (List.mem_append_right _ (List.mem_singleton.mpr rfl))
    exact hfiles i _ _ chunks hturn rfl
  have hcall : ∀ c, (persist c ∈ stepsOf u ts ∨ embed c ∈ stepsOf u ts) → ∃ i, c = (u i).call := by
    rintro c (hc | hc)
    · obtain ⟨before, t, -, hdoes⟩ := exists_turn hc
      exact Turn.does_persist hdoes
    · obtain ⟨before, t, -, hdoes⟩ := exists_turn hc
      obtain ⟨i, hi, -⟩ := Turn.does_embed hdoes
      exact ⟨i, hi⟩
  have hchunks : ∀ c c' : PersistCall, (persist c ∈ stepsOf u ts ∨ embed c ∈ stepsOf u ts) →
      (persist c' ∈ stepsOf u ts ∨ embed c' ∈ stepsOf u ts) → c.versionId = c'.versionId →
      c = c' := by
    intro c c' hc hc' hv
    obtain ⟨i, rfl⟩ := hcall c hc
    obtain ⟨j, rfl⟩ := hcall c' hc'
    rw [hversion i j hv]
  induction ts using List.reverseRecOn with
  | nil => exact orderly_nil
  | append_singleton ts t ih =>
      have hsub : ∀ {b}, b ∈ stepsOf u ts → b ∈ stepsOf u (ts ++ [t]) :=
        fun hb => mem_stepsOf_concat.mpr (.inl hb)
      have hbefore : Orderly (stepsOf u ts) := by
        refine ih (fun i tenantId filename chunks h => hfiles i tenantId filename chunks
          (List.mem_append_left _ h)) (fun b hb b' hb' => hseparate b (hsub hb) b' (hsub hb'))
          (fun c hc => hcall c (hc.imp hsub hsub)) fun c c' hc hc' => hchunks c c'
          (hc.imp hsub hsub) (hc'.imp hsub hsub)
      rw [stepsOf_concat] at hseparate hchunks ⊢
      cases ha : t.step u ts with
      | none => rwa [Option.toList_none, List.append_nil]
      | some a =>
          rw [ha, Option.toList_some] at hseparate hchunks
          rw [Option.toList_some]
          have hdoes := Turn.does ha
          refine hbefore.concat hseparate hchunks (fun c hc => ?_) fun d v i hactivate => ?_
          · subst hc
            obtain ⟨i, rfl, hseven, height⟩ := Turn.does_embed hdoes
            refine ⟨performed_place (k := 5) rfl (by omega), fun d tenantId hmem => ?_⟩
            obtain ⟨before, t', hts, hdoes'⟩ := exists_turn hmem
            obtain ⟨j, hv, -, hnine⟩ := Turn.does_activate hdoes'
            obtain rfl := hversion i j hv
            have hle := count_le_of_cut hts i
            omega
          · subst hactivate
            obtain ⟨j, rfl, height, -⟩ := Turn.does_activate hdoes
            exact ⟨(u j).call, rfl, performed_place (k := 7) rfl (by omega)⟩

end Schedules

/-! ### Agreement -/

/-- After any interleaving of versioned ingestions with unversioned ones of other files,
deletions, reconciliations and backfills, dense search may return exactly the documents of a
rebuilt lexical index, and of a document's versions only the active one. -/
theorem stores_agree {ι : Type} [DecidableEq ι] {uuid5 : String → String}
    (hu : Function.Injective uuid5) (u : ι → Ingestion) (tenants : List Uuid)
    (ts : List (Turn ι)) (s : Indexed String)
    (hversion : ∀ i j, (u i).args.versionId = (u j).args.versionId → i = j)
    (hfiles : ∀ i tenantId filename chunks, .ingestUnversioned tenantId filename chunks ∈ ts →
      (u i).file ≠ (tenantId, filename))
    (h : run uuid5 tenants (stepsOf u ts) = some s) :
    (∀ x, x ∈ rebuildDocuments uuid5 s.db ↔ Searchable s x) ∧
      ∀ p, Qdrant.Holds s.collection p → Qdrant.visible p = true → p.versionId ≠ none →
        ∃ d ∈ s.db.documents, d.owns p = true ∧ d.status ≠ .deleted ∧
          p.versionId = d.activeVersionId := by
  have ho := orderly_stepsOf hversion hfiles
  have hs := synced_run hu ho h
  exact ⟨hs.agree ho, fun p hp hvisible hver => hs.active ho hp hvisible hver⟩

/-- Two versions of one document. -/
def twoVersions : Bool → Ingestion
  | false => ⟨⟨1, 2, 3, "s3://b/1", "".pushn 'a' 64, "a.pdf", 7, "ingest-2"⟩, [⟨1, "first"⟩]⟩
  | true => ⟨⟨1, 4, 5, "s3://b/2", "".pushn 'b' 64, "a.pdf", 7, "ingest-4"⟩, [⟨1, "second"⟩]⟩

/-- The second version overtakes the first, whose embedding is repeated. -/
def overtaken : List (Turn Bool) :=
  .replicate 8 (.proceed false) ++ [.again false] ++ .replicate 10 (.proceed true) ++
    [.ingestUnversioned 7 "b.txt" [⟨1, "third"⟩], .proceed false, .reconcile, .backfill]

set_option maxRecDepth 4000 in
theorem overtaken_isSome : (run id [7] (stepsOf twoVersions overtaken)).isSome = true := by
  decide +kernel

theorem stores_agree_overtaken : ∃ s, run id [7] (stepsOf twoVersions overtaken) = some s ∧
    ∀ x, x ∈ rebuildDocuments id s.db ↔ Searchable s x := by
  obtain ⟨s, h⟩ := Option.isSome_iff_exists.mp overtaken_isSome
  have hversion : ∀ i j, (twoVersions i).args.versionId = (twoVersions j).args.versionId → i = j := by
    decide
  have hfiles : ∀ i tenantId filename chunks,
      .ingestUnversioned tenantId filename chunks ∈ overtaken →
      (twoVersions i).file ≠ (tenantId, filename) := by
    intro i tenantId filename chunks hmem
    obtain ⟨rfl, rfl, -⟩ : tenantId = 7 ∧ filename = "b.txt" ∧ chunks = [⟨1, "third"⟩] := by
      simpa [overtaken] using hmem
    cases i <;> decide
  exact ⟨s, h, (stores_agree Function.injective_id twoVersions [7] overtaken s hversion hfiles h).1⟩

end Stores
end Ally
