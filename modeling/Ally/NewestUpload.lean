import Ally.ActivationOrder
import Ally.UploadSchedule

/-!
# When the newest upload is kept

As long as no stage call finds the document indexed, every transaction of a
schedule commits and the pointer follows the activations. A stage call that does
find it so raises, since only a registration opens an indexed document again.
-/

open Relational

namespace Ally

variable {ι : Type} [DecidableEq ι] {u : Uploads ι} {s : List ι} {w w' : World ι}

/-- The transactions a schedule performs when none of them raises. -/
def Uploads.transactions (u : Uploads ι) (s : List ι) : List Transaction :=
  (turns s).filterMap fun p => (u.plan p.1)[p.2]?

theorem transactions_concat (s : List ι) (i : ι) :
    u.transactions (s ++ [i]) = u.transactions s ++ ((u.plan i)[s.count i]?).toList := by
  unfold Uploads.transactions
  rw [turns_concat, List.filterMap_append]
  cases h : (u.plan i)[s.count i]? <;> simp [h]

/-! ### The versions a schedule activates -/

theorem transactions_not_retired {t : Transaction} (ht : t ∈ u.transactions s) (d : Uuid) :
    t.retires d = false := by
  obtain ⟨p, -, hp⟩ := List.mem_filterMap.mp ht
  have hmem : t ∈ u.plan p.1 := List.mem_of_getElem? hp
  have hplan : ∀ t ∈ u.plan p.1, t.retires d = false := by
    simp [Uploads.plan, Uploads.recordStage, Uploads.finish, Transaction.retires]
  exact hplan t hmem

omit [DecidableEq ι] in
/-- Only the place 7 of a plan activates. -/
theorem activated_plan (i : ι) (k : ℕ) :
    activated u.documentId ((u.plan i)[k]?).toList =
      if k = 7 then [(u.upload i).versionId] else [] := by
  by_cases hk : k < 9
  · rcases (by omega : k = 0 ∨ k = 1 ∨ k = 2 ∨ k = 3 ∨ k = 4 ∨ k = 5 ∨ k = 6 ∨ k = 7 ∨ k = 8)
      with h | h | h | h | h | h | h | h | h <;> subst h <;>
      simp [activated, Uploads.plan, Uploads.recordStage, Uploads.finish, Transaction.activates]
  · have hnone : (u.plan i)[k]? = none := List.getElem?_eq_none_iff.mpr (by
      change 9 ≤ k
      omega)
    rw [hnone, if_neg (by omega)]
    rfl

theorem activated_last (s : List ι) :
    (activated u.documentId (u.transactions s)).getLast? =
      (lastActivated s).map fun i => (u.upload i).versionId := by
  induction s using List.reverseRecOn with
  | nil => rfl
  | append_singleton s i ih =>
      have hsplit : activated u.documentId (u.transactions (s ++ [i])) =
          activated u.documentId (u.transactions s) ++
            if s.count i = 7 then [(u.upload i).versionId] else [] := by
        rw [transactions_concat, activated, List.filterMap_append, ← activated_plan]
        rfl
      rw [hsplit, lastActivated, lastAt_concat]
      by_cases h7 : s.count i = 7
      · rw [if_pos h7, if_pos h7, List.getLast?_concat]
        rfl
      · rw [if_neg h7, if_neg h7, List.append_nil]
        exact ih

/-! ### The world of a schedule without errors -/

structure Nominal (u : Uploads ι) (s : List ι) (w : World ι) : Prop where
  bound : ∀ i, s.count i ≤ 10
  phase : ∀ i, w.phase i = if s.count i ≤ 9 then .running (s.count i) else .ended
  raised : w.raised = []
  committed : history u.tenants (u.transactions s) = some w.db
  rows : u.Rows s w.db

theorem Nominal.initial : Nominal u [] (World.initial u) where
  bound i := by simp
  phase i := by simp [World.initial]
  raised := rfl
  committed := rfl
  rows := Uploads.rows_initial

theorem proceedPlan_ok {i : ι} {k : ℕ} {t : Transaction} {db : Db} (h : t.apply w.db = .ok db) :
    (w.proceedPlan i k t).db = db ∧ (w.proceedPlan i k t).raised = w.raised ∧
      (w.proceedPlan i k t).phase = Function.update w.phase i (.running (k + 1)) := by
  have hexec : w.execute i t = { w with db } := by
    unfold World.execute
    rw [h]
  unfold World.proceedPlan
  rw [hexec, h]
  dsimp only
  split_ifs <;> exact ⟨rfl, rfl, rfl⟩

theorem proceedPlan_error {i : ι} {k : ℕ} {t : Transaction} {e : PyError}
    (h : t.apply w.db = .error e) : (w.proceedPlan i k t).raised = w.raised ++ [(i, t)] := by
  have hexec : w.execute i t = { w with raised := w.raised ++ [(i, t)] } := by
    unfold World.execute
    rw [h]
  unfold World.proceedPlan
  rw [hexec, h]
  dsimp only
  split_ifs <;> rfl

/-- Errors stay on record. -/
theorem proceed_raised {i : ι} (h : proceed u i w = some w') {p : ι × Transaction}
    (hp : p ∈ w.raised) : p ∈ w'.raised := by
  have hexecute : ∀ t, p ∈ (w.execute i t).raised := by
    intro t
    unfold World.execute
    cases t.apply w.db with
    | ok db => exact hp
    | error e => exact List.mem_append_left _ hp
  unfold proceed at h
  split at h
  · split at h
    · rename_i k _ _ t _
      obtain rfl := Option.some.inj h
      cases hres : t.apply w.db with
      | ok db => rwa [(proceedPlan_ok hres).2.1]
      | error e =>
          rw [proceedPlan_error hres]
          exact List.mem_append_left _ hp
    · obtain rfl := Option.some.inj h
      exact hp
  · obtain rfl := Option.some.inj h
    exact hexecute _
  · cases h

/-- The next turn of a nominal world, when a stage call finds the document open. -/
theorem Nominal.turn (h : Nominal u s w) {i : ι} (hs : proceed u i w = some w')
    (hopen : isStage (s.count i) = true → ¬ LeftIndexed s) : Nominal u (s ++ [i]) w' := by
  have hphase := h.phase i
  have hc : w.db.Coherent := history_coherent h.committed
  have hother : ∀ (phase : RunPhase) j, j ≠ i → Function.update w.phase i phase j =
      if (s ++ [i]).count j ≤ 9 then .running ((s ++ [i]).count j) else .ended := by
    intro phase j hj
    rw [Function.update_of_ne hj, count_concat_of_ne s hj]
    exact h.phase j
  have hbound : s.count i ≤ 9 → ∀ j, (s ++ [i]).count j ≤ 10 := by
    intro h9 j
    by_cases hj : j = i
    · rw [hj, count_concat_self]
      omega
    · rw [count_concat_of_ne s hj]
      exact h.bound j
  by_cases h9 : s.count i ≤ 9
  · rw [if_pos h9] at hphase
    cases ht : (u.plan i)[s.count i]? with
    | some t =>
        have hlt : s.count i < 9 := (List.getElem?_eq_some_iff.mp ht).1
        obtain ⟨db, hok, hrows⟩ := h.rows.commits hc ht hopen
        have hw : w' = w.proceedPlan i (s.count i) t := by
          simp only [proceed, hphase, ht] at hs
          exact (Option.some.inj hs).symm
        obtain ⟨hdb, hraised, hphase'⟩ := proceedPlan_ok (i := i) (k := s.count i) hok
        rw [← hw] at hdb hraised hphase'
        refine ⟨hbound h9, fun j => ?_, hraised.trans h.raised, ?_, hdb.symm ▸ hrows⟩
        · rw [hphase']
          by_cases hj : j = i
          · rw [hj, Function.update_self, count_concat_self, if_pos (by omega)]
          · exact hother _ j hj
        · rw [transactions_concat, ht, hdb]
          exact Machine.run_concat_some.mpr ⟨w.db, h.committed, commit_some.mpr hok⟩
    | none =>
        have hge : 9 ≤ s.count i := List.getElem?_eq_none_iff.mp ht
        have hw : w' = w.setPhase i .ended := by
          simp only [proceed, hphase, ht] at hs
          exact (Option.some.inj hs).symm
        subst hw
        refine ⟨hbound h9, fun j => ?_, h.raised, ?_, h.rows.cleanup hge⟩
        · change Function.update w.phase i .ended j = _
          by_cases hj : j = i
          · rw [hj, Function.update_self, count_concat_self, if_neg (by omega)]
          · exact hother _ j hj
        · rw [transactions_concat, ht, Option.toList_none, List.append_nil]
          exact h.committed
  · rw [if_neg h9] at hphase
    simp only [proceed, hphase] at hs
    cases hs

/-- The stage, activation and finish calls. -/
def Transaction.isLater : Transaction → Bool
  | .stage .. => true
  | .activate .. => true
  | .finish .. => true
  | _ => false

/-- A stage call that finds the document indexed raises. -/
theorem Nominal.raises (h : Nominal u s w) {i : ι} (hs : proceed u i w = some w')
    (hstage : isStage (s.count i) = true) (hl : LeftIndexed s) :
    ∃ p ∈ w'.raised, p.2.isLater = true := by
  have hk : s.count i < 7 := by
    simp only [isStage, Bool.or_eq_true, decide_eq_true_eq] at hstage
    omega
  have hphase := h.phase i
  rw [if_pos (by omega)] at hphase
  obtain ⟨stage, ht⟩ : ∃ stage, (u.plan i)[s.count i]? = some (u.recordStage i stage) := by
    simp only [isStage, Bool.or_eq_true, decide_eq_true_eq] at hstage
    rcases hstage with (((hk | hk) | hk) | hk) | hk <;> rw [hk] <;> exact ⟨_, rfl⟩
  have hw : w' = w.proceedPlan i (s.count i) (u.recordStage i stage) := by
    simp only [proceed, hphase, ht] at hs
    exact (Option.some.inj hs).symm
  cases hres : (u.recordStage i stage).apply w.db with
  | ok db =>
      obtain ⟨-, -, ⟨d, hd, -, hopen⟩, -⟩ := updateIngestionStage_ok_iff.mp hres
      obtain ⟨-, -, -, hindexed, -⟩ := h.rows.documentOf d hd
      rw [hindexed hl] at hopen
      rcases hopen with he | he <;> cases he
  | error e =>
      refine ⟨(i, u.recordStage i stage), ?_, rfl⟩
      rw [hw, proceedPlan_error hres]
      exact List.mem_append_right _ (List.mem_singleton.mpr rfl)

/-- A schedule is nominal as long as its stage calls find the document open, and
has an error of a later call otherwise. -/
theorem schedule_cases (h : u.run (s.map .proceed) = some w) :
    (StagesOpen s → Nominal u s w) ∧
      (¬ StagesOpen s → ∃ p ∈ w.raised, p.2.isLater = true) := by
  induction s using List.reverseRecOn generalizing w with
  | nil =>
      obtain rfl := Option.some.inj h
      refine ⟨fun _ => .initial, fun hn => absurd ?_ hn⟩
      intro before i hp
      have := hp.length_le
      simp at this
  | append_singleton s i ih =>
      rw [List.map_append] at h
      obtain ⟨m, hm, hs⟩ := Machine.run_concat_some.mp h
      obtain ⟨hnominal, hraises⟩ := ih hm
      rw [stagesOpen_concat]
      constructor
      · rintro ⟨hopen, hi⟩
        exact (hnominal hopen).turn hs hi
      · intro hn
        by_cases hopen : StagesOpen s
        · rw [not_and] at hn
          have hi := hn hopen
          push Not at hi
          exact (hnominal hopen).raises hs hi.1 hi.2
        · obtain ⟨p, hp, hlater⟩ := hraises hopen
          exact ⟨p, proceed_raised hs hp, hlater⟩

/-- The pointer of the document names the version of the run that activated last. -/
theorem Nominal.pointer (h : Nominal u s w) {d : Document} (hd : d ∈ w.db.documents) :
    d.activeVersionId = (lastActivated s).map fun i => (u.upload i).versionId := by
  rw [← activated_last]
  exact (pointer_eq_last h.committed fun t ht => transactions_not_retired ht _).2 d hd
    (h.rows.documentOf d hd).1

/-- The newest upload is kept exactly by the schedules in which no stage call
comes after an activation without a registration between them, and in which, when
every run is complete, the run that activated last is the one that registered last. -/
theorem newest_upload_kept_iff (u : Uploads ι) (s : List ι) (w : World ι)
    (h : u.run (s.map .proceed) = some w) :
    ((∀ p ∈ w.raised, p.2.isLater = false) ∧
      ((∀ i ∈ s, w.phase i = .ended) → ∀ d ∈ w.db.documents, d.id = u.documentId →
        d.activeVersionId = (lastRegistered s).map fun i => (u.upload i).versionId)) ↔
    (StagesOpen s ∧ ((∀ i ∈ s, s.count i = 10) → lastActivated s = lastRegistered s)) := by
  obtain ⟨hnominal, hraises⟩ := schedule_cases h
  by_cases hopen : StagesOpen s
  · have hn := hnominal hopen
    have hquiet : ∀ p ∈ w.raised, p.2.isLater = false := by
      rw [hn.raised]
      intro p hp
      cases hp
    have hended : (∀ i ∈ s, w.phase i = .ended) ↔ ∀ i ∈ s, s.count i = 10 := by
      refine forall_congr' fun i => imp_congr_right fun _ => ?_
      have hb := hn.bound i
      rw [hn.phase i]
      split_ifs with h9
      · exact iff_of_false (by rintro ⟨⟩) (by omega)
      · exact iff_of_true rfl (by omega)
    have hinj : Function.Injective fun i => (u.upload i).versionId :=
      fun i j he => u.versionId_inj i j he
    rw [and_iff_right hquiet, and_iff_right hopen, hended]
    refine imp_congr_right fun _ => ?_
    constructor
    · intro hptr
      by_cases hnil : s = []
      · subst hnil
        rfl
      · obtain ⟨d, hd⟩ := hn.rows.documentTo hnil
        have he := (hn.pointer hd).symm.trans (hptr d hd (hn.rows.documentOf d hd).1)
        exact Option.map_injective hinj he
    · intro he d hd _
      rw [hn.pointer hd, he]
  · obtain ⟨p, hp, hlater⟩ := hraises hopen
    refine iff_of_false (fun hkept => ?_) fun hcond => hopen hcond.1
    have hnot := hkept.1 p hp
    rw [hlater] at hnot
    cases hnot

/-- Two uploads one after the other, to the end of both runs. -/
def runsInTurn : List Bool := List.replicate 10 false ++ List.replicate 10 true

set_option maxRecDepth 4000 in
theorem runsInTurn_isSome : (twoUploads.run (runsInTurn.map .proceed)).isSome = true := by decide

theorem newest_upload_kept_iff_runsInTurn :
    ∃ w, twoUploads.run (runsInTurn.map .proceed) = some w ∧
      (((∀ p ∈ w.raised, p.2.isLater = false) ∧
        ((∀ i ∈ runsInTurn, w.phase i = .ended) →
          ∀ d ∈ w.db.documents, d.id = twoUploads.documentId →
            d.activeVersionId =
              (lastRegistered runsInTurn).map fun i => (twoUploads.upload i).versionId)) ↔
      (StagesOpen runsInTurn ∧ ((∀ i ∈ runsInTurn, runsInTurn.count i = 10) →
        lastActivated runsInTurn = lastRegistered runsInTurn))) := by
  obtain ⟨w, hw⟩ := Option.isSome_iff_exists.mp runsInTurn_isSome
  exact ⟨w, hw, newest_upload_kept_iff twoUploads runsInTurn w hw⟩

/-- The second run indexes the document between the registration and the first
stage of the first run. -/
def indexedBetween : List Bool := [false] ++ List.replicate 9 true ++ [false]

/-- The second run goes from its registration to its end while the first waits for
its activation. -/
def overtaken : List Bool :=
  List.replicate 7 false ++ List.replicate 10 true ++ List.replicate 3 false

set_option maxRecDepth 4000 in
theorem newest_upload_lost :
    ((twoUploads.run (indexedBetween.map .proceed)).map fun w =>
      w.raised.map fun p => (p.1, p.2.isLater)) = some [(false, true)] ∧
    ((twoUploads.run (overtaken.map .proceed)).map fun w =>
      (w.phase false, w.phase true, w.db.documents.rows.map Document.activeVersionId)) =
      some (.ended, .ended, [some (twoUploads.upload false).versionId]) ∧
    lastRegistered overtaken = some true := by
  decide

end Ally
