import Ally.Machine

/-!
# The BM25 index file and its dirty marker

Any number of processes commit changes and then call `rebuild_index_from_postgres`,
or call `flush_if_dirty`. They share the index file, the metadata file and the
marker file without a lock, so every step of a call on one of them is a step here.
A snapshot is the list of the changes committed before it.
-/

namespace Ally.Bm25

/-- Where a process is: between two calls, after a commit whose rebuild call is to
come, or before a step of its call. -/
inductive Call (χ : Type*)
  | idle
  | waiting
  | deciding (force : Bool)
  | marking
  | selecting
  | saving (snapshot : List χ)
  | recording
  | unlinking
  deriving DecidableEq, Repr

def Call.snapshot {χ : Type*} : Call χ → Option (List χ)
  | .saving snapshot => some snapshot
  | _ => none

structure World (ι χ : Type*) where
  changes : List χ
  /-- The snapshot the saved index was built from; empty before the first save. -/
  index : List χ
  /-- `last_rebuild_at` of the metadata file, when there is one. -/
  lastRebuildAt : Option ℤ
  dirty : Bool
  call : ι → Call χ
  /-- The changes there were at the last `_mark_dirty`. -/
  marked : List χ

inductive Action (ι χ : Type*)
  | commit (i : ι) (change : χ)
  | call (i : ι) (force : Bool)
  | flush (i : ι)
  | decide (i : ι) (now : ℤ)
  | markDirty (i : ι)
  | select (i : ι)
  | save (i : ι)
  | record (i : ι) (now : ℤ)
  | unlink (i : ι)
  deriving DecidableEq, Repr

namespace World

variable {ι χ : Type*}

def initial : World ι χ where
  changes := []
  index := []
  lastRebuildAt := none
  dirty := false
  call _ := .idle
  marked := []

section Steps
variable [DecidableEq ι] (minInterval : ℤ)

def setCall (i : ι) (call : Call χ) (w : World ι χ) : World ι χ :=
  { w with call := Function.update w.call i call }

/-- `time.time() - _last_rebuild_at() < BM25_REBUILD_MIN_INTERVAL_SECONDS`. -/
def debounces (w : World ι χ) (now : ℤ) : Bool := now - w.lastRebuildAt.getD 0 < minInterval

def step (w : World ι χ) : Action ι χ → Option (World ι χ)
  | .commit i change =>
      match w.call i with
      | .idle | .waiting => some { w.setCall i .waiting with changes := w.changes ++ [change] }
      | _ => none
  | .call i force =>
      match w.call i with
      | .idle | .waiting => some (w.setCall i (.deciding force))
      | _ => none
  | .flush i =>
      match w.call i with
      | .idle => some (if w.dirty then w.setCall i .selecting else w)
      | _ => none
  | .decide i now =>
      match w.call i with
      | .deciding force =>
          some (w.setCall i (if !force && w.debounces minInterval now then .marking
            else .selecting))
      | _ => none
  | .markDirty i =>
      match w.call i with
      | .marking => some { w.setCall i .idle with dirty := true, marked := w.changes }
      | _ => none
  | .select i =>
      match w.call i with
      | .selecting => some (w.setCall i (.saving w.changes))
      | _ => none
  | .save i =>
      match w.call i with
      | .saving snapshot => some { w.setCall i .recording with index := snapshot }
      | _ => none
  | .record i now =>
      match w.call i with
      | .recording => some { w.setCall i .unlinking with lastRebuildAt := some now }
      | _ => none
  | .unlink i =>
      match w.call i with
      | .unlinking => some { w.setCall i .idle with dirty := false }
      | _ => none

abbrev run (as : List (Action ι χ)) : Option (World ι χ) :=
  Machine.run (step minInterval) initial as

end Steps

/-- No commit waits for its rebuild call and no call is in progress. -/
def Quiet (w : World ι χ) : Prop := ∀ i, w.call i = .idle

/-- The saved index was built from a snapshot that has every committed change. -/
def CaughtUp (w : World ι χ) : Prop := w.index = w.changes

end World

/-- The two steps that go wrong: a save over an index with changes the saved snapshot
lacks, and the removal of a marker set for a change the saved index lacks. -/
def Action.KeepsNewer {ι χ : Type*} (w : World ι χ) : Action ι χ → Prop
  | .save i => ∀ snapshot ∈ (w.call i).snapshot, w.index <+: snapshot
  | .unlink _ => w.dirty = true → w.marked <+: w.index
  | _ => True

instance {ι χ : Type*} [DecidableEq χ] (w : World ι χ) :
    (a : Action ι χ) → Decidable (a.KeepsNewer w)
  | .save i =>
      inferInstanceAs (Decidable (∀ snapshot ∈ (w.call i).snapshot, w.index <+: snapshot))
  | .unlink _ => inferInstanceAs (Decidable (w.dirty = true → w.marked <+: w.index))
  | .commit _ _ | .call _ _ | .flush _ | .decide _ _ | .markDirty _ | .select _ | .record _ _ =>
      .isTrue trivial

/-! ### Who takes care of the last change -/

/-- A process that has yet to mark the index or to take its snapshot. -/
inductive Call.Pending {χ : Type*} : Call χ → Prop
  | waiting : Pending .waiting
  | deciding (force : Bool) : Pending (.deciding force)
  | marking : Pending .marking
  | selecting : Pending .selecting

namespace World

variable {ι χ : Type*} {w w' : World ι χ}

/-- A process will save, or has yet to see, every committed change. -/
def Underway (w : World ι χ) : Prop :=
  ∃ i, (w.call i).Pending ∨ w.call i = .saving w.changes

structure Covered (w : World ι χ) : Prop where
  index : w.index <+: w.changes
  saving : ∀ i snapshot, w.call i = .saving snapshot → snapshot <+: w.changes
  last : w.CaughtUp ∨ (w.dirty = true ∧ w.marked = w.changes) ∨ w.Underway

theorem covered_initial : (initial : World ι χ).Covered where
  index := List.prefix_rfl
  saving _ _ h := nomatch h
  last := Or.inl rfl

section Steps
variable [DecidableEq ι] {minInterval : ℤ}

/-- The files are as they were and the process `i` has gone on to a call that still
has every change before it. -/
theorem Covered.pending (hc : w.Covered) {i : ι} {call : Call χ} (hp : call.Pending)
    {changes : List χ} (hch : w.changes <+: changes)
    (hw : w' = { w.setCall i call with changes }) : w'.Covered := by
  subst hw
  refine ⟨hc.index.trans hch, fun j snapshot hj => ?_, Or.inr (Or.inr ⟨i, Or.inl ?_⟩)⟩
  · by_cases hji : j = i
    · subst hji
      have hcall : call = .saving snapshot := by simpa [setCall] using hj
      subst hcall
      cases hp
    · have hold : w.call j = .saving snapshot := by simpa [setCall, hji] using hj
      exact (hc.saving j snapshot hold).trans hch
  · simpa [setCall] using hp

theorem saving_of_setCall {i j : ι} {call : Call χ} {snapshot : List χ}
    (hj : (w.setCall i call).call j = .saving snapshot) (hcall : ∀ s, call ≠ .saving s) :
    w.call j = .saving snapshot := by
  by_cases hji : j = i
  · subst hji
    have : call = .saving snapshot := by simpa [setCall] using hj
    exact absurd this (hcall snapshot)
  · simpa [setCall, hji] using hj

/-- A process that was neither pending nor saving leaves the others underway. -/
theorem Underway.setCall (hu : w.Underway) {i : ι} {call : Call χ}
    (hi : ¬ (w.call i).Pending) (hs : ∀ s, w.call i ≠ .saving s) :
    (w.setCall i call).Underway := by
  obtain ⟨j, hj⟩ := hu
  have hji : j ≠ i := by
    rintro rfl
    rcases hj with hj | hj
    · exact hi hj
    · exact hs _ hj
  refine ⟨j, ?_⟩
  simpa [World.setCall, hji] using hj

theorem covered_step {a : Action ι χ} (hc : w.Covered) (hk : a.KeepsNewer w)
    (h : step minInterval w a = some w') : w'.Covered := by
  cases a with
  | commit i change =>
      simp only [step] at h
      split at h
      · exact hc.pending .waiting (List.prefix_append _ _) (Option.some.inj h).symm
      · exact hc.pending .waiting (List.prefix_append _ _) (Option.some.inj h).symm
      · cases h
  | call i force =>
      simp only [step] at h
      split at h
      · exact hc.pending (.deciding force) List.prefix_rfl (Option.some.inj h).symm
      · exact hc.pending (.deciding force) List.prefix_rfl (Option.some.inj h).symm
      · cases h
  | flush i =>
      simp only [step] at h
      split at h
      · obtain rfl := Option.some.inj h
        split_ifs
        · exact hc.pending .selecting List.prefix_rfl rfl
        · exact hc
      · cases h
  | decide i now =>
      simp only [step] at h
      split at h
      · refine hc.pending ?_ List.prefix_rfl (Option.some.inj h).symm
        split_ifs
        · exact .marking
        · exact .selecting
      · cases h
  | markDirty i =>
      simp only [step] at h
      split at h
      · obtain rfl := Option.some.inj h
        refine ⟨hc.index, fun j s hj => ?_, Or.inr (Or.inl ⟨rfl, rfl⟩)⟩
        exact hc.saving j s (saving_of_setCall hj (fun _ => nofun))
      · cases h
  | select i =>
      simp only [step] at h
      split at h
      · obtain rfl := Option.some.inj h
        refine ⟨hc.index, fun j s hj => ?_, Or.inr (Or.inr ⟨i, Or.inr ?_⟩)⟩
        · by_cases hji : j = i
          · subst hji
            have hs : w.changes = s := by simpa [setCall] using hj
            exact hs ▸ List.prefix_rfl
          · exact hc.saving j s (by simpa [setCall, hji] using hj)
        · simp [setCall]
      · cases h
  | save i =>
      simp only [step] at h
      split at h
      next snapshot hi =>
        obtain rfl := Option.some.inj h
        have hpre := hc.saving i snapshot hi
        refine ⟨hpre, fun j s hj => hc.saving j s (saving_of_setCall hj (fun _ => nofun)), ?_⟩
        rcases hc.last with hlast | hlast | ⟨j, hj⟩
        · -- the index that is overwritten was complete, so this one is
          have hge : w.changes <+: snapshot := hlast ▸ hk snapshot (hi ▸ rfl)
          exact Or.inl (hpre.eq_of_length_le hge.length_le)
        · exact Or.inr (Or.inl hlast)
        · by_cases hji : j = i
          · subst hji
            rw [hi] at hj
            rcases hj with hj | hj
            · cases hj
            · exact Or.inl (Call.saving.inj hj)
          · exact Or.inr (Or.inr ⟨j, by simpa [setCall, hji] using hj⟩)
      · cases h
  | record i now =>
      simp only [step] at h
      split at h
      next hi =>
        obtain rfl := Option.some.inj h
        refine ⟨hc.index, fun j s hj => hc.saving j s (saving_of_setCall hj (fun _ => nofun)), ?_⟩
        rcases hc.last with hlast | hlast | hlast
        · exact Or.inl hlast
        · exact Or.inr (Or.inl hlast)
        · exact Or.inr (Or.inr (hlast.setCall (hi ▸ nofun) (hi ▸ fun _ => nofun)))
      · cases h
  | unlink i =>
      simp only [step] at h
      split at h
      next hi =>
        obtain rfl := Option.some.inj h
        refine ⟨hc.index, fun j s hj => hc.saving j s (saving_of_setCall hj (fun _ => nofun)), ?_⟩
        rcases hc.last with hlast | ⟨hdirty, hmarked⟩ | hlast
        · exact Or.inl hlast
        · have hge : w.changes <+: w.index := hmarked ▸ hk hdirty
          exact Or.inl (hc.index.eq_of_length_le hge.length_le)
        · exact Or.inr (Or.inr (hlast.setCall (hi ▸ nofun) (hi ▸ fun _ => nofun)))
      · cases h

/-- The steps of a `flush_if_dirty` call that finds the marker. -/
def flushCall (i : ι) (now : ℤ) : List (Action ι χ) :=
  [.flush i, .select i, .save i, .record i now, .unlink i]

theorem flush_catches_up {i : ι} (hi : w.call i = .idle) (hd : w.dirty = true) (now : ℤ) :
    ∃ w', Machine.run (step minInterval) w (flushCall i now) = some w' ∧ w'.changes = w.changes ∧
      w'.CaughtUp := by
  simp [flushCall, Machine.run, step, setCall, hi, hd, CaughtUp]

end Steps

end World

/-- A rebuild, and a second upload whose call comes within the interval. -/
def debouncedUpload : List (Action Bool ℕ) :=
  [.commit false 1, .call false false, .decide false 1000, .select false, .save false,
    .record false 1000, .unlink false,
    .commit true 2, .call true false, .decide true 1010, .markDirty true]

theorem debouncedUpload_quiet :
    (World.run 60 debouncedUpload).map (fun w => decide (∀ i, w.call i = .idle)) = some true := by
  decide

/-- A change is committed and marked while a forced rebuild is between its snapshot
and the removal of the marker. -/
def lostMarker : List (Action Bool ℕ) :=
  [.commit false 1, .call false false, .decide false 1000, .select false, .save false,
    .record false 1000, .unlink false,
    .commit false 2, .call false true, .decide false 1005, .select false,
    .commit true 3, .call true false, .decide true 1010, .markDirty true,
    .save false, .record false 1015, .unlink false]

/-- A rebuild saves its snapshot after another one has saved a newer one. -/
def staleSave : List (Action Bool ℕ) :=
  [.commit false 1, .call false true, .decide false 1000, .select false,
    .commit true 2, .call true true, .decide true 1005, .select true, .save true,
    .record true 1006, .unlink true,
    .save false, .record false 1007, .unlink false]

end Ally.Bm25
