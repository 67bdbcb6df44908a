import Ally.Machine

/-!
# The cached BM25 index

Any number of concurrent calls of `_get_bm25_index` share one cached index without a lock,
while the index file is replaced. Each access to the file and to the cache is a step.
-/

namespace Ally.IndexCache

/-- An index that was loaded from the file as the save of this number left it. -/
structure Cached (M : Type*) where
  version : ℕ
  /-- `source_mtime_ns`. -/
  label : Option M
  deriving DecidableEq, Repr

/-- Where a call is. `seen` is how often the file had been saved when the call looked at it. -/
inductive Call (M : Type*)
  | idle
  | comparing (indexMtime : Option M) (seen : ℕ)
  | loading (indexMtime : Option M) (seen : ℕ)
  | publishing (indexMtime : Option M) (seen version : ℕ)
  | labelling (indexMtime : Option M) (seen : ℕ)
  | returning (seen : ℕ)
  | returned (seen version : ℕ)
  | raised
  deriving DecidableEq, Repr

structure World (ι M : Type*) where
  /-- The modification times of the saves so far; the last one is that of the file. -/
  saves : List M
  cache : Option (Cached M)
  call : ι → Call M

inductive Action (ι M : Type*)
  | save (mtime : M)
  | stat (i : ι)
  | compare (i : ι)
  | load (i : ι)
  | publish (i : ι)
  | label (i : ι)
  | ret (i : ι)
  deriving DecidableEq, Repr

namespace World

variable {ι M : Type*}

def initial : World ι M := ⟨[], none, fun _ => .idle⟩

section Steps

variable [DecidableEq ι] [DecidableEq M]

def setCall (i : ι) (call : Call M) (w : World ι M) : World ι M :=
  { w with call := Function.update w.call i call }

/-- The cached index has this label. -/
def labelled (w : World ι M) (indexMtime : Option M) : Bool :=
  w.cache.any (·.label = indexMtime)

def step (w : World ι M) : Action ι M → Option (World ι M)
  | .save mtime =>
      if mtime ∈ w.saves then none else some { w with saves := w.saves ++ [mtime] }
  | .stat i =>
      match w.call i with
      | .idle => some (w.setCall i (.comparing w.saves.getLast? w.saves.length))
      | _ => none
  | .compare i =>
      match w.call i with
      | .comparing indexMtime seen =>
          some (w.setCall i
            (if w.labelled indexMtime then .returning seen else .loading indexMtime seen))
      | _ => none
  | .load i =>
      match w.call i with
      | .loading indexMtime seen =>
          some (w.setCall i
            (if w.saves = [] then .raised else .publishing indexMtime seen w.saves.length))
      | _ => none
  | .publish i =>
      match w.call i with
      | .publishing indexMtime seen version =>
          some { w.setCall i (.labelling indexMtime seen) with cache := some ⟨version, none⟩ }
      | _ => none
  | .label i =>
      match w.call i with
      | .labelling indexMtime seen =>
          some { w.setCall i (.returning seen) with
            cache := w.cache.map ({ · with label := indexMtime }) }
      | _ => none
  | .ret i =>
      match w.call i, w.cache with
      | .returning seen, some cached => some (w.setCall i (.returned seen cached.version))
      | _, _ => none

abbrev run (as : List (Action ι M)) : Option (World ι M) := Machine.run step initial as

end Steps

/-- No call has returned an index that is older than the file it saw, and a cached index that
is older than the file does not bear its modification time. -/
structure Fresh (w : World ι M) : Prop where
  returned : ∀ i seen version, w.call i = .returned seen version → seen ≤ version
  label : ∀ cached, w.cache = some cached → cached.version < w.saves.length →
    cached.label ≠ w.saves.getLast?

end World

/-- The file that a call saw which will label or return what is in the cache. -/
def Call.relies {M : Type*} : Call M → Option ℕ
  | .labelling _ seen => some seen
  | .returning seen => some seen
  | _ => none

/-- Which index a call has loaded and not yet published. -/
def Call.loaded {M : Type*} : Call M → Option ℕ
  | .publishing _ _ version => some version
  | _ => none

/-- No index is published that is older than the file another call saw which is about to
label or to return the cached index. -/
def Action.KeepsNewer {ι M : Type*} (w : World ι M) : Action ι M → Prop
  | .publish i => ∀ version ∈ (w.call i).loaded, ∀ j, j ≠ i →
      ∀ seen ∈ (w.call j).relies, seen ≤ version
  | _ => True

instance {ι M : Type*} [Fintype ι] [DecidableEq ι] (w : World ι M) (a : Action ι M) :
    Decidable (a.KeepsNewer w) :=
  match a with
  | .publish i => inferInstanceAs (Decidable (∀ version ∈ (w.call i).loaded, ∀ j, j ≠ i →
      ∀ seen ∈ (w.call j).relies, seen ≤ version))
  | .save _ | .stat _ | .compare _ | .load _ | .label _ | .ret _ => isTrue trivial

/-! ### Modification times -/

/-- The modification time of the file after `k` saves. -/
def stamp {M : Type*} (saves : List M) : ℕ → Option M
  | 0 => none
  | k + 1 => saves[k]?

section Stamps

variable {M : Type*} {saves : List M} {k k' : ℕ}

theorem stamp_length : stamp saves saves.length = saves.getLast? := by
  cases saves with
  | nil => rfl
  | cons m saves => rw [List.getLast?_eq_getElem?]; rfl

theorem stamp_append (hk : k ≤ saves.length) (m : M) : stamp (saves ++ [m]) k = stamp saves k := by
  cases k with
  | zero => rfl
  | succ k => exact List.getElem?_append_left hk

theorem stamp_inj (hnodup : saves.Nodup) (hk : k ≤ saves.length) (hk' : k' ≤ saves.length)
    (h : stamp saves k = stamp saves k') : k = k' := by
  cases k with
  | zero =>
      cases k' with
      | zero => rfl
      | succ k' =>
          have hsome : saves[k']? = some saves[k'] := List.getElem?_eq_getElem hk'
          exact absurd (h.trans hsome) nofun
  | succ k =>
      cases k' with
      | zero =>
          have hsome : saves[k]? = some saves[k] := List.getElem?_eq_getElem hk
          exact absurd (h.symm.trans hsome) nofun
      | succ k' => exact congrArg _ ((List.getElem?_inj hk hnodup).mp h)

end Stamps

/-! ### The invariant -/

variable {ι M : Type*}

/-- The cached index is at least as new as the file after `seen` saves. -/
def Holds (cache : Option (Cached M)) (seen : ℕ) : Prop :=
  ∃ cached, cache = some cached ∧ seen ≤ cached.version

/-- What holds of a call between its steps. -/
def CallOk (saves : List M) (cache : Option (Cached M)) : Call M → Prop
  | .comparing indexMtime seen => seen ≤ saves.length ∧ indexMtime = stamp saves seen
  | .loading indexMtime seen => seen ≤ saves.length ∧ indexMtime = stamp saves seen
  | .publishing indexMtime seen version =>
      (seen ≤ saves.length ∧ indexMtime = stamp saves seen) ∧ seen ≤ version ∧
        version ≤ saves.length
  | .labelling indexMtime seen =>
      (seen ≤ saves.length ∧ indexMtime = stamp saves seen) ∧ Holds cache seen
  | .returning seen => Holds cache seen
  | .returned seen version => seen ≤ version
  | .idle | .raised => True

/-- The label is the modification time of a file that is no newer than the index. -/
def CachedOk (saves : List M) (cached : Cached M) : Prop :=
  cached.version ≤ saves.length ∧ ∃ k ≤ cached.version, cached.label = stamp saves k

structure Sound (w : World ι M) : Prop where
  nodup : w.saves.Nodup
  cache : ∀ cached, w.cache = some cached → CachedOk w.saves cached
  call : ∀ i, CallOk w.saves w.cache (w.call i)

theorem sound_initial : Sound (World.initial : World ι M) where
  nodup := List.nodup_nil
  cache _ h := nomatch h
  call _ := trivial

theorem Sound.fresh {w : World ι M} (h : Sound w) : w.Fresh where
  returned i seen version hi := by
    have hcall := h.call i
    rw [hi] at hcall
    exact hcall
  label cached hcached hold heq := by
    obtain ⟨hversion, k, hk, hlabel⟩ := h.cache cached hcached
    rw [hlabel, ← stamp_length] at heq
    have hsame := stamp_inj h.nodup (hk.trans hversion) le_rfl heq
    omega

theorem CallOk.save {saves : List M} {cache : Option (Cached M)} {call : Call M}
    (h : CallOk saves cache call) (m : M) : CallOk (saves ++ [m]) cache call := by
  have hlook {indexMtime : Option M} {seen : ℕ}
      (hseen : seen ≤ saves.length ∧ indexMtime = stamp saves seen) :
      seen ≤ (saves ++ [m]).length ∧ indexMtime = stamp (saves ++ [m]) seen := by
    rw [List.length_append, stamp_append hseen.1]
    exact ⟨hseen.1.trans (Nat.le_add_right _ _), hseen.2⟩
  cases call with
  | comparing indexMtime seen => exact hlook h
  | loading indexMtime seen => exact hlook h
  | publishing indexMtime seen version =>
      refine ⟨hlook h.1, h.2.1, ?_⟩
      rw [List.length_append]
      exact h.2.2.trans (Nat.le_add_right _ _)
  | labelling indexMtime seen => exact ⟨hlook h.1, h.2⟩
  | returning seen => exact h
  | returned seen version => exact h
  | idle => trivial
  | raised => trivial

theorem CallOk.holds {saves : List M} {cache : Option (Cached M)} {call : Call M} {seen : ℕ}
    (h : CallOk saves cache call) (hrelies : call.relies = some seen) : Holds cache seen := by
  cases call with
  | labelling indexMtime seen' => exact Option.some.inj hrelies ▸ h.2
  | returning seen' => exact Option.some.inj hrelies ▸ h
  | _ => cases hrelies

/-- A change of the cache under which the calls that rely on it still may. -/
theorem CallOk.cache {saves : List M} {cache cache' : Option (Cached M)} {call : Call M}
    (h : CallOk saves cache call)
    (hholds : ∀ seen, call.relies = some seen → Holds cache seen → Holds cache' seen) :
    CallOk saves cache' call := by
  cases call with
  | labelling indexMtime seen => exact ⟨h.1, hholds seen rfl h.2⟩
  | returning seen => exact hholds seen rfl h
  | _ => exact h

section Steps

variable [DecidableEq ι] {w w' : World ι M}

/-- One call goes on; the file and the cache stay. -/
theorem Sound.setCall (h : Sound w) {i : ι} {call : Call M}
    (hcall : CallOk w.saves w.cache call) : Sound (w.setCall i call) := by
  refine ⟨h.nodup, h.cache, fun j => ?_⟩
  by_cases hji : j = i
  · subst hji
    simpa [World.setCall] using hcall
  · simpa [World.setCall, hji] using h.call j

/-- One call goes on and the cache changes. -/
theorem Sound.setCache (h : Sound w) {i : ι} {call : Call M} {cached : Cached M}
    (hcached : CachedOk w.saves cached) (hcall : CallOk w.saves (some cached) call)
    (hothers : ∀ j, j ≠ i → ∀ seen, (w.call j).relies = some seen → seen ≤ cached.version) :
    Sound { w.setCall i call with cache := some cached } := by
  refine ⟨h.nodup, fun c hc => Option.some.inj hc ▸ hcached, fun j => ?_⟩
  by_cases hji : j = i
  · subst hji
    simpa [World.setCall] using hcall
  · have hj : CallOk w.saves (some cached) (w.call j) :=
      (h.call j).cache fun seen hseen _ => ⟨cached, rfl, hothers j hji seen hseen⟩
    simpa [World.setCall, hji] using hj

variable [DecidableEq M]

theorem sound_step {a : Action ι M} (h : Sound w) (hk : a.KeepsNewer w)
    (hstep : w.step a = some w') : Sound w' := by
  cases a with
  | save mtime =>
      simp only [World.step] at hstep
      split_ifs at hstep with hnew
      obtain rfl := Option.some.inj hstep
      refine ⟨?_, fun cached hcached => ?_, fun i => (h.call i).save mtime⟩
      · exact List.nodup_append.mpr ⟨h.nodup, List.nodup_singleton _, by
          rintro x hx y hy rfl
          exact hnew (List.mem_singleton.mp hy ▸ hx)⟩
      · obtain ⟨hversion, k, hk, hlabel⟩ := h.cache cached hcached
        refine ⟨?_, k, hk, ?_⟩
        · rw [List.length_append]
          exact hversion.trans (Nat.le_add_right _ _)
        · rw [stamp_append (hk.trans hversion), hlabel]
  | stat i =>
      simp only [World.step] at hstep
      split at hstep
      · obtain rfl := Option.some.inj hstep
        exact h.setCall ⟨le_rfl, stamp_length.symm⟩
      · cases hstep
  | compare i =>
      simp only [World.step] at hstep
      split at hstep
      · next indexMtime seen hi =>
          obtain rfl := Option.some.inj hstep
          have hcall := h.call i
          rw [hi] at hcall
          refine h.setCall ?_
          split_ifs with hlabelled
          · obtain ⟨cached, hcached, hlabel⟩ := (Option.any_eq_true _ _).mp hlabelled
            obtain ⟨hversion, k, hk, hstamp⟩ := h.cache cached hcached
            have hlabel : cached.label = indexMtime := of_decide_eq_true hlabel
            have hsame : k = seen := stamp_inj h.nodup (hk.trans hversion) hcall.1
              (by rw [← hstamp, hlabel, hcall.2])
            exact ⟨cached, hcached, hsame ▸ hk⟩
          · exact hcall
      · cases hstep
  | load i =>
      simp only [World.step] at hstep
      split at hstep
      · next indexMtime seen hi =>
          obtain rfl := Option.some.inj hstep
          have hcall := h.call i
          rw [hi] at hcall
          refine h.setCall ?_
          split_ifs
          · trivial
          · exact ⟨hcall, hcall.1, le_rfl⟩
      · cases hstep
  | publish i =>
      simp only [World.step] at hstep
      split at hstep
      · next indexMtime seen version hi =>
          obtain rfl := Option.some.inj hstep
          have hcall := h.call i
          rw [hi] at hcall
          have hothers := hk version (by rw [hi]; rfl)
          exact h.setCache ⟨hcall.2.2, 0, Nat.zero_le _, rfl⟩
            ⟨hcall.1, _, rfl, hcall.2.1⟩ hothers
      · cases hstep
  | label i =>
      simp only [World.step] at hstep
      split at hstep
      · next indexMtime seen hi =>
          obtain rfl := Option.some.inj hstep
          have hcall := h.call i
          rw [hi] at hcall
          obtain ⟨⟨hseen, hstamp⟩, cached, hcached, hversion⟩ := hcall
          rw [hcached]
          have hlabelled : CachedOk w.saves ⟨cached.version, indexMtime⟩ :=
            ⟨(h.cache cached hcached).1, seen, hversion, hstamp⟩
          have hcall : CallOk w.saves (some ⟨cached.version, indexMtime⟩) (.returning seen) :=
            ⟨_, rfl, hversion⟩
          apply h.setCache hlabelled hcall
          -- the index stays the same, and so do those who rely on it
          intro j _ seen' hrelies
          obtain ⟨cached', hcached', hseen'⟩ := (h.call j).holds hrelies
          obtain rfl : cached = cached' := Option.some.inj (hcached.symm.trans hcached')
          exact hseen'
      · cases hstep
  | ret i =>
      simp only [World.step] at hstep
      split at hstep
      · next seen cached hi hcached =>
          obtain rfl := Option.some.inj hstep
          have hcall := h.call i
          rw [hi] at hcall
          obtain ⟨cached', hcached', hversion⟩ := hcall
          obtain rfl : cached = cached' := Option.some.inj (hcached.symm.trans hcached')
          exact h.setCall hversion
      · cases hstep

/-- The next call loads the index again. -/
theorem World.Fresh.reloads (h : w.Fresh) {cached : Cached M} (hcached : w.cache = some cached)
    (hold : cached.version < w.saves.length) {i : ι} (hi : w.call i = .idle) :
    ∃ w', Machine.run World.step w [.stat i, .compare i, .load i, .publish i, .label i] =
        some w' ∧ w'.cache = some ⟨w.saves.length, w.saves.getLast?⟩ := by
  have hlabel := h.label cached hcached hold
  have hsaves : w.saves ≠ [] := List.ne_nil_of_length_pos (by omega)
  simp [Machine.run, World.step, World.setCall, World.labelled, hi, hcached, hlabel, hsaves]

/-- A call returns the older index that was published in its way. -/
theorem overtaken_returns {a : Action ι M} (h : ¬ a.KeepsNewer w) :
    ∃ bs w', Machine.run World.step w (a :: bs) = some w' ∧ ¬ w'.Fresh := by
  cases a with
  | publish i =>
      simp only [Action.KeepsNewer, not_forall, not_le] at h
      obtain ⟨version, hloaded, j, hji, seen, hrelies, hlt⟩ := h
      obtain ⟨indexMtime, seen₀, hi⟩ : ∃ indexMtime seen₀,
          w.call i = .publishing indexMtime seen₀ version := by
        generalize w.call i = call at hloaded ⊢
        cases call with
        | publishing indexMtime seen₀ version' =>
            exact ⟨indexMtime, seen₀, by rw [Option.some.inj hloaded]⟩
        | _ => cases hloaded
      have hreturned {as : List (Action ι M)} (h : ∃ w', Machine.run World.step w as = some w' ∧
          w'.call j = .returned seen version) :
          ∃ w', Machine.run World.step w as = some w' ∧ ¬ w'.Fresh := by
        obtain ⟨w', hrun, hcall⟩ := h
        refine ⟨w', hrun, fun hfresh => ?_⟩
        have hle := hfresh.returned j seen version hcall
        omega
      generalize hj : w.call j = call at hrelies
      cases call with
      | labelling indexMtime' seen' =>
          obtain rfl := Option.some.inj hrelies
          refine ⟨[.label j, .ret j], hreturned ?_⟩
          simp [Machine.run, World.step, World.setCall, hi, hj, hji]
      | returning seen' =>
          obtain rfl := Option.some.inj hrelies
          refine ⟨[.ret j], hreturned ?_⟩
          simp [Machine.run, World.step, World.setCall, hi, hj, hji]
      | _ => cases hrelies
  | _ => exact absurd trivial h

/-- In every run in which no index is published that is older than the file another call saw
which is about to label or to return the cached one, no call returns an index older than the
file it saw, and an outdated index is loaded again. Any other run can go on to a call that
returns an older one. -/
theorem fresh_while_newer_kept (as : List (Action ι M)) (w : World ι M)
    (h : World.run as = some w) :
    (Machine.Along World.step (fun w a => a.KeepsNewer w) World.initial as →
      w.Fresh ∧ ∀ cached, w.cache = some cached → cached.version < w.saves.length →
        ∀ i, w.call i = .idle → ∃ w',
          Machine.run World.step w [.stat i, .compare i, .load i, .publish i, .label i] =
            some w' ∧ w'.cache = some ⟨w.saves.length, w.saves.getLast?⟩) ∧
    ∀ a : Action ι M, ¬ a.KeepsNewer w → ∃ bs w', World.run (as ++ a :: bs) = some w' ∧
      ¬ w'.Fresh := by
  constructor
  · intro hk
    have hsound : Sound w := Machine.run_invariant_along
      (fun _ _ _ hs hk hstep => sound_step hs hk hstep) sound_initial hk h
    exact ⟨hsound.fresh, fun cached hcached hold i hi => hsound.fresh.reloads hcached hold hi⟩
  · intro a ha
    obtain ⟨bs, w', hrun, hstale⟩ := overtaken_returns ha
    exact ⟨bs, w', Machine.run_append_some.mpr ⟨w, h, hrun⟩, hstale⟩

end Steps

/-- The file is replaced between two calls. -/
def replacedBetween : List (Action Bool ℕ) :=
  [.save 1, .stat false, .compare false, .load false, .publish false, .label false, .ret false,
    .save 2]

theorem fresh_while_newer_kept_replacedBetween :
    ∃ w, World.run replacedBetween = some w ∧
      w.Fresh ∧ ∀ cached, w.cache = some cached → cached.version < w.saves.length →
        ∀ i, w.call i = .idle → ∃ w',
          Machine.run World.step w [.stat i, .compare i, .load i, .publish i, .label i] =
            some w' ∧ w'.cache = some ⟨w.saves.length, w.saves.getLast?⟩ := by
  have hw : (World.run replacedBetween).isSome := by decide
  obtain ⟨w, hw⟩ := Option.isSome_iff_exists.mp hw
  refine ⟨w, hw, (fresh_while_newer_kept replacedBetween w hw).1 ?_⟩
  exact Machine.along_of_check (g := fun w a => decide (a.KeepsNewer w))
    (fun _ _ => of_decide_eq_true) (by decide)

/-- Two calls load the file before and after it is replaced; the one that loaded it first
publishes its index last, and the other one labels and returns it. -/
def overtaken : List (Action Bool ℕ) :=
  [.save 1, .stat false, .compare false, .load false, .save 2, .stat true, .compare true,
    .load true, .publish true, .publish false, .label true, .ret true]

/-- The index of the first save is returned to a call that saw the second one, and it bears
the modification time of the second. -/
theorem overtaken_stale :
    ∃ w, World.run overtaken = some w ∧ w.call true = .returned 2 1 ∧
      w.cache = some ⟨1, some 2⟩ ∧ w.saves = [1, 2] ∧ ¬ w.Fresh := by
  have hend : (World.run overtaken).map (fun w =>
      decide (w.call true = .returned 2 1 ∧ w.cache = some ⟨1, some 2⟩ ∧ w.saves = [1, 2])) =
        some true := by decide
  obtain ⟨w, hw, hend⟩ := Option.map_eq_some_iff.mp hend
  obtain ⟨hcall, hcache, hsaves⟩ := of_decide_eq_true hend
  exact ⟨w, hw, hcall, hcache, hsaves, fun hfresh =>
    absurd (hfresh.returned true 2 1 hcall) (by decide)⟩

end Ally.IndexCache
