import Mathlib.Data.List.Basic
import Mathlib.Tactic

/-!
# Runs of a partial step function

`run step s as` performs the actions `as` from `s` and is `none` as soon as one
of them is not enabled. Invariants and relations between the ends of a run are
derived here once from what a single step does.
-/

namespace Machine

variable {σ α : Type*} {step : σ → α → Option σ}

def run (step : σ → α → Option σ) : σ → List α → Option σ
  | s, [] => some s
  | s, a :: as => (step s a).bind (fun s' => run step s' as)

@[simp] theorem run_nil (s : σ) : run step s [] = some s := rfl

theorem run_cons_some {s s' : σ} {a : α} {as : List α} :
    run step s (a :: as) = some s' ↔ ∃ m, step s a = some m ∧ run step m as = some s' := by
  simp only [run, Option.bind_eq_some_iff]

theorem run_append_some {s s' : σ} {as bs : List α} :
    run step s (as ++ bs) = some s' ↔
      ∃ m, run step s as = some m ∧ run step m bs = some s' := by
  induction as generalizing s with
  | nil => simp
  | cons a as ih =>
      simp only [List.cons_append, run_cons_some, ih]
      constructor
      · rintro ⟨m, hm, n, hn, hs⟩
        exact ⟨n, ⟨m, hm, hn⟩, hs⟩
      · rintro ⟨n, ⟨m, hm, hn⟩, hs⟩
        exact ⟨m, hm, n, hn, hs⟩

theorem run_concat_some {s s' : σ} {as : List α} {a : α} :
    run step s (as ++ [a]) = some s' ↔ ∃ m, run step s as = some m ∧ step m a = some s' := by
  rw [run_append_some]
  simp only [run_cons_some, run_nil, Option.some.injEq, exists_eq_right]

/-- A property that every enabled step keeps holds at the end of a run. -/
theorem run_invariant {P : σ → Prop} (hstep : ∀ s a s', P s → step s a = some s' → P s')
    {s s' : σ} {as : List α} (hs : P s) (hr : run step s as = some s') : P s' := by
  induction as generalizing s with
  | nil => exact Option.some.inj hr ▸ hs
  | cons a as ih =>
      obtain ⟨m, hm, hr⟩ := run_cons_some.mp hr
      exact ih (hstep s a m hs hm) hr

/-- A reflexive and transitive relation that links the ends of every step taken
under an invariant links the ends of every run. -/
theorem run_relation {P : σ → Prop} {R : σ → σ → Prop} (hrefl : ∀ s, R s s)
    (htrans : ∀ s t u, R s t → R t u → R s u)
    (hkeep : ∀ s a s', P s → step s a = some s' → P s')
    (hstep : ∀ s a s', P s → step s a = some s' → R s s')
    {s s' : σ} {as : List α} (hs : P s) (hr : run step s as = some s') : R s s' := by
  induction as generalizing s with
  | nil => exact Option.some.inj hr ▸ hrefl s
  | cons a as ih =>
      obtain ⟨m, hm, hr⟩ := run_cons_some.mp hr
      exact htrans s m s' (hstep s a m hs hm) (ih (hkeep s a m hs hm) hr)

/-! ### Runs whose steps meet a condition -/

/-- Each action of the run meets the condition `G` in the state it is performed in. -/
def Along (step : σ → α → Option σ) (G : σ → α → Prop) (s : σ) (as : List α) : Prop :=
  ∀ pre a m, pre ++ [a] <+: as → run step s pre = some m → G m a

variable {G : σ → α → Prop}

theorem along_nil (s : σ) : Along step G s [] := by
  intro pre a m h
  simp at h

theorem along_cons {s : σ} {a : α} {as : List α} :
    Along step G s (a :: as) ↔ G s a ∧ ∀ m, step s a = some m → Along step G m as := by
  constructor
  · intro h
    refine ⟨h [] a s (by simp) rfl, fun m hm pre b n hpre hn => ?_⟩
    exact h (a :: pre) b n (by simpa using hpre) (run_cons_some.mpr ⟨m, hm, hn⟩)
  · rintro ⟨ha, has⟩ pre b n hpre hn
    cases pre with
    | nil =>
        obtain rfl := Option.some.inj hn
        obtain rfl : b = a := by simpa using hpre
        exact ha
    | cons c pre =>
        obtain ⟨rfl, htail⟩ := List.cons_prefix_cons.mp hpre
        obtain ⟨m, hm, hn⟩ := run_cons_some.mp hn
        exact has m hm pre b n htail hn

theorem along_of_mem {s : σ} {as : List α} (h : ∀ a ∈ as, ∀ s, G s a) : Along step G s as :=
  fun _ a m hpre _ => h a (hpre.subset (by simp)) m

theorem Along.of_prefix {s : σ} {as bs : List α} (h : Along step G s as) (hb : bs <+: as) :
    Along step G s bs :=
  fun pre a m hpre hm => h pre a m (hpre.trans hb) hm

/-- A property that every step under the condition keeps holds at the end of a run
whose steps meet it. -/
theorem run_invariant_along {P : σ → Prop}
    (hstep : ∀ s a s', P s → G s a → step s a = some s' → P s') {s s' : σ} {as : List α}
    (hs : P s) (hG : Along step G s as) (hr : run step s as = some s') : P s' := by
  induction as generalizing s with
  | nil => exact Option.some.inj hr ▸ hs
  | cons a as ih =>
      obtain ⟨m, hm, hr⟩ := run_cons_some.mp hr
      obtain ⟨ha, has⟩ := along_cons.mp hG
      exact ih (hstep s a m hs ha hm) (has m hm) hr

/-- The condition checked while the run is performed. -/
def check (step : σ → α → Option σ) (g : σ → α → Bool) : σ → List α → Bool
  | _, [] => true
  | s, a :: as => g s a && (step s a).all fun m => check step g m as

theorem along_of_check {g : σ → α → Bool} (hg : ∀ s a, g s a = true → G s a) {s : σ}
    {as : List α} (h : check step g s as = true) : Along step G s as := by
  induction as generalizing s with
  | nil => exact along_nil s
  | cons a as ih =>
      rw [check, Bool.and_eq_true, Option.all_eq_true] at h
      exact along_cons.mpr ⟨hg s a h.1, fun m hm => ih (h.2 m hm)⟩

/-! ### Two machines -/

/-- A machine that matches every step of another one matches its runs. -/
theorem run_simulation {τ : Type*} {other : τ → α → Option τ} {R : σ → τ → Prop}
    (hstep : ∀ s t a s', R s t → step s a = some s' → ∃ t', other t a = some t' ∧ R s' t')
    {s s' : σ} {t : τ} {as : List α} (h : R s t) (hr : run step s as = some s') :
    ∃ t', run other t as = some t' ∧ R s' t' := by
  induction as generalizing s t with
  | nil =>
      obtain rfl := Option.some.inj hr
      exact ⟨t, rfl, h⟩
  | cons a as ih =>
      obtain ⟨m, hm, hr⟩ := run_cons_some.mp hr
      obtain ⟨n, hn, hmn⟩ := hstep s t a m h hm
      obtain ⟨t', ht', hR⟩ := ih hmn hr
      exact ⟨t', run_cons_some.mpr ⟨n, hn, ht'⟩, hR⟩

/-! ### Total steps -/

variable {ρ : Type*} {f : σ → α → σ} {P : σ → Prop}

theorem foldl_invariant (hstep : ∀ s a, P s → P (f s a)) {s : σ} (h : P s) (as : List α) :
    P (as.foldl f s) := by
  induction as generalizing s with
  | nil => exact h
  | cons a as ih => exact ih (hstep s a h)

theorem concat_split {l b c : List α} {a x : α} (h : l ++ [a] = b ++ x :: c) :
    (l = b ∧ a = x ∧ c = []) ∨ ∃ c', c = c' ++ [a] ∧ l = b ++ x :: c' := by
  rcases List.eq_nil_or_concat c with rfl | ⟨c', y, rfl⟩
  · obtain ⟨hl, ha⟩ := List.append_inj' h rfl
    exact .inl ⟨hl, List.singleton_inj.mp ha, rfl⟩
  · rw [List.concat_eq_append, ← List.cons_append, ← List.append_assoc] at h
    obtain ⟨hl, ha⟩ := List.append_inj' h rfl
    exact .inr ⟨c', by rw [List.concat_eq_append, List.singleton_inj.mp ha], hl⟩

/-- When a step leaves no record but those it makes and those it found and did not end, every
record at the end of a run was made by a step that no later step has undone. -/
theorem exists_origin (P : σ → Prop) (Has : σ → ρ → Prop) (Makes Ends : σ → α → ρ → Prop)
    (hkeep : ∀ s a, P s → P (f s a))
    (hstep : ∀ s a r, P s → Has (f s a) r → (Has s r ∧ ¬ Ends s a r) ∨ Makes s a r) {s : σ}
    (hs : P s) (hnone : ∀ r, ¬ Has s r) (as : List α) {r : ρ} (h : Has (as.foldl f s) r) :
    ∃ before a between, as = before ++ a :: between ∧ Makes (before.foldl f s) a r ∧
      ∀ b x c, between = b ++ x :: c → ¬ Ends ((before ++ a :: b).foldl f s) x r := by
  induction as using List.reverseRecOn with
  | nil => exact absurd h (hnone r)
  | append_singleton as last ih =>
      rw [List.foldl_append] at h
      rcases hstep _ last r (foldl_invariant hkeep hs as) h with ⟨hold, hlast⟩ | hmakes
      · obtain ⟨before, a, between, rfl, hmakes, hquiet⟩ := ih hold
        refine ⟨before, a, between ++ [last], by simp, hmakes, fun b x c hsplit => ?_⟩
        rcases concat_split hsplit with ⟨rfl, rfl, rfl⟩ | ⟨c', rfl, hbetween⟩
        · exact hlast
        · exact hquiet b x c' hbetween
      · exact ⟨as, last, [], rfl, hmakes, fun b x c hsplit => by simp at hsplit⟩

/-- A record that a step has ended was made again by a later step. -/
theorem origin_after {Ends : σ → α → ρ → Prop} {s : σ} {r : ρ} {pre mid before between : List α}
    {x a : α} (h : pre ++ x :: mid = before ++ a :: between) (hne : x ≠ a)
    (hquiet : ∀ b y c, between = b ++ y :: c → ¬ Ends ((before ++ a :: b).foldl f s) y r)
    (hends : Ends (pre.foldl f s) x r) : a ∈ mid := by
  rcases List.append_eq_append_iff.mp h with ⟨c, rfl, hc⟩ | ⟨c, rfl, hc⟩
  · cases c with
    | nil => exact absurd (List.cons.inj hc).1 hne
    | cons y c =>
        rw [(List.cons.inj hc).2]
        exact List.mem_append_right _ List.mem_cons_self
  · cases c with
    | nil => exact absurd (List.cons.inj hc).1.symm hne
    | cons y c =>
        obtain ⟨rfl, hbetween⟩ := List.cons.inj hc
        exact absurd hends (hquiet c x mid hbetween)

end Machine
