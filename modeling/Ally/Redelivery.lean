import Mathlib.Data.List.Basic
import Mathlib.Tactic

/-!
# At-least-once execution

A task commits once and then performs effects one by one. An execution may be cut off
anywhere, and a task may be executed any number of times. A repeatable task is left
where its furthest execution alone would have left it.
-/

namespace Redelivery

variable {σ ε α : Type*}

structure Task (σ ε : Type*) where
  commit : σ → Except ε σ
  /-- The effects after the commit, which may depend on what it left. -/
  effects : σ → List (σ → σ)

/-- How far an execution gets: not to its commit, to its commit and `n` effects, or to
its end. -/
inductive Reach
  | nothing
  | effects (n : ℕ)
  | everything
  deriving DecidableEq, Repr

inductive Outcome (ε : Type*)
  | returned
  | raised (e : ε)
  | cutOff

namespace Reach

def performed : Reach → List α → List α
  | .nothing, _ => []
  | .effects n, fs => fs.take n
  | .everything, fs => fs

def furthest : Reach → Reach → Reach
  | .nothing, r => r
  | q, .nothing => q
  | .effects n, .effects m => .effects (max n m)
  | _, _ => .everything

def furthestOf (rs : List Reach) : Reach := rs.foldl furthest .nothing

@[simp] theorem furthest_nothing (q : Reach) : q.furthest .nothing = q := by cases q <;> rfl

theorem furthest_ne_nothing {q r : Reach} (hq : q ≠ .nothing) : q.furthest r ≠ .nothing := by
  cases q with
  | nothing => exact absurd rfl hq
  | effects n => cases r <;> exact nofun
  | everything => cases r <;> exact nofun

theorem performed_initial (r : Reach) (fs : List α) : r.performed fs <+: fs := by
  cases r with
  | nothing => exact List.nil_prefix
  | effects n => exact List.take_prefix n fs
  | everything => exact List.prefix_rfl

/-- The furthest of two executions performs what the longer of them performs. -/
theorem performed_furthest (q r : Reach) (fs : List α) :
    (q.performed fs <+: r.performed fs ∧ (q.furthest r).performed fs = r.performed fs) ∨
      (r.performed fs <+: q.performed fs ∧ (q.furthest r).performed fs = q.performed fs) := by
  cases q with
  | nothing => exact Or.inl ⟨List.nil_prefix, rfl⟩
  | everything => exact Or.inr ⟨r.performed_initial fs, by cases r <;> rfl⟩
  | effects n =>
    cases r with
    | nothing => exact Or.inr ⟨List.nil_prefix, rfl⟩
    | everything => exact Or.inl ⟨List.take_prefix n fs, rfl⟩
    | effects m =>
      rcases Nat.le_total n m with h | h
      · exact Or.inl ⟨List.take_prefix_take_left h, by rw [furthest, Nat.max_eq_right h]⟩
      · exact Or.inr ⟨List.take_prefix_take_left h, by rw [furthest, Nat.max_eq_left h]⟩

theorem foldl_furthest_everything (rs : List Reach) :
    rs.foldl furthest .everything = .everything := by
  induction rs with
  | nil => rfl
  | cons r rs ih =>
    rw [List.foldl_cons]
    cases r <;> exact ih

theorem furthestOf_everything {rs : List Reach} (h : .everything ∈ rs) :
    furthestOf rs = .everything := by
  obtain ⟨l, m, rfl⟩ := List.append_of_mem h
  have hlast : ∀ q : Reach, q.furthest .everything = .everything := by intro q; cases q <;> rfl
  rw [furthestOf, List.foldl_append, List.foldl_cons, hlast, foldl_furthest_everything]

end Reach

def applyAll (fs : List (σ → σ)) (s : σ) : σ := fs.foldl (fun s f => f s) s

theorem applyAll_append (fs gs : List (σ → σ)) (s : σ) :
    applyAll (fs ++ gs) s = applyAll gs (applyAll fs s) := List.foldl_append

theorem applyAll_fixed {fs : List (σ → σ)} {s : σ} (h : ∀ f ∈ fs, f s = s) :
    applyAll fs s = s := by
  induction fs with
  | nil => rfl
  | cons f fs ih =>
    rw [applyAll, List.foldl_cons, h f List.mem_cons_self]
    exact ih fun g hg => h g (List.mem_cons_of_mem f hg)

/-- Effects keep what each of them keeps. -/
theorem applyAll_keeps {β : Type*} {g : σ → β} {fs : List (σ → σ)}
    (h : ∀ f ∈ fs, ∀ s, g (f s) = g s) (s : σ) : g (applyAll fs s) = g s := by
  induction fs generalizing s with
  | nil => rfl
  | cons f fs ih =>
    rw [applyAll, List.foldl_cons]
    exact (ih (fun f' hf' => h f' (List.mem_cons_of_mem f hf')) (f s)).trans
      (h f List.mem_cons_self s)

namespace Task

/-- One execution: the state it leaves and how it ends. -/
def perform (t : Task σ ε) (r : Reach) (s : σ) : σ × Outcome ε :=
  if r = .nothing then (s, .cutOff)
  else match t.commit s with
    | .error e => (s, .raised e)
    | .ok s' => (applyAll (r.performed (t.effects s')) s',
        if r = .everything then .returned else .cutOff)

def performAll (t : Task σ ε) (rs : List Reach) (s : σ) : σ :=
  rs.foldl (fun s r => (t.perform r s).1) s

/-- The task accepts its own earlier effects: its commit finds nothing to do, and an effect
performed again among those performed changes nothing. -/
structure Repeatable (t : Task σ ε) : Prop where
  commit_again : ∀ s s' fs, t.commit s = .ok s' → fs <+: t.effects s' →
    t.commit (applyAll fs s') = .ok (applyAll fs s')
  effects_again : ∀ s s' fs, t.commit s = .ok s' → fs <+: t.effects s' →
    t.effects (applyAll fs s') = t.effects s'
  settled : ∀ s s' fs, t.commit s = .ok s' → fs <+: t.effects s' →
    ∀ f ∈ fs, f (applyAll fs s') = applyAll fs s'

variable {t : Task σ ε}

theorem applyAll_furthest (h : t.Repeatable) {s s' : σ} (hs : t.commit s = .ok s')
    (q r : Reach) : applyAll (r.performed (t.effects s')) (applyAll (q.performed (t.effects s')) s') =
      applyAll ((q.furthest r).performed (t.effects s')) s' := by
  have hsettled := h.settled s s' _ hs (q.performed_initial _)
  rcases q.performed_furthest r (t.effects s') with ⟨⟨rest, hrest⟩, hfar⟩ | ⟨hlonger, hfar⟩
  · rw [hfar, ← hrest, applyAll_append, applyAll_fixed hsettled, ← applyAll_append]
  · rw [hfar]
    exact applyAll_fixed fun f hf => hsettled f (hlonger.subset hf)

/-- An execution after another one ends as it would have ended alone, and leaves what the
further of the two leaves. -/
theorem perform_again (h : t.Repeatable) (q r : Reach) (s : σ) :
    t.perform r (t.perform q s).1 = ((t.perform (q.furthest r) s).1, (t.perform r s).2) := by
  by_cases hq : q = .nothing
  · subst hq
    rfl
  by_cases hr : r = .nothing
  · subst hr
    rw [Reach.furthest_nothing]
    rfl
  have hfar : q.furthest r ≠ .nothing := Reach.furthest_ne_nothing hq
  simp only [perform, if_neg hq, if_neg hr, if_neg hfar]
  cases hs : t.commit s with
  | error e => simp only [hs]
  | ok s' =>
    have hlonger := q.performed_initial (t.effects s')
    simp only [h.commit_again s s' _ hs hlonger, h.effects_again s s' _ hs hlonger,
      applyAll_furthest h hs]

theorem performAll_perform (h : t.Repeatable) (rs : List Reach) (q : Reach) (s : σ) :
    t.performAll rs (t.perform q s).1 = (t.perform (rs.foldl Reach.furthest q) s).1 := by
  induction rs generalizing q with
  | nil => rfl
  | cons r rs ih =>
    have hstep := congrArg Prod.fst (perform_again h q r s)
    rw [performAll, List.foldl_cons, hstep]
    exact ih (q.furthest r)

/-- Run lemma of one task: repetitions leave what the furthest of them leaves. -/
theorem performAll_eq (h : t.Repeatable) (rs : List Reach) (s : σ) :
    t.performAll rs s = (t.perform (Reach.furthestOf rs) s).1 :=
  performAll_perform h rs .nothing s

/-- A repetition ends as it would have ended without the earlier ones. -/
theorem outcome_eq (h : t.Repeatable) (rs : List Reach) (r : Reach) (s : σ) :
    (t.perform r (t.performAll rs s)).2 = (t.perform r s).2 := by
  rw [performAll_eq h, perform_again h]

end Task

/-- The tasks one after the other, each with its executions. -/
def runAll (run : List (Task σ ε × List Reach)) (s : σ) : σ :=
  run.foldl (fun s x => x.1.performAll x.2 s) s

/-- Run lemma: executing every task repeatedly is executing it once, as far as the furthest
repetition got. -/
theorem runAll_once {run : List (Task σ ε × List Reach)} (h : ∀ x ∈ run, x.1.Repeatable) (s : σ) :
    runAll run s = runAll (run.map fun x => (x.1, [Reach.furthestOf x.2])) s := by
  induction run generalizing s with
  | nil => rfl
  | cons x run ih =>
    have hx : x.1.performAll x.2 s = x.1.performAll [Reach.furthestOf x.2] s :=
      Task.performAll_eq (h x List.mem_cons_self) x.2 s
    rw [runAll, List.foldl_cons, hx]
    exact ih (fun y hy => h y (List.mem_cons_of_mem x hy)) _

end Redelivery
