import Mathlib.Data.List.Basic
import Mathlib.Tactic

/-!
# Programs that act on their environment

A program asks for effects and goes on with the answers. A run records every effect
with its answer. `wp` is the weakest condition on the past under which every run ends
in a given relation between trace and result; the rules below compute it along the
structure of a program, also of one that may raise.
-/

namespace Interaction

variable {E : Type} {R : E → Type} {α β ε : Type}

inductive Program (E : Type) (R : E → Type) (α : Type)
  | done (a : α)
  | ask (e : E) (next : R e → Program E R α)

def Program.bind : Program E R α → (α → Program E R β) → Program E R β
  | .done a, f => f a
  | .ask e next, f => .ask e fun r => (next r).bind f

instance : Monad (Program E R) where
  pure := .done
  bind := .bind

/-- One effect. -/
def perform (e : E) : Program E R (R e) := .ask e .done

abbrev Trace (R : E → Type) := List (Σ e, R e)

/-- The runs of a program: what it did, with the answers it got, and its result. -/
inductive Runs : Program E R α → Trace R → α → Prop
  | done (a : α) : Runs (.done a) [] a
  | ask {e : E} {next : R e → Program E R α} (r : R e) {t : Trace R} {a : α}
      (h : Runs (next r) t a) : Runs (.ask e next) (⟨e, r⟩ :: t) a

/-- Every run that starts after `past` ends with a trace and a result in `Q`. -/
def wp : Program E R α → (Trace R → α → Prop) → Trace R → Prop
  | .done a, Q, past => Q past a
  | .ask e next, Q, past => ∀ r, wp (next r) Q (past ++ [⟨e, r⟩])

theorem wp_iff (p : Program E R α) (Q : Trace R → α → Prop) (past : Trace R) :
    wp p Q past ↔ ∀ t a, Runs p t a → Q (past ++ t) a := by
  induction p generalizing past with
  | done a =>
      constructor
      · rintro h t b ⟨⟩
        rwa [List.append_nil]
      · intro h
        have hend := h [] a (.done a)
        rwa [List.append_nil] at hend
  | ask e next ih =>
      constructor
      · intro h t a hrun
        cases hrun with
        | ask r hrest =>
            have hnext := (ih r (past ++ [⟨e, r⟩])).mp (h r) _ a hrest
            rwa [List.append_assoc] at hnext
      · intro h r
        refine (ih r (past ++ [⟨e, r⟩])).mpr fun t a hrest => ?_
        rw [List.append_assoc]
        exact h _ a (.ask r hrest)

/-- How a claim about every run is proved. -/
theorem runs_of_wp {p : Program E R α} {Q : Trace R → α → Prop} (h : wp p Q []) {t : Trace R}
    {a : α} (hrun : Runs p t a) : Q t a :=
  (wp_iff p Q []).mp h t a hrun

theorem wp_mono {p : Program E R α} {Q Q' : Trace R → α → Prop} (hQ : ∀ t a, Q t a → Q' t a)
    {past : Trace R} (h : wp p Q past) : wp p Q' past := by
  induction p generalizing past with
  | done a => exact hQ past a h
  | ask e next ih => exact fun r => ih r (h r)

/-- A trace only grows. -/
theorem wp_grows {p : Program E R α} {Q : Trace R → α → Prop} {past : Trace R}
    (h : wp p Q past) : wp p (fun t a => past <+: t ∧ Q t a) past :=
  (wp_iff p _ past).mpr fun t a hrun =>
    ⟨List.prefix_append past t, (wp_iff p Q past).mp h t a hrun⟩

theorem wp_trivial (p : Program E R α) (past : Trace R) : wp p (fun _ _ => True) past :=
  (wp_iff p _ past).mpr fun _ _ _ => trivial

@[simp] theorem wp_pure (a : α) (Q : Trace R → α → Prop) (past : Trace R) :
    wp (pure a : Program E R α) Q past ↔ Q past a := Iff.rfl

@[simp] theorem wp_perform (e : E) (Q : Trace R → R e → Prop) (past : Trace R) :
    wp (perform e) Q past ↔ ∀ r, Q (past ++ [⟨e, r⟩]) r := Iff.rfl

@[simp] theorem wp_bind (p : Program E R α) (f : α → Program E R β) (Q : Trace R → β → Prop)
    (past : Trace R) : wp (p >>= f) Q past ↔ wp p (fun t a => wp (f a) Q t) past := by
  change wp (p.bind f) Q past ↔ _
  induction p generalizing past with
  | done a => rfl
  | ask e next ih => exact forall_congr' fun r => ih r _

/-- A trace splits in one way at its only event of a kind. -/
theorem split_unique {γ δ : Type*} {f : γ → Option δ} {pre post pre' post' : List γ} {x x' : γ}
    (h : pre ++ x :: post = pre' ++ x' :: post') (hpre : pre.filterMap f = [])
    (hpost : post.filterMap f = []) (hx' : f x' ≠ none) : pre = pre' ∧ x = x' ∧ post = post' := by
  have hother (l r : List γ) : (l ++ x' :: r).filterMap f ≠ [] := by
    rw [List.filterMap_append]
    obtain ⟨b, hb⟩ := Option.ne_none_iff_exists'.mp hx'
    simp [hb]
  rcases List.append_eq_append_iff.mp h with ⟨c, rfl, hc⟩ | ⟨c, rfl, hc⟩
  · cases c with
    | nil => exact ⟨(List.append_nil _).symm, List.cons.inj hc⟩
    | cons z c =>
        rw [(List.cons.inj hc).2] at hpost
        exact absurd hpost (hother c post')
  · cases c with
    | nil => exact ⟨List.append_nil _, (List.cons.inj hc).1.symm, (List.cons.inj hc).2.symm⟩
    | cons z c =>
        rw [← (List.cons.inj hc).1] at hpre
        exact absurd hpre (hother pre' c)

/-! ### Raising -/

/-- A program that may raise. -/
abbrev Action (E : Type) (R : E → Type) (ε : Type) := ExceptT ε (Program E R)

/-- One effect of an action. -/
def act (e : E) : Action E R ε (R e) := ExceptT.lift (perform e)

/-- One effect whose answer is an exception or a value. -/
def call {γ : Type} (e : E) (answer : R e → Except ε γ) : Action E R ε γ :=
  ExceptT.mk (perform e >>= fun r => pure (answer r))

/-- An exception or a value without an effect. -/
def fromExcept (x : Except ε α) : Action E R ε α := ExceptT.mk (pure x)

@[simp] theorem wp_fromExcept (x : Except ε α) (Q : Trace R → Except ε α → Prop)
    (past : Trace R) : wp (fromExcept x : Action E R ε α).run Q past ↔ Q past x := Iff.rfl

@[simp] theorem wp_act (e : E) (Q : Trace R → Except ε (R e) → Prop) (past : Trace R) :
    wp (act e : Action E R ε (R e)).run Q past ↔ ∀ r, Q (past ++ [⟨e, r⟩]) (.ok r) := Iff.rfl

@[simp] theorem wp_call {γ : Type} (e : E) (answer : R e → Except ε γ)
    (Q : Trace R → Except ε γ → Prop) (past : Trace R) :
    wp (call e answer).run Q past ↔ ∀ r, Q (past ++ [⟨e, r⟩]) (answer r) := Iff.rfl

@[simp] theorem wp_run_pure (a : α) (Q : Trace R → Except ε α → Prop) (past : Trace R) :
    wp (pure a : Action E R ε α).run Q past ↔ Q past (.ok a) := Iff.rfl

@[simp] theorem wp_run_throw (e : ε) (Q : Trace R → Except ε α → Prop) (past : Trace R) :
    wp (throw e : Action E R ε α).run Q past ↔ Q past (.error e) := Iff.rfl

@[simp] theorem wp_run_bind (p : Action E R ε α) (f : α → Action E R ε β)
    (Q : Trace R → Except ε β → Prop) (past : Trace R) :
    wp (p >>= f).run Q past ↔
      wp p.run (fun t r => match r with
        | .ok a => wp (f a).run Q t
        | .error e => Q t (.error e)) past := by
  change wp (p.run >>= ExceptT.bindCont f) Q past ↔ _
  rw [wp_bind]
  constructor
  · refine wp_mono fun t r h => ?_
    cases r with
    | ok a => exact h
    | error e => exact h
  · refine wp_mono fun t r h => ?_
    cases r with
    | ok a => exact h
    | error e => exact h

@[simp] theorem wp_run_tryCatch (p : Action E R ε α) (handle : ε → Action E R ε α)
    (Q : Trace R → Except ε α → Prop) (past : Trace R) :
    wp (tryCatch p handle).run Q past ↔
      wp p.run (fun t r => match r with
        | .ok a => Q t (.ok a)
        | .error e => wp (handle e).run Q t) past := by
  change wp (p.run >>= _) Q past ↔ _
  rw [wp_bind]
  constructor
  · refine wp_mono fun t r h => ?_
    cases r with
    | ok a => exact h
    | error e => exact h
  · refine wp_mono fun t r h => ?_
    cases r with
    | ok a => exact h
    | error e => exact h

/-! ### How a program goes on -/

theorem run_bind_of_error {p : Action E R ε α} {e : ε} (h : p.run = .done (.error e))
    (f : α → Action E R ε β) : (p >>= f).run = .done (.error e) := by
  change (p.run >>= ExceptT.bindCont f) = _
  rw [h]
  rfl

theorem run_bind_of_ok {p : Action E R ε α} {a : α} (h : p.run = .done (.ok a))
    (f : α → Action E R ε β) : (p >>= f).run = (f a).run := by
  change (p.run >>= ExceptT.bindCont f) = _
  rw [h]
  rfl

theorem run_bind_of_ask {p : Action E R ε α} {e : E} {next : R e → Program E R (Except ε α)}
    (h : p.run = .ask e next) (f : α → Action E R ε β) : ∃ next', (p >>= f).run = .ask e next' := by
  change ∃ next', (p.run >>= ExceptT.bindCont f) = .ask e next'
  rw [h]
  exact ⟨_, rfl⟩

theorem Runs.bind {p : Program E R α} {f : α → Program E R β} {t u : Trace R} {a : α} {b : β}
    (hp : Runs p t a) (hf : Runs (f a) u b) : Runs (p >>= f) (t ++ u) b := by
  change Runs (p.bind f) (t ++ u) b
  induction hp with
  | done a => exact hf
  | ask r _ ih => exact .ask r (ih hf)

theorem Runs.run_bind {p : Action E R ε α} {f : α → Action E R ε β} {t u : Trace R} {a : α}
    {b : Except ε β} (hp : Runs p.run t (.ok a)) (hf : Runs (f a).run u b) :
    Runs (p >>= f).run (t ++ u) b :=
  Runs.bind (f := ExceptT.bindCont f) hp hf

theorem runs_call {γ : Type} (e : E) (answer : R e → Except ε γ) (r : R e) :
    Runs (call e answer).run [⟨e, r⟩] (answer r) :=
  .ask r (.done _)

/-! ### What a program starts -/

/-- After `t` the program performs `e`, whether or not an answer comes. -/
inductive Starts : Program E R α → Trace R → E → Prop
  | now (e : E) (next : R e → Program E R α) : Starts (.ask e next) [] e
  | later {e e' : E} {next : R e → Program E R α} (r : R e) {t : Trace R}
      (h : Starts (next r) t e') : Starts (.ask e next) (⟨e, r⟩ :: t) e'

/-- The rest starts what it starts after a part that has run. -/
theorem Runs.starts_bind {p : Program E R α} {f : α → Program E R β} {t u : Trace R} {a : α}
    {e : E} (hp : Runs p t a) (hf : Starts (f a) u e) : Starts (p >>= f) (t ++ u) e := by
  change Starts (p.bind f) (t ++ u) e
  induction hp with
  | done a => exact hf
  | ask r _ ih => exact .later r (ih hf)

theorem Runs.starts_run_bind {p : Action E R ε α} {f : α → Action E R ε β} {t u : Trace R}
    {a : α} {e : E} (hp : Runs p.run t (.ok a)) (hf : Starts (f a).run u e) :
    Starts (p >>= f).run (t ++ u) e :=
  Runs.starts_bind (f := ExceptT.bindCont f) hp hf

/-- Every effect that starts after `past` meets `G`, and every run ends in `Q`. -/
def Safe (G : Trace R → E → Prop) : Program E R α → (Trace R → α → Prop) → Trace R → Prop
  | .done a, Q, past => Q past a
  | .ask e next, Q, past => G past e ∧ ∀ r, Safe G (next r) Q (past ++ [⟨e, r⟩])

section Safety

variable {G : Trace R → E → Prop}

theorem Safe.starts {p : Program E R α} {Q : Trace R → α → Prop} {past : Trace R}
    (h : Safe G p Q past) {t : Trace R} {e : E} (hstart : Starts p t e) : G (past ++ t) e := by
  induction hstart generalizing past with
  | now e next =>
      rw [List.append_nil]
      exact h.1
  | later r _ ih =>
      have hrest := ih (h.2 r)
      rwa [List.append_assoc] at hrest

theorem Safe.mono {Q Q' : Trace R → α → Prop} (hQ : ∀ t a, Q t a → Q' t a) {p : Program E R α}
    {past : Trace R} (h : Safe G p Q past) : Safe G p Q' past := by
  induction p generalizing past with
  | done a => exact hQ past a h
  | ask e next ih => exact ⟨h.1, fun r => ih r (h.2 r)⟩

/-- A weaker guard, where something holds of the past for good. -/
theorem Safe.guard {G' : Trace R → E → Prop} {D : Trace R → Prop}
    (hlast : ∀ t x, D t → D (t ++ [x])) (hG : ∀ t e, D t → G t e → G' t e) {p : Program E R α}
    {Q : Trace R → α → Prop} {past : Trace R} (h : Safe G p Q past) (hpast : D past) :
    Safe G' p Q past := by
  induction p generalizing past with
  | done a => exact h
  | ask e next ih =>
      exact ⟨hG past e hpast h.1, fun r => ih r (h.2 r) (hlast past _ hpast)⟩

theorem Safe.wp {p : Program E R α} {Q : Trace R → α → Prop} {past : Trace R}
    (h : Safe G p Q past) : wp p Q past := by
  induction p generalizing past with
  | done a => exact h
  | ask e next ih => exact fun r => ih r (h.2 r)

theorem safe_of_wp {p : Program E R α} {Q : Trace R → α → Prop} {past : Trace R}
    (h : Interaction.wp p Q past) (hG : ∀ t e, Starts p t e → G (past ++ t) e) :
    Safe G p Q past := by
  induction p generalizing past with
  | done a => exact h
  | ask e next ih =>
      refine ⟨List.append_nil past ▸ hG [] e (.now e next), fun r => ih r (h r) ?_⟩
      intro t e' hstart
      rw [List.append_assoc]
      exact hG _ e' (.later r hstart)

@[simp] theorem safe_pure (a : α) (Q : Trace R → α → Prop) (past : Trace R) :
    Safe G (pure a : Program E R α) Q past ↔ Q past a := Iff.rfl

@[simp] theorem safe_perform (e : E) (Q : Trace R → R e → Prop) (past : Trace R) :
    Safe G (perform e) Q past ↔ G past e ∧ ∀ r, Q (past ++ [⟨e, r⟩]) r := Iff.rfl

@[simp] theorem safe_bind (p : Program E R α) (f : α → Program E R β) (Q : Trace R → β → Prop)
    (past : Trace R) : Safe G (p >>= f) Q past ↔ Safe G p (fun t a => Safe G (f a) Q t) past := by
  change Safe G (p.bind f) Q past ↔ _
  induction p generalizing past with
  | done a => rfl
  | ask e next ih => exact and_congr_right fun _ => forall_congr' fun r => ih r _

end Safety

/-- Every effect the program may perform is of one kind. -/
inductive Only (P : E → Prop) : Program E R α → Prop
  | done (a : α) : Only P (.done a)
  | ask {e : E} {next : R e → Program E R α} (he : P e) (hnext : ∀ r, Only P (next r)) :
      Only P (.ask e next)

section Kinds

variable {P : E → Prop}

/-- A program of one kind of effects, which the guard lets start once something holds of the
past for good. -/
theorem Only.safe {G : Trace R → E → Prop} {D : Trace R → Prop}
    (hlast : ∀ t (x : Σ e, R e), P x.1 → D t → D (t ++ [x]))
    (hG : ∀ t e, D t → P e → G t e) {p : Program E R α} (h : Only P p) {past : Trace R}
    (hpast : D past) : Safe G p (fun t _ => D t ∧ past <+: t) past := by
  induction h generalizing past with
  | done a => exact ⟨hpast, List.prefix_rfl⟩
  | @ask e next he hnext ih =>
      refine ⟨hG past e hpast he, fun r => (ih r (hlast past ⟨e, r⟩ he hpast)).mono ?_⟩
      exact fun t a h => ⟨h.1, (List.prefix_append past [⟨e, r⟩]).trans h.2⟩

theorem Only.mono {P' : E → Prop} (hP : ∀ e, P e → P' e) {p : Program E R α} (h : Only P p) :
    Only P' p := by
  induction h with
  | done a => exact .done a
  | ask he _ ih => exact .ask (hP _ he) ih

/-- What effects of one kind keep, a program of that kind keeps. -/
theorem Only.wp {D : Trace R → Prop} (hlast : ∀ t (x : Σ e, R e), P x.1 → D t → D (t ++ [x]))
    {p : Program E R α} (h : Only P p) {past : Trace R} (hpast : D past) :
    wp p (fun t _ => D t) past :=
  wp_mono (fun _ _ ht => ht.1)
    (h.safe (G := fun _ _ => True) hlast (fun _ _ _ _ => trivial) hpast).wp

theorem Only.starts {p : Program E R α} (h : Only P p) {t : Trace R} {e : E}
    (hstart : Starts p t e) : P e := by
  induction hstart with
  | now e next =>
      cases h with
      | ask he _ => exact he
  | later r _ ih =>
      cases h with
      | ask _ hnext => exact ih (hnext r)

theorem Only.exists_runs (hP : ∀ e, P e → Nonempty (R e)) {p : Program E R α} (h : Only P p) :
    ∃ t a, Runs p t a := by
  induction h with
  | done a => exact ⟨[], a, .done a⟩
  | @ask e next he _ ih =>
      obtain ⟨r⟩ := hP e he
      obtain ⟨t, a, hrun⟩ := ih r
      exact ⟨⟨e, r⟩ :: t, a, .ask r hrun⟩

/-- Where every effect can be answered, what has happened so far begins a run. -/
theorem Starts.exists_runs (hP : ∀ e, P e → Nonempty (R e)) {p : Program E R α} (h : Only P p)
    {t : Trace R} {e : E} (hstart : Starts p t e) : ∃ t' a, Runs p (t ++ t') a := by
  induction hstart with
  | now e next => exact h.exists_runs hP
  | later r _ ih =>
      cases h with
      | ask _ hnext =>
          obtain ⟨t', a, hrun⟩ := ih (hnext r)
          exact ⟨t', a, .ask r hrun⟩

theorem only_pure (a : α) : Only P (pure a : Program E R α) := .done a

theorem only_perform {e : E} (he : P e) : Only P (perform e : Program E R (R e)) :=
  .ask he .done

theorem only_bind {p : Program E R α} {f : α → Program E R β} (hp : Only P p)
    (hf : ∀ a, Only P (f a)) : Only P (p >>= f) := by
  change Only P (p.bind f)
  induction hp with
  | done a => exact hf a
  | ask he _ ih => exact .ask he ih

end Kinds

/-! ### What an action starts -/

section Actions

variable {G : Trace R → E → Prop} {P : E → Prop}

@[simp] theorem safe_fromExcept (x : Except ε α) (Q : Trace R → Except ε α → Prop)
    (past : Trace R) : Safe G (fromExcept x : Action E R ε α).run Q past ↔ Q past x := Iff.rfl

@[simp] theorem safe_call {γ : Type} (e : E) (answer : R e → Except ε γ)
    (Q : Trace R → Except ε γ → Prop) (past : Trace R) :
    Safe G (call e answer).run Q past ↔
      G past e ∧ ∀ r, Q (past ++ [⟨e, r⟩]) (answer r) := Iff.rfl

@[simp] theorem safe_lift (p : Program E R α) (Q : Trace R → Except ε α → Prop)
    (past : Trace R) : Safe G (ExceptT.lift p : Action E R ε α).run Q past ↔
      Safe G p (fun t a => Q t (.ok a)) past := safe_bind ..

@[simp] theorem safe_run_pure (a : α) (Q : Trace R → Except ε α → Prop) (past : Trace R) :
    Safe G (pure a : Action E R ε α).run Q past ↔ Q past (.ok a) := Iff.rfl

@[simp] theorem safe_run_throw (e : ε) (Q : Trace R → Except ε α → Prop) (past : Trace R) :
    Safe G (throw e : Action E R ε α).run Q past ↔ Q past (.error e) := Iff.rfl

@[simp] theorem safe_run_bind (p : Action E R ε α) (f : α → Action E R ε β)
    (Q : Trace R → Except ε β → Prop) (past : Trace R) :
    Safe G (p >>= f).run Q past ↔
      Safe G p.run (fun t r => match r with
        | .ok a => Safe G (f a).run Q t
        | .error e => Q t (.error e)) past := by
  change Safe G (p.run >>= ExceptT.bindCont f) Q past ↔ _
  rw [safe_bind]
  constructor
  · refine Safe.mono fun t r h => ?_
    cases r with
    | ok a => exact h
    | error e => exact h
  · refine Safe.mono fun t r h => ?_
    cases r with
    | ok a => exact h
    | error e => exact h

@[simp] theorem safe_run_tryCatch (p : Action E R ε α) (handle : ε → Action E R ε α)
    (Q : Trace R → Except ε α → Prop) (past : Trace R) :
    Safe G (tryCatch p handle).run Q past ↔
      Safe G p.run (fun t r => match r with
        | .ok a => Q t (.ok a)
        | .error e => Safe G (handle e).run Q t) past := by
  change Safe G (p.run >>= _) Q past ↔ _
  rw [safe_bind]
  constructor
  · refine Safe.mono fun t r h => ?_
    cases r with
    | ok a => exact h
    | error e => exact h
  · refine Safe.mono fun t r h => ?_
    cases r with
    | ok a => exact h
    | error e => exact h

theorem only_fromExcept (x : Except ε α) : Only P (fromExcept x : Action E R ε α).run := .done x

theorem only_call {γ : Type} {e : E} (answer : R e → Except ε γ) (he : P e) :
    Only P (call e answer).run := .ask he fun r => .done (answer r)

theorem only_run_pure (a : α) : Only P (pure a : Action E R ε α).run := .done _

theorem only_run_throw (e : ε) : Only P (throw e : Action E R ε α).run := .done _

theorem only_run_bind {p : Action E R ε α} {f : α → Action E R ε β} (hp : Only P p.run)
    (hf : ∀ a, Only P (f a).run) : Only P (p >>= f).run := by
  refine only_bind hp fun r => ?_
  cases r with
  | ok a => exact hf a
  | error e => exact .done _

theorem only_run_ite {c : Prop} [Decidable c] {p q : Action E R ε α} (hp : Only P p.run)
    (hq : Only P q.run) : Only P (if c then p else q).run := by
  split
  · exact hp
  · exact hq

theorem only_run_tryCatch {p : Action E R ε α} {handle : ε → Action E R ε α}
    (hp : Only P p.run) (hhandle : ∀ e, Only P (handle e).run) :
    Only P (tryCatch p handle).run := by
  refine only_bind hp fun r => ?_
  cases r with
  | ok a => exact .done _
  | error e => exact hhandle e

end Actions

/-! ### Documented answers -/

/-- Every run in which the answers are as `S` says ends in `Q`. -/
def Ends (S : (e : E) → R e → Prop) : Program E R α → (α → Prop) → Prop
  | .done a, Q => Q a
  | .ask e next, Q => ∀ r, S e r → Ends S (next r) Q

section Documented

variable {S : (e : E) → R e → Prop}

theorem ends_iff (p : Program E R α) (Q : α → Prop) :
    Ends S p Q ↔ ∀ t a, Runs p t a → (∀ x ∈ t, S x.1 x.2) → Q a := by
  induction p with
  | done a =>
      constructor
      · rintro h t b ⟨⟩ -
        exact h
      · intro h
        exact h [] a (.done a) fun x hx => absurd hx List.not_mem_nil
  | ask e next ih =>
      constructor
      · intro h t a hrun hS
        cases hrun with
        | ask r hrest =>
            have hr : S e r := hS ⟨e, r⟩ List.mem_cons_self
            exact (ih r).mp (h r hr) _ a hrest fun x hx => hS x (List.mem_cons_of_mem _ hx)
      · intro h r hr
        refine (ih r).mpr fun t a hrest hS => h _ a (.ask r hrest) fun x hx => ?_
        rcases List.mem_cons.mp hx with rfl | hx
        · exact hr
        · exact hS x hx

theorem Ends.mono {p : Program E R α} {Q Q' : α → Prop} (h : Ends S p Q)
    (hQ : ∀ a, Q a → Q' a) : Ends S p Q' := by
  induction p with
  | done a => exact hQ a h
  | ask e next ih => exact fun r hr => ih r (h r hr)

@[simp] theorem ends_bind (p : Program E R α) (f : α → Program E R β) (Q : β → Prop) :
    Ends S (p >>= f) Q ↔ Ends S p fun a => Ends S (f a) Q := by
  change Ends S (p.bind f) Q ↔ _
  induction p with
  | done a => rfl
  | ask e next ih => exact forall_congr' fun r => imp_congr_right fun _ => ih r

/-- A result that is a value in `V` or an exception in `X`. -/
def Post (V : α → Prop) (X : ε → Prop) : Except ε α → Prop
  | .ok a => V a
  | .error e => X e

variable {V : α → Prop} {X : ε → Prop} {W : β → Prop}

theorem ends_call {γ : Type} {U : γ → Prop} (e : E) (answer : R e → Except ε γ)
    (h : ∀ r, S e r → Post U X (answer r)) : Ends S (call e answer).run (Post U X) := h

theorem ends_fromExcept {x : Except ε α} (h : Post V X x) :
    Ends S (fromExcept x : Action E R ε α).run (Post V X) := h

theorem ends_run_pure {a : α} (h : V a) :
    Ends S (pure a : Action E R ε α).run (Post V X) := h

theorem ends_run_throw {e : ε} (h : X e) :
    Ends S (throw e : Action E R ε α).run (Post V X) := h

theorem ends_run_bind {p : Action E R ε α} {f : α → Action E R ε β}
    (hp : Ends S p.run (Post V X)) (hf : ∀ a, V a → Ends S (f a).run (Post W X)) :
    Ends S (p >>= f).run (Post W X) := by
  change Ends S (p.run >>= ExceptT.bindCont f) _
  refine (ends_bind ..).mpr (hp.mono fun r hr => ?_)
  cases r with
  | ok a => exact hf a hr
  | error e => exact hr

theorem ends_run_lift {p : Program E R α} (h : Ends S p V) :
    Ends S (ExceptT.lift p : Action E R ε α).run (Post V X) :=
  (ends_bind ..).mpr (h.mono fun _ ha => ha)

theorem Ends.and {p : Program E R α} {Q Q' : α → Prop} (h : Ends S p Q) (h' : Ends S p Q') :
    Ends S p fun a => Q a ∧ Q' a := by
  induction p with
  | done a => exact ⟨h, h'⟩
  | ask e next ih => exact fun r hr => ih r (h r hr) (h' r hr)

theorem ends_trivial (p : Program E R α) : Ends S p fun _ => True :=
  (ends_iff ..).mpr fun _ _ _ _ => True.intro

theorem ends_run_ite {c : Prop} [Decidable c] {p q : Action E R ε α}
    (hp : Ends S p.run (Post V X)) (hq : Ends S q.run (Post V X)) :
    Ends S (if c then p else q).run (Post V X) := by
  split
  · exact hp
  · exact hq

end Documented

/-! ### Actions with variables

The variables keep their values when an exception is raised. -/

abbrev Stateful (E : Type) (R : E → Type) (σ ε : Type) := ExceptT ε (StateT σ (Program E R))

namespace Stateful

variable {σ : Type} {P : E → Prop}

abbrev start (p : Stateful E R σ ε α) (s : σ) : Program E R (Except ε α × σ) := p.run.run s

/-- An action that leaves the variables alone. -/
def lift (p : Action E R ε α) : Stateful E R σ ε α :=
  ExceptT.mk fun s => p.run >>= fun r => pure (r, s)

def read : Stateful E R σ ε σ := ExceptT.mk fun s => pure (.ok s, s)

def assign (f : σ → σ) : Stateful E R σ ε Unit := ExceptT.mk fun s => pure (.ok (), f s)

/-- `try: p finally: q`. -/
def finally' (p : Stateful E R σ ε α) (q : Stateful E R σ ε Unit) : Stateful E R σ ε α :=
  ExceptT.mk fun s => p.start s >>= fun r =>
    q.start r.2 >>= fun last => match last.1 with
      | .ok _ => pure (r.1, last.2)
      | .error e => pure (.error e, last.2)

@[simp] theorem wp_pure (a : α) (s : σ) (Q : Trace R → Except ε α × σ → Prop)
    (past : Trace R) :
    wp (start (pure a : Stateful E R σ ε α) s) Q past ↔ Q past (.ok a, s) := Iff.rfl

@[simp] theorem wp_throw (e : ε) (s : σ) (Q : Trace R → Except ε α × σ → Prop)
    (past : Trace R) :
    wp (start (throw e : Stateful E R σ ε α) s) Q past ↔ Q past (.error e, s) := Iff.rfl

@[simp] theorem wp_read (s : σ) (Q : Trace R → Except ε σ × σ → Prop) (past : Trace R) :
    wp (start (read : Stateful E R σ ε σ) s) Q past ↔ Q past (.ok s, s) := Iff.rfl

@[simp] theorem wp_assign (f : σ → σ) (s : σ) (Q : Trace R → Except ε Unit × σ → Prop)
    (past : Trace R) :
    wp (start (assign f : Stateful E R σ ε Unit) s) Q past ↔ Q past (.ok (), f s) := Iff.rfl

@[simp] theorem wp_lift (p : Action E R ε α) (s : σ) (Q : Trace R → Except ε α × σ → Prop)
    (past : Trace R) : wp (start (lift p) s) Q past ↔ wp p.run (fun t r => Q t (r, s)) past :=
  wp_bind ..

@[simp] theorem wp_start_bind (p : Stateful E R σ ε α) (f : α → Stateful E R σ ε β) (s : σ)
    (Q : Trace R → Except ε β × σ → Prop) (past : Trace R) :
    wp (start (p >>= f) s) Q past ↔
      wp (p.start s) (fun t r => match r.1 with
        | .ok a => wp ((f a).start r.2) Q t
        | .error e => Q t (.error e, r.2)) past := by
  change wp (p.start s >>= fun r => (ExceptT.bindCont f r.1).run r.2) Q past ↔ _
  rw [wp_bind]
  constructor
  · refine wp_mono fun t r h => ?_
    rcases r with ⟨_ | _, _⟩ <;> exact h
  · refine wp_mono fun t r h => ?_
    rcases r with ⟨_ | _, _⟩ <;> exact h

theorem wp_start_read_bind (f : σ → Stateful E R σ ε β) (s : σ)
    (Q : Trace R → Except ε β × σ → Prop) (past : Trace R) :
    wp (start (read >>= f) s) Q past ↔ wp ((f s).start s) Q past := Iff.rfl

theorem wp_start_assign_bind (g : σ → σ) (f : Unit → Stateful E R σ ε β) (s : σ)
    (Q : Trace R → Except ε β × σ → Prop) (past : Trace R) :
    wp (start (assign g >>= f) s) Q past ↔ wp ((f ()).start (g s)) Q past := Iff.rfl

theorem wp_start_lift_bind (p : Action E R ε α) (f : α → Stateful E R σ ε β) (s : σ)
    (Q : Trace R → Except ε β × σ → Prop) (past : Trace R) :
    wp (start (lift p >>= f) s) Q past ↔
      wp p.run (fun t r => match r with
        | .ok a => wp ((f a).start s) Q t
        | .error e => Q t (.error e, s)) past := by
  rw [wp_start_bind, wp_lift]

/-- One effect, and then the rest. -/
theorem wp_start_call_bind {γ : Type} (e : E) (answer : R e → Except ε γ)
    (f : γ → Stateful E R σ ε β) (s : σ) (Q : Trace R → Except ε β × σ → Prop)
    (past : Trace R) :
    wp (start (lift (call e answer) >>= f) s) Q past ↔
      ∀ r, match answer r with
        | .ok a => wp ((f a).start s) Q (past ++ [⟨e, r⟩])
        | .error x => Q (past ++ [⟨e, r⟩]) (.error x, s) := by
  rw [wp_start_bind, wp_lift, wp_call]
  refine forall_congr' fun r => ?_
  cases answer r with
  | ok a => exact Iff.rfl
  | error x => exact Iff.rfl

@[simp] theorem wp_start_tryCatch (p : Stateful E R σ ε α) (handle : ε → Stateful E R σ ε α)
    (s : σ) (Q : Trace R → Except ε α × σ → Prop) (past : Trace R) :
    wp (start (tryCatch p handle) s) Q past ↔
      wp (p.start s) (fun t r => match r.1 with
        | .ok a => Q t (.ok a, r.2)
        | .error e => wp ((handle e).start r.2) Q t) past := by
  change wp (p.start s >>= _) Q past ↔ _
  rw [wp_bind]
  constructor
  · refine wp_mono fun t r h => ?_
    rcases r with ⟨_ | _, _⟩ <;> exact h
  · refine wp_mono fun t r h => ?_
    rcases r with ⟨_ | _, _⟩ <;> exact h

@[simp] theorem wp_finally (p : Stateful E R σ ε α) (q : Stateful E R σ ε Unit) (s : σ)
    (Q : Trace R → Except ε α × σ → Prop) (past : Trace R) :
    wp (start (finally' p q) s) Q past ↔
      wp (p.start s) (fun t r => wp (q.start r.2) (fun t' last => match last.1 with
        | .ok _ => Q t' (r.1, last.2)
        | .error e => Q t' (.error e, last.2)) t) past := by
  change wp (p.start s >>= _) Q past ↔ _
  rw [wp_bind]
  have hlast (t : Trace R) (r : Except ε α × σ) :
      wp (q.start r.2 >>= fun last => match last.1 with
        | .ok _ => pure (r.1, last.2)
        | .error e => pure (.error e, last.2)) Q t ↔
      wp (q.start r.2) (fun t' last => match last.1 with
        | .ok _ => Q t' (r.1, last.2)
        | .error e => Q t' (.error e, last.2)) t := by
    rw [wp_bind]
    constructor
    · refine wp_mono fun t last h => ?_
      rcases last with ⟨_ | _, _⟩ <;> exact h
    · refine wp_mono fun t last h => ?_
      rcases last with ⟨_ | _, _⟩ <;> exact h
  exact ⟨wp_mono fun t r h => (hlast t r).mp h, wp_mono fun t r h => (hlast t r).mpr h⟩

section Safety

variable {G : Trace R → E → Prop}

@[simp] theorem safe_lift (p : Action E R ε α) (s : σ) (Q : Trace R → Except ε α × σ → Prop)
    (past : Trace R) :
    Safe G (start (lift p) s) Q past ↔ Safe G p.run (fun t r => Q t (r, s)) past := safe_bind ..

@[simp] theorem safe_start_bind (p : Stateful E R σ ε α) (f : α → Stateful E R σ ε β) (s : σ)
    (Q : Trace R → Except ε β × σ → Prop) (past : Trace R) :
    Safe G (start (p >>= f) s) Q past ↔
      Safe G (p.start s) (fun t r => match r.1 with
        | .ok a => Safe G ((f a).start r.2) Q t
        | .error e => Q t (.error e, r.2)) past := by
  change Safe G (p.start s >>= fun r => (ExceptT.bindCont f r.1).run r.2) Q past ↔ _
  rw [safe_bind]
  constructor
  · refine Safe.mono fun t r h => ?_
    rcases r with ⟨_ | _, _⟩ <;> exact h
  · refine Safe.mono fun t r h => ?_
    rcases r with ⟨_ | _, _⟩ <;> exact h

theorem safe_start_read_bind (f : σ → Stateful E R σ ε β) (s : σ)
    (Q : Trace R → Except ε β × σ → Prop) (past : Trace R) :
    Safe G (start (read >>= f) s) Q past ↔ Safe G ((f s).start s) Q past := Iff.rfl

theorem safe_start_assign_bind (g : σ → σ) (f : Unit → Stateful E R σ ε β) (s : σ)
    (Q : Trace R → Except ε β × σ → Prop) (past : Trace R) :
    Safe G (start (assign g >>= f) s) Q past ↔ Safe G ((f ()).start (g s)) Q past := Iff.rfl

@[simp] theorem safe_start_tryCatch (p : Stateful E R σ ε α) (handle : ε → Stateful E R σ ε α)
    (s : σ) (Q : Trace R → Except ε α × σ → Prop) (past : Trace R) :
    Safe G (start (tryCatch p handle) s) Q past ↔
      Safe G (p.start s) (fun t r => match r.1 with
        | .ok a => Q t (.ok a, r.2)
        | .error e => Safe G ((handle e).start r.2) Q t) past := by
  change Safe G (p.start s >>= _) Q past ↔ _
  rw [safe_bind]
  constructor
  · refine Safe.mono fun t r h => ?_
    rcases r with ⟨_ | _, _⟩ <;> exact h
  · refine Safe.mono fun t r h => ?_
    rcases r with ⟨_ | _, _⟩ <;> exact h

@[simp] theorem safe_finally (p : Stateful E R σ ε α) (q : Stateful E R σ ε Unit) (s : σ)
    (Q : Trace R → Except ε α × σ → Prop) (past : Trace R) :
    Safe G (start (finally' p q) s) Q past ↔
      Safe G (p.start s) (fun t r => Safe G (q.start r.2) (fun t' last => match last.1 with
        | .ok _ => Q t' (r.1, last.2)
        | .error e => Q t' (.error e, last.2)) t) past := by
  change Safe G (p.start s >>= _) Q past ↔ _
  rw [safe_bind]
  have hlast (t : Trace R) (r : Except ε α × σ) :
      Safe G (q.start r.2 >>= fun last => match last.1 with
        | .ok _ => pure (r.1, last.2)
        | .error e => pure (.error e, last.2)) Q t ↔
      Safe G (q.start r.2) (fun t' last => match last.1 with
        | .ok _ => Q t' (r.1, last.2)
        | .error e => Q t' (.error e, last.2)) t := by
    rw [safe_bind]
    constructor
    · refine Safe.mono fun t last h => ?_
      rcases last with ⟨_ | _, _⟩ <;> exact h
    · refine Safe.mono fun t last h => ?_
      rcases last with ⟨_ | _, _⟩ <;> exact h
  exact ⟨Safe.mono fun t r h => (hlast t r).mp h, Safe.mono fun t r h => (hlast t r).mpr h⟩

end Safety

/-- Whatever the variables are, the effects are of one kind. -/
structure Only (P : E → Prop) (p : Stateful E R σ ε α) : Prop where
  start : ∀ s, Interaction.Only P (p.start s)

theorem Only.mono {P' : E → Prop} (hP : ∀ e, P e → P' e) {p : Stateful E R σ ε α}
    (h : p.Only P) : p.Only P' :=
  ⟨fun s => (h.start s).mono hP⟩

theorem only_bind {p : Stateful E R σ ε α} {f : α → Stateful E R σ ε β} (hp : p.Only P)
    (hf : ∀ a, (f a).Only P) : (p >>= f).Only P := by
  constructor
  intro s
  refine Interaction.only_bind (hp.start s) fun r => ?_
  rcases r with ⟨_ | a, s'⟩
  · exact .done _
  · exact (hf a).start s'

theorem only_tryCatch {p : Stateful E R σ ε α} {handle : ε → Stateful E R σ ε α}
    (hp : p.Only P) (hhandle : ∀ e, (handle e).Only P) : (tryCatch p handle).Only P := by
  constructor
  intro s
  refine Interaction.only_bind (hp.start s) fun r => ?_
  rcases r with ⟨e | _, s'⟩
  · exact (hhandle e).start s'
  · exact .done _

theorem only_finally {p : Stateful E R σ ε α} {q : Stateful E R σ ε Unit} (hp : p.Only P)
    (hq : q.Only P) : (finally' p q).Only P := by
  constructor
  intro s
  refine Interaction.only_bind (hp.start s) fun r => ?_
  refine Interaction.only_bind (hq.start r.2) fun last => ?_
  rcases last with ⟨_ | _, _⟩
  · exact .done _
  · exact .done _

theorem only_pure (a : α) : (pure a : Stateful E R σ ε α).Only P :=
  ⟨fun _ => .done _⟩

theorem only_throw (e : ε) : (throw e : Stateful E R σ ε α).Only P :=
  ⟨fun _ => .done _⟩

theorem only_read : (read : Stateful E R σ ε σ).Only P :=
  ⟨fun _ => .done _⟩

theorem only_assign (f : σ → σ) : (assign f : Stateful E R σ ε Unit).Only P :=
  ⟨fun _ => .done _⟩

theorem only_lift {p : Action E R ε α} (hp : Interaction.Only P p.run) :
    (lift p : Stateful E R σ ε α).Only P :=
  ⟨fun _ => Interaction.only_bind hp fun _ => .done _⟩

/-- What holds of the variables before holds of them after, however the action ends. -/
structure Keeps (I : σ → Prop) (p : Stateful E R σ ε α) : Prop where
  start : ∀ s past, I s → wp (p.start s) (fun _ r => I r.2) past

section Keeping

variable {I : σ → Prop}

theorem keeps_bind {p : Stateful E R σ ε α} {f : α → Stateful E R σ ε β} (hp : p.Keeps I)
    (hf : ∀ a, (f a).Keeps I) : (p >>= f).Keeps I := by
  constructor
  intro s past hs
  refine (wp_start_bind ..).mpr (wp_mono ?_ (hp.start s past hs))
  rintro t ⟨_ | a, s'⟩ hs'
  · exact hs'
  · exact (hf a).start s' t hs'

theorem keeps_lift (p : Action E R ε α) : (lift p : Stateful E R σ ε α).Keeps I := by
  constructor
  intro s past hs
  exact (wp_lift ..).mpr ((wp_iff ..).mpr fun _ _ _ => hs)

theorem keeps_pure (a : α) : (pure a : Stateful E R σ ε α).Keeps I := ⟨fun _ _ hs => hs⟩

theorem keeps_read : (read : Stateful E R σ ε σ).Keeps I := ⟨fun _ _ hs => hs⟩

theorem keeps_assign {f : σ → σ} (hf : ∀ s, I s → I (f s)) :
    (assign f : Stateful E R σ ε Unit).Keeps I := ⟨fun s _ hs => hf s hs⟩

theorem keeps_ite {c : Prop} [Decidable c] {p q : Stateful E R σ ε α} (hp : p.Keeps I)
    (hq : q.Keeps I) : (if c then p else q).Keeps I := by
  split
  · exact hp
  · exact hq

end Keeping

/-- What holds of the past and the variables before holds of them after, however the action
ends, and every effect that starts meets the guard. -/
structure Maintains (G : Trace R → E → Prop) (I : Trace R → σ → Prop)
    (p : Stateful E R σ ε α) : Prop where
  start : ∀ s past, I past s → Safe G (p.start s) (fun t r => I t r.2) past

section Maintaining

variable {G : Trace R → E → Prop} {I : Trace R → σ → Prop}

theorem maintains_bind {p : Stateful E R σ ε α} {f : α → Stateful E R σ ε β}
    (hp : p.Maintains G I) (hf : ∀ a, (f a).Maintains G I) : (p >>= f).Maintains G I := by
  constructor
  intro s past hs
  refine (safe_start_bind ..).mpr ((hp.start s past hs).mono ?_)
  rintro t ⟨_ | a, s'⟩ hs'
  · exact hs'
  · exact (hf a).start s' t hs'

theorem Maintains.safe_bind {p : Stateful E R σ ε α} (hp : p.Maintains G I)
    {f : α → Stateful E R σ ε β} {s : σ} {past : Trace R} {Q : Trace R → Except ε β × σ → Prop}
    (hs : I past s) (hok : ∀ a t s', I t s' → Safe G ((f a).start s') Q t)
    (herror : ∀ e t s', I t s' → Q t (.error e, s')) : Safe G ((p >>= f).start s) Q past := by
  refine (safe_start_bind ..).mpr ((hp.start s past hs).mono ?_)
  rintro t ⟨e | a, s'⟩ hs'
  · exact herror e t s' hs'
  · exact hok a t s' hs'

/-- Effects that keep the condition, whatever the variables are. -/
theorem maintains_lift (hG : ∀ t s e, I t s → G t e)
    (hlast : ∀ t s (x : Σ e, R e), P x.1 → I t s → I (t ++ [x]) s) {p : Action E R ε α}
    (hp : Interaction.Only P p.run) : (lift p : Stateful E R σ ε α).Maintains G I := by
  constructor
  intro s past hs
  refine (safe_lift ..).mpr ((hp.safe (D := (I · s)) ?_ ?_ hs).mono fun _ _ h => h.1)
  · exact fun t x hx ht => hlast t s x hx ht
  · exact fun t e ht _ => hG t s e ht

theorem maintains_read : (read : Stateful E R σ ε σ).Maintains G I := ⟨fun _ _ hs => hs⟩

theorem maintains_assign {f : σ → σ} (hf : ∀ t s, I t s → I t (f s)) :
    (assign f : Stateful E R σ ε Unit).Maintains G I := ⟨fun s t hs => hf t s hs⟩

theorem maintains_ite {c : Prop} [Decidable c] {p q : Stateful E R σ ε α} (hp : p.Maintains G I)
    (hq : q.Maintains G I) : (if c then p else q).Maintains G I := by
  split
  · exact hp
  · exact hq

theorem maintains_finally {p : Stateful E R σ ε α} {q : Stateful E R σ ε Unit}
    (hp : p.Maintains G I) (hq : q.Maintains G I) : (finally' p q).Maintains G I := by
  constructor
  intro s past hs
  refine (safe_finally ..).mpr ((hp.start s past hs).mono fun t r hr => ?_)
  refine (hq.start r.2 t hr).mono ?_
  rintro t' ⟨_ | _, s'⟩ hs'
  · exact hs'
  · exact hs'

end Maintaining

/-- With documented answers, what holds of the variables before holds of them after, and the
result is a value in `V` or an exception in `X`. -/
structure Returns (S : (e : E) → R e → Prop) (I : σ → Prop) (V : α → Prop) (X : ε → Prop)
    (p : Stateful E R σ ε α) : Prop where
  start : ∀ s, I s → Ends S (p.start s) fun r => I r.2 ∧ Post V X r.1

section Returning

variable {S : (e : E) → R e → Prop} {I : σ → Prop} {V : α → Prop} {W : β → Prop} {X : ε → Prop}

theorem returns_bind {p : Stateful E R σ ε α} {f : α → Stateful E R σ ε β}
    (hp : p.Returns S I V X) (hf : ∀ a, V a → (f a).Returns S I W X) :
    (p >>= f).Returns S I W X := by
  constructor
  intro s hs
  change Ends S (p.start s >>= fun r => (ExceptT.bindCont f r.1).run r.2) _
  refine (ends_bind ..).mpr ((hp.start s hs).mono ?_)
  rintro ⟨e | a, s'⟩ ⟨hs', hr⟩
  · exact ⟨hs', hr⟩
  · exact (hf a hr).start s' hs'

theorem returns_lift {p : Action E R ε α} (h : Ends S p.run (Post V X)) :
    (lift p : Stateful E R σ ε α).Returns S I V X :=
  ⟨fun _ hs => (ends_bind ..).mpr (h.mono fun _ hr => ⟨hs, hr⟩)⟩

theorem returns_read : (read : Stateful E R σ ε σ).Returns S I I X := ⟨fun _ hs => ⟨hs, hs⟩⟩

theorem returns_assign {f : σ → σ} (hf : ∀ s, I s → I (f s)) :
    (assign f : Stateful E R σ ε Unit).Returns S I (fun _ => True) X :=
  ⟨fun s hs => ⟨hf s hs, trivial⟩⟩

theorem returns_pure {a : α} (h : V a) : (pure a : Stateful E R σ ε α).Returns S I V X :=
  ⟨fun _ hs => ⟨hs, h⟩⟩

theorem returns_throw {e : ε} (h : X e) : (throw e : Stateful E R σ ε α).Returns S I V X :=
  ⟨fun _ hs => ⟨hs, h⟩⟩

theorem returns_ite {c : Prop} [Decidable c] {p q : Stateful E R σ ε α}
    (hp : p.Returns S I V X) (hq : q.Returns S I V X) : (if c then p else q).Returns S I V X := by
  split
  · exact hp
  · exact hq

theorem returns_tryCatch {p : Stateful E R σ ε α} {handle : ε → Stateful E R σ ε α}
    (hp : p.Returns S I V X) (hhandle : ∀ e, X e → (handle e).Returns S I V X) :
    (tryCatch p handle).Returns S I V X := by
  constructor
  intro s hs
  change Ends S (p.start s >>= _) _
  refine (ends_bind ..).mpr ((hp.start s hs).mono ?_)
  rintro ⟨e | a, s'⟩ ⟨hs', hr⟩
  · exact (hhandle e hr).start s' hs'
  · exact ⟨hs', hr⟩

theorem returns_finally {p : Stateful E R σ ε α} {q : Stateful E R σ ε Unit}
    (hp : p.Returns S I V X) (hq : q.Returns S I (fun _ => True) X) :
    (finally' p q).Returns S I V X := by
  constructor
  intro s hs
  change Ends S (p.start s >>= _) _
  refine (ends_bind ..).mpr ((hp.start s hs).mono fun r hr => ?_)
  refine (ends_bind ..).mpr ((hq.start r.2 hr.1).mono ?_)
  rintro ⟨_ | _, s'⟩ ⟨hs', hlast⟩
  · exact ⟨hs', hlast⟩
  · exact ⟨hs', hr.2⟩

end Returning

end Stateful

/-! ### Known answers -/

/-- What is left of a program where some effects have a known answer. -/
def Program.given (known : (e : E) → Option (R e)) : Program E R α → Program E R α
  | .done a => .done a
  | .ask e next =>
      match known e with
      | some r => (next r).given known
      | none => .ask e fun r => (next r).given known

theorem given_bind (known : (e : E) → Option (R e)) (p : Program E R α) (f : α → Program E R β) :
    (p >>= f).given known = p.given known >>= fun a => (f a).given known := by
  change (p.bind f).given known = (p.given known).bind fun a => (f a).given known
  induction p with
  | done a => rfl
  | ask e next ih =>
      simp only [Program.bind, Program.given]
      cases known e with
      | some r => exact ih r
      | none => exact congrArg (Program.ask e) (funext ih)

/-- A run with the known answers is a run of what is left. -/
theorem runs_given {known : (e : E) → Option (R e)} {p : Program E R α} {t : Trace R} {a : α}
    (h : Runs p t a) (hknown : ∀ x ∈ t, ∀ r, known x.1 = some r → x.2 = r) :
    Runs (p.given known) (t.filter fun x => (known x.1).isNone) a := by
  induction h with
  | done a => exact .done a
  | @ask e next r t a h ih =>
      have hrest := ih fun x hx => hknown x (List.mem_cons_of_mem _ hx)
      unfold Program.given
      cases hr : known e with
      | some r' =>
          obtain rfl : r = r' := hknown ⟨e, r⟩ List.mem_cons_self r' hr
          rw [List.filter_cons_of_neg (by simp [hr])]
          exact hrest
      | none =>
          rw [List.filter_cons_of_pos (by simp [hr])]
          exact .ask r hrest

section Given

variable {known : (e : E) → Option (R e)}

def Action.given (known : (e : E) → Option (R e)) (p : Action E R ε α) : Action E R ε α :=
  ExceptT.mk (p.run.given known)

theorem action_given_bind (p : Action E R ε α) (f : α → Action E R ε β) :
    Action.given known (p >>= f) = Action.given known p >>= fun a => Action.given known (f a) := by
  change (p.run >>= ExceptT.bindCont f).given known = p.run.given known >>= ExceptT.bindCont _
  rw [given_bind]
  refine congrArg _ (funext fun r => ?_)
  cases r with
  | ok a => rfl
  | error e => rfl

theorem action_given_tryCatch (p : Action E R ε α) (handle : ε → Action E R ε α) :
    Action.given known (tryCatch p handle) =
      tryCatch (Action.given known p) fun e => Action.given known (handle e) := by
  change (p.run >>= _).given known = p.run.given known >>= _
  rw [given_bind]
  refine congrArg _ (funext fun r => ?_)
  cases r with
  | ok a => rfl
  | error e => rfl

theorem action_given_pure (a : α) :
    Action.given known (pure a : Action E R ε α) = pure a := rfl

theorem action_given_throw (e : ε) :
    Action.given known (throw e : Action E R ε α) = throw e := rfl

theorem action_given_fromExcept (x : Except ε α) :
    Action.given known (fromExcept x : Action E R ε α) = fromExcept x := rfl

theorem action_given_known {γ : Type} {e : E} {r : R e} (h : known e = some r)
    (answer : R e → Except ε γ) :
    Action.given known (call e answer : Action E R ε γ) = fromExcept (answer r) := by
  change Program.given known (.ask e fun r => .done (answer r)) = .done (answer r)
  rw [Program.given, h]
  rfl

theorem action_given_unknown {γ : Type} {e : E} (h : known e = none) (answer : R e → Except ε γ) :
    Action.given known (call e answer : Action E R ε γ) = call e answer := by
  change Program.given known (.ask e fun r => .done (answer r)) = .ask e fun r => .done (answer r)
  rw [Program.given, h]
  rfl

theorem fromExcept_ok_bind (a : α) (f : α → Action E R ε β) :
    (fromExcept (.ok a) : Action E R ε α) >>= f = f a := rfl

theorem fromExcept_error_bind (e : ε) (f : α → Action E R ε β) :
    (fromExcept (.error e) : Action E R ε α) >>= f = fromExcept (.error e) := rfl

end Given

/-! ### A program inside of a larger one -/

section Within

variable {E' : Type} {R' : E' → Type}

/-- The program in an environment that has its effects among others. -/
def Program.within (f : E → E') (back : ∀ e, R' (f e) → R e) : Program E R α → Program E' R' α
  | .done a => .done a
  | .ask e next => .ask (f e) fun r => (next (back e r)).within f back

theorem only_within {P : E' → Prop} {f : E → E'} (hP : ∀ e, P (f e))
    (back : ∀ e, R' (f e) → R e) (p : Program E R α) : Only P (p.within f back) := by
  induction p with
  | done a => exact .done a
  | ask e next ih => exact .ask (hP e) fun r => ih (back e r)

end Within

/-! ### Running -/

/-- A run against an environment that answers by the past. -/
def play (answer : Trace R → (e : E) → R e) : Program E R α → Trace R → Trace R × α
  | .done a, _ => ([], a)
  | .ask e next, past =>
      let r := answer past e
      let rest := play answer (next r) (past ++ [⟨e, r⟩])
      (⟨e, r⟩ :: rest.1, rest.2)

theorem runs_play (answer : Trace R → (e : E) → R e) (p : Program E R α) (past : Trace R) :
    Runs p (play answer p past).1 (play answer p past).2 := by
  induction p generalizing past with
  | done a => exact .done a
  | ask e next ih => exact .ask _ (ih _ _)

/-- A run against an environment that need not answer: what it answered, and the effect that
is left without an answer, or the result. -/
def playUntil (answer : Trace R → (e : E) → Option (R e)) : Program E R α → Trace R →
    Trace R × (E ⊕ α)
  | .done a, _ => ([], .inr a)
  | .ask e next, past =>
      match answer past e with
      | none => ([], .inl e)
      | some r =>
          let rest := playUntil answer (next r) (past ++ [⟨e, r⟩])
          (⟨e, r⟩ :: rest.1, rest.2)

theorem starts_playUntil (answer : Trace R → (e : E) → Option (R e)) (p : Program E R α)
    (past : Trace R) {e : E} (h : (playUntil answer p past).2 = .inl e) :
    Starts p (playUntil answer p past).1 e := by
  induction p generalizing past with
  | done a => cases h
  | ask e' next ih =>
      unfold playUntil at h ⊢
      cases hanswer : answer past e' with
      | none =>
          rw [hanswer] at h
          cases h
          exact .now e next
      | some r =>
          rw [hanswer] at h
          exact .later r (ih r _ h)

theorem runs_playUntil (answer : Trace R → (e : E) → Option (R e)) (p : Program E R α)
    (past : Trace R) {a : α} (h : (playUntil answer p past).2 = .inr a) :
    Runs p (playUntil answer p past).1 a := by
  induction p generalizing past with
  | done b =>
      cases h
      exact .done a
  | ask e' next ih =>
      unfold playUntil at h ⊢
      cases hanswer : answer past e' with
      | none =>
          rw [hanswer] at h
          cases h
      | some r =>
          rw [hanswer] at h
          exact .ask r (ih r _ h)

theorem mem_playUntil {answer : Trace R → (e : E) → Option (R e)} {p : Program E R α}
    {past : Trace R} {x : Σ e, R e} (h : x ∈ (playUntil answer p past).1) :
    ∃ past', answer past' x.1 = some x.2 := by
  induction p generalizing past with
  | done a => cases h
  | ask e next ih =>
      unfold playUntil at h
      cases hanswer : answer past e with
      | none =>
          rw [hanswer] at h
          cases h
      | some r =>
          rw [hanswer] at h
          rcases List.mem_cons.mp h with rfl | h
          · exact ⟨past, hanswer⟩
          · exact ih r h

end Interaction
