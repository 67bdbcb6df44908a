import Ally.Interaction

/-!
# Generators and their consumers

A generator is a program that may yield. The answer to a yield is that it is resumed, or an
exception that is thrown in there. A consumer runs its body on what is yielded; when the body
raises, the generator is closed: an exception that stands for its end is thrown in, and it has to
finish without another yield.
-/

namespace Generators

open Interaction

variable {E F : Type} {R : E → Type} {S : F → Type} {Y ε σ α : Type}

inductive Step (E Y : Type)
  | act (e : E)
  | yield (y : Y)

@[reducible] def Reply (R : E → Type) (Y ε : Type) : Step E Y → Type
  | .act e => R e
  | .yield _ => Except ε Unit

abbrev Generator (E : Type) (R : E → Type) (Y ε α : Type) := Action (Step E Y) (Reply R Y ε) ε α

def act (e : E) : Generator E R Y ε (R e) := Interaction.act (Step.act e)

/-- An effect whose answer is an exception or a value. -/
def attempt {γ : Type} (e : E) (answer : R e → Except ε γ) : Generator E R Y ε γ :=
  call (Step.act e) answer

def yield (y : Y) : Generator E R Y ε Unit := call (Step.yield y) id

/-- `try: body finally: cleanup`. -/
def finallyDo (body : Action E R ε α) (cleanup : Action E R ε Unit) : Action E R ε α :=
  ExceptT.mk (body.run >>= fun r => cleanup.run >>= fun c =>
    pure (match c with
      | .ok () => r
      | .error e => .error e))

/-! ### Runs of the parts of a program -/

theorem runs_of_bind {p : Program E R α} {β : Type} {f : α → Program E R β} {t : Trace R} {b : β}
    (h : Runs (p.bind f) t b) :
    ∃ t₁ t₂ a, t = t₁ ++ t₂ ∧ Runs p t₁ a ∧ Runs (f a) t₂ b := by
  induction p generalizing t with
  | done a => exact ⟨[], t, a, rfl, .done a, h⟩
  | ask e next ih =>
      cases h with
      | ask r hrest =>
          obtain ⟨t₁, t₂, a, rfl, hp, hf⟩ := ih r hrest
          exact ⟨⟨e, r⟩ :: t₁, t₂, a, rfl, .ask r hp, hf⟩

theorem runs_bind {β : Type} {p : Action E R ε α} {f : α → Action E R ε β} {t : Trace R}
    {r : Except ε β} (h : Runs (p >>= f).run t r) :
    (∃ t₁ t₂ a, t = t₁ ++ t₂ ∧ Runs p.run t₁ (.ok a) ∧ Runs (f a).run t₂ r) ∨
      ∃ e, Runs p.run t (.error e) ∧ r = .error e := by
  obtain ⟨t₁, t₂, x, rfl, hp, hf⟩ := runs_of_bind (p := p.run) (f := ExceptT.bindCont f) h
  cases x with
  | ok a => exact .inl ⟨t₁, t₂, a, rfl, hp, hf⟩
  | error e =>
      cases hf
      rw [List.append_nil]
      exact .inr ⟨e, hp, rfl⟩

theorem runs_tryCatch {p : Action E R ε α} {handle : ε → Action E R ε α} {t : Trace R}
    {r : Except ε α} (h : Runs (tryCatch p handle).run t r) :
    (∃ a, Runs p.run t (.ok a) ∧ r = .ok a) ∨
      ∃ t₁ t₂ e, t = t₁ ++ t₂ ∧ Runs p.run t₁ (.error e) ∧ Runs (handle e).run t₂ r := by
  obtain ⟨t₁, t₂, x, rfl, hp, hf⟩ := runs_of_bind h
  cases x with
  | ok a =>
      cases hf
      rw [List.append_nil]
      exact .inl ⟨a, hp, rfl⟩
  | error e => exact .inr ⟨t₁, t₂, e, rfl, hp, hf⟩

theorem runs_finallyDo {body : Action E R ε α} {cleanup : Action E R ε Unit} {t : Trace R}
    {r : Except ε α} (h : Runs (finallyDo body cleanup).run t r) :
    ∃ t₁ t₂ x c, t = t₁ ++ t₂ ∧ Runs body.run t₁ x ∧ Runs cleanup.run t₂ c ∧
      (c = .ok () ∧ r = x ∨ ∃ e, c = .error e ∧ r = .error e) := by
  obtain ⟨t₁, t₂, x, rfl, hbody, hrest⟩ := runs_of_bind h
  obtain ⟨t₃, t₄, c, hc, hcleanup, hlast⟩ := runs_of_bind hrest
  cases hlast
  rw [List.append_nil] at hc
  obtain rfl := hc
  refine ⟨t₁, t₂, x, c, rfl, hbody, hcleanup, ?_⟩
  rcases c with e | ⟨⟩
  · exact .inr ⟨e, rfl, rfl⟩
  · exact .inl ⟨rfl, rfl⟩

theorem of_runs_call {γ : Type} {e : E} {answer : R e → Except ε γ} {t : Trace R} {r : Except ε γ}
    (h : Runs (call e answer).run t r) : ∃ x, t = [⟨e, x⟩] ∧ r = answer x := by
  cases h with
  | ask x hrest =>
      cases hrest
      exact ⟨x, rfl, rfl⟩

/-! ### Driving -/

@[reducible] def Both (R : E → Type) (S : F → Type) : E ⊕ F → Type
  | .inl e => R e
  | .inr f => S f

/-- The body of a consumer among the effects of the generator. -/
def downstream : Program F S α → Program (E ⊕ F) (Both R S) α
  | .done a => .done a
  | .ask f next => .ask (.inr f) fun r => downstream (next r)

/-- `aclose`: the rest of a generator in which `exit` was thrown, while `e` is on its way. -/
def close (exit ignored e : ε) [DecidableEq ε] :
    Program (Step E Y) (Reply R Y ε) (Except ε Unit) → Program (E ⊕ F) (Both R S) (Except ε σ)
  | .done (.ok ()) => .done (.error e)
  | .done (.error e') => .done (.error (if e' = exit then e else e'))
  | .ask (.act a) next => .ask (.inl a) fun r => close exit ignored e (next r)
  | .ask (.yield _) _ => .done (.error ignored)

/-- `async with aclosing(generator) as stream: async for y in stream: body`. -/
def drive (exit ignored : ε) [DecidableEq ε] (body : σ → Y → Program F S (Except ε σ)) :
    Program (Step E Y) (Reply R Y ε) (Except ε Unit) → σ →
      Program (E ⊕ F) (Both R S) (Except ε σ)
  | .done (.ok ()), s => .done (.ok s)
  | .done (.error e), _ => .done (.error e)
  | .ask (.act a) next, s => .ask (.inl a) fun r => drive exit ignored body (next r) s
  | .ask (.yield y) next, s =>
      (downstream (body s y)).bind fun
        | .ok s' => drive exit ignored body (next (.ok ())) s'
        | .error e => close exit ignored e (next (.error exit))

/-! ### Runs of a driven generator -/

/-- What a generator did, without what it yielded. -/
def acts (t : Trace (Reply R Y ε)) : Trace R :=
  t.filterMap fun
    | ⟨.act e, r⟩ => some ⟨e, r⟩
    | ⟨.yield _, _⟩ => none

def yields (t : Trace (Reply R Y ε)) : List Y :=
  t.filterMap fun
    | ⟨.act _, _⟩ => none
    | ⟨.yield y, _⟩ => some y

def ofGenerator (t : Trace (Both R S)) : Trace R :=
  t.filterMap fun
    | ⟨.inl e, r⟩ => some ⟨e, r⟩
    | ⟨.inr _, _⟩ => none

def ofConsumer (t : Trace (Both R S)) : Trace S :=
  t.filterMap fun
    | ⟨.inl _, _⟩ => none
    | ⟨.inr f, r⟩ => some ⟨f, r⟩

section Equations

variable (a : E) (x : R a) (y : Y) (z : Except ε Unit) (f : F) (w : S f)
  (u : Trace (Reply R Y ε)) (t : Trace (Both R S))

@[simp] theorem acts_act : acts (⟨.act a, x⟩ :: u) = ⟨a, x⟩ :: acts u := rfl

@[simp] theorem acts_yield : acts (⟨.yield y, z⟩ :: u) = acts u := rfl

@[simp] theorem yields_act : yields (⟨.act a, x⟩ :: u) = yields u := rfl

@[simp] theorem yields_yield : yields (⟨.yield y, z⟩ :: u) = y :: yields u := rfl

@[simp] theorem ofGenerator_inl : ofGenerator (⟨.inl a, x⟩ :: t) = ⟨a, x⟩ :: ofGenerator t := rfl

@[simp] theorem ofGenerator_inr : ofGenerator (⟨.inr f, w⟩ :: t) = ofGenerator t := rfl

@[simp] theorem ofConsumer_inl : ofConsumer (⟨.inl a, x⟩ :: t) = ofConsumer t := rfl

@[simp] theorem ofConsumer_inr : ofConsumer (⟨.inr f, w⟩ :: t) = ⟨f, w⟩ :: ofConsumer t := rfl

end Equations

theorem runs_act {a : E} {next : R a → Program (Step E Y) (Reply R Y ε) α} {x : R a}
    {u : Trace (Reply R Y ε)} {b : α} (h : Runs (next x) u b) :
    Runs (.ask (.act a) next) (⟨.act a, x⟩ :: u) b :=
  .ask (R := Reply R Y ε) (e := .act a) x h

theorem runs_downstream {p : Program F S α} {t : Trace (Both R S)} {a : α}
    (h : Runs (downstream p) t a) : ofGenerator t = [] ∧ Runs p (ofConsumer t) a := by
  induction p generalizing t with
  | done a =>
      cases h
      exact ⟨rfl, .done a⟩
  | ask f next ih =>
      cases h with
      | ask r hrest =>
          obtain ⟨hgen, hruns⟩ := ih r hrest
          rw [ofGenerator_inr, ofConsumer_inr]
          exact ⟨hgen, .ask (e := f) r hruns⟩

/-- The body of a consumer on what is yielded, until it raises. -/
inductive Consumed (body : σ → Y → Program F S (Except ε σ)) :
    σ → List Y → Trace S → Except ε σ → Prop
  | nil (s : σ) : Consumed body s [] [] (.ok s)
  | cons {s s' : σ} {y : Y} {ys : List Y} {d ds : Trace S} {c : Except ε σ}
      (hbody : Runs (body s y) d (.ok s')) (hrest : Consumed body s' ys ds c) :
      Consumed body s (y :: ys) (d ++ ds) c
  | raise {s : σ} {y : Y} {d : Trace S} {e : ε} (hbody : Runs (body s y) d (.error e)) :
      Consumed body s [y] d (.error e)

/-- What comes out of a consumer and of the generator it drives. -/
def outcome (exit : ε) [DecidableEq ε] : Except ε σ → Except ε Unit → Except ε σ
  | .ok s, .ok () => .ok s
  | .ok _, .error e => .error e
  | .error e, .ok () => .error e
  | .error e, .error e' => .error (if e' = exit then e else e')

def IsAct : Step E Y → Prop
  | .act _ => True
  | .yield _ => False

/-- Where the exit is thrown in, nothing is yielded any more. -/
inductive Obeys (exit : ε) : Program (Step E Y) (Reply R Y ε) α → Prop
  | done (a : α) : Obeys exit (.done a)
  | act {e : E} {next : R e → Program (Step E Y) (Reply R Y ε) α}
      (h : ∀ r, Obeys exit (next r)) : Obeys exit (.ask (.act e) next)
  | yield {y : Y} {next : Except ε Unit → Program (Step E Y) (Reply R Y ε) α}
      (hresume : Obeys exit (next (.ok ()))) (hexit : Only IsAct (next (.error exit))) :
      Obeys exit (.ask (.yield y) next)

section Obeys

variable {β : Type} {exit : ε} {q : Program (Step E Y) (Reply R Y ε) α}
  {f : α → Program (Step E Y) (Reply R Y ε) β}

theorem obeys_of_only (hq : Only IsAct q) : Obeys exit q := by
  induction hq with
  | done a => exact .done a
  | @ask step next he _ ih =>
      cases step with
      | act e => exact .act ih
      | yield y => cases he

theorem Obeys.bind (hq : Obeys exit q) (hf : ∀ a, Only IsAct (f a)) : Obeys exit (q >>= f) := by
  change Obeys exit (q.bind f)
  induction hq with
  | done a => exact obeys_of_only (hf a)
  | act _ ih => exact .act ih
  | yield _ hexit ih => exact .yield ih (only_bind hexit hf)

/-- Effects in front of a generator. -/
theorem obeys_after (hq : Only IsAct q) (hf : ∀ a, Obeys exit (f a)) : Obeys exit (q >>= f) := by
  change Obeys exit (q.bind f)
  induction hq with
  | done a => exact hf a
  | @ask step next he _ ih =>
      cases step with
      | act e => exact .act ih
      | yield y => cases he

end Obeys

variable [DecidableEq ε] {exit ignored e : ε}
  {p : Program (Step E Y) (Reply R Y ε) (Except ε Unit)}

theorem runs_close {t : Trace (Both R S)} {r : Except ε σ} (hp : Only IsAct p)
    (h : Runs (close exit ignored e p) t r) :
    ∃ u r', Runs p u r' ∧ ofGenerator t = acts u ∧ yields u = [] ∧ ofConsumer t = [] ∧
      r = outcome exit (.error e) r' := by
  induction hp generalizing t with
  | done a =>
      rcases a with e' | ⟨⟩ <;> cases h <;> exact ⟨[], _, .done _, rfl, rfl, rfl, rfl⟩
  | @ask step next he hnext ih =>
      cases step with
      | yield y => cases he
      | act a =>
          cases h with
          | ask x hrest =>
              obtain ⟨u, r', hruns, hgen, hyields, hconsumer, hr⟩ := ih x hrest
              refine ⟨⟨.act a, x⟩ :: u, r', runs_act hruns, ?_, hyields, hconsumer, hr⟩
              rw [ofGenerator_inl, acts_act, hgen]

/-- A driven generator does what it does alone, for some answers to what it yields. -/
theorem runs_drive {body : σ → Y → Program F S (Except ε σ)} {s : σ} {t : Trace (Both R S)}
    {r : Except ε σ} (hp : Obeys exit p) (h : Runs (drive exit ignored body p s) t r) :
    ∃ u r' c, Runs p u r' ∧ ofGenerator t = acts u ∧
      Consumed body s (yields u) (ofConsumer t) c ∧ r = outcome exit c r' := by
  induction hp generalizing s t with
  | done a =>
      rcases a with e' | ⟨⟩ <;> cases h <;> exact ⟨[], _, .ok s, .done _, rfl, .nil s, rfl⟩
  | @act a next hnext ih =>
      cases h with
      | ask x hrest =>
          obtain ⟨u, r', c, hruns, hgen, hconsumed, hr⟩ := ih x hrest
          refine ⟨⟨.act a, x⟩ :: u, r', c, runs_act hruns, ?_, hconsumed, hr⟩
          rw [ofGenerator_inl, acts_act, hgen]
  | @yield y next hresume hexit ih =>
      obtain ⟨t₁, t₂, b, rfl, hbody, hrest⟩ := runs_of_bind h
      obtain ⟨hgen₁, hbody⟩ := runs_downstream hbody
      have hgen : ofGenerator (t₁ ++ t₂) = ofGenerator t₂ := by
        rw [ofGenerator, List.filterMap_append]
        exact congrArg (· ++ _) hgen₁
      have hconsumer : ofConsumer (t₁ ++ t₂) = ofConsumer t₁ ++ ofConsumer t₂ :=
        List.filterMap_append
      cases b with
      | ok s' =>
          obtain ⟨u, r', c, hruns, hgen₂, hconsumed, hr⟩ := ih hrest
          refine ⟨⟨.yield y, .ok ()⟩ :: u, r', c, .ask _ hruns, hgen.trans hgen₂, ?_, hr⟩
          rw [hconsumer]
          exact .cons hbody hconsumed
      | error e =>
          obtain ⟨u, r', hruns, hgen₂, hyields, hnone, hr⟩ := runs_close hexit hrest
          refine ⟨⟨.yield y, .error exit⟩ :: u, r', .error e, .ask _ hruns, hgen.trans hgen₂, ?_, hr⟩
          have hys : yields (⟨.yield y, .error exit⟩ :: u : Trace (Reply R Y ε)) = [y] :=
            congrArg (y :: ·) hyields
          rw [hconsumer, hnone, List.append_nil, hys]
          exact .raise hbody

end Generators
