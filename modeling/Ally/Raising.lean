import Mathlib.Data.List.Forall2
import Mathlib.Tactic

/-!
# Programs that may raise

Inversion of `Except` programs: what a run that returned has computed.
-/

namespace Raising

universe u

variable {ε α β : Type u}

theorem bind_eq_ok {x : Except ε α} {f : α → Except ε β} {b : β} :
    (x >>= f) = .ok b ↔ ∃ a, x = .ok a ∧ f a = .ok b := by
  cases x with
  | error e => simp [bind, Except.bind]
  | ok a => simp [bind, Except.bind]

@[simp] theorem pure_eq_ok {a b : α} : (pure a : Except ε α) = .ok b ↔ a = b := by
  simp [pure, Except.pure]

theorem map_eq_ok {x : Except ε α} {f : α → β} {b : β} :
    x.map f = .ok b ↔ ∃ a, x = .ok a ∧ f a = b := by
  cases x with
  | error e => simp [Except.map]
  | ok a => simp [Except.map]

/-- A loop over a list that returned has returned at each element. -/
theorem mapM_eq_ok {f : α → Except ε β} {l : List α} {r : List β} :
    l.mapM f = .ok r ↔ List.Forall₂ (fun a b => f a = .ok b) l r := by
  induction l generalizing r with
  | nil => cases r <;> simp [pure, Except.pure]
  | cons a l ih =>
      rw [List.mapM_cons, bind_eq_ok]
      constructor
      · rintro ⟨b, hb, h⟩
        obtain ⟨bs, hbs, h⟩ := bind_eq_ok.mp h
        rw [← pure_eq_ok.mp h]
        exact .cons hb (ih.mp hbs)
      · intro h
        cases h with
        | cons hb hbs => exact ⟨_, hb, bind_eq_ok.mpr ⟨_, ih.mpr hbs, rfl⟩⟩

theorem mem_of_mapM {f : α → Except ε β} {l : List α} {r : List β} (h : l.mapM f = .ok r) {b : β}
    (hb : b ∈ r) : ∃ a ∈ l, f a = .ok b := by
  have hall := mapM_eq_ok.mp h
  clear h
  induction hall with
  | nil => simp at hb
  | cons hx _ ih =>
      rcases List.mem_cons.mp hb with rfl | hb
      · exact ⟨_, List.mem_cons_self, hx⟩
      · obtain ⟨a, ha, hab⟩ := ih hb
        exact ⟨a, List.mem_cons_of_mem _ ha, hab⟩

/-- A loop that raised did so at one element, after it had gone through those before. -/
theorem foldlM_eq_error {f : β → α → Except ε β} {e : ε} {b : β} {l : List α} :
    l.foldlM f b = .error e ↔ ∃ pre a post b', l = pre ++ a :: post ∧
      pre.foldlM f b = .ok b' ∧ f b' a = .error e := by
  induction l generalizing b with
  | nil => simp [pure, Except.pure]
  | cons a l ih =>
      rw [List.foldlM_cons]
      constructor
      · intro h
        cases ha : f b a with
        | error e' =>
            rw [ha] at h
            exact ⟨[], a, l, b, rfl, rfl, ha.trans h⟩
        | ok b' =>
            rw [ha] at h
            obtain ⟨pre, a', post, c, rfl, hpre, herror⟩ := ih.mp h
            refine ⟨a :: pre, a', post, c, rfl, ?_, herror⟩
            rw [List.foldlM_cons]
            exact bind_eq_ok.mpr ⟨b', ha, hpre⟩
      · rintro ⟨pre, a', post, c, hsplit, hpre, herror⟩
        cases pre with
        | nil =>
            obtain ⟨rfl, -⟩ := List.cons.inj hsplit
            rw [pure_eq_ok.mp hpre, herror]
            rfl
        | cons first pre =>
            obtain ⟨rfl, hrest⟩ := List.cons.inj hsplit
            rw [List.foldlM_cons] at hpre
            obtain ⟨b', ha, hpre⟩ := bind_eq_ok.mp hpre
            rw [ha]
            exact ih.mpr ⟨pre, a', post, c, hrest, hpre, herror⟩

/-- The exception of a run that raised. -/
def raisedBy : Except ε α → Option ε
  | .error e => some e
  | .ok _ => none

theorem eq_error_of_raisedBy {x : Except ε α} {e : ε} (h : raisedBy x = some e) :
    x = .error e := by
  cases x with
  | error e' => rw [Option.some.inj h]
  | ok a => cases h

theorem eq_ok_of_isSome {x : Except ε α} (h : x.toOption.isSome = true) (a : α) :
    x = .ok (x.toOption.getD a) := by
  cases x with
  | error e => cases h
  | ok b => rfl

end Raising
