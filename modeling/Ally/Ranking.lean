import Ally.Retrieval
import Mathlib.Data.Prod.Lex
import Mathlib.Data.String.Basic

/-!
# Ranking by score and id

The order of `(-score, id)` keys over exact scores: a linear order, by which a list with
distinct keys has one sorted arrangement.
-/

namespace Ally.Retrieval

/-- A `(-score, id)` key. -/
abbrev RankKey := ℚᵒᵈ ×ₗ String

def rankKey (score : ℚ) (id : String) : RankKey := toLex (OrderDual.toDual score, id)

theorem rankKey_lt_iff {score score' : ℚ} {id id' : String} :
    rankKey score id < rankKey score' id' ↔ score' < score ∨ score = score' ∧ id < id' := by
  simp [rankKey, Prod.Lex.toLex_lt_toLex]

theorem rankKey_inj {score score' : ℚ} {id id' : String} :
    rankKey score id = rankKey score' id' ↔ score = score' ∧ id = id' := by
  simp [rankKey]

theorem rankedBefore_iff {score score' : ℚ} {id id' : String} :
    rankedBefore score id score' id' = true ↔ rankKey score id < rankKey score' id' := by
  rw [rankKey_lt_iff, rankedBefore]
  by_cases h : score = score'
  · simp [h]
  · simp [h]

theorem not_rankedBefore_iff {score score' : ℚ} {id id' : String} :
    (¬ rankedBefore score id score' id' = true) ↔ rankKey score' id' ≤ rankKey score id := by
  rw [rankedBefore_iff, not_lt]

/-! ### Filtering a sorted list -/

section Sorted

variable {α : Type} {r : α → α → Prop} [DecidableRel r]

theorem filter_orderedInsert [IsTrans α r] (p : α → Bool) (a : α) {l : List α}
    (hl : l.Pairwise r) :
    (l.orderedInsert r a).filter p = if p a = true then (l.filter p).orderedInsert r a
      else l.filter p := by
  induction l with
  | nil => by_cases ha : p a = true <;> simp [ha]
  | cons b l ih =>
    obtain ⟨hb, hrest⟩ := List.pairwise_cons.mp hl
    by_cases hab : r a b
    · rw [List.orderedInsert_cons_of_le r l hab]
      by_cases ha : p a = true
      · -- whatever the filter leaves first, `a` stands before it
        have hfirst : ∀ c ∈ (b :: l).filter p, r a c := by
          intro c hc
          rcases List.mem_cons.mp (List.mem_filter.mp hc).1 with rfl | hc
          · exact hab
          · exact trans_of r hab (hb c hc)
        rw [if_pos ha, List.filter_cons_of_pos ha]
        cases hkept : (b :: l).filter p with
        | nil => rfl
        | cons c kept =>
          rw [List.orderedInsert_cons_of_le r kept (hfirst c (by simp [hkept]))]
      · rw [if_neg ha, List.filter_cons_of_neg ha]
    · rw [List.orderedInsert_of_not_le r l hab]
      by_cases hbp : p b = true
      · rw [List.filter_cons_of_pos hbp, List.filter_cons_of_pos hbp, ih hrest]
        by_cases ha : p a = true
        · rw [if_pos ha, if_pos ha, List.orderedInsert_of_not_le r _ hab]
        · rw [if_neg ha, if_neg ha]
      · rw [List.filter_cons_of_neg hbp, List.filter_cons_of_neg hbp, ih hrest]

/-- Sorting is stable, so filtering may come first or last. -/
theorem filter_insertionSort [Std.Total r] [IsTrans α r] (p : α → Bool) (l : List α) :
    (l.insertionSort r).filter p = (l.filter p).insertionSort r := by
  induction l with
  | nil => rfl
  | cons a l ih =>
    rw [List.insertionSort_cons, filter_orderedInsert p a (List.pairwise_insertionSort r l), ih]
    by_cases ha : p a = true
    · rw [if_pos ha, List.filter_cons_of_pos ha, List.insertionSort_cons]
    · rw [if_neg ha, List.filter_cons_of_neg ha]

end Sorted

/-- Cutting before filtering keeps the beginning of what filtering first gives, and all of it
unless the cut separates an element that fails the filter from a later one that passes. -/
theorem filter_take {α : Type} (p : α → Bool) (k : ℕ) (l : List α) :
    ∃ lost, (l.filter p).take k = (l.take k).filter p ++ lost ∧
      (lost = [] ↔ ¬ ((∃ d ∈ l.take k, p d = false) ∧ ∃ e ∈ l.drop k, p e = true)) := by
  have hsplit : l.filter p = (l.take k).filter p ++ (l.drop k).filter p := by
    rw [← List.filter_append, List.take_append_drop]
  have hle : ((l.take k).filter p).length ≤ k :=
    (List.length_filter_le p _).trans (List.length_take_le k l)
  refine ⟨((l.drop k).filter p).take (k - ((l.take k).filter p).length), ?_, ?_⟩
  · rw [hsplit, List.take_append, List.take_of_length_le hle]
  · rw [List.take_eq_nil_iff]
    constructor
    · rintro (hfull | hnone) ⟨⟨d, hd, hfails⟩, e, he, hpasses⟩
      · -- all of the first `k` pass
        have hlen : ((l.take k).filter p).length = (l.take k).length := by
          have htake := List.length_take_le k l
          have hfilter := List.length_filter_le p (l.take k)
          omega
        have hall := List.length_filter_eq_length_iff.mp hlen d hd
        rw [hfails] at hall
        cases hall
      · have hmem : e ∈ (l.drop k).filter p := List.mem_filter.mpr ⟨he, hpasses⟩
        rw [hnone] at hmem
        cases hmem
    · intro hnot
      by_cases hnone : (l.drop k).filter p = []
      · exact Or.inr hnone
      · left
        obtain ⟨e, he⟩ := List.exists_mem_of_ne_nil _ hnone
        have hedrop := (List.mem_filter.mp he).1
        have hall : ∀ d ∈ l.take k, p d = true := by
          intro d hd
          by_contra hfails
          exact hnot ⟨⟨d, hd, by simpa using hfails⟩, e, hedrop, (List.mem_filter.mp he).2⟩
        have hlong : k ≤ l.length := by
          by_contra hshort
          rw [List.drop_eq_nil_of_le (by omega)] at hedrop
          cases hedrop
        rw [List.filter_eq_self.mpr hall, List.length_take, min_eq_left hlong, Nat.sub_self]

/-! ### Sorting by a key -/

section Sorting

variable {α : Type}

theorem insertionSort_congr {r r' : α → α → Prop} [DecidableRel r] [DecidableRel r']
    (h : ∀ a b, r a b ↔ r' a b) (l : List α) : l.insertionSort r = l.insertionSort r' := by
  have hr : r = r' := funext fun a => funext fun b => propext (h a b)
  subst hr
  congr

variable (key : α → RankKey)

/-- Sorting by the key is stable sorting in ascending order of it. -/
theorem pairwise_sort (l : List α) :
    (l.insertionSort fun a b => key a ≤ key b).Pairwise fun a b => key a ≤ key b := by
  have : Std.Total fun a b : α => key a ≤ key b := ⟨fun a b => le_total (key a) (key b)⟩
  have : IsTrans α fun a b : α => key a ≤ key b := ⟨fun _ _ _ h h' => h.trans h'⟩
  exact List.pairwise_insertionSort _ l

theorem pairwise_sort_lt {l : List α} (hl : (l.map key).Nodup) :
    (l.insertionSort fun a b => key a ≤ key b).Pairwise fun a b => key a < key b := by
  have hperm := List.perm_insertionSort (fun a b => key a ≤ key b) l
  have hnodup : ((l.insertionSort fun a b => key a ≤ key b).map key).Nodup :=
    (hperm.map key).nodup_iff.mpr hl
  exact (pairwise_sort key l).imp₂ (fun _ _ hle hne => lt_of_le_of_ne hle hne)
    (List.pairwise_map.mp hnodup)

/-- The sorted arrangement of a list with distinct keys depends on its keys only. -/
theorem map_sort_eq {β : Type} {key' : β → RankKey} {l : List α} {l' : List β}
    (hl : (l.map key).Nodup) (hl' : (l'.map key').Nodup)
    (hsame : ∀ x, x ∈ l.map key ↔ x ∈ l'.map key') :
    (l.insertionSort fun a b => key a ≤ key b).map key =
      (l'.insertionSort fun a b => key' a ≤ key' b).map key' := by
  have hperm := List.perm_insertionSort (fun a b => key a ≤ key b) l
  have hperm' := List.perm_insertionSort (fun a b => key' a ≤ key' b) l'
  refine List.Pairwise.eq_of_mem_iff (r := (· < ·))
    (List.pairwise_map.mpr (pairwise_sort_lt key hl))
    (List.pairwise_map.mpr (pairwise_sort_lt key' hl')) ?_
  intro x
  rw [(hperm.map key).mem_iff, (hperm'.map key').mem_iff]
  exact hsame x

end Sorting

end Ally.Retrieval
