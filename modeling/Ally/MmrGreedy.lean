import Ally.Machine
import Ally.TenantIsolation
import Mathlib.Data.List.Sort

/-!
# Maximal marginal relevance is greedy

Over exact scores, the loop of `mmr_select` picks at each turn the earliest remaining
candidate of the greatest criterion.
-/

namespace Ally.Retrieval

/-! ### First greatest elements -/

/-- The element at a position, the ones before it smaller and the ones after it no greater. -/
structure FirstMaxAt (xs : List ℚ) (position : ℕ) (x : ℚ) : Prop where
  split : ∃ front back, xs = front ++ x :: back ∧ front.length = position ∧
    (∀ y ∈ front, y < x) ∧ ∀ y ∈ back, y ≤ x

/-- The scan keeps its best element unless a later one is greater. -/
theorem argmaxFrom_cases (best : ℚ) (bestIdx idx : ℕ) (xs : List ℚ) :
    (argmaxFrom best bestIdx idx xs = bestIdx ∧ ∀ y ∈ xs, y ≤ best) ∨
      ∃ position x, FirstMaxAt xs position x ∧ best < x ∧
        argmaxFrom best bestIdx idx xs = idx + position := by
  induction xs generalizing best bestIdx idx with
  | nil => exact Or.inl ⟨rfl, by simp⟩
  | cons y ys ih =>
    rw [argmaxFrom]
    by_cases hlt : best < y
    · rw [if_pos hlt]
      rcases ih y idx (idx + 1) with ⟨hidx, hle⟩ | ⟨position, x, ⟨front, back, hys, hlen, hf, hb⟩, hx, hidx⟩
      · exact Or.inr ⟨0, y, ⟨[], ys, rfl, rfl, by simp, hle⟩, hlt, by simpa using hidx⟩
      · refine Or.inr ⟨position + 1, x, ⟨y :: front, back, by rw [hys]; rfl, by simp [hlen], ?_, hb⟩,
          hlt.trans hx, by omega⟩
        intro z hz
        rcases List.mem_cons.mp hz with rfl | hz
        · exact hx
        · exact hf z hz
    · rw [if_neg hlt]
      rcases ih best bestIdx (idx + 1) with ⟨hidx, hle⟩ | ⟨position, x, ⟨front, back, hys, hlen, hf, hb⟩, hx, hidx⟩
      · refine Or.inl ⟨hidx, ?_⟩
        intro z hz
        rcases List.mem_cons.mp hz with rfl | hz
        · exact not_lt.mp hlt
        · exact hle z hz
      · refine Or.inr ⟨position + 1, x, ⟨y :: front, back, by rw [hys]; rfl, by simp [hlen], ?_, hb⟩,
          hx, by omega⟩
        intro z hz
        rcases List.mem_cons.mp hz with rfl | hz
        · exact (not_lt.mp hlt).trans_lt hx
        · exact hf z hz

theorem argmax_firstMaxAt {xs : List ℚ} (hne : xs ≠ []) : ∃ x, FirstMaxAt xs (argmax xs) x := by
  obtain ⟨y, ys, rfl⟩ := List.exists_cons_of_ne_nil hne
  rcases argmaxFrom_cases y 0 1 ys with ⟨hidx, hle⟩ | ⟨position, x, ⟨front, back, hys, hlen, hf, hb⟩, hx, hidx⟩
  · exact ⟨y, [], ys, rfl, hidx.symm, by simp, hle⟩
  · refine ⟨x, y :: front, back, by rw [hys]; rfl, ?_, ?_, hb⟩
    · rw [argmax, hidx, List.length_cons, hlen, Nat.add_comm]
    · intro z hz
      rcases List.mem_cons.mp hz with rfl | hz
      · exact hx
      · exact hf z hz

theorem maximum_cons (x : ℚ) (xs : List ℚ) : maximum (x :: xs) = xs.foldl max x := by
  have hmax : (fun best y : ℚ => if best < y then y else best) = max := by
    funext best y
    exact (max_def_lt best y).symm
  exact congrArg (fun f => xs.foldl f x) hmax

/-! ### The greedy choice -/

/-- What the next candidate is chosen by: the relevance at first, and then the relevance
against the greatest similarity to a chosen candidate. -/
def mmrCriterion (relevance : ℕ → ℚ) (similarity : ℕ → ℕ → ℚ) (lambda : ℚ) : List ℕ → ℕ → ℚ
  | [], j => relevance j
  | s :: chosen, j =>
      lambda * relevance j - (1 - lambda) * (chosen.map (similarity j)).foldl max (similarity j s)

/-- The earliest candidate, among the `n` without the ones chosen before, of the greatest
criterion. -/
def FirstBest (criterion : List ℕ → ℕ → ℚ) (n : ℕ) (before : List ℕ) (i : ℕ) : Prop :=
  i < n ∧ i ∉ before ∧ ∀ j < n, j ∉ before → j ≠ i →
    criterion before j < criterion before i ∨ criterion before j = criterion before i ∧ i < j

def Greedy (criterion : List ℕ → ℕ → ℚ) (n : ℕ) (selected : List ℕ) : Prop :=
  ∀ before i after, selected = before ++ i :: after → FirstBest criterion n before i

theorem Greedy.nil (criterion : List ℕ → ℕ → ℚ) (n : ℕ) : Greedy criterion n [] := by
  intro before i after h
  simp at h

theorem Greedy.concat {criterion : List ℕ → ℕ → ℚ} {n i : ℕ} {selected : List ℕ}
    (h : Greedy criterion n selected) (hi : FirstBest criterion n selected i) :
    Greedy criterion n (selected ++ [i]) := by
  intro before i' after hsplit
  rcases Machine.concat_split hsplit with ⟨rfl, rfl, -⟩ | ⟨after', -, hbefore⟩
  · exact hi
  · exact h before i' after' hbefore

theorem Greedy.init {criterion : List ℕ → ℕ → ℚ} {n i : ℕ} {selected : List ℕ}
    (h : Greedy criterion n (selected ++ [i])) :
    Greedy criterion n selected ∧ FirstBest criterion n selected i := by
  refine ⟨fun before x after hsplit => ?_, h selected i [] rfl⟩
  exact h before x (after ++ [i]) (by rw [hsplit]; simp)

theorem Greedy.nodup {criterion : List ℕ → ℕ → ℚ} {n : ℕ} {selected : List ℕ}
    (h : Greedy criterion n selected) : selected.Nodup := by
  induction selected using List.reverseRecOn with
  | nil => exact List.nodup_nil
  | append_singleton before i ih =>
    obtain ⟨hrest, -, hnot, -⟩ := h.init
    exact List.nodup_append.mpr ⟨ih hrest, List.nodup_singleton i, fun a ha b hb hab =>
      hnot (List.mem_singleton.mp hb ▸ hab ▸ ha)⟩

section Loop

variable {embeddings : List (List ℚ)} {relevance : List ℚ} {lambda : ℚ}

/-- The criterion of a call. -/
def criterionOf (embeddings : List (List ℚ)) (relevance : List ℚ) (lambda : ℚ) :
    List ℕ → ℕ → ℚ :=
  mmrCriterion (fun i => relevance.getD i 0)
    (fun i j => dot (embeddings.getD i []) (embeddings.getD j [])) lambda

theorem mmrScores_eq (selected remaining : List ℕ) :
    mmrScores embeddings relevance lambda selected remaining =
      remaining.map (criterionOf embeddings relevance lambda selected) := by
  cases selected with
  | nil => rfl
  | cons s chosen =>
    refine List.map_congr_left fun i _ => ?_
    rw [List.map_cons, maximum_cons]
    rfl

/-- The loop's lists after some turns. -/
structure Chosen (criterion : List ℕ → ℕ → ℚ) (n : ℕ) (selected remaining : List ℕ) : Prop where
  greedy : Greedy criterion n selected
  sorted : remaining.Pairwise (· < ·)
  mem : ∀ j, j ∈ remaining ↔ j < n ∧ j ∉ selected
  length : selected.length + remaining.length = n

/-- The position of the greatest score is the one of the best candidate. -/
theorem Chosen.split {criterion : List ℕ → ℕ → ℚ} {n : ℕ} {selected remaining : List ℕ}
    (h : Chosen criterion n selected remaining) (hne : remaining ≠ []) :
    ∃ earlier i later, remaining = earlier ++ i :: later ∧
      earlier.length = argmax (remaining.map (criterion selected)) ∧
      FirstBest criterion n selected i := by
  have hscores : remaining.map (criterion selected) ≠ [] := by simpa using hne
  obtain ⟨x, front, back, hmap, hlen, hfront, hback⟩ := argmax_firstMaxAt hscores
  obtain ⟨earlier, rest, rfl, hearlier, hrest⟩ := List.map_eq_append_iff.mp hmap
  obtain ⟨i, later, rfl, hi, hlater⟩ := List.map_eq_cons_iff.mp hrest
  refine ⟨earlier, i, later, rfl, by rw [← hlen, ← hearlier, List.length_map], ?_⟩
  have himem := (h.mem i).mp (by simp)
  refine ⟨himem.1, himem.2, fun j hj hnot hij => ?_⟩
  rcases List.mem_append.mp ((h.mem j).mpr ⟨hj, hnot⟩) with hjmem | hjmem
  · left
    rw [hi]
    exact hfront _ (hearlier ▸ List.mem_map_of_mem hjmem)
  · have hjlater := (List.mem_cons.mp hjmem).resolve_left hij
    have hle : criterion selected j ≤ criterion selected i :=
      hi ▸ hback _ (hlater ▸ List.mem_map_of_mem hjlater)
    have hlt : i < j := (List.pairwise_cons.mp (List.pairwise_append.mp h.sorted).2.1).1 j hjlater
    exact hle.lt_or_eq.imp_right fun heq => ⟨heq, hlt⟩

/-- One turn of the loop. -/
theorem Chosen.step {criterion : List ℕ → ℕ → ℚ} {n : ℕ} {selected remaining : List ℕ}
    (h : Chosen criterion n selected remaining) (hne : remaining ≠ []) :
    Chosen criterion n
      (selected ++ [remaining.getD (argmax (remaining.map (criterion selected))) 0])
      (remaining.eraseIdx (argmax (remaining.map (criterion selected)))) := by
  obtain ⟨earlier, i, later, rfl, hlen, hbest⟩ := h.split hne
  rw [← hlen]
  have hget : (earlier ++ i :: later).getD earlier.length 0 = i := by simp
  have herase : (earlier ++ i :: later).eraseIdx earlier.length = earlier ++ later := by
    rw [List.eraseIdx_append_of_length_le le_rfl]
    simp
  rw [hget, herase]
  obtain ⟨hearlier, hlater, hcross⟩ := List.pairwise_append.mp h.sorted
  obtain ⟨hilater, hlater⟩ := List.pairwise_cons.mp hlater
  refine ⟨h.greedy.concat hbest, ?_, ?_, ?_⟩
  · refine List.pairwise_append.mpr ⟨hearlier, hlater, fun a ha b hb => ?_⟩
    exact hcross a ha b (List.mem_cons_of_mem i hb)
  · intro j
    have hj := h.mem j
    have hiearlier : i ∉ earlier := fun hmem => lt_irrefl i (hcross i hmem i List.mem_cons_self)
    have hilater' : i ∉ later := fun hmem => lt_irrefl i (hilater i hmem)
    rw [List.mem_append, List.mem_cons] at hj
    rw [List.mem_append, List.mem_append, List.mem_singleton, not_or]
    constructor
    · intro hmem
      have hne : j ≠ i := by
        rintro rfl
        exact hmem.elim hiearlier hilater'
      have hjn := hj.mp (hmem.imp_right Or.inr)
      exact ⟨hjn.1, hjn.2, hne⟩
    · rintro ⟨hjn, hnot, hne⟩
      exact (hj.mpr ⟨hjn, hnot⟩).imp_right fun hmem => hmem.resolve_left hne
  · have hlength := h.length
    simp only [List.length_append, List.length_cons, List.length_nil] at hlength ⊢
    omega

/-- The whole loop. -/
theorem mmrLoop_chosen {n : ℕ} (room : ℕ) {selected remaining : List ℕ}
    (h : Chosen (criterionOf embeddings relevance lambda) n selected remaining) :
    Greedy (criterionOf embeddings relevance lambda) n
        (mmrLoop embeddings relevance lambda room selected remaining) ∧
      (mmrLoop embeddings relevance lambda room selected remaining).length =
        min (selected.length + room) n := by
  have hlength := h.length
  induction room generalizing selected remaining with
  | zero => exact ⟨h.greedy, by rw [mmrLoop]; omega⟩
  | succ room ih =>
    cases remaining with
    | nil =>
      rw [List.length_nil] at hlength
      exact ⟨h.greedy, by rw [mmrLoop]; omega⟩
    | cons r rest =>
      have hnext := h.step (List.cons_ne_nil r rest)
      rw [← mmrScores_eq] at hnext
      obtain ⟨hgreedy, hlen⟩ := ih hnext hnext.length
      refine ⟨hgreedy, hlen.trans ?_⟩
      rw [List.length_append, List.length_singleton]
      congr 1
      omega

end Loop

/-! ### With all weight on relevance -/

/-- Descending relevance, candidates of the same relevance in their order. -/
def RelevanceOrder (relevance : ℕ → ℚ) (i j : ℕ) : Prop :=
  relevance j < relevance i ∨ relevance j = relevance i ∧ i < j

theorem mmrCriterion_one (relevance : ℕ → ℚ) (similarity : ℕ → ℕ → ℚ) :
    mmrCriterion relevance similarity 1 = fun _ => relevance := by
  funext chosen j
  cases chosen with
  | nil => rfl
  | cons s chosen => simp [mmrCriterion]

theorem exists_relevanceOrder (relevance : ℕ → ℚ) {rest : List ℕ} (hrest : rest.Nodup) :
    ∃ order : List ℕ, order.Perm rest ∧ order.Pairwise (RelevanceOrder relevance) := by
  let key (i : ℕ) : ℚᵒᵈ ×ₗ ℕ := toLex (OrderDual.toDual (relevance i), i)
  have : Std.Total fun i j => key i ≤ key j := ⟨fun i j => le_total (key i) (key j)⟩
  have : IsTrans ℕ fun i j => key i ≤ key j := ⟨fun _ _ _ h h' => h.trans h'⟩
  have hperm := List.perm_insertionSort (fun i j => key i ≤ key j) rest
  have hsorted := List.pairwise_insertionSort (fun i j => key i ≤ key j) rest
  refine ⟨_, hperm, hsorted.imp₂ ?_ (hperm.nodup_iff.mpr hrest)⟩
  intro i j hle hne
  rcases Prod.Lex.toLex_le_toLex.mp hle with hlt | ⟨heq, hij⟩
  · exact Or.inl hlt
  · exact Or.inr ⟨(OrderDual.toDual_inj.mp heq).symm, lt_of_le_of_ne hij hne⟩

/-- A chosen candidate comes before the ones that are left. -/
theorem Greedy.before_rest {relevance : ℕ → ℚ} {n : ℕ} {selected : List ℕ}
    (h : Greedy (fun _ => relevance) n selected) {i j : ℕ} (hi : i ∈ selected) (hj : j < n)
    (hnot : j ∉ selected) : RelevanceOrder relevance i j := by
  obtain ⟨before, after, rfl⟩ := List.append_of_mem hi
  have hne : j ≠ i := fun heq => hnot (heq ▸ hi)
  exact (h before i after rfl).2.2 j hj (fun hmem => hnot (List.mem_append_left _ hmem)) hne

theorem Greedy.pairwise {relevance : ℕ → ℚ} {n : ℕ} {selected : List ℕ}
    (h : Greedy (fun _ => relevance) n selected) :
    selected.Pairwise (RelevanceOrder relevance) := by
  induction selected using List.reverseRecOn with
  | nil => exact List.Pairwise.nil
  | append_singleton before i ih =>
    obtain ⟨hrest, hin, hnot, -⟩ := h.init
    refine List.pairwise_append.mpr ⟨ih hrest, List.pairwise_singleton _ i, fun a ha b hb => ?_⟩
    rw [List.mem_singleton.mp hb]
    exact hrest.before_rest ha hin hnot

/-- A greedy choice by relevance is the beginning of the relevance order. -/
theorem Greedy.eq_take {relevance : ℕ → ℚ} {n : ℕ} {selected : List ℕ}
    (h : Greedy (fun _ => relevance) n selected) :
    ∃ order : List ℕ, order.Perm (List.range n) ∧ order.Pairwise (RelevanceOrder relevance) ∧
      selected = order.take selected.length := by
  obtain ⟨rest, hperm, hrest⟩ := exists_relevanceOrder relevance
    ((List.nodup_range (n := n)).filter fun j => j ∉ selected)
  have hin : ∀ i ∈ selected, i < n := by
    intro i hi
    obtain ⟨before, after, hsplit⟩ := List.append_of_mem hi
    exact (h before i after hsplit).1
  have hmem (j : ℕ) : j ∈ rest ↔ j < n ∧ j ∉ selected := by
    rw [hperm.mem_iff, List.mem_filter, List.mem_range, decide_eq_true_iff]
  refine ⟨selected ++ rest, ?_, ?_, by simp⟩
  · have hnodup : (selected ++ rest).Nodup := by
      refine List.nodup_append.mpr ⟨h.nodup, ?_, fun a ha b hb hab => ?_⟩
      · exact hperm.nodup_iff.mpr (List.nodup_range.filter _)
      · exact ((hmem b).mp hb).2 (hab ▸ ha)
    refine (List.perm_ext_iff_of_nodup hnodup List.nodup_range).mpr fun j => ?_
    rw [List.mem_append, hmem, List.mem_range]
    constructor
    · rintro (hj | hj)
      · exact hin j hj
      · exact hj.1
    · intro hj
      by_cases hsel : j ∈ selected
      · exact Or.inl hsel
      · exact Or.inr ⟨hj, hsel⟩
  · refine List.pairwise_append.mpr ⟨h.pairwise, hrest, fun a ha b hb => ?_⟩
    exact h.before_rest ha ((hmem b).mp hb).1 ((hmem b).mp hb).2

/-! ### The selection -/

/-- `mmr_select` returns the greedy choice, and with all weight on relevance the beginning of
the relevance order. -/
theorem mmrSelect_greedy (models : Models ℚ) (modelName : String) (lambda : ℚ)
    (queryEmbedding : List ℚ) (candidates : List (Hit ℚ)) (topK : ℕ) (embeddings : List (List ℚ))
    (hembed : models.embedTexts modelName (candidates.map Hit.text) = .ok embeddings)
    (hlength : embeddings.length = candidates.length)
    (hdimension : ∀ e ∈ embeddings, e.length = queryEmbedding.length) :
    ∃ selected : List ℕ,
      mmrSelect models modelName lambda queryEmbedding candidates topK =
        .ok (selected.filterMap (candidates[·]?)) ∧
      selected.length = min topK candidates.length ∧ selected.Nodup ∧
      Greedy (mmrCriterion (fun i => dot (embeddings.getD i []) queryEmbedding)
        (fun i j => dot (embeddings.getD i []) (embeddings.getD j [])) lambda)
        candidates.length selected ∧
      (lambda = 1 → ∃ order : List ℕ, order.Perm (List.range candidates.length) ∧
        order.Pairwise (RelevanceOrder fun i => dot (embeddings.getD i []) queryEmbedding) ∧
        selected = order.take topK) := by
  have hrelevance : (fun i => (embeddings.map (dot · queryEmbedding)).getD i 0) =
      fun i => dot (embeddings.getD i []) queryEmbedding := by
    funext i
    rw [List.getD_eq_getElem?_getD, List.getD_eq_getElem?_getD, List.getElem?_map]
    cases embeddings[i]? with
    | none => rfl
    | some e => rfl
  have hstart : Chosen (criterionOf embeddings (embeddings.map (dot · queryEmbedding)) lambda)
      candidates.length [] (List.range candidates.length) :=
    ⟨Greedy.nil _ _, List.pairwise_lt_range, by simp, by simp⟩
  obtain ⟨hgreedy, hlen⟩ := mmrLoop_chosen topK hstart
  rw [List.length_nil, Nat.zero_add] at hlen
  rw [criterionOf, hrelevance] at hgreedy
  refine ⟨_, ?_, hlen, hgreedy.nodup, hgreedy, ?_⟩
  · unfold mmrSelect
    by_cases hnone : (candidates.isEmpty || decide (topK = 0)) = true
    · rw [if_pos hnone]
      rcases Bool.or_eq_true_iff.mp hnone with hempty | hzero
      · rw [List.isEmpty_iff.mp hempty]
        simp
      · rw [of_decide_eq_true hzero]
        rfl
    · rw [if_neg hnone, hembed]
      have hne : candidates ≠ [] := fun hnil => hnone (by simp [hnil])
      have hrows : embeddings ≠ [] := by
        rintro rfl
        exact hne (List.length_eq_zero_iff.mp hlength.symm)
      have hmatrix : (embeddings.isEmpty ||
          embeddings.any fun e => decide (e.length ≠ queryEmbedding.length)) = false := by
        rw [Bool.or_eq_false_iff, List.any_eq_false]
        exact ⟨by simpa using hrows, fun e he => by simpa using hdimension e he⟩
      simp only [bind, Except.bind, hmatrix, Bool.false_eq_true, if_false, hlength, lt_irrefl]
  · rintro rfl
    rw [mmrCriterion_one] at hgreedy
    obtain ⟨order, hperm, hsorted, htake⟩ := hgreedy.eq_take
    refine ⟨order, hperm, hsorted, htake.trans (List.take_eq_take_iff.mpr ?_)⟩
    rw [hlen, hperm.length_eq, List.length_range, min_assoc, min_self]

/-- Two chunks with the same vector: the first one is chosen. -/
theorem mmrSelect_greedy_two :
    ∃ selected : List ℕ,
      mmrSelect sampleServices.models "embedding" (7 / 10) [1]
          [(sampleDocument "a" "t").hit 1, (sampleDocument "b" "t").hit 1] 1 =
        .ok (selected.filterMap
          ([(sampleDocument "a" "t").hit (1 : ℚ), (sampleDocument "b" "t").hit 1][·]?)) ∧
      selected.length = 1 := by
  obtain ⟨selected, hresult, hlen, -⟩ := mmrSelect_greedy sampleServices.models "embedding" (7 / 10)
    [1] [(sampleDocument "a" "t").hit 1, (sampleDocument "b" "t").hit 1] 1 [[1], [1]] rfl rfl
    (by decide)
  exact ⟨selected, hresult, hlen⟩

end Ally.Retrieval
