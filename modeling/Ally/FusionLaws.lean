import Ally.Ranking
import Ally.TenantIsolation

/-!
# Laws of reciprocal rank fusion

Over exact scores. The score of an id in the table of the fusion is a sum of shares, one
for each list, so neither the order of the lists nor of the rounds of the loop matters.
-/

namespace Ally.Retrieval

/-! ### What a list adds to an id -/

/-- The rank of an id in a result list, from 1. -/
def rankOf (results : List (Hit ℚ)) (id : String) : Option ℕ :=
  ((results.zipIdx 1).find? fun entry => entry.1.id.text = id).map Prod.snd

/-- What a result list adds to the score of an id. -/
def share (k : ℕ) (id : String) (results : List (Hit ℚ)) : ℚ :=
  match rankOf results id with
  | some rank => 1 / ((k : ℚ) + rank)
  | none => 0

/-- Absence is the worst rank. -/
def RankedNoWorse (results : List (Hit ℚ)) (id id' : String) : Prop :=
  ∀ rank', rankOf results id' = some rank' → ∃ rank, rankOf results id = some rank ∧ rank ≤ rank'

theorem rankOf_pos {results : List (Hit ℚ)} {id : String} {rank : ℕ}
    (h : rankOf results id = some rank) : 0 < rank := by
  obtain ⟨entry, hfind, rfl⟩ := Option.map_eq_some_iff.mp h
  have hmem := List.mem_of_find?_eq_some hfind
  have hle := List.le_snd_of_mem_zipIdx hmem
  omega

theorem share_nonneg (k : ℕ) (id : String) (results : List (Hit ℚ)) : 0 ≤ share k id results := by
  unfold share
  split
  · positivity
  · exact le_rfl

theorem share_le_share {k : ℕ} {results : List (Hit ℚ)} {id id' : String}
    (h : RankedNoWorse results id id') : share k id' results ≤ share k id results := by
  cases hrank' : rankOf results id' with
  | none =>
    have hzero : share k id' results = 0 := by simp [share, hrank']
    rw [hzero]
    exact share_nonneg k id results
  | some rank' =>
    obtain ⟨rank, hrank, hle⟩ := h rank' hrank'
    have hpos : (0 : ℚ) < k + rank := by
      have hrankpos : (0 : ℚ) < rank := by exact_mod_cast rankOf_pos hrank
      positivity
    have hcast : (k : ℚ) + rank ≤ k + rank' := by
      have hle' : (rank : ℚ) ≤ rank' := by exact_mod_cast hle
      linarith
    simp only [share, hrank, hrank']
    exact one_div_le_one_div_of_le hpos hcast

/-! ### The table -/

/-- `scores.get(id, 0.0)`. -/
def FusedTable.scoreOf (table : FusedTable ℚ) (id : String) : ℚ :=
  ((table.lookup id).map Fused.score).getD 0

/-- What one round of the inner loop adds to an id. -/
def roundShare (k : ℕ) (id : String) (entry : Hit ℚ × ℕ) : ℚ :=
  if entry.1.id.text = id then 1 / ((k : ℚ) + entry.2) else 0

theorem FusedTable.scoreOf_cons (key : String) (f : Fused ℚ) (table : FusedTable ℚ) (id : String) :
    FusedTable.scoreOf ((key, f) :: table) id =
      if key = id then f.score else FusedTable.scoreOf table id := by
  unfold FusedTable.scoreOf
  by_cases hkey : id = key
  · simp [hkey]
  · have hne : (id == key) = false := by simpa using hkey
    simp [List.lookup_cons, hne, Ne.symm hkey]

theorem FusedTable.scoreOf_of_mem {table : FusedTable ℚ} (hnodup : (table.map Prod.fst).Nodup)
    {e : String × Fused ℚ} (he : e ∈ table) : FusedTable.scoreOf table e.1 = e.2.score := by
  induction table with
  | nil => cases he
  | cons d table ih =>
    obtain ⟨hd, hrest⟩ := List.nodup_cons.mp hnodup
    rw [FusedTable.scoreOf_cons d.1 d.2]
    rcases List.mem_cons.mp he with rfl | he
    · rw [if_pos rfl]
    · have hne : d.1 ≠ e.1 := fun h => hd (h ▸ List.mem_map_of_mem he)
      rw [if_neg hne]
      exact ih hrest he

theorem FusedTable.scoreOf_notMem {table : FusedTable ℚ} {id : String}
    (hid : id ∉ table.map Prod.fst) : FusedTable.scoreOf table id = 0 := by
  induction table with
  | nil => rfl
  | cons d table ih =>
    rw [List.map_cons, List.mem_cons, not_or] at hid
    rw [FusedTable.scoreOf_cons d.1 d.2, if_neg (Ne.symm hid.1)]
    exact ih hid.2

/-- Adding to the entries of a key. -/
theorem FusedTable.scoreOf_map (table : FusedTable ℚ) (key id : String) (x : ℚ)
    (hkey : key ∈ table.map Prod.fst) :
    FusedTable.scoreOf (table.map fun e =>
        if e.1 = key then (e.1, { e.2 with score := e.2.score + x }) else e) id =
      FusedTable.scoreOf table id + if key = id then x else 0 := by
  have hmap (table : FusedTable ℚ) : FusedTable.scoreOf (table.map fun e =>
        if e.1 = key then (e.1, { e.2 with score := e.2.score + x }) else e) id =
      FusedTable.scoreOf table id + if key = id ∧ key ∈ table.map Prod.fst then x else 0 := by
    induction table with
    | nil => simp [FusedTable.scoreOf]
    | cons d table ih =>
      obtain ⟨dkey, df⟩ := d
      rw [List.map_cons, FusedTable.scoreOf_cons]
      by_cases hd : dkey = key
      · subst hd
        rw [if_pos rfl, FusedTable.scoreOf_cons]
        by_cases hid : dkey = id
        · simp [hid]
        · simp only [hid, if_false, false_and, add_zero]
          simpa [hid] using ih
      · rw [if_neg hd, FusedTable.scoreOf_cons]
        by_cases hid : dkey = id
        · have hne : key ≠ id := fun h => hd (hid.trans h.symm)
          simp [hid, hne]
        · simp only [hid, if_false, ih, List.map_cons, List.mem_cons, Ne.symm hd, false_or]
  rw [hmap]
  simp [hkey]

theorem mem_keys_addRanked (k : ℕ) (table : FusedTable ℚ) (entry : Hit ℚ × ℕ) (id : String) :
    id ∈ (addRanked k table entry).map Prod.fst ↔
      id ∈ table.map Prod.fst ∨ id = entry.1.id.text := by
  unfold addRanked
  dsimp only
  split_ifs with hany
  · obtain ⟨e, he, hkey⟩ := List.any_eq_true.mp hany
    have hmem : entry.1.id.text ∈ table.map Prod.fst :=
      of_decide_eq_true hkey ▸ List.mem_map_of_mem he
    have hkeys : (table.map fun e => if e.1 = entry.1.id.text then
        (e.1, { e.2 with score := e.2.score + 1 / ((k + entry.2 : ℕ) : ℚ) }) else e).map
          Prod.fst = table.map Prod.fst := by
      rw [List.map_map]
      refine List.map_congr_left fun e _ => ?_
      simp only [Function.comp_apply]
      split_ifs <;> rfl
    rw [hkeys]
    exact ⟨Or.inl, fun h => h.elim (fun h => h) fun h => h ▸ hmem⟩
  · simp

theorem FusedTable.scoreOf_append (table : FusedTable ℚ) (key id : String) (f : Fused ℚ)
    (hkey : key ∉ table.map Prod.fst) :
    FusedTable.scoreOf (table ++ [(key, f)]) id =
      FusedTable.scoreOf table id + if key = id then f.score else 0 := by
  induction table with
  | nil =>
    rw [List.nil_append, FusedTable.scoreOf_cons]
    simp [FusedTable.scoreOf]
  | cons d table ih =>
    rw [List.map_cons, List.mem_cons, not_or] at hkey
    rw [List.cons_append, FusedTable.scoreOf_cons d.1 d.2, FusedTable.scoreOf_cons d.1 d.2]
    by_cases hid : d.1 = id
    · have hne : key ≠ id := fun h => hkey.1 (h.trans hid.symm)
      simp [hid, hne]
    · rw [if_neg hid, if_neg hid, ih hkey.2]

theorem scoreOf_addRanked (k : ℕ) (table : FusedTable ℚ) (entry : Hit ℚ × ℕ) (id : String) :
    FusedTable.scoreOf (addRanked k table entry) id =
      FusedTable.scoreOf table id + roundShare k id entry := by
  have hcast : (1 : ℚ) / ((k + entry.2 : ℕ) : ℚ) = 1 / ((k : ℚ) + entry.2) := by push_cast; rfl
  unfold addRanked roundShare
  dsimp only
  rw [hcast]
  by_cases hany : table.any (fun e => e.1 = entry.1.id.text) = true
  · obtain ⟨e, he, hkey⟩ := List.any_eq_true.mp hany
    rw [if_pos hany]
    exact FusedTable.scoreOf_map _ _ _ _ (of_decide_eq_true hkey ▸ List.mem_map_of_mem he)
  · have hnew : entry.1.id.text ∉ table.map Prod.fst := by
      intro hmem
      obtain ⟨e, he, hkey⟩ := List.mem_map.mp hmem
      exact hany (List.any_eq_true.mpr ⟨e, he, decide_eq_true hkey⟩)
    rw [if_neg hany, FusedTable.scoreOf_append _ _ _ _ hnew, zero_add]

theorem scoreOf_addResults (k : ℕ) (entries : List (Hit ℚ × ℕ)) (table : FusedTable ℚ)
    (id : String) :
    FusedTable.scoreOf (entries.foldl (addRanked k) table) id =
      FusedTable.scoreOf table id + (entries.map (roundShare k id)).sum := by
  induction entries generalizing table with
  | nil => simp
  | cons entry entries ih =>
    rw [List.foldl_cons, ih, scoreOf_addRanked, List.map_cons, List.sum_cons, add_assoc]

theorem mem_keys_addResults (k : ℕ) (entries : List (Hit ℚ × ℕ)) (table : FusedTable ℚ)
    (id : String) :
    id ∈ (entries.foldl (addRanked k) table).map Prod.fst ↔
      id ∈ table.map Prod.fst ∨ id ∈ entries.map fun entry => entry.1.id.text := by
  induction entries generalizing table with
  | nil => simp
  | cons entry entries ih =>
    rw [List.foldl_cons, ih, mem_keys_addRanked, List.map_cons, List.mem_cons, or_assoc]

/-- In a list with distinct ids only one round adds to an id. -/
theorem sum_roundShare {k : ℕ} {id : String} {results : List (Hit ℚ)}
    (hdistinct : (results.map fun h => h.id.text).Nodup) :
    ((results.zipIdx 1).map (roundShare k id)).sum = share k id results := by
  have hnone (results : List (Hit ℚ)) (start : ℕ) (hid : id ∉ results.map fun h => h.id.text) :
      ((results.zipIdx start).map (roundShare k id)).sum = 0 := by
    refine List.sum_eq_zero ?_
    intro x hx
    obtain ⟨entry, hentry, rfl⟩ := List.mem_map.mp hx
    have hmem : entry.1 ∈ results := List.fst_mem_of_mem_zipIdx hentry
    have hne : entry.1.id.text ≠ id := fun h => hid (List.mem_map.mpr ⟨entry.1, hmem, h⟩)
    simp [roundShare, hne]
  unfold share rankOf
  generalize 1 = start
  induction results generalizing start with
  | nil => simp
  | cons h results ih =>
    obtain ⟨hh, hrest⟩ := List.nodup_cons.mp hdistinct
    rw [List.zipIdx_cons, List.map_cons, List.sum_cons]
    by_cases hid : h.id.text = id
    · rw [hnone results (start + 1) (hid ▸ hh)]
      simp [roundShare, hid]
    · rw [ih hrest (start + 1)]
      simp [roundShare, hid]

/-! ### The fused list -/

section

variable {k : ℕ} {rankedLists : List (List (Hit ℚ))}

theorem mem_keys_fusedTable (k : ℕ) (rankedLists : List (List (Hit ℚ))) (id : String) :
    id ∈ (fusedTable k rankedLists).map Prod.fst ↔
      id ∈ rankedLists.flatten.map fun h => h.id.text := by
  have hgeneral : ∀ (rest : List (List (Hit ℚ))) (table : FusedTable ℚ),
      id ∈ (rest.foldl (fun table results => (results.zipIdx 1).foldl (addRanked k) table)
          table).map Prod.fst ↔
        id ∈ table.map Prod.fst ∨ id ∈ rest.flatten.map fun h => h.id.text := by
    intro rest
    induction rest with
    | nil => simp
    | cons results rest ih =>
      intro table
      have htexts : (results.zipIdx 1).map (fun entry => entry.1.id.text) =
          results.map fun h => h.id.text := by
        conv_rhs => rw [← List.zipIdx_map_fst 1 results, List.map_map]
        rfl
      rw [List.foldl_cons, ih, mem_keys_addResults, htexts, List.flatten_cons, List.map_append,
        List.mem_append, or_assoc]
  rw [fusedTable, hgeneral]
  simp

theorem scoreOf_fusedTable
    (hdistinct : ∀ results ∈ rankedLists, (results.map fun h => h.id.text).Nodup) (id : String) :
    FusedTable.scoreOf (fusedTable k rankedLists) id = (rankedLists.map (share k id)).sum := by
  have hgeneral : ∀ (rest : List (List (Hit ℚ))) (table : FusedTable ℚ),
      (∀ results ∈ rest, (results.map fun h => h.id.text).Nodup) →
      FusedTable.scoreOf (rest.foldl
          (fun table results => (results.zipIdx 1).foldl (addRanked k) table) table) id =
        FusedTable.scoreOf table id + (rest.map (share k id)).sum := by
    intro rest
    induction rest with
    | nil => simp
    | cons results rest ih =>
      intro table hrest
      rw [List.foldl_cons, ih _ fun r hr => hrest r (List.mem_cons_of_mem results hr),
        scoreOf_addResults, sum_roundShare (hrest results List.mem_cons_self), List.map_cons,
        List.sum_cons, add_assoc]
  rw [fusedTable, hgeneral rankedLists [] hdistinct]
  simp [FusedTable.scoreOf]

/-- The key of an entry in the sort. -/
def entryKey (e : String × Fused ℚ) : RankKey := rankKey e.2.score e.2.payload.id.text

/-- The key of a fused result. -/
def fusedKey (h : Hit ℚ) : RankKey := rankKey (h.rrfScore.getD 0) h.id.text

theorem reciprocalRankFusion_eq (rankedLists : List (List (Hit ℚ))) (k : ℕ) :
    reciprocalRankFusion rankedLists k =
      ((fusedTable k rankedLists).insertionSort fun a b => entryKey a ≤ entryKey b).map
        fun e => e.2.hit := by
  unfold reciprocalRankFusion
  rw [insertionSort_congr fun _ _ => not_rankedBefore_iff]
  rfl

theorem map_fusedKey (rankedLists : List (List (Hit ℚ))) (k : ℕ) :
    (reciprocalRankFusion rankedLists k).map fusedKey =
      ((fusedTable k rankedLists).insertionSort fun a b => entryKey a ≤ entryKey b).map
        entryKey := by
  rw [reciprocalRankFusion_eq, List.map_map]
  rfl

theorem mem_reciprocalRankFusion {h : Hit ℚ} :
    h ∈ reciprocalRankFusion rankedLists k ↔ ∃ e ∈ fusedTable k rankedLists, e.2.hit = h := by
  rw [reciprocalRankFusion_eq, List.mem_map]
  simp only [List.mem_insertionSort]

theorem nodup_entryKey (k : ℕ) (rankedLists : List (List (Hit ℚ))) :
    ((fusedTable k rankedLists).map entryKey).Nodup := by
  have hsound := sound_fusedTable k rankedLists
  refine List.Nodup.of_map (fun key => (ofLex key).2) ?_
  have hkeys : ((fusedTable k rankedLists).map entryKey).map (fun key => (ofLex key).2) =
      (fusedTable k rankedLists).map Prod.fst := by
    rw [List.map_map]
    exact List.map_congr_left fun e he => (hsound.entry e he).1.symm
  rw [hkeys]
  exact hsound.nodup

theorem pairwise_fusedKey (rankedLists : List (List (Hit ℚ))) (k : ℕ) :
    (reciprocalRankFusion rankedLists k).Pairwise fun a b => fusedKey a < fusedKey b := by
  have hsorted := pairwise_sort_lt entryKey (nodup_entryKey k rankedLists)
  rw [← List.pairwise_map, map_fusedKey]
  exact List.pairwise_map.mpr hsorted

/-- The score of a fused result is the sum of the shares of the lists. -/
theorem rrfScore_eq
    (hdistinct : ∀ results ∈ rankedLists, (results.map fun h => h.id.text).Nodup)
    {h : Hit ℚ} (hh : h ∈ reciprocalRankFusion rankedLists k) :
    h.rrfScore = some (rankedLists.map (share k h.id.text)).sum := by
  obtain ⟨e, he, rfl⟩ := mem_reciprocalRankFusion.mp hh
  have hsound := sound_fusedTable k rankedLists
  have hscore := FusedTable.scoreOf_of_mem hsound.nodup he
  rw [scoreOf_fusedTable hdistinct, (hsound.entry e he).1] at hscore
  exact congrArg some hscore.symm

theorem mem_ids_reciprocalRankFusion (id : String) :
    id ∈ (reciprocalRankFusion rankedLists k).map (fun h => h.id.text) ↔
      ∃ results ∈ rankedLists, id ∈ results.map fun h => h.id.text := by
  have hsound := sound_fusedTable k rankedLists
  have hkeys : id ∈ (reciprocalRankFusion rankedLists k).map (fun h => h.id.text) ↔
      id ∈ (fusedTable k rankedLists).map Prod.fst := by
    simp only [List.mem_map, mem_reciprocalRankFusion]
    constructor
    · rintro ⟨_, ⟨e, he, rfl⟩, hid⟩
      exact ⟨e, he, (hsound.entry e he).1.trans hid⟩
    · rintro ⟨e, he, hid⟩
      exact ⟨_, ⟨e, he, rfl⟩, (hsound.entry e he).1.symm.trans hid⟩
  rw [hkeys, mem_keys_fusedTable, List.mem_map]
  simp only [List.mem_flatten, List.mem_map]
  constructor
  · rintro ⟨h, ⟨results, hresults, hh⟩, hid⟩
    exact ⟨results, hresults, h, hh, hid⟩
  · rintro ⟨results, hresults, h, hh, hid⟩
    exact ⟨h, ⟨results, hresults, hh⟩, hid⟩

/-- The keys of the fused list do not depend on the order of the lists. -/
theorem map_fusedKey_perm {rankedLists' : List (List (Hit ℚ))}
    (hdistinct : ∀ results ∈ rankedLists, (results.map fun h => h.id.text).Nodup)
    (hperm : rankedLists.Perm rankedLists') :
    (reciprocalRankFusion rankedLists k).map fusedKey =
      (reciprocalRankFusion rankedLists' k).map fusedKey := by
  have hdistinct' : ∀ results ∈ rankedLists', (results.map fun h => h.id.text).Nodup :=
    fun results hresults => hdistinct results (hperm.mem_iff.mpr hresults)
  have hkey {lists : List (List (Hit ℚ))}
      (hd : ∀ results ∈ lists, (results.map fun h => h.id.text).Nodup) (x : RankKey) :
      x ∈ (fusedTable k lists).map entryKey ↔
        ∃ id ∈ lists.flatten.map (fun h => h.id.text),
          rankKey (lists.map (share k id)).sum id = x := by
    have hsound := sound_fusedTable k lists
    have hentry : ∀ e ∈ fusedTable k lists,
        entryKey e = rankKey (lists.map (share k e.1)).sum e.1 := by
      intro e he
      rw [← scoreOf_fusedTable hd, FusedTable.scoreOf_of_mem hsound.nodup he, entryKey,
        (hsound.entry e he).1]
    simp only [← mem_keys_fusedTable k lists, List.mem_map]
    constructor
    · rintro ⟨e, he, rfl⟩
      exact ⟨e.1, ⟨e, he, rfl⟩, (hentry e he).symm⟩
    · rintro ⟨_, ⟨e, he, rfl⟩, rfl⟩
      exact ⟨e, he, hentry e he⟩
  rw [map_fusedKey, map_fusedKey]
  refine map_sort_eq entryKey (nodup_entryKey k _) (nodup_entryKey k _) fun x => ?_
  rw [hkey hdistinct, hkey hdistinct']
  have hids := (hperm.flatten.map fun h => h.id.text)
  have hsum (id : String) : (rankedLists.map (share k id)).sum = (rankedLists'.map (share k id)).sum :=
    (hperm.map _).sum_eq
  simp only [hids.mem_iff, hsum]

end

/-- The laws of `reciprocal_rank_fusion` for lists with distinct ids. -/
theorem reciprocalRankFusion_laws (rankedLists : List (List (Hit ℚ))) (k : ℕ)
    (hdistinct : ∀ results ∈ rankedLists, (results.map fun h => h.id.text).Nodup) :
    ((reciprocalRankFusion rankedLists k).map fun h => h.id.text).Nodup ∧
    (∀ id, id ∈ (reciprocalRankFusion rankedLists k).map (fun h => h.id.text) ↔
      ∃ results ∈ rankedLists, id ∈ results.map fun h => h.id.text) ∧
    (∀ h ∈ reciprocalRankFusion rankedLists k,
      h.rrfScore = some (rankedLists.map (share k h.id.text)).sum) ∧
    (reciprocalRankFusion rankedLists k).Pairwise (fun a b =>
      b.rrfScore.getD 0 < a.rrfScore.getD 0 ∨
        a.rrfScore = b.rrfScore ∧ a.id.text < b.id.text) ∧
    (∀ rankedLists', rankedLists.Perm rankedLists' →
      (reciprocalRankFusion rankedLists k).map (fun h => (h.id.text, h.rrfScore)) =
        (reciprocalRankFusion rankedLists' k).map fun h => (h.id.text, h.rrfScore)) ∧
    (∀ a ∈ reciprocalRankFusion rankedLists k, ∀ b ∈ reciprocalRankFusion rankedLists k,
      (∀ results ∈ rankedLists, RankedNoWorse results a.id.text b.id.text) →
        b.rrfScore.getD 0 ≤ a.rrfScore.getD 0) := by
  have hscore : ∀ h ∈ reciprocalRankFusion rankedLists k,
      h.rrfScore = some (rankedLists.map (share k h.id.text)).sum := fun h hh =>
    rrfScore_eq hdistinct hh
  refine ⟨?_, mem_ids_reciprocalRankFusion, hscore, ?_, ?_, ?_⟩
  · refine List.pairwise_map.mpr ((pairwise_fusedKey rankedLists k).imp_of_mem ?_)
    intro a b ha hb hlt hid
    have hsame : fusedKey a = fusedKey b := by
      rw [fusedKey, fusedKey, hscore a ha, hscore b hb, hid]
    exact hlt.ne hsame
  · refine (pairwise_fusedKey rankedLists k).imp_of_mem fun {a b} ha hb hlt => ?_
    rcases rankKey_lt_iff.mp hlt with hlt | ⟨heq, hid⟩
    · exact Or.inl hlt
    · rw [hscore a ha, hscore b hb] at heq
      exact Or.inr ⟨by rw [hscore a ha, hscore b hb]; exact congrArg some heq, hid⟩
  · intro rankedLists' hperm
    have hdistinct' : ∀ results ∈ rankedLists', (results.map fun h => h.id.text).Nodup :=
      fun results hresults => hdistinct results (hperm.mem_iff.mpr hresults)
    have hpairs {lists : List (List (Hit ℚ))}
        (hd : ∀ results ∈ lists, (results.map fun h => h.id.text).Nodup) :
        (reciprocalRankFusion lists k).map (fun h => (h.id.text, h.rrfScore)) =
          ((reciprocalRankFusion lists k).map fusedKey).map fun key =>
            ((ofLex key).2, some (OrderDual.ofDual (ofLex key).1)) := by
      rw [List.map_map]
      refine List.map_congr_left fun h hh => ?_
      simp [fusedKey, rankKey, rrfScore_eq hd hh]
    rw [hpairs hdistinct, hpairs hdistinct', map_fusedKey_perm hdistinct hperm]
  · intro a ha b hb hranks
    rw [hscore a ha, hscore b hb]
    exact List.sum_le_sum fun results hresults => share_le_share (hranks results hresults)

def sampleHit (id : String) : Hit ℚ := (sampleDocument id "t").hit 1

/-- A chunk that both lists have and one that the first has. -/
theorem reciprocalRankFusion_laws_two :
    ((reciprocalRankFusion [[sampleHit "shared", sampleHit "dense"], [sampleHit "shared"]] 10).map
      fun h => h.id.text).Nodup :=
  (reciprocalRankFusion_laws [[sampleHit "shared", sampleHit "dense"], [sampleHit "shared"]] 10
    (by decide)).1

end Ally.Retrieval
