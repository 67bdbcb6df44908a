import Ally.Ranking
import Ally.TenantIsolation

/-!
# The top matches of lexical search

`BM25Index.search` takes the first `top_k` of the ranked documents and then drops the ones
that do not match. This is the first `top_k` of the matches unless a document that does not
match stands before one that does where the list is cut.
-/

namespace Ally.Retrieval

/-! ### The first matches -/

/-- The key of a document in the sort. -/
def documentKey (e : Document × ℚ) : RankKey := rankKey e.2 e.1.id

/-- The candidates in the order of descending score and then ascending id. -/
def rankedDocuments (candidates : List (Document × ℚ)) : List (Document × ℚ) :=
  candidates.insertionSort fun a b => documentKey a ≤ documentKey b

/-- The first `topK` of the candidates that match. -/
def bestMatches (queryTokens : List String) (topK : ℕ) (candidates : List (Document × ℚ)) :
    List (Hit ℚ) :=
  ((rankedDocuments (candidates.filter (lexicalMatch queryTokens))).take topK).map
    fun e => e.1.hit e.2

/-- A candidate that does not match is among the first `topK`, and one that matches is not. -/
def Displaced (queryTokens : List String) (topK : ℕ) (candidates : List (Document × ℚ)) : Prop :=
  (∃ d ∈ (rankedDocuments candidates).take topK, lexicalMatch queryTokens d = false) ∧
    ∃ e ∈ (rankedDocuments candidates).drop topK, lexicalMatch queryTokens e = true

theorem topMatches_eq (queryTokens : List String) (topK : ℕ) (candidates : List (Document × ℚ)) :
    topMatches queryTokens topK candidates =
      (((rankedDocuments candidates).take topK).filter (lexicalMatch queryTokens)).map
        fun e => e.1.hit e.2 := by
  unfold topMatches rankedDocuments
  rw [insertionSort_congr fun _ _ => not_rankedBefore_iff]
  rfl

theorem filter_rankedDocuments (p : Document × ℚ → Bool) (candidates : List (Document × ℚ)) :
    (rankedDocuments candidates).filter p = rankedDocuments (candidates.filter p) := by
  have : Std.Total fun a b => documentKey a ≤ documentKey b :=
    ⟨fun a b => le_total (documentKey a) (documentKey b)⟩
  have : IsTrans (Document × ℚ) fun a b => documentKey a ≤ documentKey b :=
    ⟨fun _ _ _ h h' => h.trans h'⟩
  exact filter_insertionSort p candidates

theorem topMatches_eq_bestMatches_iff (queryTokens : List String) (topK : ℕ)
    (candidates : List (Document × ℚ)) :
    topMatches queryTokens topK candidates = bestMatches queryTokens topK candidates ↔
      ¬ Displaced queryTokens topK candidates := by
  obtain ⟨lost, hlost, hiff⟩ :=
    filter_take (lexicalMatch queryTokens) topK (rankedDocuments candidates)
  rw [filter_rankedDocuments] at hlost
  rw [topMatches_eq, bestMatches, hlost, List.map_append, Displaced, ← hiff]
  constructor
  · intro h
    have hlength := congrArg List.length h
    rw [List.length_append, List.length_map, List.length_map] at hlength
    exact List.length_eq_zero_iff.mp (by omega)
  · rintro rfl
    simp

/-! ### Queries without tokens -/

theorem toNat_of_isSpace {c : Char} (hc : Text.isSpace c = true) :
    c.toNat ≤ 32 ∨ 133 ≤ c.toNat := by
  simp only [Text.isSpace, Bool.or_eq_true, Bool.and_eq_true, decide_eq_true_eq] at hc
  omega

theorem isAlphanum_of_isSpace {c d : Char} (hc : Text.isSpace c = true) (hd : d ∈ Text.lower c) :
    d.isAlphanum = false := by
  have hkelvin : c ≠ '\u212a' := by
    rintro rfl
    exact absurd hc (by decide)
  have hdotted : c ≠ '\u0130' := by
    rintro rfl
    exact absurd hc (by decide)
  rw [Text.lower, if_neg hkelvin, if_neg hdotted, List.mem_singleton] at hd
  have hval : c.val.toNat ≤ 32 ∨ 133 ≤ c.val.toNat := toNat_of_isSpace hc
  have hlower : c.toLower = c := by
    unfold Char.toLower
    refine dif_neg ?_
    rintro ⟨hA, hZ⟩
    have hA' : 65 ≤ c.val.toNat := UInt32.le_iff_toNat_le.mp hA
    have hZ' : c.val.toNat ≤ 90 := UInt32.le_iff_toNat_le.mp hZ
    omega
  rw [hd, hlower]
  apply Bool.eq_false_iff.mpr
  intro halnum
  have hrange := Text.isAlphanum_iff.mp halnum
  have hspace := toNat_of_isSpace hc
  omega

theorem tokenize_blank {query : String} (hblank : Text.blank query = true) : tokenize query = [] := by
  have hnone : ∀ d ∈ query.toList.flatMap Text.lower, d.isAlphanum = false := by
    intro d hd
    obtain ⟨c, hc, hd⟩ := List.mem_flatMap.mp hd
    exact isAlphanum_of_isSpace (List.all_eq_true.mp hblank c hc) hd
  unfold tokenize
  generalize query.toList.flatMap Text.lower = chars at hnone
  induction chars with
  | nil => simp
  | cons d chars ih =>
    have hd := hnone d List.mem_cons_self
    rw [List.splitOnP_cons_eq_if_modifyHead, if_pos (by simp [hd])]
    simpa using ih fun e he => hnone e (List.mem_cons_of_mem d he)

/-- `BM25Index.search` returns the first `top_k` matches exactly when the cut displaces none. -/
theorem bm25Search_best_iff (scorer : Scorer ℚ) (docs : List Document) (query tenantId : String)
    (topK : ℤ) (metadataFilter : List (String × Value ℚ)) (scores : ℕ → ℚ)
    (htop : 1 ≤ topK) (htenant : Text.blank tenantId = false)
    (hscores : scorer (docs.map fun d => tokenize d.text) (tokenize query) = .ok scores)
    (hblank : Text.blank query = true → ∀ i, scores i = 0) :
    let candidates := (scored scores docs).filter fun e =>
      eligible (effectiveFilter tenantId metadataFilter) e.1
    bm25Search scorer docs query tenantId topK metadataFilter =
        .ok (bestMatches (tokenize query) topK.toNat candidates) ↔
      ¬ Displaced (tokenize query) topK.toNat candidates := by
  intro candidates
  have hpos : ¬ topK ≤ 0 := by omega
  unfold bm25Search
  rw [if_neg hpos, htenant, if_neg Bool.false_ne_true]
  by_cases hshort : (Text.blank query || docs.isEmpty) = true
  · have hnone : ∀ e ∈ candidates, lexicalMatch (tokenize query) e = false := by
      rcases Bool.or_eq_true_iff.mp hshort with hquery | hdocs
      · intro e he
        obtain ⟨i, hi, rfl⟩ := List.mem_mapIdx.mp (List.mem_filter.mp he).1
        simp [lexicalMatch, tokenize_blank hquery, hblank hquery]
      · intro e he
        simp [candidates, List.isEmpty_iff.mp hdocs, scored] at he
    have hbest : bestMatches (tokenize query) topK.toNat candidates = [] := by
      have hfilter : candidates.filter (lexicalMatch (tokenize query)) = [] :=
        List.filter_eq_nil_iff.mpr fun e he => by simp [hnone e he]
      simp [bestMatches, hfilter, rankedDocuments]
    have hdisplaced : ¬ Displaced (tokenize query) topK.toNat candidates := by
      rintro ⟨-, e, he, hmatch⟩
      have hmem : e ∈ candidates :=
        (List.mem_insertionSort _).mp (List.mem_of_mem_drop he)
      rw [hnone e hmem] at hmatch
      cases hmatch
    rw [if_pos hshort, hbest]
    exact iff_of_true rfl hdisplaced
  · rw [if_neg hshort, ← topMatches_eq_bestMatches_iff]
    simp only [hscores, bind, Except.bind, pure, Except.pure, Except.ok.injEq]
    rfl

/-! ### A displaced match -/

/-- Two chunks of the tenant, the second one about leave. Each of the two words of the corpus
is in half of its documents, so BM25 scores both with zero. -/
def halfCorpus : List Document :=
  [{ sampleDocument "a" "t" with text := "sick" }, { sampleDocument "b" "t" with text := "leave" }]

def zeroScorer : Scorer ℚ := fun _ _ => .ok fun _ => 0

theorem bm25Search_best_two :
    bm25Search zeroScorer halfCorpus "leave" "t" 2 [] =
        .ok (bestMatches (tokenize "leave") 2 ((scored (fun _ => 0) halfCorpus).filter fun e =>
          eligible (effectiveFilter (F := ℚ) "t" []) e.1)) ↔
      ¬ Displaced (tokenize "leave") 2 ((scored (fun _ => 0) halfCorpus).filter fun e =>
          eligible (effectiveFilter (F := ℚ) "t" []) e.1) :=
  bm25Search_best_iff zeroScorer halfCorpus "leave" "t" 2 [] (fun _ => 0) (by decide)
    (by decide +kernel) rfl fun _ _ => rfl

/-- The chunk that matches is cut off behind the one that does not. -/
theorem bm25Search_displaces :
    bm25Search zeroScorer halfCorpus "leave" "t" 1 [] ≠
      .ok (bestMatches (tokenize "leave") 1 ((scored (fun _ => 0) halfCorpus).filter fun e =>
        eligible (effectiveFilter (F := ℚ) "t" []) e.1)) := by
  intro h
  have hids := congrArg (fun result => (result.map (·.map Hit.id)).toOption) h
  revert hids
  decide +kernel

end Ally.Retrieval
