import Ally.Pipeline
import Ally.Raising
import Mathlib.Data.List.GetD

/-!
# Tenant isolation of retrieval

Every stage after the two searches permutes, merges or drops candidates and may set
their scores, so the chunks of a result are chunks the searches returned for the
tenant, and they depend on nothing else.
-/

namespace Ally.Retrieval

open Raising

variable {F : Type}

/-- A candidate without the scores that fusion and reranking add. -/
def Hit.chunk (h : Hit F) : Hit F := { h with rrfScore := none, rerankScore := none }

@[simp] theorem Hit.chunk_id (h : Hit F) : h.chunk.id = h.id := rfl

@[simp] theorem Hit.chunk_text (h : Hit F) : h.chunk.text = h.text := rfl

@[simp] theorem Hit.chunk_chunk (h : Hit F) : h.chunk.chunk = h.chunk := rfl

/-- The chunks of a list. -/
def chunks (l : List (Hit F)) : List (Hit F) := l.map Hit.chunk

theorem chunks_append (l l' : List (Hit F)) : chunks (l ++ l') = chunks l ++ chunks l' :=
  List.map_append

@[simp] theorem length_chunks (l : List (Hit F)) : (chunks l).length = l.length :=
  List.length_map ..

theorem map_id_eq (l : List (Hit F)) : l.map Hit.id = (chunks l).map Hit.id := by
  simp [chunks]

theorem map_text_eq (l : List (Hit F)) : l.map Hit.text = (chunks l).map Hit.text := by
  simp [chunks]

theorem subperm_map {α β : Type*} (f : α → β) {l l' : List α} (h : l.Subperm l') :
    (l.map f).Subperm (l'.map f) := by
  obtain ⟨m, hm, hs⟩ := h
  exact ⟨m.map f, hm.map f, hs.map f⟩

theorem nodup_of_subperm {α : Type*} {l l' : List α} (h : l.Subperm l') (hl : l'.Nodup) :
    l.Nodup := by
  obtain ⟨m, hm, hs⟩ := h
  exact hm.nodup_iff.mp (hl.sublist hs)

/-- A list whose chunks are among those of another one has distinct ids with it. -/
theorem nodup_id_of_subperm {l l' : List (Hit F)} (h : (chunks l).Subperm (chunks l'))
    (hl : (l'.map Hit.id).Nodup) : (l.map Hit.id).Nodup := by
  rw [map_id_eq] at hl ⊢
  exact nodup_of_subperm (subperm_map Hit.id h) hl

theorem forall_chunk_of_subperm {l l' : List (Hit F)} {P : Hit F → Prop}
    (hP : ∀ h : Hit F, P h.chunk ↔ P h) (h : (chunks l).Subperm (chunks l'))
    (hl : ∀ x ∈ l', P x) : ∀ x ∈ l, P x := by
  intro x hx
  have hmem : x.chunk ∈ chunks l' := h.subset (List.mem_map_of_mem hx)
  obtain ⟨y, hy, hxy⟩ := List.mem_map.mp hmem
  rw [← hP x, ← hxy, hP y]
  exact hl y hy

theorem subperm_take (n : ℕ) (l : List (Hit F)) : (chunks (l.take n)).Subperm (chunks l) :=
  ((List.take_sublist n l).map Hit.chunk).subperm

/-! ### What the searches hold -/

/-- A point of the tenant that dense search may return. -/
def DenseHolds (points : List (RawPoint F)) (tenantId : String) (h : Hit F) : Prop :=
  ∃ p ∈ points, ∃ payload, p.payload = some payload ∧ p.id = h.id ∧
    payload.lookup "tenant_id" = some (.str tenantId) ∧
    activeVersionConditions.any (·.holds payload) = true ∧
    payload.lookup "text" = some h.text ∧ payload.lookup "filename" = some h.filename ∧
    payload.lookup "page_number" = some h.pageNumber

/-- A document of the tenant in the corpus. -/
def LexicalHolds (docs : List Document) (tenantId : String) (h : Hit F) : Prop :=
  ∃ d ∈ docs, d.tenantId = tenantId ∧ h.id = .str d.id ∧ h.text = .str d.text ∧
    h.filename = .str d.filename ∧ h.pageNumber = .int d.pageNumber

/-- A chunk of the tenant that one of the two stores holds. -/
def Held (stores : Stores F) (collection tenantId : String) (h : Hit F) : Prop :=
  (∃ points, stores.points collection = some points ∧ DenseHolds points tenantId h) ∨
    ∃ docs, stores.index = .ok docs ∧ LexicalHolds docs tenantId h

theorem held_chunk {stores : Stores F} {collection tenantId : String} (h : Hit F) :
    Held stores collection tenantId h.chunk ↔ Held stores collection tenantId h := Iff.rfl

/-! ### Dense search -/

theorem requiredField_ok {p : ScoredPoint F} {payload : Payload F} {key : String} {v : Value F}
    (h : requiredField p payload key = .ok v) : payload.lookup key = some v := by
  unfold requiredField at h
  split at h
  next w hw => rw [hw, Except.ok.inj h]
  · cases h

theorem denseHit_ok {tenantId : String} {p : ScoredPoint F} {h : Hit F}
    (hh : denseHit tenantId p = .ok h) :
    ∃ payload, p.payload = some payload ∧ h.id = p.id ∧
      ((payload.lookup "tenant_id").getD (.str tenantId)).isStr tenantId = true ∧
      payload.lookup "text" = some h.text ∧ payload.lookup "filename" = some h.filename ∧
      payload.lookup "page_number" = some h.pageNumber := by
  unfold denseHit at hh
  split at hh
  · cases hh
  next payload hp =>
    obtain ⟨text, htext, hh⟩ := bind_eq_ok.mp hh
    obtain ⟨filename, hfilename, hh⟩ := bind_eq_ok.mp hh
    obtain ⟨pageNumber, hpage, hh⟩ := bind_eq_ok.mp hh
    dsimp only at hh
    split at hh
    next htenant =>
      cases hh
      exact ⟨payload, hp, rfl, htenant, requiredField_ok htext, requiredField_ok hfilename,
        requiredField_ok hpage⟩
    · cases hh

theorem denseFilter_ok {tenantId : String} {metadataFilter : List (String × Value F)}
    {filter : Filter F} (h : denseFilter tenantId metadataFilter = .ok filter) :
    tenantCondition tenantId ∈ filter.must ∧ filter.should = activeVersionConditions := by
  obtain ⟨conditions, -, h⟩ := bind_eq_ok.mp h
  cases h
  simp

theorem isStr_iff {v : Value F} {s : String} : v.isStr s = true ↔ v = .str s := by
  cases v <;> simp [Value.isStr]

/-- The tenant condition on a payload whose tenant is no list. -/
theorem tenant_of_holds {payload : Payload F} {tenantId : String}
    (h : (tenantCondition tenantId).holds payload = true)
    (hs : ((payload.lookup "tenant_id").getD (.str tenantId)).isStr tenantId = true) :
    payload.lookup "tenant_id" = some (.str tenantId) := by
  cases hl : payload.lookup "tenant_id" with
  | none => simp [tenantCondition, FieldCondition.holds, hl] at h
  | some v =>
      rw [hl, Option.getD_some, isStr_iff] at hs
      rw [hs]

theorem Filter.selects_iff {f : Filter F} {p : RawPoint F} :
    f.selects p = true ↔ (∀ c ∈ f.must, c.holds (p.payload.getD []) = true) ∧
      f.should.any (·.holds (p.payload.getD [])) = true := by
  simp [Filter.selects]

theorem map_id_of_mapM {tenantId : String} {response : List (ScoredPoint F)} {hits : List (Hit F)}
    (h : response.mapM (denseHit tenantId) = .ok hits) :
    hits.map Hit.id = response.map ScoredPoint.id := by
  have hall := mapM_eq_ok.mp h
  clear h
  induction hall with
  | nil => rfl
  | cons hs _ ih =>
      obtain ⟨-, -, hid, -⟩ := denseHit_ok hs
      rw [List.map_cons, List.map_cons, ih, hid]

theorem denseSearch_ok {models : Models F} {search : VectorSearch F}
    {points : Option (List (RawPoint F))} {embeddingModel query tenantId : String} {topK : ℤ}
    {metadataFilter : List (String × Value F)} {hits : List (Hit F)} (hsearch : search.Sound)
    (h : denseSearch models search points embeddingModel query tenantId topK metadataFilter =
      .ok hits) :
    (hits.map Hit.id).Nodup ∧
      ∃ content, points = some content ∧ ∀ x ∈ hits, DenseHolds content tenantId x := by
  unfold denseSearch at h
  split_ifs at h
  obtain ⟨vector, -, h₁⟩ := bind_eq_ok.mp h
  obtain ⟨filter, hfilter, h₂⟩ := bind_eq_ok.mp h₁
  obtain ⟨response, hresponse, hhits⟩ := bind_eq_ok.mp h₂
  clear h h₁ h₂
  obtain ⟨hmust, hshould⟩ := denseFilter_ok hfilter
  cases points with
  | none => cases hresponse
  | some content =>
      obtain ⟨hnodup, hmem⟩ := hsearch _ _ _ _ hresponse
      refine ⟨map_id_of_mapM hhits ▸ hnodup, content, rfl, fun x hx => ?_⟩
      obtain ⟨s, hs, hsx⟩ := mem_of_mapM hhits hx
      obtain ⟨payload, hpayload, hid, htenant, htext, hfilename, hpage⟩ := denseHit_ok hsx
      obtain ⟨p, hp, hpid, hpp⟩ := hmem s hs
      obtain ⟨hp, hselects⟩ := List.mem_filter.mp hp
      obtain ⟨hall', hany⟩ := Filter.selects_iff.mp hselects
      rw [hpp, hpayload, Option.getD_some] at hall' hany
      rw [hshould] at hany
      exact ⟨p, hp, payload, hpp.trans hpayload, hpid.trans hid.symm,
        tenant_of_holds (hall' _ hmust) htenant, hany, htext, hfilename, hpage⟩

/-! ### Lexical search -/

section Lexical

variable [FloatLike F]

omit [FloatLike F] in
theorem map_fst_scored (scores : ℕ → F) (docs : List Document) :
    (scored scores docs).map Prod.fst = docs := by
  rw [scored, List.mapIdx_eq_zipIdx_map, List.map_map]
  exact List.zipIdx_map_fst 0 docs

/-- A document passes the effective filter only with the caller's tenant. -/
theorem tenant_of_eligible {tenantId : String} {metadataFilter : List (String × Value F)}
    {d : Document} (h : eligible (effectiveFilter tenantId metadataFilter) d = true) :
    d.tenantId = tenantId := by
  have hmem : ("tenant_id", Value.str tenantId) ∈ effectiveFilter tenantId metadataFilter := by
    simp [effectiveFilter]
  have heq := List.all_eq_true.mp h _ hmem
  simpa [Document.get, Value.pyEq] using heq

theorem topMatches_subperm (queryTokens : List String) (topK : ℕ)
    (candidates : List (Document × F)) :
    (topMatches queryTokens topK candidates).Subperm (candidates.map fun e => e.1.hit e.2) := by
  unfold topMatches
  dsimp only
  refine subperm_map _ ?_
  exact (List.filter_sublist.trans (List.take_sublist topK _)).subperm.trans
    (List.perm_insertionSort _ candidates).subperm

theorem bm25Search_ok {scorer : Scorer F} {docs : List Document} {query tenantId : String}
    {topK : ℤ} {metadataFilter : List (String × Value F)} {hits : List (Hit F)}
    (hdocs : (docs.map Document.id).Nodup)
    (h : bm25Search scorer docs query tenantId topK metadataFilter = .ok hits) :
    (hits.map Hit.id).Nodup ∧ ∀ x ∈ hits, LexicalHolds docs tenantId x := by
  unfold bm25Search at h
  split_ifs at h
  · cases h
    simp
  · obtain ⟨scores, -, hhits⟩ := bind_eq_ok.mp h
    cases hhits
    let filter := effectiveFilter tenantId metadataFilter
    let candidates := (scored scores docs).filter fun e => eligible filter e.1
    have hsub := topMatches_subperm (tokenize query) topK.toNat candidates
    constructor
    · have hids := subperm_map Hit.id hsub
      have hcandidates : (candidates.map fun e => e.1.hit e.2).map Hit.id =
          (candidates.map Prod.fst).map fun d => PointId.str d.id := by
        simp [Document.hit]
      have hsublist : (candidates.map Prod.fst).Sublist docs := by
        conv_rhs => rw [← map_fst_scored scores docs]
        exact List.filter_sublist.map Prod.fst
      have hnodup : ((candidates.map Prod.fst).map fun d => PointId.str d.id).Nodup := by
        have hinj : Function.Injective PointId.str := fun a b => PointId.str.inj
        have := (hdocs.sublist (hsublist.map Document.id)).map hinj
        simpa [Function.comp_def] using this
      rw [hcandidates] at hids
      exact nodup_of_subperm hids hnodup
    · intro x hx
      obtain ⟨e, he, rfl⟩ := List.mem_map.mp (hsub.subset hx)
      obtain ⟨hmem, heligible⟩ := List.mem_filter.mp he
      have hdoc : e.1 ∈ docs := by
        rw [← map_fst_scored scores docs]
        exact List.mem_map_of_mem hmem
      exact ⟨e.1, hdoc, tenant_of_eligible heligible, rfl, rfl, rfl, rfl⟩

end Lexical

/-! ### Fusion -/

section Fusion

variable [FloatLike F]

/-- The keys are distinct, and each entry has a payload of its id from the lists. -/
structure FusedTable.Sound (table : FusedTable F) (l : List (Hit F)) : Prop where
  nodup : (table.map Prod.fst).Nodup
  entry : ∀ e ∈ table, e.1 = e.2.payload.id.text ∧ e.2.payload ∈ l

theorem sound_addRanked {k : ℕ} {table : FusedTable F} {l : List (Hit F)} {entry : Hit F × ℕ}
    (ht : FusedTable.Sound table l) (he : entry.1 ∈ l) :
    FusedTable.Sound (addRanked k table entry) l := by
  unfold addRanked
  dsimp only
  split_ifs with hany
  · constructor
    · have hkeys : (table.map fun e => if e.1 = entry.1.id.text then
          (e.1, { e.2 with score := e.2.score + 1 / ((k + entry.2 : ℕ) : F) }) else e).map
            Prod.fst = table.map Prod.fst := by
        rw [List.map_map]
        refine List.map_congr_left fun e _ => ?_
        simp only [Function.comp_apply]
        split_ifs <;> rfl
      rw [hkeys]
      exact ht.nodup
    · intro e hmem
      obtain ⟨e', he', rfl⟩ := List.mem_map.mp hmem
      split_ifs
      · exact ht.entry e' he'
      · exact ht.entry e' he'
  · have hnew : entry.1.id.text ∉ table.map Prod.fst := by
      intro hmem
      obtain ⟨e, hmem, hkey⟩ := List.mem_map.mp hmem
      exact hany (List.any_eq_true.mpr ⟨e, hmem, decide_eq_true hkey⟩)
    constructor
    · rw [List.map_append, List.nodup_append]
      refine ⟨ht.nodup, by simp, ?_⟩
      intro a ha b hb hab
      rw [List.map_cons, List.map_nil, List.mem_singleton] at hb
      rw [hab, hb] at ha
      exact hnew ha
    · intro e hmem
      rcases List.mem_append.mp hmem with hmem | hmem
      · exact ht.entry e hmem
      · rw [List.mem_singleton.mp hmem]
        exact ⟨rfl, he⟩

theorem sound_addResults {k : ℕ} {l : List (Hit F)} (entries : List (Hit F × ℕ))
    (he : ∀ e ∈ entries, e.1 ∈ l) {table : FusedTable F} (ht : FusedTable.Sound table l) :
    FusedTable.Sound (entries.foldl (addRanked k) table) l := by
  induction entries generalizing table with
  | nil => exact ht
  | cons e entries ih =>
      exact ih (fun x hx => he x (List.mem_cons_of_mem e hx))
        (sound_addRanked ht (he e List.mem_cons_self))

theorem sound_fusedTable (k : ℕ) (rankedLists : List (List (Hit F))) :
    FusedTable.Sound (fusedTable k rankedLists) rankedLists.flatten := by
  unfold fusedTable
  have hgeneral : ∀ (rest : List (List (Hit F))) (table : FusedTable F),
      (∀ results ∈ rest, ∀ x ∈ results, x ∈ rankedLists.flatten) →
      FusedTable.Sound table rankedLists.flatten →
      FusedTable.Sound (rest.foldl
        (fun table results => (results.zipIdx 1).foldl (addRanked k) table) table)
        rankedLists.flatten := by
    intro rest
    induction rest with
    | nil => exact fun table _ ht => ht
    | cons results rest ih =>
        intro table hmem ht
        refine ih _ (fun s hs => hmem s (List.mem_cons_of_mem _ hs)) ?_
        refine sound_addResults _ (fun e he => ?_) ht
        exact hmem results List.mem_cons_self _ (List.fst_mem_of_mem_zipIdx he)
  refine hgeneral rankedLists [] (fun results hr x hx => List.mem_flatten.mpr ⟨results, hr, hx⟩) ?_
  exact ⟨List.nodup_nil, fun e he => absurd he List.not_mem_nil⟩

/-- Fusion lists every id once, and only chunks of the lists it merges. -/
theorem reciprocalRankFusion_spec (rankedLists : List (List (Hit F))) (k : ℕ) :
    ((reciprocalRankFusion rankedLists k).map Hit.id).Nodup ∧
      ∀ x ∈ reciprocalRankFusion rankedLists k, ∃ y ∈ rankedLists.flatten, x.chunk = y.chunk := by
  have hsound := sound_fusedTable k rankedLists
  unfold reciprocalRankFusion
  dsimp only
  set sorted := (fusedTable k rankedLists).insertionSort fun a b =>
    ¬ rankedBefore b.2.score b.2.payload.id.text a.2.score a.2.payload.id.text
  have hperm : sorted.Perm (fusedTable k rankedLists) := List.perm_insertionSort _ _
  constructor
  · have htexts : (sorted.map fun e => e.2.hit).map (fun x => x.id.text) =
        sorted.map Prod.fst := by
      rw [List.map_map]
      refine List.map_congr_left fun e he => ?_
      exact (hsound.entry e (hperm.mem_iff.mp he)).1.symm
    have hnodup := ((hperm.map Prod.fst).nodup_iff).mpr hsound.nodup
    rw [← htexts] at hnodup
    exact List.Nodup.of_map PointId.text (by simpa [List.map_map, Function.comp_def] using hnodup)
  · intro x hx
    obtain ⟨e, he, rfl⟩ := List.mem_map.mp hx
    exact ⟨e.2.payload, (hsound.entry e (hperm.mem_iff.mp he)).2, rfl⟩

end Fusion

/-! ### Reranking and diversity -/

section Rerank

theorem chunks_setScores (candidates : List (Hit F)) (scores : List (Except Exn F)) :
    chunks (setScores candidates scores).1 = chunks candidates := by
  induction candidates generalizing scores with
  | nil => rcases scores with _ | ⟨_ | _, _⟩ <;> rfl
  | cons c cs ih =>
      rcases scores with _ | ⟨e | score, scores⟩
      · rfl
      · rfl
      · have htail := ih scores
        simp only [chunks] at htail
        simp only [setScores, chunks, List.map_cons, htail]
        rfl

variable [FloatLike F]

/-- However a failing `rerank` leaves its candidates, they are the same chunks in the same
order. -/
theorem rerank_error {models : Models F} {modelName query : String} {candidates left : List (Hit F)}
    {topK : ℕ} {e : Exn} (h : rerank models modelName query candidates topK = (left, .error e)) :
    chunks left = chunks candidates := by
  unfold rerank at h
  split_ifs at h
  · simp at h
  · split at h
    · cases h
      rfl
    next scores _ =>
      have hchunks := chunks_setScores candidates scores
      split at h
      next hset =>
        cases h
        rw [hset] at hchunks
        exact hchunks
      next scoredCandidates hset =>
        rw [hset] at hchunks
        split at h
        · cases h
          exact hchunks
        · simp at h

theorem sortByScore_perm {candidates sorted : List (Hit F)} (h : sortByScore candidates = .ok sorted) :
    sorted.Perm candidates := by
  unfold sortByScore at h
  split_ifs at h
  cases h
  exact List.perm_insertionSort _ candidates

theorem rerank_ok {models : Models F} {modelName query : String} {candidates left hits : List (Hit F)}
    {topK : ℕ} (h : rerank models modelName query candidates topK = (left, .ok hits)) :
    (chunks hits).Subperm (chunks candidates) := by
  unfold rerank at h
  split_ifs at h with hempty
  · cases h
    simp [chunks]
  · split at h
    · simp at h
    next scores _ =>
      have hchunks := chunks_setScores candidates scores
      split at h
      · simp at h
      next scoredCandidates hset =>
        rw [hset] at hchunks
        split at h
        · simp at h
        next hsort =>
          cases h
          have hperm := (sortByScore_perm hsort).map Hit.chunk
          refine (subperm_take topK _).trans ?_
          rw [← hchunks]
          exact hperm.subperm

end Rerank

section Mmr

theorem subperm_filterMap {α β : Type*} (f : α → Option β) {l l' : List α} (h : l.Subperm l') :
    (l.filterMap f).Subperm (l'.filterMap f) := by
  obtain ⟨m, hm, hs⟩ := h
  exact ⟨m.filterMap f, hm.filterMap f, hs.filterMap f⟩

theorem filterMap_range {α : Type*} (l : List α) :
    (List.range l.length).filterMap (l[·]?) = l := by
  induction l using List.reverseRecOn with
  | nil => rfl
  | append_singleton l a ih =>
      rw [List.length_append, List.length_singleton, List.range_succ, List.filterMap_append]
      have hold : (List.range l.length).filterMap ((l ++ [a])[·]?) =
          (List.range l.length).filterMap (l[·]?) := by
        refine List.filterMap_congr fun i hi => ?_
        exact List.getElem?_append_left (List.mem_range.mp hi)
      rw [hold, ih]
      simp

variable [FloatLike F]

theorem argmaxFrom_lt (xs : List F) (best : F) {bestIdx idx n : ℕ} (hb : bestIdx < n)
    (hi : idx + xs.length ≤ n) : argmaxFrom best bestIdx idx xs < n := by
  induction xs generalizing best bestIdx idx with
  | nil => exact hb
  | cons x xs ih =>
      rw [List.length_cons] at hi
      unfold argmaxFrom
      split_ifs
      · exact ih x (by omega) (by omega)
      · exact ih best hb (by omega)

theorem argmax_lt {xs : List F} (h : xs ≠ []) : argmax xs < xs.length := by
  cases xs with
  | nil => exact absurd rfl h
  | cons x xs => exact argmaxFrom_lt xs x (by simp) (by simp; omega)

@[simp] theorem length_mmrScores (embeddings : List (List F)) (relevance : List F) (lambda : F)
    (selected remaining : List ℕ) :
    (mmrScores embeddings relevance lambda selected remaining).length = remaining.length := by
  unfold mmrScores
  split_ifs <;> simp

/-- The loop moves positions from the remaining to the selected ones. -/
theorem mmrLoop_subperm (embeddings : List (List F)) (relevance : List F) (lambda : F) (room : ℕ)
    (selected remaining : List ℕ) :
    (mmrLoop embeddings relevance lambda room selected remaining).Subperm
        (selected ++ remaining) ∧
      (mmrLoop embeddings relevance lambda room selected remaining).length ≤
        selected.length + room := by
  induction room generalizing selected remaining with
  | zero => exact ⟨(List.sublist_append_left selected remaining).subperm, le_rfl⟩
  | succ room ih =>
      cases remaining with
      | nil =>
          rw [List.append_nil]
          exact ⟨.refl selected, Nat.le_add_right ..⟩
      | cons i remaining =>
          simp only [mmrLoop]
          set best := argmax (mmrScores embeddings relevance lambda selected (i :: remaining))
          have hbest : best < (i :: remaining).length := by
            have hne : mmrScores embeddings relevance lambda selected (i :: remaining) ≠ [] := by
              intro hnil
              have hlength := congrArg List.length hnil
              simp at hlength
            simpa only [length_mmrScores] using argmax_lt hne
          obtain ⟨hsub, hlen⟩ := ih (selected ++ [(i :: remaining).getD best 0])
            ((i :: remaining).eraseIdx best)
          constructor
          · refine hsub.trans ?_
            rw [List.getD_eq_getElem _ _ hbest, List.append_assoc, List.singleton_append]
            exact ((List.getElem_cons_eraseIdx_perm hbest).append_left selected).subperm
          · rw [List.length_append, List.length_singleton] at hlen
            omega

theorem mmrSelect_ok {models : Models F} {modelName : String} {lambda : F} {queryEmbedding : List F}
    {candidates hits : List (Hit F)} {topK : ℕ}
    (h : mmrSelect models modelName lambda queryEmbedding candidates topK = .ok hits) :
    hits.Subperm candidates ∧ hits.length ≤ topK := by
  unfold mmrSelect at h
  split_ifs at h
  · cases h
    exact ⟨List.nil_subperm, Nat.zero_le _⟩
  · obtain ⟨embeddings, -, h⟩ := bind_eq_ok.mp h
    split_ifs at h
    cases h
    obtain ⟨hsub, hlen⟩ := mmrLoop_subperm embeddings (embeddings.map (dot · queryEmbedding))
      lambda topK [] (List.range candidates.length)
    rw [List.nil_append] at hsub
    rw [List.length_nil, Nat.zero_add] at hlen
    constructor
    · have hfilter := subperm_filterMap (candidates[·]?) hsub
      rwa [filterMap_range] at hfilter
    · exact (List.length_filterMap_le _ _).trans hlen

end Mmr

/-! ### The pipeline -/

section Pipeline

variable {services : Services F} {defaults : Defaults} {stores : Stores F} {r : Request F}

/-- Distinct ids, and only chunks that a store holds for the tenant of the request. -/
structure WellShaped (defaults : Defaults) (stores : Stores F) (r : Request F)
    (hits : List (Hit F)) : Prop where
  nodup : (hits.map Hit.id).Nodup
  held : ∀ h ∈ hits, Held stores (r.collection defaults) r.tenantId h

theorem WellShaped.of_subperm {hits hits' : List (Hit F)} (hw : WellShaped defaults stores r hits)
    (h : (chunks hits').Subperm (chunks hits)) : WellShaped defaults stores r hits' where
  nodup := nodup_id_of_subperm h hw.nodup
  held := forall_chunk_of_subperm (fun _ => Iff.rfl) h hw.held

theorem denseResults_shaped (hsearch : services.search.Sound) {dense : List (Hit F)}
    (h : denseResults services defaults stores r = .ok dense) :
    WellShaped defaults stores r dense := by
  obtain ⟨hnodup, content, hcontent, hheld⟩ := denseSearch_ok hsearch h
  exact ⟨hnodup, fun x hx => Or.inl ⟨content, hcontent, hheld x hx⟩⟩

variable [FloatLike F]

theorem bm25Results_shaped (hids : ∀ docs, stores.index = .ok docs → (docs.map Document.id).Nodup)
    {lexical : List (Hit F)} (h : bm25Results services stores r = .ok lexical) :
    WellShaped defaults stores r lexical := by
  obtain ⟨docs, hdocs, hsearch⟩ := bind_eq_ok.mp h
  obtain ⟨hnodup, hheld⟩ := bm25Search_ok (hids docs hdocs) hsearch
  exact ⟨hnodup, fun x hx => Or.inr ⟨docs, hdocs, hheld x hx⟩⟩

theorem fuse_shaped {dense lexical : List (Hit F)} (hd : WellShaped defaults stores r dense)
    (hl : WellShaped defaults stores r lexical) :
    WellShaped defaults stores r (fuse dense lexical) := by
  unfold fuse
  split_ifs
  · obtain ⟨hnodup, hmem⟩ := reciprocalRankFusion_spec [dense, lexical] 60
    refine ⟨hnodup, fun x hx => ?_⟩
    obtain ⟨y, hy, hxy⟩ := hmem x hx
    rw [← held_chunk, hxy, held_chunk]
    simp only [List.flatten_cons, List.flatten_nil, List.append_nil, List.mem_append] at hy
    rcases hy with hy | hy
    · exact hd.held y hy
    · exact hl.held y hy
  · exact hd
  · exact hl

/-- What lexical search adds to a result: nothing when it fails. -/
def lexicalHits (services : Services F) (stores : Stores F) (r : Request F) : List (Hit F) :=
  match bm25Results services stores r with
  | .ok hits => hits
  | .error _ => []

theorem fusedResults_fst (dense : List (Hit F)) :
    (fusedResults services stores r dense).1 =
      if r.useBm25 then fuse dense (lexicalHits services stores r) else dense := by
  unfold fusedResults lexicalHits
  split_ifs
  · cases bm25Results services stores r <;> rfl
  · rfl

theorem lexicalHits_shaped
    (hids : ∀ docs, stores.index = .ok docs → (docs.map Document.id).Nodup) :
    WellShaped defaults stores r (lexicalHits services stores r) := by
  unfold lexicalHits
  split
  next hits h => exact bm25Results_shaped hids h
  · exact ⟨List.nodup_nil, fun x hx => absurd hx List.not_mem_nil⟩

theorem fusedResults_shaped
    (hids : ∀ docs, stores.index = .ok docs → (docs.map Document.id).Nodup)
    {dense : List (Hit F)} (hd : WellShaped defaults stores r dense) :
    WellShaped defaults stores r (fusedResults services stores r dense).1 := by
  rw [fusedResults_fst]
  split_ifs
  · exact fuse_shaped hd (lexicalHits_shaped hids)
  · exact hd

theorem rerankedResults_ok {fused reranked : List (Hit F)}
    (h : (rerankedResults services defaults r fused).1 = .ok reranked) :
    (chunks reranked).Subperm (chunks fused) := by
  unfold rerankedResults at h
  split_ifs at h
  · split at h
    next left hits hcall =>
      cases h
      exact rerank_ok hcall
    next left e hcall =>
      split_ifs at h
      cases h
      rw [← rerank_error hcall]
      exact subperm_take _ left
  · cases h
    exact subperm_take _ fused

theorem finalResults_ok {reranked hits : List (Hit F)}
    (h : (finalResults services defaults r reranked).1 = .ok hits) :
    (chunks hits).Subperm (chunks reranked) ∧ hits.length ≤ r.topK.toNat := by
  have htake : (chunks (reranked.take r.topK.toNat)).Subperm (chunks reranked) ∧
      (reranked.take r.topK.toNat).length ≤ r.topK.toNat :=
    ⟨subperm_take _ reranked, List.length_take_le ..⟩
  unfold finalResults at h
  split_ifs at h
  · split at h
    next hits' hcall =>
      cases h
      obtain ⟨queryEmbedding, -, hselect⟩ := bind_eq_ok.mp hcall
      obtain ⟨hsub, hlen⟩ := mmrSelect_ok hselect
      exact ⟨subperm_map Hit.chunk hsub, hlen⟩
    · split_ifs at h
      cases h
      exact htake
  · cases h
    exact htake

theorem retrieve_ok {hits : List (Hit F)}
    (h : (retrieve services defaults stores r).result = .ok hits) :
    ∃ dense reranked, r.check = .ok () ∧ denseResults services defaults stores r = .ok dense ∧
      (rerankedResults services defaults r (fusedResults services stores r dense).1).1 =
        .ok reranked ∧
      (finalResults services defaults r reranked).1 = .ok hits := by
  unfold retrieve at h
  split at h
  · cases h
  next hcheck =>
    split at h
    · cases h
    next dense hdense =>
      unfold rankResults at h
      dsimp only at h
      split at h
      · cases h
      next reranked hreranked => exact ⟨dense, reranked, hcheck, hdense, hreranked, h⟩

/-! ### Two states that agree for the tenant -/

/-- The points that carry the tenant. -/
def ownPoint (tenantId : String) (p : RawPoint F) : Bool :=
  (tenantCondition tenantId).holds (p.payload.getD [])

/-- The tenant's documents with their scores for the query; none when the index cannot
be read or scored. -/
def lexicalView (services : Services F) (stores : Stores F) (r : Request F) :
    List (Document × F) :=
  match stores.index with
  | .error _ => []
  | .ok docs =>
      match services.scorer (docs.map fun d => tokenize d.text) (tokenize r.query) with
      | .error _ => []
      | .ok scores => (scored scores docs).filter fun e => e.1.tenantId = r.tenantId

/-- Two states hold the same chunks of the tenant, and the models, the vector search and
the BM25 scores answer the same about them. -/
structure AgreeFor (defaults : Defaults) (r : Request F) (services services' : Services F)
    (stores stores' : Stores F) : Prop where
  points : (stores.points (r.collection defaults)).map (List.filter (ownPoint r.tenantId)) =
    (stores'.points (r.collection defaults)).map (List.filter (ownPoint r.tenantId))
  lexical : lexicalView services stores r = lexicalView services' stores' r
  search : ∀ vector points limit, (∀ p ∈ points, ownPoint r.tenantId p = true) →
    services.search vector points limit = services'.search vector points limit
  embedQuery : ∀ name, services.models.embedQuery name r.query =
    services'.models.embedQuery name r.query
  embedTexts : ∀ name (hits : List (Hit F)), (∀ h ∈ hits, Held stores (r.collection defaults) r.tenantId h) →
    services.models.embedTexts name (hits.map Hit.text) =
      services'.models.embedTexts name (hits.map Hit.text)
  predict : ∀ name (hits : List (Hit F)), (∀ h ∈ hits, Held stores (r.collection defaults) r.tenantId h) →
    services.models.predict name (hits.map fun h => (r.query, h.text)) =
      services'.models.predict name (hits.map fun h => (r.query, h.text))

omit [FloatLike F] in
theorem filter_own {tenantId : String} {filter : Filter F}
    (h : tenantCondition tenantId ∈ filter.must) (points : List (RawPoint F)) :
    points.filter filter.selects = (points.filter (ownPoint tenantId)).filter filter.selects := by
  rw [List.filter_filter]
  refine List.filter_congr fun p _ => ?_
  cases hs : filter.selects p with
  | false => rfl
  | true => exact ((Filter.selects_iff.mp hs).1 _ h).symm

omit [FloatLike F] in
/-- A search with the tenant's filter sees only the tenant's points. -/
theorem queryPoints_own {search : VectorSearch F} {filter : Filter F} {tenantId : String}
    (h : tenantCondition tenantId ∈ filter.must) (points : Option (List (RawPoint F)))
    (vector : List F) (limit : ℕ) :
    queryPoints search points vector filter limit =
      queryPoints search (points.map (List.filter (ownPoint tenantId))) vector filter limit := by
  cases points with
  | none => rfl
  | some content =>
      simp only [queryPoints, Option.map_some]
      rw [filter_own h]

omit [FloatLike F] in
theorem denseResults_congr {services' : Services F} {stores' : Stores F}
    (hagree : AgreeFor defaults r services services' stores stores') :
    denseResults services defaults stores r = denseResults services' defaults stores' r := by
  unfold denseResults denseSearch
  rw [hagree.embedQuery]
  split_ifs
  · rfl
  · rfl
  · rfl
  · refine bind_congr fun vector => ?_
    cases hf : denseFilter r.tenantId r.metadataFilter with
    | error e => rfl
    | ok filter =>
        obtain ⟨hmust, -⟩ := denseFilter_ok hf
        have hquery : queryPoints services.search (stores.points (r.collection defaults)) vector
            filter r.candidatePoolSize.toNat =
          queryPoints services'.search (stores'.points (r.collection defaults)) vector filter
            r.candidatePoolSize.toNat := by
          rw [queryPoints_own hmust, hagree.points, queryPoints_own hmust (stores'.points _)]
          cases stores'.points (r.collection defaults) with
          | none => rfl
          | some content =>
              refine hagree.search _ _ _ fun p hp => ?_
              exact (List.mem_filter.mp (List.mem_of_mem_filter hp)).2
        change (queryPoints services.search _ vector filter _ >>= _) = _
        rw [hquery]
        rfl

/-- Lexical search adds what the tenant's documents and their scores determine. -/
theorem lexicalHits_eq (hcheck : r.check = .ok ()) :
    lexicalHits services stores r = topMatches (tokenize r.query) r.candidatePoolSize.toNat
      ((lexicalView services stores r).filter fun e =>
        eligible (effectiveFilter r.tenantId r.metadataFilter) e.1) := by
  have hempty : topMatches (tokenize r.query) r.candidatePoolSize.toNat
      ([] : List (Document × F)) = [] := by simp [topMatches]
  unfold Request.check at hcheck
  split_ifs at hcheck with hquery htenant htop hpool
  unfold lexicalHits bm25Results lexicalView
  cases hindex : stores.index with
  | error e => exact hempty.symm
  | ok docs =>
      change (match bm25Search services.scorer docs r.query r.tenantId r.candidatePoolSize
        r.metadataFilter with | .ok hits => hits | .error _ => []) = _
      unfold bm25Search
      rw [if_neg (by omega), if_neg htenant]
      cases docs with
      | nil =>
          simp only [List.isEmpty_nil, Bool.or_true, if_true]
          split <;> exact hempty.symm
      | cons d docs =>
          rw [if_neg (by simpa using hquery)]
          cases hscores : services.scorer ((d :: docs).map fun d => tokenize d.text)
              (tokenize r.query) with
          | error e =>
              simp only [hscores]
              exact hempty.symm
          | ok scores =>
              simp only [hscores]
              change topMatches _ _ _ = topMatches _ _ _
              congr 1
              rw [List.filter_filter]
              refine List.filter_congr fun e _ => ?_
              cases he : eligible (effectiveFilter r.tenantId r.metadataFilter) e.1 with
              | false => rfl
              | true => simp [tenant_of_eligible he]

theorem rerankedResults_congr {services' : Services F} {fused : List (Hit F)}
    (h : ∀ name, services.models.predict name (fused.map fun c => (r.query, c.text)) =
      services'.models.predict name (fused.map fun c => (r.query, c.text))) :
    rerankedResults services defaults r fused = rerankedResults services' defaults r fused := by
  have hcall : rerankCall services defaults r fused = rerankCall services' defaults r fused := by
    unfold rerankCall rerank
    rw [h]
  unfold rerankedResults
  rw [hcall]

theorem finalResults_congr {services' : Services F} {reranked : List (Hit F)}
    (hquery : ∀ name, services.models.embedQuery name r.query =
      services'.models.embedQuery name r.query)
    (htexts : ∀ name, services.models.embedTexts name (reranked.map Hit.text) =
      services'.models.embedTexts name (reranked.map Hit.text)) :
    finalResults services defaults r reranked = finalResults services' defaults r reranked := by
  have hcall : mmrCall services defaults r reranked = mmrCall services' defaults r reranked := by
    unfold mmrCall mmrSelect
    rw [hquery, htexts]
  unfold finalResults
  rw [hcall]

theorem rankResults_result (dense : List (Hit F)) :
    (rankResults services defaults stores r dense).result =
      ((rerankedResults services defaults r (fusedResults services stores r dense).1).1 >>=
        fun reranked => (finalResults services defaults r reranked).1) := by
  unfold rankResults
  dsimp only
  cases (rerankedResults services defaults r (fusedResults services stores r dense).1).1 <;> rfl

theorem retrieve_congr (hsearch : services.search.Sound)
    (hids : ∀ docs, stores.index = .ok docs → (docs.map Document.id).Nodup)
    {services' : Services F} {stores' : Stores F}
    (hagree : AgreeFor defaults r services services' stores stores') :
    (retrieve services defaults stores r).result =
      (retrieve services' defaults stores' r).result := by
  unfold retrieve
  rw [← denseResults_congr hagree]
  cases hcheck : r.check with
  | error e => rfl
  | ok _ =>
  cases hdense : denseResults services defaults stores r with
  | error e => rfl
  | ok dense =>
      have hfused : (fusedResults services' stores' r dense).1 =
          (fusedResults services stores r dense).1 := by
        rw [fusedResults_fst, fusedResults_fst, lexicalHits_eq hcheck, lexicalHits_eq hcheck,
          hagree.lexical]
      have hshaped : WellShaped defaults stores r (fusedResults services stores r dense).1 :=
        fusedResults_shaped hids (denseResults_shaped hsearch hdense)
      change (rankResults services defaults stores r dense).result =
        (rankResults services' defaults stores' r dense).result
      rw [rankResults_result, rankResults_result, hfused,
        ← rerankedResults_congr fun name => hagree.predict name _ hshaped.held]
      cases hreranked : (rerankedResults services defaults r
          (fusedResults services stores r dense).1).1 with
      | error e => rfl
      | ok reranked =>
          have hheld := (hshaped.of_subperm (rerankedResults_ok hreranked)).held
          exact congrArg Prod.fst (finalResults_congr hagree.embedQuery fun name =>
            hagree.embedTexts name reranked hheld)

/-- A returned result has at most `top_k` entries with distinct ids, each a chunk of the
tenant with its text, file name and page from one of the stores; and two states that agree
for the tenant give the same result. -/
theorem retrieve_tenant_isolated (services : Services F) (defaults : Defaults) (stores : Stores F)
    (r : Request F) (hsearch : services.search.Sound)
    (hids : ∀ docs, stores.index = .ok docs → (docs.map Document.id).Nodup) :
    (∀ hits, (retrieve services defaults stores r).result = .ok hits →
      hits.length ≤ r.topK ∧ (hits.map Hit.id).Nodup ∧
        ∀ h ∈ hits, Held stores (r.collection defaults) r.tenantId h) ∧
    ∀ services' stores', AgreeFor defaults r services services' stores stores' →
      (retrieve services' defaults stores' r).result =
        (retrieve services defaults stores r).result := by
  constructor
  · intro hits h
    obtain ⟨dense, reranked, hcheck, hdense, hreranked, hfinal⟩ := retrieve_ok h
    have hshaped : WellShaped defaults stores r (fusedResults services stores r dense).1 :=
      fusedResults_shaped hids (denseResults_shaped hsearch hdense)
    obtain ⟨hsub, hlen⟩ := finalResults_ok hfinal
    have hhits := hshaped.of_subperm (hsub.trans (rerankedResults_ok hreranked))
    refine ⟨?_, hhits.nodup, hhits.held⟩
    unfold Request.check at hcheck
    split_ifs at hcheck with hquery htenant htop hpool
    omega
  · exact fun services' stores' hagree => (retrieve_congr hsearch hids hagree).symm

end Pipeline

/-- Models that embed every text as `[1]`, a vector search by dot product and a scorer
that gives each document its position. -/
def sampleServices : Services ℚ where
  models := {
    embedTexts := fun _ texts => .ok (texts.map fun _ => [1])
    embedQuery := fun _ _ => .ok [1]
    predict := fun _ pairs => .ok (pairs.map fun _ => .ok 1) }
  search := fun vector points limit =>
    if (points.map RawPoint.id).Nodup then
      let ranked := points.insertionSort fun p q => dot q.vector vector ≤ dot p.vector vector
      .ok ((ranked.take limit).map fun p => ⟨p.id, p.payload, dot p.vector vector⟩)
    else .error (.other "UnexpectedResponse" "duplicate points")
  scorer := fun _ _ => .ok fun i => (i : ℚ)

def samplePoint (id tenantId : String) : RawPoint ℚ where
  id := .str id
  vector := [1]
  payload := some [("text", .str "leave policy"), ("filename", .str "hr.pdf"),
    ("page_number", .int 1), ("tenant_id", .str tenantId)]

def sampleDocument (id tenantId : String) : Document where
  id := id
  text := "leave policy"
  filename := "hr.pdf"
  pageNumber := 1
  chunkIndex := 0
  tenantId := tenantId
  versionId := none

/-- Two chunks of tenant `t` and one of tenant `u`. -/
def sampleStores : Stores ℚ where
  points := fun name =>
    if name = "chunks" then some [samplePoint "a" "t", samplePoint "b" "u"] else none
  index := .ok [sampleDocument "a" "t", sampleDocument "b" "u", sampleDocument "c" "t"]

def sampleDefaults : Defaults := ⟨"embedding", "reranker", "chunks"⟩

def sampleRequest : Request ℚ where
  query := "leave"
  tenantId := "t"
  topK := 2
  candidatePoolSize := 5
  useBm25 := true
  useRerank := true
  useMmr := true
  metadataFilter := [("tenant_id", .str "t")]
  store := none
  models := none

theorem sampleRequest_ids :
    ((retrieve sampleServices sampleDefaults sampleStores sampleRequest).result.map
      (·.map Hit.id)).toOption = some [.str "a", .str "c"] := by decide +kernel

theorem sampleServices_search_sound : sampleServices.search.Sound := by
  intro vector points limit results h
  simp only [sampleServices] at h
  split_ifs at h with hnodup
  cases h
  let ranked := points.insertionSort fun p q => dot q.vector vector ≤ dot p.vector vector
  have hperm : ranked.Perm points := List.perm_insertionSort _ points
  have hsub : (ranked.take limit).Subperm points :=
    (List.take_sublist limit ranked).subperm.trans hperm.subperm
  constructor
  · rw [List.map_map]
    exact nodup_of_subperm (subperm_map RawPoint.id hsub) hnodup
  · intro s hs
    obtain ⟨p, hp, rfl⟩ := List.mem_map.mp hs
    exact ⟨p, hsub.subset hp, rfl, rfl⟩

theorem retrieve_tenant_isolated_sample :
    ∃ hits, (retrieve sampleServices sampleDefaults sampleStores sampleRequest).result =
        .ok hits ∧ hits.map Hit.id = [.str "a", .str "c"] ∧
      ∀ h ∈ hits, Held sampleStores "chunks" "t" h := by
  have hids : ∀ docs, sampleStores.index = .ok docs → (docs.map Document.id).Nodup := by
    intro docs h
    cases h
    decide
  obtain ⟨hshape, -⟩ := retrieve_tenant_isolated sampleServices sampleDefaults sampleStores
    sampleRequest sampleServices_search_sound hids
  have hresult := sampleRequest_ids
  cases hr : (retrieve sampleServices sampleDefaults sampleStores sampleRequest).result with
  | error e =>
      rw [hr] at hresult
      cases hresult
  | ok hits =>
      rw [hr] at hresult
      exact ⟨hits, rfl, Option.some.inj hresult, (hshape hits hr).2.2⟩

end Ally.Retrieval
