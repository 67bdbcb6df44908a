import Ally.TenantIsolation

/-!
# Optional stages that fail

A stage whose exception is caught leaves the chunks it was given in their order, which
is also what the pipeline passes on when the stage is switched off.
-/

namespace Ally.Retrieval

open Raising

variable {F : Type} [FloatLike F]

/-- The request with some stages switched off. -/
def Request.disable (r : Request F) (stages : List Stage) : Request F :=
  { r with
    useBm25 := r.useBm25 && decide (.bm25 ∉ stages)
    useRerank := r.useRerank && decide (.rerank ∉ stages)
    useMmr := r.useMmr && decide (.mmr ∉ stages) }

/-- After this dense search the stage runs and raises the exception. -/
def StageRaises (services : Services F) (defaults : Defaults) (stores : Stores F) (r : Request F)
    (dense : List (Hit F)) (stage : Stage) (e : Exn) : Prop :=
  let fused := (fusedResults services stores r dense).1
  match stage with
  | .bm25 => r.useBm25 = true ∧ bm25Results services stores r = .error e
  | .rerank => r.useRerank = true ∧ fused.isEmpty = false ∧
      (rerankCall services defaults r fused).2 = .error e
  | .mmr => r.useMmr = true ∧ ∃ reranked,
      (rerankedResults services defaults r fused).1 = .ok reranked ∧
        reranked.isEmpty = false ∧ mmrCall services defaults r reranked = .error e

/-- The stage runs in the call and raises the exception. -/
def Raises (services : Services F) (defaults : Defaults) (stores : Stores F) (r : Request F)
    (stage : Stage) (e : Exn) : Prop :=
  r.check = .ok () ∧ ∃ dense, denseResults services defaults stores r = .ok dense ∧
    StageRaises services defaults stores r dense stage e

section Stages

variable {services : Services F} {defaults : Defaults} {stores : Stores F} {r : Request F}
  {stages : List Stage}

theorem fuse_nil (dense : List (Hit F)) : fuse dense [] = dense := by
  cases dense <;> rfl

/-- The chunks of a result. -/
def chunksOf (result : Except Exn (List (Hit F))) : Except Exn (List (Hit F)) :=
  result.map chunks

omit [FloatLike F] in
theorem chunksOf_eq_error {result : Except Exn (List (Hit F))} {e : Exn}
    (h : chunksOf result = chunksOf (.error e)) : result = .error e := by
  cases result with
  | error e' => simpa [chunksOf, Except.map] using h
  | ok hits => simp [chunksOf, Except.map] at h

omit [FloatLike F] in
theorem chunksOf_eq_ok {result : Except Exn (List (Hit F))} {hits : List (Hit F)}
    (h : chunksOf result = chunksOf (.ok hits)) :
    ∃ hits', result = .ok hits' ∧ chunks hits' = chunks hits := by
  cases result with
  | error e' => simp [chunksOf, Except.map] at h
  | ok hits' => exact ⟨hits', rfl, by simpa [chunksOf, Except.map] using h⟩

omit [FloatLike F] in
theorem map_id_chunksOf (result : Except Exn (List (Hit F))) :
    result.map (·.map Hit.id) = (chunksOf result).map (·.map Hit.id) := by
  cases result with
  | error e => rfl
  | ok hits => exact congrArg Except.ok (map_id_eq hits)

theorem fusedResults_disable {dense : List (Hit F)}
    (h : .bm25 ∈ stages → ∃ e, bm25Results services stores r = .error e) :
    (fusedResults services stores (r.disable stages) dense).1 =
      (fusedResults services stores r dense).1 := by
  rw [fusedResults_fst, fusedResults_fst]
  by_cases hmem : Stage.bm25 ∈ stages
  · obtain ⟨e, he⟩ := h hmem
    have hnone : lexicalHits services stores r = [] := by
      unfold lexicalHits
      rw [he]
    simp [Request.disable, hmem, hnone, fuse_nil]
  · have hsame : lexicalHits services stores (r.disable stages) =
        lexicalHits services stores r := rfl
    rw [hsame]
    simp [Request.disable, hmem]

theorem rerankedResults_disable {fused : List (Hit F)}
    (h : .rerank ∈ stages → r.useRerank = true ∧ fused.isEmpty = false ∧
      ∃ e, (rerankCall services defaults r fused).2 = .error e ∧ e.isRejected = false) :
    chunksOf (rerankedResults services defaults (r.disable stages) fused).1 =
      chunksOf (rerankedResults services defaults r fused).1 := by
  by_cases hmem : Stage.rerank ∈ stages
  · obtain ⟨huse, hne, e, herror, hrejected⟩ := h hmem
    rcases hcall : rerankCall services defaults r fused with ⟨left, outcome⟩
    obtain rfl : outcome = .error e := by simpa [hcall] using herror
    have hleft : chunks left = chunks fused := rerank_error hcall
    have htake : chunks (left.take r.candidatePoolSize.toNat) =
        chunks (fused.take r.candidatePoolSize.toNat) := by
      unfold chunks at hleft ⊢
      rw [List.map_take, List.map_take, hleft]
    have hoff : (rerankedResults services defaults (r.disable stages) fused).1 =
        .ok (fused.take r.candidatePoolSize.toNat) := by
      simp [rerankedResults, Request.disable, hmem]
    have hon : (rerankedResults services defaults r fused).1 =
        .ok (left.take r.candidatePoolSize.toNat) := by
      simp [rerankedResults, huse, hne, hcall, hrejected]
    rw [hoff, hon]
    exact congrArg Except.ok htake.symm
  · have hsame : rerankedResults services defaults (r.disable stages) fused =
        rerankedResults services defaults r fused := by
      have hcall : rerankCall services defaults (r.disable stages) fused =
          rerankCall services defaults r fused := rfl
      unfold rerankedResults
      rw [hcall]
      simp [Request.disable, hmem]
    rw [hsame]

omit [FloatLike F] in
theorem isEmpty_of_chunks {l l' : List (Hit F)} (h : chunks l = chunks l') :
    l.isEmpty = l'.isEmpty := by
  have hlength : l.length = l'.length := by simpa using congrArg List.length h
  rw [Bool.eq_iff_iff, List.isEmpty_iff_length_eq_zero, List.isEmpty_iff_length_eq_zero, hlength]

/-- MMR chooses by the chunks alone. -/
theorem mmrSelect_chunks {models : Models F} {modelName : String} {lambda : F}
    {queryEmbedding : List F} {candidates candidates' : List (Hit F)} {topK : ℕ}
    (h : chunks candidates = chunks candidates') :
    chunksOf (mmrSelect models modelName lambda queryEmbedding candidates topK) =
      chunksOf (mmrSelect models modelName lambda queryEmbedding candidates' topK) := by
  have hlength : candidates.length = candidates'.length := by
    simpa using congrArg List.length h
  have htexts : candidates.map Hit.text = candidates'.map Hit.text := by
    rw [map_text_eq, h, ← map_text_eq]
  have hempty : candidates.isEmpty = candidates'.isEmpty := isEmpty_of_chunks h
  have hselected : ∀ selected : List ℕ, chunks (selected.filterMap (candidates[·]?)) =
      chunks (selected.filterMap (candidates'[·]?)) := by
    intro selected
    unfold chunks at h ⊢
    rw [List.map_filterMap, List.map_filterMap]
    refine List.filterMap_congr fun i _ => ?_
    rw [← List.getElem?_map, ← List.getElem?_map, h]
  unfold mmrSelect
  rw [hempty, htexts, hlength]
  split_ifs
  · rfl
  · cases models.embedTexts modelName (candidates'.map Hit.text) with
    | error e => rfl
    | ok embeddings =>
        simp only [bind, Except.bind]
        split_ifs
        · rfl
        · rfl
        · exact congrArg Except.ok (hselected _)

theorem finalResults_chunks {reranked reranked' : List (Hit F)}
    (h : chunks reranked = chunks reranked') :
    chunksOf (finalResults services defaults r reranked).1 =
      chunksOf (finalResults services defaults r reranked').1 := by
  have htake : chunks (reranked.take r.topK.toNat) = chunks (reranked'.take r.topK.toNat) := by
    unfold chunks at h ⊢
    rw [List.map_take, List.map_take, h]
  have hcall : chunksOf (mmrCall services defaults r reranked) =
      chunksOf (mmrCall services defaults r reranked') := by
    unfold mmrCall
    cases services.models.embedQuery
      ((r.models.map RetrievalModels.embeddingModel).getD defaults.embeddingModel) r.query with
    | error e => rfl
    | ok queryEmbedding => exact mmrSelect_chunks h
  unfold finalResults
  rw [isEmpty_of_chunks h]
  split_ifs
  · cases hm : mmrCall services defaults r reranked' with
    | error e =>
        rw [hm] at hcall
        rw [chunksOf_eq_error hcall]
        dsimp only
        split_ifs
        · rfl
        · exact congrArg Except.ok htake
    | ok hits =>
        rw [hm] at hcall
        obtain ⟨hits', hhits', hchunks⟩ := chunksOf_eq_ok hcall
        rw [hhits']
        exact congrArg Except.ok hchunks
  · exact congrArg Except.ok htake

theorem finalResults_disable {reranked : List (Hit F)}
    (h : .mmr ∈ stages → r.useMmr = true ∧ reranked.isEmpty = false ∧
      ∃ e, mmrCall services defaults r reranked = .error e ∧ e.isRejected = false) :
    (finalResults services defaults (r.disable stages) reranked).1 =
      (finalResults services defaults r reranked).1 := by
  by_cases hmem : Stage.mmr ∈ stages
  · obtain ⟨huse, hne, e, hcall, hrejected⟩ := h hmem
    simp [finalResults, Request.disable, hmem, huse, hne, hcall, hrejected]
  · have hcall : mmrCall services defaults (r.disable stages) reranked =
        mmrCall services defaults r reranked := rfl
    unfold finalResults
    rw [hcall]
    simp [Request.disable, hmem]

theorem Raises.reached {stage : Stage} {e : Exn}
    (h : Raises services defaults stores r stage e) {dense : List (Hit F)}
    (hdense : denseResults services defaults stores r = .ok dense) :
    StageRaises services defaults stores r dense stage e := by
  obtain ⟨-, dense', hdense', hstage⟩ := h
  rw [hdense] at hdense'
  cases hdense'
  exact hstage

/-- Switching off stages that raise changes no chunk of the result. -/
theorem retrieve_disable
    (h : ∀ stage ∈ stages, ∃ e, Raises services defaults stores r stage e ∧ e.isRejected = false) :
    chunksOf (retrieve services defaults stores (r.disable stages)).result =
      chunksOf (retrieve services defaults stores r).result := by
  have hcheck : (r.disable stages).check = r.check := rfl
  have hsearch : denseResults services defaults stores (r.disable stages) =
      denseResults services defaults stores r := rfl
  unfold retrieve
  rw [hcheck, hsearch]
  cases r.check with
  | error e => rfl
  | ok _ =>
  cases hdense : denseResults services defaults stores r with
  | error e => rfl
  | ok dense =>
      change chunksOf (rankResults services defaults stores (r.disable stages) dense).result =
        chunksOf (rankResults services defaults stores r dense).result
      have hfused : (fusedResults services stores (r.disable stages) dense).1 =
          (fusedResults services stores r dense).1 := by
        refine fusedResults_disable fun hmem => ?_
        obtain ⟨e, hraises, -⟩ := h .bm25 hmem
        exact ⟨e, (hraises.reached hdense).2⟩
      rw [rankResults_result, rankResults_result, hfused]
      have hreranked : chunksOf (rerankedResults services defaults (r.disable stages)
          (fusedResults services stores r dense).1).1 =
          chunksOf (rerankedResults services defaults r
            (fusedResults services stores r dense).1).1 := by
        refine rerankedResults_disable fun hmem => ?_
        obtain ⟨e, hraises, hrejected⟩ := h .rerank hmem
        obtain ⟨huse, hne, hcall⟩ := hraises.reached hdense
        exact ⟨huse, hne, e, hcall, hrejected⟩
      cases hon : (rerankedResults services defaults r
          (fusedResults services stores r dense).1).1 with
      | error e =>
          rw [hon] at hreranked
          obtain hoff := chunksOf_eq_error hreranked
          rw [hoff]
          rfl
      | ok reranked =>
          rw [hon] at hreranked
          obtain ⟨reranked', hoff, hchunks⟩ := chunksOf_eq_ok hreranked
          rw [hoff]
          change chunksOf (finalResults services defaults (r.disable stages) reranked').1 =
            chunksOf (finalResults services defaults r reranked).1
          rw [finalResults_chunks hchunks, finalResults_disable]
          intro hmem
          obtain ⟨e, hraises, hrejected⟩ := h .mmr hmem
          obtain ⟨huse, reranked'', hreranked'', hne, hcall⟩ := hraises.reached hdense
          rw [hon] at hreranked''
          cases hreranked''
          exact ⟨huse, hne, e, hcall, hrejected⟩

theorem retrieve_rejected {stage : Stage} {e : Exn} (hstage : stage ≠ .bm25)
    (h : Raises services defaults stores r stage e) (he : e.isRejected = true) :
    (retrieve services defaults stores r).result = .error e := by
  obtain ⟨hcheck, dense, hdense, hraises⟩ := h
  have hresult : (retrieve services defaults stores r).result =
      (rankResults services defaults stores r dense).result := by
    unfold retrieve
    rw [hcheck, hdense]
  rw [hresult, rankResults_result]
  cases stage with
  | bm25 => exact absurd rfl hstage
  | rerank =>
      obtain ⟨huse, hne, hcall⟩ := hraises
      rcases hpair : rerankCall services defaults r (fusedResults services stores r dense).1
        with ⟨left, outcome⟩
      rw [hpair] at hcall
      obtain rfl : outcome = .error e := hcall
      have herror : (rerankedResults services defaults r
          (fusedResults services stores r dense).1).1 = .error e := by
        simp [rerankedResults, huse, hne, hpair, he]
      rw [herror]
      rfl
  | mmr =>
      obtain ⟨huse, reranked, hreranked, hne, hcall⟩ := hraises
      rw [hreranked]
      change (finalResults services defaults r reranked).1 = .error e
      simp [finalResults, huse, hne, hcall, he]

theorem retrieve_query_rejected {e : Exn} (hcheck : r.check = .ok ())
    (h : services.models.embedQuery (r.searchModel defaults) r.query = .error e) :
    (retrieve services defaults stores r).result = .error e := by
  have hdense : denseResults services defaults stores r = .error e := by
    have hvalid := hcheck
    unfold Request.check at hvalid
    split_ifs at hvalid with hquery htenant htop hpool
    unfold denseResults denseSearch
    rw [if_neg (by omega), if_neg hquery, if_neg htenant, h]
    rfl
  unfold retrieve
  rw [hcheck, hdense]

/-- Whatever optional stages raise an ordinary exception, the ids are those of the call
with these stages switched off; a rejected model call ends the call. -/
theorem failing_stages_as_disabled (services : Services F) (defaults : Defaults)
    (stores : Stores F) (r : Request F) :
    (∀ stages : List Stage,
      (∀ stage ∈ stages, ∃ e, Raises services defaults stores r stage e ∧
        e.isRejected = false) →
      (retrieve services defaults stores r).result.map (·.map Hit.id) =
        (retrieve services defaults stores (r.disable stages)).result.map (·.map Hit.id)) ∧
    (∀ e, r.check = .ok () → e.isRejected = true →
      services.models.embedQuery (r.searchModel defaults) r.query = .error e →
      (retrieve services defaults stores r).result = .error e) ∧
    ∀ stage e, stage ≠ .bm25 → Raises services defaults stores r stage e →
      e.isRejected = true → (retrieve services defaults stores r).result = .error e := by
  refine ⟨fun stages h => ?_, fun e hcheck _ hquery => retrieve_query_rejected hcheck hquery,
    fun stage e hstage hraises he => retrieve_rejected hstage hraises he⟩
  rw [map_id_chunksOf, ← retrieve_disable h, ← map_id_chunksOf]

end Stages

/-- A reranker whose second score is no number, and an embedding model that fails on texts. -/
def failingServices : Services ℚ :=
  { sampleServices with
    models := { sampleServices.models with
      embedTexts := fun _ _ => .error (.runtimeError "out of memory")
      predict := fun _ _ => .ok [.ok 1, .error (.valueError "not a number")] } }

theorem failingServices_raises : ∀ stage ∈ [Stage.rerank, .mmr], ∃ e,
    Raises failingServices sampleDefaults sampleStores sampleRequest stage e ∧
      e.isRejected = false := by
  intro stage hmem
  have hdense := eq_ok_of_isSome (x := denseResults failingServices sampleDefaults sampleStores
    sampleRequest) (by decide +kernel) []
  rcases List.mem_pair.mp hmem with rfl | rfl
  · exact ⟨.valueError "not a number", ⟨rfl, _, hdense, rfl, by decide +kernel,
      eq_error_of_raisedBy (by decide +kernel)⟩, rfl⟩
  · exact ⟨.runtimeError "out of memory", ⟨rfl, _, hdense, rfl, _,
      eq_ok_of_isSome (by decide +kernel) [], by decide +kernel,
      eq_error_of_raisedBy (by decide +kernel)⟩, rfl⟩

theorem failing_stages_as_disabled_sample :
    (retrieve failingServices sampleDefaults sampleStores sampleRequest).result.map (·.map Hit.id) =
      (retrieve failingServices sampleDefaults sampleStores
        (sampleRequest.disable [.rerank, .mmr])).result.map (·.map Hit.id) :=
  (failing_stages_as_disabled failingServices sampleDefaults sampleStores sampleRequest).1
    [.rerank, .mmr] failingServices_raises

end Ally.Retrieval
