import Ally.TenantIsolation

/-!
# The embedding models of a retrieval

The calls of the embedding functions that `retrieve` makes, each with the model it names.
The result of `retrieve` depends on the embedding models through these calls only.
-/

namespace Ally.Retrieval

variable {F : Type}

/-- What a vector is for. -/
inductive EmbeddingUse
  | denseQuery
  | mmrQuery
  | mmrCandidates
  deriving DecidableEq, Repr

structure EmbeddingCall where
  use : EmbeddingUse
  model : String
  deriving DecidableEq, Repr

section Calls

variable [FloatLike F] (services : Services F) (defaults : Defaults) (stores : Stores F)
  (r : Request F)

/-- The model of `embed_query` in the MMR stage. -/
def Request.mmrQueryModel (r : Request F) (defaults : Defaults) : String :=
  (r.models.map RetrievalModels.embeddingModel).getD defaults.embeddingModel

/-- The calls in the `try` around MMR. `mmr_select` leaves `embed_texts` its default model. -/
def mmrEmbeddingCalls (reranked : List (Hit F)) : List EmbeddingCall :=
  if r.useMmr && !reranked.isEmpty then
    ⟨.mmrQuery, r.mmrQueryModel defaults⟩ ::
      match services.models.embedQuery (r.mmrQueryModel defaults) r.query with
      | .error _ => []
      | .ok _ => if r.topK.toNat = 0 then [] else [⟨.mmrCandidates, defaults.embeddingModel⟩]
  else []

def embeddingCalls : List EmbeddingCall :=
  match r.check with
  | .error _ => []
  | .ok () =>
      ⟨.denseQuery, r.searchModel defaults⟩ ::
        match denseResults services defaults stores r with
        | .error _ => []
        | .ok dense =>
            match (rerankedResults services defaults r
                (fusedResults services stores r dense).1).1 with
            | .error _ => []
            | .ok reranked => mmrEmbeddingCalls services defaults r reranked

/-- Services that answer the embedding calls of a list, and everything that is no embedding,
in the same way. -/
structure SameFor (calls : List EmbeddingCall) (services' : Services F) : Prop where
  search : services'.search = services.search
  scorer : services'.scorer = services.scorer
  predict : services'.models.predict = services.models.predict
  embedQuery : ∀ call ∈ calls,
    services'.models.embedQuery call.model = services.models.embedQuery call.model
  embedTexts : ∀ call ∈ calls,
    services'.models.embedTexts call.model = services.models.embedTexts call.model

end Calls

section Congruence

variable [FloatLike F] {services services' : Services F} {defaults : Defaults} {stores : Stores F}
  {r : Request F}

theorem mmrCall_congr {reranked : List (Hit F)} (hne : (r.useMmr && !reranked.isEmpty) = true)
    (h : SameFor services (mmrEmbeddingCalls services defaults r reranked) services') :
    mmrCall services' defaults r reranked = mmrCall services defaults r reranked := by
  have hcalls : mmrEmbeddingCalls services defaults r reranked =
      ⟨.mmrQuery, r.mmrQueryModel defaults⟩ ::
        match services.models.embedQuery (r.mmrQueryModel defaults) r.query with
        | .error _ => []
        | .ok _ =>
            if r.topK.toNat = 0 then [] else [⟨.mmrCandidates, defaults.embeddingModel⟩] :=
    if_pos hne
  rw [hcalls] at h
  have hquery := congrFun (h.embedQuery _ List.mem_cons_self) r.query
  unfold mmrCall
  rw [show (r.models.map RetrievalModels.embeddingModel).getD defaults.embeddingModel =
    r.mmrQueryModel defaults from rfl, hquery]
  cases hvector : services.models.embedQuery (r.mmrQueryModel defaults) r.query with
  | error e => rfl
  | ok vector =>
    by_cases htop : r.topK.toNat = 0
    · simp [bind, Except.bind, mmrSelect, htop]
    · have htexts : services'.models.embedTexts defaults.embeddingModel =
          services.models.embedTexts defaults.embeddingModel :=
        h.embedTexts ⟨.mmrCandidates, defaults.embeddingModel⟩ (by simp [hvector, htop])
      simp only [bind, Except.bind, mmrSelect, htexts]

/-- The result depends on the embedding models through the calls only. -/
theorem retrieve_congr_calls
    (h : SameFor services (embeddingCalls services defaults stores r) services') :
    retrieve services' defaults stores r = retrieve services defaults stores r := by
  unfold retrieve
  unfold embeddingCalls at h
  cases hcheck : r.check with
  | error e => rfl
  | ok u =>
    rw [hcheck] at h
    have hdense : denseResults services' defaults stores r =
        denseResults services defaults stores r := by
      have hquery := h.embedQuery ⟨.denseQuery, r.searchModel defaults⟩ (by simp)
      simp only [denseResults, denseSearch, hquery, h.search]
    rw [hdense]
    cases hresults : denseResults services defaults stores r with
    | error e => rfl
    | ok dense =>
      have hfused : fusedResults services' stores r dense = fusedResults services stores r dense := by
        simp only [fusedResults, bm25Results, h.scorer]
      have hreranked : rerankedResults services' defaults r
          (fusedResults services stores r dense).1 =
          rerankedResults services defaults r (fusedResults services stores r dense).1 :=
        rerankedResults_congr fun name => by rw [h.predict]
      simp only [rankResults, hfused, hreranked]
      cases hfinal : (rerankedResults services defaults r
          (fusedResults services stores r dense).1).1 with
      | error e => rfl
      | ok reranked =>
        have hmmr : finalResults services' defaults r reranked =
            finalResults services defaults r reranked := by
          unfold finalResults
          by_cases hne : (r.useMmr && !reranked.isEmpty) = true
          · have hsame : SameFor services (mmrEmbeddingCalls services defaults r reranked)
                services' := by
              refine ⟨h.search, h.scorer, h.predict, fun call hcall => ?_, fun call hcall => ?_⟩
              · exact h.embedQuery call (by simp [hresults, hfinal, hcall])
              · exact h.embedTexts call (by simp [hresults, hfinal, hcall])
            rw [mmrCall_congr hne hsame]
          · rw [if_neg hne, if_neg hne]
        simp only [hmmr]

end Congruence

/-! ### One space for each selection -/

section OneSpace

variable [FloatLike F]

/-- A search that answers with the points it is given, models that answer and no reranker. -/
def plainServices : Services F where
  models := {
    embedTexts := fun _ texts => .ok (texts.map fun _ => [1])
    embedQuery := fun _ _ => .ok [1]
    predict := fun _ _ => .error (.other "OSError" "model not found") }
  search := fun _ points limit => .ok ((points.take limit).map fun p => ⟨p.id, p.payload, 1⟩)
  scorer := fun _ _ => .ok fun _ => 0

/-- One chunk in every collection, and no lexical index. -/
def plainStores : Stores F where
  points := fun _ => some [{
    id := .str "a"
    vector := [1]
    payload := some [("text", .str "leave policy"), ("filename", .str "hr.pdf"),
      ("page_number", .int 1), ("tenant_id", .str "t")] }]
  index := .error (.other "OperationalError" "connection refused")

def plainRequest (models : RetrievalModels) (store : Option StoreSettings)
    (useBm25 useRerank useMmr : Bool) : Request F where
  query := "leave"
  tenantId := "t"
  topK := 1
  candidatePoolSize := 1
  useBm25 := useBm25
  useRerank := useRerank
  useMmr := useMmr
  metadataFilter := []
  store := store
  models := some models

def plainHit : Hit F where
  id := .str "a"
  text := .str "leave policy"
  filename := .str "hr.pdf"
  pageNumber := .int 1
  chunkIndex := .int 0
  tenantId := .str "t"
  documentId := none
  versionId := none
  score := 1
  rrfScore := none
  rerankScore := none

theorem denseResults_plain (defaults : Defaults) (models : RetrievalModels)
    (store : Option StoreSettings) (useBm25 useRerank useMmr : Bool) :
    denseResults (F := F) plainServices defaults plainStores
      (plainRequest models store useBm25 useRerank useMmr) = .ok [plainHit] := by
  have hquery : Text.blank "leave" = false := by decide +kernel
  have htenant : Text.blank "t" = false := by decide +kernel
  simp only [denseResults, denseSearch, plainRequest, hquery, htenant]
  rfl

theorem embeddingCalls_plain (defaults : Defaults) (models : RetrievalModels)
    (store : Option StoreSettings) (useBm25 useRerank : Bool) :
    embeddingCalls (F := F) plainServices defaults plainStores
        (plainRequest models store useBm25 useRerank true) =
      [⟨.denseQuery, models.embeddingModel⟩, ⟨.mmrQuery, models.embeddingModel⟩,
        ⟨.mmrCandidates, defaults.embeddingModel⟩] := by
  have hquery : Text.blank "leave" = false := by decide +kernel
  have htenant : Text.blank "t" = false := by decide +kernel
  have hcheck : (plainRequest (F := F) models store useBm25 useRerank true).check = .ok () := by
    simp [Request.check, plainRequest, hquery, htenant]
  rw [embeddingCalls, hcheck, denseResults_plain]
  cases useBm25 <;> cases useRerank <;> rfl

/-- With a selection of models, every call names the selected model exactly when MMR is off or
the default is the selected one. -/
theorem embeddingCalls_selected_iff (defaults : Defaults) (models : RetrievalModels)
    (store : Option StoreSettings) (useBm25 useRerank useMmr : Bool) :
    (∀ (services : Services F) (stores : Stores F) (r : Request F), r.models = some models →
      r.store = store → r.useBm25 = useBm25 → r.useRerank = useRerank → r.useMmr = useMmr →
      ∀ call ∈ embeddingCalls services defaults stores r, call.model = models.embeddingModel) ↔
    useMmr = false ∨ defaults.embeddingModel = models.embeddingModel := by
  constructor
  · intro hall
    cases useMmr with
    | false => exact Or.inl rfl
    | true =>
      right
      refine hall plainServices plainStores (plainRequest models store useBm25 useRerank true)
        rfl rfl rfl rfl rfl ⟨.mmrCandidates, defaults.embeddingModel⟩ ?_
      rw [embeddingCalls_plain]
      simp
  · intro hwhen services stores r hmodels _ _ _ hmmr call hcall
    have hsearch : r.searchModel defaults = models.embeddingModel := by
      simp [Request.searchModel, hmodels]
    have hquery : r.mmrQueryModel defaults = models.embeddingModel := by
      simp [Request.mmrQueryModel, hmodels]
    have hmmrCalls : ∀ reranked, ∀ call ∈ mmrEmbeddingCalls services defaults r reranked,
        call.model = models.embeddingModel := by
      intro reranked call hcall
      unfold mmrEmbeddingCalls at hcall
      by_cases hne : (r.useMmr && !reranked.isEmpty) = true
      · rw [if_pos hne] at hcall
        have hsame : defaults.embeddingModel = models.embeddingModel :=
          hwhen.resolve_left fun hoff => by simp [hmmr, hoff] at hne
        rcases List.mem_cons.mp hcall with rfl | hcall
        · exact hquery
        · split at hcall
          · cases hcall
          · split_ifs at hcall
            · cases hcall
            · rw [List.mem_singleton.mp hcall]
              exact hsame
      · rw [if_neg hne] at hcall
        cases hcall
    unfold embeddingCalls at hcall
    split at hcall
    · cases hcall
    · rcases List.mem_cons.mp hcall with rfl | hcall
      · exact hsearch
      · split at hcall
        · cases hcall
        · split at hcall
          · cases hcall
          · exact hmmrCalls _ call hcall

/-- A selected model that is not the default: the candidates of MMR are embedded with the
default one, the query with the selected one. -/
theorem mmr_mixes_models :
    ¬ ∀ call ∈ embeddingCalls (F := ℚ) plainServices ⟨"bge-small", "reranker", "chunks"⟩
        plainStores (plainRequest ⟨"bge-large", "reranker"⟩ none true true true),
      call.model = "bge-large" := by
  rw [embeddingCalls_plain]
  decide

end OneSpace

end Ally.Retrieval
