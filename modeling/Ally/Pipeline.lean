import Ally.Retrieval
import Mathlib.Data.List.AList

/-!
# The retrieval pipeline

`reciprocal_rank_fusion`, `rerank`, `mmr_select` and `retrieve`, which puts them
behind dense and lexical search. `rerank` works on the list its caller keeps, so it
also returns that list as it leaves it.
-/

namespace Ally.Retrieval

variable {F : Type}

/-! ### Fusion -/

section Fusion

variable [FloatLike F]

/-- The entry of one id in the two dicts `scores` and `payloads`, which get their keys
together. -/
structure Fused (F : Type) where
  score : F
  payload : Hit F

/-- The dicts in insertion order, keyed by `str(item["id"])`. -/
abbrev FusedTable (F : Type) := List (String × Fused F)

/-- One round of the inner loop: the first payload of an id stays. -/
def addRanked (k : ℕ) (table : FusedTable F) (entry : Hit F × ℕ) : FusedTable F :=
  let id := entry.1.id.text
  let share : F := 1 / ((k + entry.2 : ℕ) : F)
  if table.any (·.1 = id) then
    table.map fun e => if e.1 = id then (e.1, { e.2 with score := e.2.score + share }) else e
  else table ++ [(id, ⟨0 + share, entry.1⟩)]

def fusedTable (k : ℕ) (rankedLists : List (List (Hit F))) : FusedTable F :=
  rankedLists.foldl (fun table results => (results.zipIdx 1).foldl (addRanked k) table) []

def Fused.hit (f : Fused F) : Hit F := { f.payload with rrfScore := some f.score }

/-- `reciprocal_rank_fusion`; its `k` is positive. -/
def reciprocalRankFusion (rankedLists : List (List (Hit F))) (k : ℕ) : List (Hit F) :=
  let sorted := (fusedTable k rankedLists).insertionSort fun a b =>
    ¬ rankedBefore b.2.score b.2.payload.id.text a.2.score a.2.payload.id.text
  sorted.map fun e => e.2.hit

end Fusion

/-! ### Reranking -/

section Rerank

variable [FloatLike F]

/-- The loop that sets `rerank_score`; it stops where `float(score)` raises. -/
def setScores : List (Hit F) → List (Except Exn F) → List (Hit F) × Option Exn
  | c :: cs, .ok score :: scores =>
      let rest := setScores cs scores
      ({ c with rerankScore := some score } :: rest.1, rest.2)
  | c :: cs, .error e :: _ => (c :: cs, some e)
  | cs, _ => (cs, none)

/-- `candidates.sort(key=..., reverse=True)`, which leaves the list as it was when a
candidate has no score. -/
def sortByScore (candidates : List (Hit F)) : Except Exn (List (Hit F)) :=
  if candidates.all (·.rerankScore.isSome) then
    .ok (candidates.insertionSort fun a b => ¬ a.rerankScore.getD 0 < b.rerankScore.getD 0)
  else .error (.keyError "rerank_score")

/-- `rerank`: the candidates as the call leaves them, and what it returns. -/
def rerank (models : Models F) (modelName query : String) (candidates : List (Hit F))
    (topK : ℕ) : List (Hit F) × Except Exn (List (Hit F)) :=
  if candidates.isEmpty then (candidates, .ok [])
  else match models.predict modelName (candidates.map fun c => (query, c.text)) with
    | .error e => (candidates, .error e)
    | .ok scores =>
        match setScores candidates scores with
        | (scoredCandidates, some e) => (scoredCandidates, .error e)
        | (scoredCandidates, none) =>
            match sortByScore scoredCandidates with
            | .error e => (scoredCandidates, .error e)
            | .ok sorted => (sorted, .ok (sorted.take topK))

end Rerank

/-! ### Maximal marginal relevance -/

section Mmr

variable [FloatLike F]

def dot (a b : List F) : F := (a.zipWith (· * ·) b).foldl (· + ·) 0

/-- The position of the first greatest element. -/
def argmaxFrom (best : F) (bestIdx idx : ℕ) : List F → ℕ
  | [] => bestIdx
  | x :: xs => if best < x then argmaxFrom x idx (idx + 1) xs else argmaxFrom best bestIdx (idx + 1) xs

def argmax : List F → ℕ
  | [] => 0
  | x :: xs => argmaxFrom x 0 1 xs

/-- Python's `max` of a nonempty iterable. -/
def maximum : List F → F
  | [] => 0
  | x :: xs => xs.foldl (fun best y => if best < y then y else best) x

/-- The scores the next candidate is chosen by. -/
def mmrScores (embeddings : List (List F)) (relevance : List F) (lambda : F)
    (selected remaining : List ℕ) : List F :=
  if selected.isEmpty then remaining.map fun i => relevance.getD i 0
  else remaining.map fun i =>
    lambda * relevance.getD i 0 - (1 - lambda) *
      maximum (selected.map fun s => dot (embeddings.getD i []) (embeddings.getD s []))

/-- The `while` loop; `room` is `top_k - len(selected)`. -/
def mmrLoop (embeddings : List (List F)) (relevance : List F) (lambda : F) :
    ℕ → List ℕ → List ℕ → List ℕ
  | 0, selected, _ => selected
  | room + 1, selected, remaining =>
      match remaining with
      | [] => selected
      | _ :: _ =>
          let best := argmax (mmrScores embeddings relevance lambda selected remaining)
          mmrLoop embeddings relevance lambda room (selected ++ [remaining.getD best 0])
            (remaining.eraseIdx best)

/-- `mmr_select` with a `lambda_param` in the unit interval. -/
def mmrSelect (models : Models F) (modelName : String) (lambda : F) (queryEmbedding : List F)
    (candidates : List (Hit F)) (topK : ℕ) : Except Exn (List (Hit F)) :=
  if candidates.isEmpty || topK = 0 then .ok []
  else do
    let embeddings ← models.embedTexts modelName (candidates.map Hit.text)
    -- `np.array` of rows of different lengths, or of no rows, is not a matrix
    if embeddings.isEmpty || embeddings.any (·.length ≠ queryEmbedding.length) then
      .error (.valueError "query and candidate embeddings must have matching dimensions")
    else if embeddings.length < candidates.length then .error (.indexError "relevance_scores")
    else
      let relevance := embeddings.map (dot · queryEmbedding)
      let selected := mmrLoop embeddings relevance lambda topK [] (List.range candidates.length)
      .ok (selected.filterMap (candidates[·]?))

end Mmr

/-! ### The pipeline -/

structure RetrievalModels where
  embeddingModel : String
  rerankerModel : String
  deriving DecidableEq, Repr

/-- The settings of a `QdrantStore` that a search uses. -/
structure StoreSettings where
  embeddingModel : String
  collection : String
  deriving DecidableEq, Repr

/-- The arguments of `retrieve`. -/
structure Request (F : Type) where
  query : String
  tenantId : String
  topK : ℤ
  candidatePoolSize : ℤ
  useBm25 : Bool
  useRerank : Bool
  useMmr : Bool
  metadataFilter : List (String × Value F)
  store : Option StoreSettings
  models : Option RetrievalModels

/-- The module defaults. -/
structure Defaults where
  embeddingModel : String
  rerankerModel : String
  collection : String
  deriving DecidableEq, Repr

/-- The code outside the repository. -/
structure Services (F : Type) where
  models : Models F
  search : VectorSearch F
  scorer : Scorer F

/-- The collections by name and what `_get_bm25_index` yields. -/
structure Stores (F : Type) where
  points : String → Option (List (RawPoint F))
  index : Except Exn (List Document)

inductive Stage
  | bm25
  | rerank
  | mmr
  deriving DecidableEq, Repr

/-- What a call returns or raises, and the stages whose exception it caught and logged. -/
structure Outcome (F : Type) where
  result : Except Exn (List (Hit F))
  fellBack : List Stage

def Exn.isRejected : Exn → Bool
  | .modelInferenceRejected _ => true
  | _ => false

section Retrieve

variable (services : Services F) (defaults : Defaults) (stores : Stores F) (r : Request F)

def Request.searchModel : String :=
  match r.models, r.store with
  | some m, _ => m.embeddingModel
  | none, some s => s.embeddingModel
  | none, none => defaults.embeddingModel

def Request.collection : String :=
  (r.store.map StoreSettings.collection).getD defaults.collection

def denseResults : Except Exn (List (Hit F)) :=
  denseSearch services.models services.search (stores.points (r.collection defaults))
    (r.searchModel defaults) r.query r.tenantId r.candidatePoolSize r.metadataFilter

variable [FloatLike F]

/-- The body of the `try` around lexical search. -/
def bm25Results : Except Exn (List (Hit F)) := do
  let docs ← stores.index
  bm25Search services.scorer docs r.query r.tenantId r.candidatePoolSize r.metadataFilter

def fuse (dense lexical : List (Hit F)) : List (Hit F) :=
  if !dense.isEmpty && !lexical.isEmpty then reciprocalRankFusion [dense, lexical] 60
  else if !dense.isEmpty then dense
  else lexical

def fusedResults (dense : List (Hit F)) : List (Hit F) × List Stage :=
  if r.useBm25 then
    match bm25Results services stores r with
    | .ok lexical => (fuse dense lexical, [])
    | .error _ => (fuse dense [], [.bm25])
  else (dense, [])

/-- The call of `rerank`. -/
def rerankCall (fused : List (Hit F)) : List (Hit F) × Except Exn (List (Hit F)) :=
  rerank services.models ((r.models.map RetrievalModels.rerankerModel).getD defaults.rerankerModel)
    r.query fused (min r.candidatePoolSize.toNat fused.length)

def rerankedResults (fused : List (Hit F)) : Except Exn (List (Hit F)) × List Stage :=
  if r.useRerank && !fused.isEmpty then
    match rerankCall services defaults r fused with
    | (_, .ok hits) => (.ok hits, [])
    | (left, .error e) =>
        if e.isRejected then (.error e, [])
        else (.ok (left.take r.candidatePoolSize.toNat), [.rerank])
  else (.ok (fused.take r.candidatePoolSize.toNat), [])

/-- The body of the `try` around MMR. -/
def mmrCall (reranked : List (Hit F)) : Except Exn (List (Hit F)) := do
  let queryEmbedding ← services.models.embedQuery
    ((r.models.map RetrievalModels.embeddingModel).getD defaults.embeddingModel) r.query
  mmrSelect services.models defaults.embeddingModel (((7 : ℕ) : F) / ((10 : ℕ) : F))
    queryEmbedding reranked r.topK.toNat

def finalResults (reranked : List (Hit F)) : Except Exn (List (Hit F)) × List Stage :=
  if r.useMmr && !reranked.isEmpty then
    match mmrCall services defaults r reranked with
    | .ok hits => (.ok hits, [])
    | .error e =>
        if e.isRejected then (.error e, [])
        else (.ok (reranked.take r.topK.toNat), [.mmr])
  else (.ok (reranked.take r.topK.toNat), [])

/-- The checks at the head of `retrieve`. -/
def Request.check : Except Exn Unit :=
  if Text.blank r.query then .error (.valueError "query must not be empty")
  else if Text.blank r.tenantId then .error (.valueError "tenant_id must not be empty")
  else if r.topK ≤ 0 then .error (.valueError "top_k must be greater than zero")
  else if r.candidatePoolSize < r.topK then
    .error (.valueError "candidate_pool_size must be greater than or equal to top_k")
  else .ok ()

/-- The stages after dense search. -/
def rankResults (dense : List (Hit F)) : Outcome F :=
  let fused := fusedResults services stores r dense
  let reranked := rerankedResults services defaults r fused.1
  match reranked.1 with
  | .error e => ⟨.error e, fused.2 ++ reranked.2⟩
  | .ok hits =>
      let final := finalResults services defaults r hits
      ⟨final.1, fused.2 ++ reranked.2 ++ final.2⟩

def retrieve : Outcome F :=
  match r.check with
  | .error e => ⟨.error e, []⟩
  | .ok () =>
      match denseResults services defaults stores r with
      | .error e => ⟨.error e, []⟩
      | .ok dense => rankResults services defaults stores r dense

end Retrieve

end Ally.Retrieval
