import Ally.Text
import Mathlib.Data.List.Basic
import Mathlib.Data.List.Sort
import Mathlib.Tactic

/-!
# Dense and lexical search

`dense_search` over the points of a Qdrant collection and `BM25Index.search` over the
pickled corpus. Embeddings, the vector search itself and the BM25 scores come from
code outside the repository and are parameters. Nothing here depends on laws of the
number type `F`.
-/

namespace Ally.Retrieval

/-- The operations on floats that ranking uses. -/
class FloatLike (F : Type) extends Zero F, One F, Add F, Sub F, Mul F, Div F, NatCast F,
    IntCast F, LT F where
  decLT : DecidableLT F
  decEq : DecidableEq F

attribute [reducible, instance] FloatLike.decLT FloatLike.decEq

instance : FloatLike ℚ where
  decLT := inferInstance
  decEq := inferInstance

/-- A decoded JSON value. -/
inductive Value (F : Type)
  | null
  | bool (b : Bool)
  | int (i : ℤ)
  | float (x : F)
  | str (s : String)
  | list (items : List (Value F))
  | object (fields : List (String × Value F))

variable {F : Type}

/-- Equality of the scalars a `MatchValue` may hold. -/
def Value.sameScalar : Value F → Value F → Bool
  | .bool a, .bool b => a = b
  | .int a, .int b => a = b
  | .str a, .str b => a = b
  | _, _ => false

def Value.isStr (s : String) : Value F → Bool
  | .str a => a = s
  | _ => false

/-- `left == right` for the values a corpus document has on the left. -/
def Value.pyEq [FloatLike F] : Value F → Value F → Bool
  | .null, .null => true
  | .str a, .str b => a = b
  | .int a, .int b => a = b
  | .int a, .bool b => a = if b then 1 else 0
  | .int a, .float x => (a : F) = x
  | _, _ => false

inductive Exn
  | valueError (message : String)
  | runtimeError (message : String)
  | modelInferenceRejected (message : String)
  | keyError (key : String)
  | indexError (message : String)
  | other (type message : String)
  deriving DecidableEq, Repr

inductive PointId
  | int (n : ℕ)
  | str (s : String)
  deriving DecidableEq, Repr

/-- `str(id)`. -/
def PointId.text : PointId → String
  | .int n => toString n
  | .str s => s

abbrev Payload (F : Type) := List (String × Value F)

structure RawPoint (F : Type) where
  id : PointId
  vector : List F
  payload : Option (Payload F)

structure ScoredPoint (F : Type) where
  id : PointId
  payload : Option (Payload F)
  score : F

/-- The dicts `retrieve` passes on. A key that is missing is `none`. -/
structure Hit (F : Type) where
  id : PointId
  text : Value F
  filename : Value F
  pageNumber : Value F
  chunkIndex : Value F
  tenantId : Value F
  documentId : Option (Value F)
  versionId : Option (Value F)
  score : F
  rrfScore : Option F
  rerankScore : Option F

/-! ### Dense search -/

inductive FieldCondition (F : Type)
  | matchValue (key : String) (value : Value F)
  | isEmpty (key : String)

/-- Qdrant matches a scalar, or a list that has the scalar. -/
def FieldCondition.holds (payload : Payload F) : FieldCondition F → Bool
  | .matchValue key value =>
      match payload.lookup key with
      | some (.list items) => items.any (Value.sameScalar value)
      | some v => value.sameScalar v
      | none => false
  | .isEmpty key =>
      match payload.lookup key with
      | some .null => true
      | some (.list []) => true
      | some _ => false
      | none => true

/-- A `Filter` with a nested `should` of which one condition has to hold. -/
structure Filter (F : Type) where
  must : List (FieldCondition F)
  should : List (FieldCondition F)

def Filter.selects (f : Filter F) (p : RawPoint F) : Bool :=
  let payload := p.payload.getD []
  f.must.all (·.holds payload) && f.should.any (·.holds payload)

/-- `MatchValue(value=...)` validates its value to be a bool, an int or a string. -/
def fieldCondition (entry : String × Value F) : Except Exn (FieldCondition F) :=
  match entry.2 with
  | .bool _ | .int _ | .str _ => .ok (.matchValue entry.1 entry.2)
  | _ => .error (.other "ValidationError" "MatchValue")

def tenantCondition (tenantId : String) : FieldCondition F :=
  .matchValue "tenant_id" (.str tenantId)

def activeVersionConditions : List (FieldCondition F) :=
  [.isEmpty "version_id", .matchValue "is_active" (.bool true)]

def denseFilter (tenantId : String) (metadataFilter : List (String × Value F)) :
    Except Exn (Filter F) := do
  let conditions ← metadataFilter.mapM fieldCondition
  return ⟨conditions ++ [tenantCondition tenantId], activeVersionConditions⟩

/-- `payload[key]`, with the `KeyError` turned into a `RuntimeError`. -/
def requiredField (p : ScoredPoint F) (payload : Payload F) (key : String) :
    Except Exn (Value F) :=
  match payload.lookup key with
  | some v => .ok v
  | none => .error (.runtimeError
      ("Qdrant point " ++ p.id.text ++ " is missing required field: '" ++ key ++ "'"))

/-- One round of the loop over `response.points`. -/
def denseHit (tenantId : String) (p : ScoredPoint F) : Except Exn (Hit F) :=
  match p.payload with
  | none => .error (.runtimeError ("Qdrant point " ++ p.id.text ++ " has no payload"))
  | some payload => do
      let text ← requiredField p payload "text"
      let filename ← requiredField p payload "filename"
      let pageNumber ← requiredField p payload "page_number"
      let tenant := (payload.lookup "tenant_id").getD (.str tenantId)
      if tenant.isStr tenantId then
        .ok { id := p.id, text, filename, pageNumber
              chunkIndex := (payload.lookup "chunk_index").getD (.int 0)
              tenantId := tenant
              documentId := payload.lookup "document_id"
              versionId := payload.lookup "version_id"
              score := p.score, rrfScore := none, rerankScore := none }
      else
        .error (.runtimeError
          ("Qdrant point " ++ p.id.text ++ " belongs to a different tenant"))

/-- What the sentence-transformer models answer, by model name. -/
structure Models (F : Type) where
  embedTexts : String → List (Value F) → Except Exn (List (List F))
  embedQuery : String → String → Except Exn (List F)
  /-- The scores of the pairs; `float(score)` may raise on each. -/
  predict : String → List (String × Value F) → Except Exn (List (Except Exn F))

/-- The vector search of Qdrant among the points that pass a filter. -/
abbrev VectorSearch (F : Type) :=
  List F → List (RawPoint F) → ℕ → Except Exn (List (ScoredPoint F))

/-- Qdrant returns points of the ones it searched, each once. -/
def VectorSearch.Sound (search : VectorSearch F) : Prop :=
  ∀ vector points limit results, search vector points limit = .ok results →
    (results.map ScoredPoint.id).Nodup ∧
      ∀ s ∈ results, ∃ p ∈ points, p.id = s.id ∧ p.payload = s.payload

/-- `client.query_points` on a collection, `none` when it does not exist. -/
def queryPoints (search : VectorSearch F) (points : Option (List (RawPoint F)))
    (vector : List F) (filter : Filter F) (limit : ℕ) : Except Exn (List (ScoredPoint F)) :=
  match points with
  | none => .error (.other "UnexpectedResponse" "collection not found")
  | some points => search vector (points.filter filter.selects) limit

/-- `dense_search` with the selected embedding model and collection. -/
def denseSearch (models : Models F) (search : VectorSearch F)
    (points : Option (List (RawPoint F))) (embeddingModel query tenantId : String) (topK : ℤ)
    (metadataFilter : List (String × Value F)) : Except Exn (List (Hit F)) :=
  if topK ≤ 0 then .error (.valueError "top_k must be greater than zero")
  else if Text.blank query then .error (.valueError "query must not be empty")
  else if Text.blank tenantId then .error (.valueError "tenant_id must not be empty")
  else do
    let vector ← models.embedQuery embeddingModel query
    let filter ← denseFilter tenantId metadataFilter
    let response ← queryPoints search points vector filter topK.toNat
    response.mapM (denseHit tenantId)

/-! ### Lexical search -/

/-- A document of the corpus, as `_rebuild_now` makes it. -/
structure Document where
  id : String
  text : String
  filename : String
  pageNumber : ℤ
  chunkIndex : ℤ
  tenantId : String
  versionId : Option String
  deriving DecidableEq, Repr

/-- `document.get(key)`. -/
def Document.get (d : Document) (key : String) : Value F :=
  match key with
  | "id" => .str d.id
  | "text" => .str d.text
  | "filename" => .str d.filename
  | "page_number" => .int d.pageNumber
  | "chunk_index" => .int d.chunkIndex
  | "tenant_id" => .str d.tenantId
  | "version_id" => (d.versionId.map Value.str).getD .null
  | _ => .null

/-- `{**document, "score": score}`. -/
def Document.hit (d : Document) (score : F) : Hit F where
  id := .str d.id
  text := .str d.text
  filename := .str d.filename
  pageNumber := .int d.pageNumber
  chunkIndex := .int d.chunkIndex
  tenantId := .str d.tenantId
  documentId := none
  versionId := some ((d.versionId.map Value.str).getD .null)
  score := score
  rrfScore := none
  rerankScore := none

/-- `_tokenize`. -/
def tokenize (text : String) : List String :=
  ((text.toList.flatMap Text.lower).splitOnP (fun c => !c.isAlphanum)).filterMap fun word =>
    if word.isEmpty then none else some (String.ofList word)

/-- `BM25Okapi(corpus).get_scores(query_tokens)`, the score of each position. -/
abbrev Scorer (F : Type) := List (List String) → List String → Except Exn (ℕ → F)

/-- The documents with their scores. -/
def scored (scores : ℕ → F) (docs : List Document) : List (Document × F) :=
  docs.mapIdx fun i d => (d, scores i)

/-- `effective_filter`: the tenant is merged in last. -/
def effectiveFilter (tenantId : String) (metadataFilter : List (String × Value F)) :
    List (String × Value F) :=
  metadataFilter.filter (·.1 ≠ "tenant_id") ++ [("tenant_id", .str tenantId)]

section Search

variable [FloatLike F]

def eligible (filter : List (String × Value F)) (d : Document) : Bool :=
  filter.all fun entry => (d.get entry.1 : Value F).pyEq entry.2

/-- The order of two `(-score, id)` keys. Sorting by it is stable, as Python's is. -/
def rankedBefore (score : F) (id : String) (score' : F) (id' : String) : Bool :=
  if score = score' then id < id' else score' < score

/-- A document with a positive score or a token of the query. -/
def lexicalMatch (queryTokens : List String) (entry : Document × F) : Bool :=
  0 < entry.2 || queryTokens.any (· ∈ tokenize entry.1.text)

def topMatches (queryTokens : List String) (topK : ℕ) (candidates : List (Document × F)) :
    List (Hit F) :=
  let ranked := candidates.insertionSort fun a b => ¬ rankedBefore b.2 b.1.id a.2 a.1.id
  ((ranked.take topK).filter (lexicalMatch queryTokens)).map fun e => e.1.hit e.2

/-- `BM25Index.search` on the documents of the index. -/
def bm25Search (scorer : Scorer F) (docs : List Document) (query tenantId : String) (topK : ℤ)
    (metadataFilter : List (String × Value F)) : Except Exn (List (Hit F)) :=
  if topK ≤ 0 then .error (.valueError "top_k must be greater than zero")
  else if Text.blank tenantId then .error (.valueError "tenant_id must not be empty")
  else if Text.blank query || docs.isEmpty then .ok []
  else do
    let queryTokens := tokenize query
    let scores ← scorer (docs.map fun d => tokenize d.text) queryTokens
    let filter := effectiveFilter tenantId metadataFilter
    return topMatches queryTokens topK.toNat
      ((scored scores docs).filter fun e => eligible filter e.1)

end Search

end Ally.Retrieval
