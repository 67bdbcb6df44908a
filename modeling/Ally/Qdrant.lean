import Ally.ChunkIdentity

/-!
# The vector collection

Points and the client calls that `index_chunks`, `delete_by_filename` and
`reconcile_document_version` issue. A point's vector is the embedding of its text
and is left out. Ids are of any type `κ`.
-/

open Relational

namespace Ally

/-- The `Chunk` of the retrieval layer. -/
structure Chunk (κ : Type) where
  id : κ
  text : String
  filename : String
  pageNumber : ℤ
  chunkIndex : ℕ
  tenantId : Uuid
  documentId : Option Uuid
  versionId : Option Uuid
  deriving DecidableEq

structure Point (κ : Type) where
  id : κ
  text : String
  filename : String
  pageNumber : ℤ
  chunkIndex : ℕ
  tenantId : Uuid
  documentId : Option Uuid
  versionId : Option Uuid
  isActive : Option Bool
  deriving DecidableEq

namespace Qdrant

variable {κ : Type}

/-- The `PointStruct` of a chunk: only a chunk with a document and a version gets
their keys, and starts hidden. -/
def point (c : Chunk κ) : Point κ where
  id := c.id
  text := c.text
  filename := c.filename
  pageNumber := c.pageNumber
  chunkIndex := c.chunkIndex
  tenantId := c.tenantId
  documentId := c.versionId.bind fun _ => c.documentId
  versionId := c.documentId.bind fun _ => c.versionId
  isActive := c.documentId.bind fun _ => c.versionId.map fun _ => false

/-- A `FieldCondition` on the payload. -/
inductive Condition
  | tenantId (value : Uuid)
  | filename (value : String)
  | documentId (value : Uuid)
  | versionId (value : Uuid)
  | versionEmpty
  deriving DecidableEq, Repr

def Condition.holds (p : Point κ) : Condition → Bool
  | .tenantId value => p.tenantId = value
  | .filename value => p.filename = value
  | .documentId value => p.documentId = some value
  | .versionId value => p.versionId = some value
  | .versionEmpty => p.versionId = none

structure Filter where
  must : List Condition
  mustNot : List Condition
  deriving DecidableEq, Repr

def Filter.selects (f : Filter) (p : Point κ) : Bool :=
  f.must.all (Condition.holds p) && !f.mustNot.any (Condition.holds p)

/-- The filter `dense_search` adds for the versions: no version, or an active one. -/
def visible (p : Point κ) : Bool := p.versionId = none ∨ p.isActive = some true

abbrev Points (κ : Type) := Table (Point.id (κ := κ))

inductive Call (κ : Type)
  | createCollection
  | upsert (points : List (Point κ))
  | setPayload (isActive : Bool) (points : Filter)
  | delete (points : Filter)
  deriving DecidableEq

def setActive (isActive : Bool) : Rewrite (Point.id (κ := κ)) where
  toFun p := { p with isActive := some isActive }
  keeps _ := rfl

/-- What a call makes of the points of an existing collection. -/
def Call.apply [DecidableEq κ] (points : Points κ) : Call κ → Points κ
  | .createCollection => points
  | .upsert ps => points.putAll ps
  | .setPayload isActive f => points.update f.selects (setActive isActive)
  | .delete f => points.delete f.selects

/-- A call on a server that may not have the collection yet. -/
def Call.run [DecidableEq κ] (c : Call κ) (collection : Option (Points κ)) : Option (Points κ) :=
  match c with
  | .createCollection => some (collection.getD .empty)
  | _ => collection.map c.apply

def runCalls [DecidableEq κ] (cs : List (Call κ)) (collection : Option (Points κ)) :
    Option (Points κ) :=
  cs.foldl (fun collection c => c.run collection) collection

/-- `index_chunks`: `_ensure_collection`, then one upsert. -/
def indexChunks (chunks : List (Chunk κ)) : List (Call κ) :=
  if chunks.isEmpty then [] else [.createCollection, .upsert (chunks.map point)]

def deleteByFilename (tenantId : Uuid) (filename : String) : List (Call κ) :=
  [.delete ⟨[.tenantId tenantId, .filename filename], []⟩]

def documentConditions (tenantId documentId : Uuid) : List Condition :=
  [.tenantId tenantId, .documentId documentId]

/-- The part of `reconcile_document_version` that acts on the versioned points. -/
def visibilityCalls (tenantId documentId : Uuid) (activeVersionId : Option Uuid)
    (deleted : Bool) : List (Call κ) :=
  let conditions := documentConditions tenantId documentId
  if deleted then [.delete ⟨conditions, []⟩]
  else match activeVersionId with
    | some versionId =>
        [.setPayload true ⟨conditions ++ [.versionId versionId], []⟩,
          .setPayload false ⟨conditions, [.versionId versionId]⟩]
    | none => [.setPayload false ⟨conditions, []⟩]

/-- The calls of `reconcile_document_version` on an existing collection. -/
def reconcileDocumentVersion (tenantId documentId : Uuid) (activeVersionId : Option Uuid)
    (filename : String) (deleted deleteLegacy : Bool) : List (Call κ) :=
  visibilityCalls tenantId documentId activeVersionId deleted ++
    if deleted || deleteLegacy then
      [.delete ⟨[.tenantId tenantId, .filename filename, .versionEmpty], []⟩]
    else []

/-! ### The chunks of an ingestion -/

/-- The retrieval chunks `embed_and_index` makes of a version's text chunks. -/
def versionChunks (uuid5 : String → κ) (tenantId documentId versionId : Uuid)
    (filename : String) (chunks : List TextChunk) : List (Chunk κ) :=
  chunks.mapIdx fun idx chunk =>
    { id := makeChunkId uuid5 tenantId filename chunk.pageNumber idx (some versionId)
      text := chunk.text
      filename := filename
      pageNumber := chunk.pageNumber
      chunkIndex := idx
      tenantId := tenantId
      documentId := some documentId
      versionId := some versionId }

/-- The retrieval chunks of an ingestion without a version. -/
def legacyChunks (uuid5 : String → κ) (tenantId : Uuid) (filename : String)
    (chunks : List TextChunk) : List (Chunk κ) :=
  chunks.mapIdx fun idx chunk =>
    { id := makeChunkId uuid5 tenantId filename chunk.pageNumber idx none
      text := chunk.text
      filename := filename
      pageNumber := chunk.pageNumber
      chunkIndex := idx
      tenantId := tenantId
      documentId := none
      versionId := none }

end Qdrant
end Ally
