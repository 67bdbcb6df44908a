import Ally.Json
import Ally.Paths
import Ally.Urls

/-!
# The artifact store

`IngestionArtifactStore`: compressed JSON under the identity of a document version, as an
object of a bucket or as a file below the upload directory.
-/

namespace Ally.ArtifactStore

open Paths Urls

/-- What is read of the identity dictionary. -/
structure Identity where
  tenantId : Option (List Char)
  documentId : Option (List Char)
  versionId : Option (List Char)
  deriving DecidableEq, Repr

inductive StoreError
  | valueError (message : String)
  | sizeExceeded (message : String)
  /-- An `OSError`, or an error of the S3 client or of the decompression. -/
  | failure
  deriving DecidableEq, Repr

inductive Backend
  | disk
  | s3
  deriving DecidableEq, Repr

/-- A name that S3 takes for a bucket. -/
def IsBucketName (bucket : List Char) : Prop :=
  bucket ≠ [] ∧ ∀ c ∈ bucket, c.isAlphanum = true ∨ c ∈ ['.', '-', '_']

structure Store where
  backend : Backend
  bucket : List Char
  uploadDir : PurePath
  /-- The working directory of the process. -/
  cwd : List (List Char)
  maxBytes : ℕ
  bucketName : backend = .s3 → IsBucketName bucket
  uploadNames : ∀ part ∈ uploadDir.parts, part = ['.', '.'] ∨ IsName part
  cwdNames : ∀ part ∈ cwd, IsName part

/-- `gzip`; the time in the header of an archive is left out. -/
structure Gzip where
  compress : List UInt8 → List UInt8
  decompress : List UInt8 → Option (List UInt8)
  decompress_compress : ∀ data, decompress (compress data) = some data

/-! ### Addresses -/

def stages : List (List Char) := ["pages".toList, "chunks".toList]

/-- What `_key` accepts as a part. -/
def validPart (value : List Char) : Bool :=
  value ≠ [] && '/' ∉ value && '\\' ∉ value && value ∉ [['.'], ['.', '.']]

/-- The text of a key. -/
def keyText (tenantId documentId versionId stage : List Char) : List Char :=
  "tenants/".toList ++ tenantId ++ "/documents/".toList ++ documentId ++ "/versions/".toList ++
    versionId ++ "/artifacts/".toList ++ stage ++ ".json.gz".toList

/-- `_key`. -/
def key (identity : Identity) (stage : List Char) : Except StoreError (List Char) :=
  if stage ∉ stages then .error (.valueError "Unknown ingestion artifact stage")
  else
    match identity with
    | ⟨some tenantId, some documentId, some versionId⟩ =>
        if validPart tenantId && validPart documentId && validPart versionId then
          .ok (keyText tenantId documentId versionId stage)
        else .error (.valueError "Invalid ingestion artifact identity")
    | _ => .error (.valueError "Invalid ingestion artifact identity")

namespace Store

variable (s : Store)

/-- `self.upload_dir / "artifacts"`. -/
def base : PurePath := s.uploadDir.join (.parse "artifacts".toList)

/-- `(self.upload_dir / "artifacts").resolve()`. -/
def root : List (List Char) := (s.base.resolve s.cwd).parts

/-- `self.upload_dir / "artifacts" / Path(*key.split("/"))`. -/
def artifactPath (key : List Char) : PurePath :=
  s.base.join ((PurePath.parse []).joinpath (key.splitOn '/'))

/-- `base.joinpath(*key.split("/"))`, the target of a put. -/
def target (key : List Char) : PurePath := s.base.joinpath (key.splitOn '/')

/-- The file that the system finds at a path. -/
def locatePath (p : PurePath) : List (List Char) := (p.resolve s.cwd).parts

/-- The system calls refuse a path with a null character. -/
def hasNull (p : PurePath) : Bool := (s.locatePath p).any ('\x00' ∈ ·)

/-- `reference`. -/
def reference (identity : Identity) (stage : List Char) : Except StoreError (List Char) := do
  let key ← key identity stage
  if s.backend = .s3 then return "s3://".toList ++ s.bucket ++ '/' :: quote key
  if s.hasNull (s.artifactPath key) then .error (.valueError "embedded null byte")
  else return "file://".toList ++ quote ((s.artifactPath key).resolve s.cwd).text

end Store

/-- Where an artifact is kept. -/
inductive Location
  | object (bucket key : List Char)
  | file (parts : List (List Char))
  deriving DecidableEq, Repr

/-- Where `put_json` writes the artifact. -/
def Store.location (s : Store) (key : List Char) : Location :=
  match s.backend with
  | .s3 => .object s.bucket key
  | .disk => .file (s.locatePath (s.target key))

/-- The first part of `get_json`: what the reference stands for. -/
def Store.locate (s : Store) (special : List Char → Bool) (storageRef : List Char) :
    Except StoreError Location :=
  match urlsplit special storageRef with
  | none => .error (.valueError "Invalid URL")
  | some parsed =>
      if parsed.scheme = "s3".toList then
        if parsed.netloc ≠ s.bucket then
          .error (.valueError "Ingestion artifact bucket does not match configuration")
        else
          let key := unquote (parsed.path.dropWhile (· = '/'))
          if ¬ "tenants/".toList <+: key ∨ ['.', '.'] ∈ key.splitOn '/' then
            .error (.valueError "Invalid ingestion artifact reference")
          else .ok (.object s.bucket key)
      else if parsed.scheme = "file".toList then
        let sourcePath := PurePath.parse (unquote parsed.path)
        if s.hasNull sourcePath ∨ ¬ s.root <+: s.locatePath sourcePath then
          .error (.valueError "Ingestion artifact path is outside the artifact store")
        else .ok (.file (s.locatePath sourcePath))
      else .error (.valueError "Unsupported ingestion artifact reference")

/-! ### Reading and writing -/

structure World where
  objects : List Char → List Char → Option (List UInt8)
  files : List (List Char) → Option (List UInt8)

namespace World

def read (w : World) : Location → Option (List UInt8)
  | .object bucket key => w.objects bucket key
  | .file parts => w.files parts

/-- The content of a location is replaced, or removed. -/
def write (w : World) (location : Location) (content : Option (List UInt8)) : World :=
  match location with
  | .object bucket key =>
      { w with objects := fun b k => if b = bucket ∧ k = key then content else w.objects b k }
  | .file parts => { w with files := fun p => if p = parts then content else w.files p }

end World

/-- `_BoundedWriter`, with what it has written. -/
structure BoundedWriter where
  written : ℕ
  text : List Char

def BoundedWriter.write (limit : ℕ) (value : List Char) (b : BoundedWriter) :
    Except StoreError BoundedWriter :=
  let written := b.written + (encode value).length
  if limit < written then
    .error (.sizeExceeded "Ingestion artifact exceeds its uncompressed size limit")
  else .ok ⟨written, b.text ++ value⟩

/-- `json.dump` of the chunks: what was written, and the exception. -/
def dump (limit : ℕ) : List Json.Chunk → BoundedWriter → BoundedWriter × Option StoreError
  | [], b => (b, none)
  | none :: _, b => (b, some (.valueError "Exceeds the limit for integer string conversion"))
  | some chunk :: chunks, b =>
      match b.write limit chunk with
      | .error e => (b, some e)
      | .ok b => dump limit chunks b

/-- Where a system call or the client can fail in `put_json`. -/
inductive Step
  | mkdir
  | createTemp
  /-- Opening, writing or closing the archive. -/
  | compress
  | stat
  | upload
  | replace
  deriving DecidableEq, Repr

/-- The name of a temporary file with this random part. -/
def tempName (token : List Char) : List Char :=
  ".ally-artifact-".toList ++ token ++ ".tmp".toList

section Operations

variable {F : Type} (fl : Json.Floats F) (gz : Gzip) (special : List Char → Bool) (s : Store)

/-- The `try` of `put_json`, with the temporary file at `temp`: the outcome, and whether
`temp_path` is still set. -/
def putBody (fails : Step → Bool) (identity : Identity) (stage key : List Char)
    (payload : Json.Value F) (temp : Location) (w : World) :
    Except StoreError (List Char) × Bool × World :=
  let (output, exception) := dump s.maxBytes (Json.chunks fl payload) ⟨0, []⟩
  let archive := gz.compress (encode output.text)
  let w := w.write temp (some archive)
  match exception with
  | some e => (.error e, true, w)
  | none =>
      if fails .compress ∨ fails .stat then (.error .failure, true, w)
      else if s.maxBytes < archive.length then
        (.error (.sizeExceeded "Ingestion artifact exceeds its compressed size limit"), true, w)
      else
        match s.backend with
        | .s3 =>
            if fails .upload then (.error .failure, true, w)
            else
              (s.reference identity stage, true, w.write (.object s.bucket key) (some archive))
        | .disk =>
            if fails .replace then (.error .failure, true, w)
            else
              (s.reference identity stage, false,
                (w.write (.file (s.locatePath (s.target key))) (some archive)).write temp none)

/-- `put_json`; `token` is the random part of the name of the temporary file. -/
def putJson (fails : Step → Bool) (token : List Char) (identity : Identity) (stage : List Char)
    (payload : Json.Value F) (w : World) : Except StoreError (List Char) × World :=
  match key identity stage with
  | .error e => (.error e, w)
  | .ok key =>
      let target := s.target key
      let temp := .file ((s.locatePath target).dropLast ++ [tempName token])
      if fails .mkdir ∨ s.hasNull target then (.error .failure, w)
      -- the name is taken only when no file has it
      else if fails .createTemp ∨ (w.read temp).isSome then (.error .failure, w)
      else
        match putBody fl gz s fails identity stage key payload temp (w.write temp (some [])) with
        | (result, true, w) => (result, w.write temp none)
        | (result, false, w) => (result, w)

/-- The newlines of a file that is read in text mode. -/
def universalNewlines : List Char → List Char
  | [] => []
  | c :: t =>
      if c = '\r' then
        match t with
        | '\n' :: u => '\n' :: universalNewlines u
        | u => '\n' :: universalNewlines u
      else c :: universalNewlines t

/-- `_BoundedReader.read()`: at most one character more than the limit of bytes. -/
def boundedRead (limit : ℕ) (text : List Char) : Except StoreError (List Char) :=
  let value := text.take (limit + 1)
  if limit < (encode value).length then
    .error (.sizeExceeded "Ingestion artifact exceeds its uncompressed size limit")
  else .ok value

/-- What `get_json` does with the archive. -/
def readArchive (archive : List UInt8) : Except StoreError (Json.Value F) :=
  if s.maxBytes < archive.length then
    .error (.sizeExceeded "Ingestion artifact exceeds its compressed size limit")
  else
    match gz.decompress archive with
    | none => .error .failure
    | some data =>
        match data.toByteArray.utf8Decode? with
        | none => .error (.valueError "invalid UTF-8")
        | some text => do
            let value ← boundedRead s.maxBytes (universalNewlines text.toList)
            match Json.loads fl value with
            | none => .error (.valueError "invalid JSON")
            | some payload => return payload

/-- `get_json`. The copy of an object in a temporary file is removed at the end. -/
def getJson (storageRef : List Char) (w : World) : Except StoreError (Json.Value F) := do
  let location ← s.locate special storageRef
  match w.read location with
  | none => .error .failure
  | some archive => readArchive fl gz s archive

/-- `delete`. -/
def delete (identity : Identity) (stage : List Char) (w : World) : Except StoreError Unit × World :=
  match key identity stage with
  | .error e => (.error e, w)
  | .ok key =>
      match s.backend with
      | .s3 => (.ok (), w.write (.object s.bucket key) none)
      | .disk =>
          if s.hasNull (s.artifactPath key) then (.error (.valueError "embedded null byte"), w)
          else (.ok (), w.write (.file (s.locatePath (s.artifactPath key))) none)

/-- What is read of the descriptor of an artifact. -/
structure Descriptor (F : Type) where
  stage : Option (Json.Value F)
  storageRef : Option (Json.Value F)
  itemCount : Option (Json.Value F)

def isDict : Json.Value F → Bool
  | .dict _ => true
  | _ => false

/-- `_load_artifact`; `isLength` is the comparison of an item count with a length. -/
def loadArtifact (isLength : Option (Json.Value F) → ℕ → Bool) (descriptor : Descriptor F)
    (identity : Identity) (expectedStage : List Char) (w : World) :
    Except StoreError (List (Json.Value F)) :=
  match descriptor.stage with
  | some (.string stage) =>
      if stage ≠ expectedStage then .error (.valueError "Unexpected ingestion artifact stage")
      else
        match descriptor.storageRef with
        | some (.string reference) => do
            let expected ← s.reference identity expectedStage
            if reference ≠ expected then
              .error (.valueError "Ingestion artifact identity mismatch")
            else
              match ← getJson fl gz special s reference w with
              | .list payload =>
                  if ¬ isLength descriptor.itemCount payload.length then
                    .error (.valueError "Ingestion artifact shape mismatch")
                  else if ¬ payload.all isDict then
                    .error (.valueError "Invalid ingestion artifact record")
                  else return payload
              | _ => .error (.valueError "Ingestion artifact shape mismatch")
        | _ => .error (.valueError "Ingestion artifact identity mismatch")
  | _ => .error (.valueError "Unexpected ingestion artifact stage")

end Operations

end Ally.ArtifactStore
