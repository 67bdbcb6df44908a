import Ally.ArtifactAddress
import Ally.ExtractionRoutes

/-!
# References of uploads

Where the two storages put an upload, the reference that `S3UploadStorage.save` returns, and
the decoders of references.
-/

namespace Ally.UploadReferences

open ArtifactStore (IsBucketName urlsplit_object)
open ExtractionRoutes (SafeFilename)
open Paths Urls

/-- The bucket of an `S3UploadStorage`. -/
structure Bucket where
  name : List Char
  valid : IsBucketName name

abbrev Objects := List Char → List Char → Option (List UInt8)

/-- An object is replaced, or removed. -/
def Objects.put (objects : Objects) (bucket key : List Char) (content : Option (List UInt8)) :
    Objects :=
  fun b k => if b = bucket ∧ k = key then content else objects b k

structure StoredUpload where
  storageRef : List Char
  sizeBytes : ℕ
  contentSha256 : String
  deriving DecidableEq

inductive UploadError
  | uploadFailure (statusCode : ℕ) (detail : String)
  /-- An error of the S3 client. -/
  | client
  deriving DecidableEq

/-- `LocalUploadStorage.destination`. -/
def localDestination (uploadDir : PurePath) (documentId versionId filename : List Char) :
    List Char :=
  (uploadDir.join (.parse (documentId ++ '_' :: versionId ++ '_' :: filename))).text

/-- `S3UploadStorage.destination`. -/
def s3Destination (tenantId documentId versionId filename : List Char) : List Char :=
  "tenants/".toList ++ tenantId ++ "/documents/".toList ++ documentId ++ "/versions/".toList ++
    versionId ++ '/' :: filename

/-- The loop over the chunks that `source.read` gives. -/
def spool (maxBytes : ℕ) : List (List UInt8) → List UInt8 → Except UploadError (List UInt8)
  | [], bytes => .ok bytes
  | chunk :: chunks, bytes =>
      if chunk = [] then .ok bytes
      else if maxBytes < bytes.length + chunk.length then
        .error (.uploadFailure 400 s!"File exceeds the {maxBytes} byte upload limit")
      else spool maxBytes chunks (bytes ++ chunk)

/-- `S3UploadStorage.save`, when it is not cancelled; `uploads` is whether the client uploads. -/
def s3Save (sha256 : List UInt8 → String) (bucket : Bucket) (uploads : Bool)
    (destination : List Char) (chunks : List (List UInt8)) (maxBytes : ℕ) (objects : Objects) :
    Except UploadError StoredUpload × Objects :=
  match spool maxBytes chunks [] with
  | .error e => (.error e, objects)
  | .ok bytes =>
      if uploads then
        (.ok ⟨"s3://".toList ++ bucket.name ++ '/' :: quote destination, bytes.length,
            sha256 bytes⟩,
          objects.put bucket.name destination (some bytes))
      else (.error .client, objects)

/-- `_parse_s3_ref`. -/
def parseS3Ref (special : List Char → Bool) (storageRef : List Char)
    (defaultBucket : Option (List Char)) : Except String (List Char × List Char) :=
  match urlsplit special storageRef with
  | none => .error "Invalid URL"
  | some parsed =>
      let (bucket, key) :=
        if parsed.scheme = "s3".toList then
          (parsed.netloc, unquote (parsed.path.dropWhile (· = '/')))
        else (defaultBucket.getD [], storageRef)
      if bucket = [] ∨ key = [] ∨ ['.', '.'] ∈ key.splitOn '/' then
        .error "Invalid S3 object reference"
      else .ok (bucket, key)

/-- `S3UploadStorage.delete_if_exists`. -/
def deleteIfExists (special : List Char → Bool) (bucket : Bucket) (storageRef : List Char)
    (objects : Objects) : Except String Objects := do
  let (b, key) ← parseS3Ref special storageRef (some bucket.name)
  return objects.put b key none

/-- What `_materialized_source` works on. -/
inductive Source
  /-- A download of this object. -/
  | object (bucket key : List Char)
  | path (path : List Char)
  deriving DecidableEq

/-- The front of `_materialized_source`. -/
def materializedSource (special : List Char → Bool) (storageRef : List Char) :
    Except String Source :=
  match urlsplit special storageRef with
  | none => .error "Invalid URL"
  | some parsed =>
      if parsed.scheme ≠ "s3".toList then
        .ok (.path (if parsed.scheme = "file".toList then unquote parsed.path else storageRef))
      else
        let key := unquote (parsed.path.dropWhile (· = '/'))
        if parsed.netloc = [] ∨ key = [] ∨ ['.', '.'] ∈ key.splitOn '/' then
          .error "Invalid ingestion object reference"
        else .ok (.object parsed.netloc key)

/-- An upload that `UploadUseCase.execute` stores; `versionId` is what `make_id` gave. -/
structure Request where
  tenantId : List Char
  filename : SafeFilename
  versionId : Uuid

namespace Request

variable (uuid5 : List Char → Uuid) (r : Request)

/-- The name of the document, of which `uuid5` makes its id. -/
def documentName : List Char :=
  "ally-document:".toList ++ r.tenantId ++ ':' :: r.filename.name

def documentId : Uuid := uuid5 r.documentName

def s3Destination : List Char :=
  UploadReferences.s3Destination r.tenantId (Uuid.chars (r.documentId uuid5))
    (Uuid.chars r.versionId) r.filename.name

def localDestination (uploadDir : PurePath) : List Char :=
  UploadReferences.localDestination uploadDir (Uuid.chars (r.documentId uuid5))
    (Uuid.chars r.versionId) r.filename.name

end Request

/-! ### Destinations -/

variable {uuid5 : List Char → Uuid} {r r' : Request}

theorem slash_notMem_uuid (u : Uuid) : '/' ∉ Uuid.chars u := fun h =>
  absurd (Uuid.alphabet '/' h) (by decide)

/-- The components of a destination. -/
def Request.parts (uuid5 : List Char → Uuid) (r : Request) : List (List Char) :=
  ["tenants".toList, r.tenantId, "documents".toList, Uuid.chars (r.documentId uuid5),
    "versions".toList, Uuid.chars r.versionId, r.filename.name]

theorem s3Destination_eq (uuid5 : List Char → Uuid) (r : Request) :
    r.s3Destination uuid5 = ['/'].intercalate (r.parts uuid5) := by
  have htenants : "tenants/".toList = "tenants".toList ++ ['/'] := by simp
  have hdocuments : "/documents/".toList = ['/'] ++ ("documents".toList ++ ['/']) := by simp
  have hversions : "/versions/".toList = ['/'] ++ ("versions".toList ++ ['/']) := by simp
  unfold Request.s3Destination UploadReferences.s3Destination Request.parts
  generalize r.filename.name = filename
  simp only [htenants, hdocuments, hversions, List.intercalate_cons_cons,
    List.intercalate_singleton, List.append_assoc, List.cons_append, List.nil_append]

theorem splitOn_destination (h : '/' ∉ r.tenantId) :
    (r.s3Destination uuid5).splitOn '/' = r.parts uuid5 := by
  have hne : r.parts uuid5 ≠ [] := List.cons_ne_nil _ _
  have hfixed : '/' ∉ "tenants".toList ∧ '/' ∉ "documents".toList ∧ '/' ∉ "versions".toList := by
    decide
  rw [s3Destination_eq]
  refine List.splitOn_intercalate '/' (fun part hpart => ?_) hne
  simp only [Request.parts, List.mem_cons, List.not_mem_nil, or_false] at hpart
  rcases hpart with rfl | rfl | rfl | rfl | rfl | rfl | rfl
  · exact hfixed.1
  · exact h
  · exact hfixed.2.1
  · exact slash_notMem_uuid _
  · exact hfixed.2.2
  · exact slash_notMem_uuid _
  · exact r.filename.slash

theorem Request.ext_parts (ht : r.tenantId = r'.tenantId)
    (hf : r.filename.name = r'.filename.name) (hv : Uuid.chars r.versionId = Uuid.chars r'.versionId) :
    r = r' := by
  obtain ⟨tenantId, ⟨name, _, _⟩, versionId⟩ := r
  obtain ⟨tenantId', ⟨name', _, _⟩, versionId'⟩ := r'
  obtain rfl : tenantId = tenantId' := ht
  obtain rfl : name = name' := hf
  obtain rfl := Uuid.chars_inj hv
  rfl

theorem s3Destination_inj (h : '/' ∉ r.tenantId) (h' : '/' ∉ r'.tenantId)
    (heq : r.s3Destination uuid5 = r'.s3Destination uuid5) : r = r' := by
  have hsplit := congrArg (List.splitOn '/') heq
  rw [splitOn_destination h, splitOn_destination h'] at hsplit
  simp only [Request.parts, List.cons.injEq, true_and, and_true] at hsplit
  exact Request.ext_parts hsplit.1 hsplit.2.2.2 hsplit.2.2.1

/-- The name of a local file. -/
def Request.localName (uuid5 : List Char → Uuid) (r : Request) : List Char :=
  Uuid.chars (r.documentId uuid5) ++ '_' :: Uuid.chars r.versionId ++ '_' :: r.filename.name

theorem isName_localName (uuid5 : List Char → Uuid) (r : Request) : IsName (r.localName uuid5) := by
  have hlen : 2 < (r.localName uuid5).length := by
    simp only [Request.localName, List.length_append, List.length_cons, Uuid.chars_length]
    omega
  refine ⟨fun h => ?_, fun h => ?_, fun h => ?_, fun h => ?_⟩
  · rw [h] at hlen
    exact absurd hlen (by decide)
  · simp only [Request.localName, List.mem_append, List.mem_cons] at h
    rcases h with (h | h | h) | h | h
    · exact slash_notMem_uuid _ h
    · exact absurd h (by decide)
    · exact slash_notMem_uuid _ h
    · exact absurd h (by decide)
    · exact r.filename.slash h
  · rw [h] at hlen
    exact absurd hlen (by decide)
  · rw [h] at hlen
    exact absurd hlen (by decide)

theorem intercalate_concat_inj {sep a b : List Char} (parts : List (List Char))
    (h : sep.intercalate (parts ++ [a]) = sep.intercalate (parts ++ [b])) : a = b := by
  induction parts with
  | nil => simpa using h
  | cons part parts ih =>
      rw [List.cons_append, List.cons_append, List.intercalate_cons_of_ne_nil (by simp),
        List.intercalate_cons_of_ne_nil (by simp)] at h
      exact ih (List.append_cancel_left h)

/-- A file of the upload directory has one name. -/
theorem text_join_inj (uploadDir : PurePath) {a b : List Char} (ha : IsName a) (hb : IsName b)
    (h : (uploadDir.join (.parse a)).text = (uploadDir.join (.parse b)).text) : a = b := by
  rw [parse_name ha, parse_name hb] at h
  simp only [PurePath.join, PurePath.text, Bool.false_eq_true, if_false, List.append_eq_nil_iff,
    List.cons_ne_nil, and_false] at h
  split at h
  · exact intercalate_concat_inj _ (List.cons.inj h).2
  · exact intercalate_concat_inj _ h

theorem localDestination_inj (uploadDir : PurePath)
    (hash : uuid5 r.documentName = uuid5 r'.documentName → r.documentName = r'.documentName)
    (heq : r.localDestination uuid5 uploadDir = r'.localDestination uuid5 uploadDir) : r = r' := by
  have hname : r.localName uuid5 = r'.localName uuid5 :=
    text_join_inj uploadDir (isName_localName uuid5 r) (isName_localName uuid5 r') heq
  unfold Request.localName at hname
  rw [List.append_assoc, List.append_assoc] at hname
  obtain ⟨hdocument, hrest⟩ := List.append_inj hname (by
    rw [Uuid.chars_length, Uuid.chars_length])
  obtain ⟨hversion, hfilename⟩ := List.append_inj (List.cons.inj hrest).2 (by
    rw [Uuid.chars_length, Uuid.chars_length])
  have hf := (List.cons.inj hfilename).2
  have hdoc := hash (Uuid.chars_inj hdocument)
  unfold Request.documentName at hdoc
  rw [hf] at hdoc
  have ht := List.append_cancel_left (List.append_cancel_right hdoc)
  exact Request.ext_parts ht hf hversion

/-! ### Decoding -/

variable {special : List Char → Bool} {bucket : Bucket}

theorem destination_front (uuid5 : List Char → Uuid) (r : Request) :
    ∃ rest, r.s3Destination uuid5 = 't' :: ("enants".toList ++ '/' :: rest) := by
  have htenants : "tenants".toList = 't' :: "enants".toList := by decide
  rw [s3Destination_eq, Request.parts, List.intercalate_cons_cons, htenants, List.append_assoc]
  exact ⟨_, rfl⟩

theorem dots_mem_destination (h : '/' ∉ r.tenantId) :
    ['.', '.'] ∈ (r.s3Destination uuid5).splitOn '/' ↔ r.tenantId = ['.', '.'] := by
  have hfixed : ['.', '.'] ≠ "tenants".toList ∧ ['.', '.'] ≠ "documents".toList ∧
      ['.', '.'] ≠ "versions".toList := by decide
  have huuid : ∀ u : Uuid, ['.', '.'] ≠ Uuid.chars u := by
    intro u heq
    have hlen := Uuid.chars_length u
    rw [← heq] at hlen
    exact absurd hlen (by decide)
  have hname : ['.', '.'] ≠ r.filename.name := by
    intro heq
    refine r.filename.splitExt_ne_nil ?_
    rw [← heq]
    decide
  rw [splitOn_destination h]
  simp only [Request.parts, List.mem_cons, List.not_mem_nil, or_false, hfixed, huuid, hname, false_or]
  exact eq_comm

theorem urlsplit_destination (special : List Char → Bool) (uuid5 : List Char → Uuid) (r : Request) :
    ∃ parsed, urlsplit special (r.s3Destination uuid5) = some parsed ∧ parsed.scheme = [] := by
  obtain ⟨rest, hrest⟩ := destination_front uuid5 r
  have hfront : ∀ d ∈ 't' :: "enants".toList, ' ' < d ∧ d ≠ ':' :=
    List.all_iff_forall_prop.mp (by decide)
  rw [hrest]
  exact urlsplit_path special (by decide) hfront

/-- What `save` returns for a destination. -/
def storageRef (bucket : Bucket) (destination : List Char) : List Char :=
  "s3://".toList ++ bucket.name ++ '/' :: quote destination

/-- Each decoder finds the object that was uploaded. -/
structure Decodes (special : List Char → Bool) (bucket : Bucket) (destination storageRef : List Char) :
    Prop where
  materialized : materializedSource special storageRef = .ok (.object bucket.name destination)
  parsed : ∀ defaultBucket,
    parseS3Ref special storageRef defaultBucket = .ok (bucket.name, destination)
  deleted : ∀ objects ref, ref = destination ∨ ref = storageRef →
    deleteIfExists special bucket ref objects = .ok (objects.put bucket.name destination none)

section Decoding

variable {key : List Char}

theorem materializedSource_ref (special : List Char → Bool) (bucket : Bucket)
    (hhead : key.head? ≠ some '/') :
    materializedSource special (storageRef bucket key) =
      if bucket.name = [] ∨ key = [] ∨ ['.', '.'] ∈ key.splitOn '/' then
        .error "Invalid ingestion object reference"
      else .ok (.object bucket.name key) := by
  rw [materializedSource, storageRef, urlsplit_object special bucket.valid]
  dsimp only
  rw [if_neg (not_not.mpr rfl), unquote_lstrip hhead]

theorem parseS3Ref_ref (special : List Char → Bool) (bucket : Bucket)
    (hhead : key.head? ≠ some '/') (defaultBucket : Option (List Char)) :
    parseS3Ref special (storageRef bucket key) defaultBucket =
      if bucket.name = [] ∨ key = [] ∨ ['.', '.'] ∈ key.splitOn '/' then
        .error "Invalid S3 object reference"
      else .ok (bucket.name, key) := by
  rw [parseS3Ref, storageRef, urlsplit_object special bucket.valid]
  dsimp only
  rw [if_pos rfl, unquote_lstrip hhead]

/-- A text without a scheme is a key of the default bucket. -/
theorem parseS3Ref_raw {parsed : SplitResult} (hsplit : urlsplit special key = some parsed)
    (hscheme : parsed.scheme = []) (bucket : Bucket) :
    parseS3Ref special key (some bucket.name) =
      if bucket.name = [] ∨ key = [] ∨ ['.', '.'] ∈ key.splitOn '/' then
        .error "Invalid S3 object reference"
      else .ok (bucket.name, key) := by
  have hne : parsed.scheme ≠ "s3".toList := by
    rw [hscheme]
    decide
  rw [parseS3Ref, hsplit]
  dsimp only
  rw [if_neg hne]
  rfl

end Decoding

/-- The decoders find the object of an upload exactly when the tenant is not `..`. -/
theorem decodes_iff (special : List Char → Bool) (bucket : Bucket) (uuid5 : List Char → Uuid)
    (h : '/' ∉ r.tenantId) :
    Decodes special bucket (r.s3Destination uuid5) (storageRef bucket (r.s3Destination uuid5)) ↔
      r.tenantId ≠ ['.', '.'] := by
  obtain ⟨rest, hrest⟩ := destination_front uuid5 r
  have hhead : (r.s3Destination uuid5).head? ≠ some '/' := by
    rw [hrest]
    intro hslash
    exact absurd (Option.some.inj hslash) (by decide)
  have hmaterialized := materializedSource_ref special bucket hhead
  constructor
  · intro hdecodes htenant
    have hdots : ['.', '.'] ∈ (r.s3Destination uuid5).splitOn '/' :=
      (dots_mem_destination h).mpr htenant
    rw [hdecodes.materialized, if_pos (.inr (.inr hdots))] at hmaterialized
    cases hmaterialized
  · intro htenant
    have hvalid : ¬(bucket.name = [] ∨ r.s3Destination uuid5 = [] ∨
        ['.', '.'] ∈ (r.s3Destination uuid5).splitOn '/') := by
      rintro (hname | hnil | hdots)
      · exact bucket.valid.1 hname
      · rw [hnil] at hrest
        cases hrest
      · exact htenant ((dots_mem_destination h).mp hdots)
    have hparsed := parseS3Ref_ref special bucket hhead
    obtain ⟨parsed, hsplit, hscheme⟩ := urlsplit_destination special uuid5 r
    have hraw := parseS3Ref_raw hsplit hscheme bucket
    simp only [if_neg hvalid] at hmaterialized hparsed hraw
    refine ⟨hmaterialized, hparsed, fun objects ref href => ?_⟩
    unfold deleteIfExists
    rcases href with rfl | rfl
    · rw [hraw]
      rfl
    · rw [hparsed]
      rfl

/-- What `save` uploads and returns. -/
theorem s3Save_ok {sha256 : List UInt8 → String} {uploads : Bool} {destination : List Char}
    {chunks : List (List UInt8)} {maxBytes : ℕ} {objects objects' : Objects} {stored : StoredUpload}
    (h : s3Save sha256 bucket uploads destination chunks maxBytes objects = (.ok stored, objects')) :
    stored.storageRef = storageRef bucket destination ∧
      ∃ bytes, objects' = objects.put bucket.name destination (some bytes) := by
  unfold s3Save at h
  split at h
  · cases h
  next bytes _ =>
    split at h
    · obtain ⟨hstored, hobjects⟩ := Prod.mk.inj h
      obtain rfl := Except.ok.inj hstored
      exact ⟨rfl, bytes, hobjects.symm⟩
    · cases h

/-- The reference of an upload is decoded to the object that was uploaded, unless the tenant
is `..`, and no two uploads share a destination. -/
theorem upload_references (special : List Char → Bool) (bucket : Bucket)
    (uuid5 : List Char → Uuid) (uploadDir : PurePath) (r r' : Request) (hr : '/' ∉ r.tenantId)
    (hr' : '/' ∉ r'.tenantId)
    (hash : uuid5 r.documentName = uuid5 r'.documentName → r.documentName = r'.documentName) :
    (∀ sha256 uploads chunks maxBytes objects stored objects',
      s3Save sha256 bucket uploads (r.s3Destination uuid5) chunks maxBytes objects =
        (.ok stored, objects') →
      (∃ bytes, objects' = objects.put bucket.name (r.s3Destination uuid5) (some bytes)) ∧
        (Decodes special bucket (r.s3Destination uuid5) stored.storageRef ↔
          r.tenantId ≠ ['.', '.'])) ∧
    (r.s3Destination uuid5 = r'.s3Destination uuid5 → r = r') ∧
    (r.localDestination uuid5 uploadDir = r'.localDestination uuid5 uploadDir → r = r') := by
  refine ⟨fun sha256 uploads chunks maxBytes objects stored objects' h => ?_,
    s3Destination_inj hr hr', localDestination_inj uploadDir hash⟩
  obtain ⟨hstored, hbytes⟩ := s3Save_ok h
  rw [hstored]
  exact ⟨hbytes, decodes_iff special bucket uuid5 hr⟩

theorem upload_references_dotsTenant : ¬ ∀ (special : List Char → Bool) (bucket : Bucket)
    (uuid5 : List Char → Uuid) (r : Request), '/' ∉ r.tenantId →
    ∀ sha256 uploads chunks maxBytes objects stored objects',
      s3Save sha256 bucket uploads (r.s3Destination uuid5) chunks maxBytes objects =
        (.ok stored, objects') →
      Decodes special bucket (r.s3Destination uuid5) stored.storageRef := by
  intro h
  let bucket : Bucket := ⟨"ally-ingestion".toList, by decide, List.all_iff_forall_prop.mp (by decide)⟩
  let r : Request := ⟨"..".toList, ⟨"a.pdf".toList, by decide, by decide⟩, 7⟩
  have htenant : '/' ∉ r.tenantId := by decide
  have hdecodes := h (fun _ => false) bucket (fun _ => 5) r htenant (fun _ => "") true [[37, 80]] 10
    (fun _ _ => none) _ _ rfl
  exact (decodes_iff (fun _ => false) bucket (fun _ => 5) htenant).mp hdecodes rfl

theorem upload_references_percent :
    let bucket : Bucket := ⟨"ally-ingestion".toList, by decide, List.all_iff_forall_prop.mp (by decide)⟩
    let uuid5 : List Char → Uuid := fun name =>
      if name = "ally-document:acme:50% a?#é.pdf".toList then 0xdd4bd676966a58bd94464affd1f969b4
      else 0x8d98e3a5955e5b61b31cf983153ceb4c
    let filename : SafeFilename := ⟨"50% a?#é.pdf".toList, by decide, by decide⟩
    let r : Request := ⟨"acme".toList, filename, 7⟩
    let r' : Request := ⟨"globex".toList, filename, 7⟩
    Decodes (fun _ => false) bucket (r.s3Destination uuid5)
        (storageRef bucket (r.s3Destination uuid5)) ∧
      r.localDestination uuid5 (.parse "uploads".toList) ≠
        r'.localDestination uuid5 (.parse "uploads".toList) := by
  intro bucket uuid5 filename r r'
  have htenant : '/' ∉ r.tenantId := by decide
  have htenant' : '/' ∉ r'.tenantId := by decide
  have hids : uuid5 r.documentName ≠ uuid5 r'.documentName := by decide
  have hne : r ≠ r' := fun h => absurd (congrArg Request.tenantId h) (by decide)
  obtain ⟨hsaved, -, hlocal⟩ := upload_references (fun _ => false) bucket uuid5
    (.parse "uploads".toList) r r' htenant htenant' (fun h => absurd h hids)
  have hdecodes := (hsaved (fun _ => "") true [[37, 80]] 10 (fun _ _ => none) _ _ rfl).2
  exact ⟨hdecodes.mpr (by decide), fun h => hne (hlocal h)⟩

end Ally.UploadReferences
