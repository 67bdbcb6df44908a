import Ally.ChunkIdentity
import Ally.OrderedDict
import Ally.Paths
import Mathlib.Data.Bool.AllAny

/-!
# Extraction routes

Which extractors the activities call for an upload, and what the pages are. The code decides
by the filename of the upload or by the suffix of the path that it works on, which for an S3
object is the name of a temporary file.
-/

namespace Ally.ExtractionRoutes

open Paths

/-- `ALLOWED_UPLOAD_EXTENSIONS`. -/
def allowedUploadExtensions : List (List Char) :=
  [".pdf", ".docx", ".txt", ".png", ".jpg", ".jpeg", ".tiff"].map String.toList

/-- A name that `UploadUseCase.execute` goes on with. -/
structure SafeFilename where
  name : List Char
  slash : '/' ∉ name
  allowed : lower (splitExt name) ∈ allowedUploadExtensions

/-- The check of the filename in `UploadUseCase.execute`. -/
def safeFilename (filename : List Char) : Option SafeFilename :=
  if h : lower (splitExt (basename filename)) ∈ allowedUploadExtensions then
    some ⟨basename filename, notMem_basename filename, h⟩
  else none

def SafeFilename.extension (f : SafeFilename) : List Char := lower (splitExt f.name)

inductive ExtractError
  | importError
  | runtimeError (message : String)
  | other (message : String)
  deriving DecidableEq, Repr

/-- What is stored of an upload: its bytes, and the type that its name declares. -/
structure Document where
  bytes : List UInt8
  fileType : List Char
  deriving DecidableEq

/-- An element of `partition`: `metadata.page_number` and `str(el)`. -/
structure Element where
  pageNumber : Option ℤ
  text : List Char
  deriving DecidableEq

/-- A block of Textract. -/
structure Block where
  blockType : String
  page : Option ℤ
  text : Option (List Char)
  deriving DecidableEq

structure Page where
  pageNumber : ℤ
  text : List Char
  category : String
  deriving DecidableEq, Repr

/-- The third-party extractors, which see the document and not the name of its file. -/
structure Extractors where
  /-- `_pdf_has_text_layer`. -/
  hasTextLayer : Document → Bool
  /-- The import and the call of `partition`. -/
  partition : Document → Except ExtractError (List Element)
  /-- The texts of the pages of `PdfReader`. -/
  pypdf : Document → Except ExtractError (List (List Char))
  analyzeDocument : Document → Except ExtractError (List Block)
  /-- A job of `start_document_analysis`, through all result pages. -/
  documentAnalysis : Document → Except ExtractError (List Block)
  /-- `TEXTRACT_S3_BUCKET` is set. -/
  textractBucket : Bool

inductive Call
  | hasTextLayer
  | partition
  | pypdf
  | analyzeDocument
  | startDocumentAnalysis (s3Key : List Char)
  deriving DecidableEq, Repr

/-- A step of the route: the call without the name of the object it is given. -/
inductive Route
  | hasTextLayer | partition | pypdf | syncTextract | asyncTextract
  deriving DecidableEq, Repr

def Call.route : Call → Route
  | .hasTextLayer => .hasTextLayer
  | .partition => .partition
  | .pypdf => .pypdf
  | .analyzeDocument => .syncTextract
  | .startDocumentAnalysis _ => .asyncTextract

/-- The file that an activity works on. -/
structure Source where
  path : List Char
  document : Document

abbrev Extraction := List Call × Except ExtractError (List Page)

inductive DocumentType
  | native | scanned
  deriving DecidableEq, Repr

def isImage (ext : List Char) : Bool := ext ∈ [".png", ".jpg", ".jpeg"].map String.toList

/-- `detect_document_type`. -/
def detectDocumentType (x : Extractors) (s : Source) (filename : List Char) :
    List Call × DocumentType :=
  let ext := lower (splitExt filename)
  if ext = ".pdf".toList then
    ([.hasTextLayer], if x.hasTextLayer s.document then .native else .scanned)
  else if isImage ext ∨ ext = ".tiff".toList then ([], .scanned)
  else ([], .native)

/-- `pages.setdefault(page_number, []).append(text)`. -/
def addText (pageNumber : ℤ) (text : List Char) (pages : OrderedDict ℤ (List (List Char))) :
    OrderedDict ℤ (List (List Char)) :=
  pages.set pageNumber ((pages.get? pageNumber).getD [] ++ [text])

/-- The loop over the elements, with `last_known_page`. -/
def groupElements : List Element → ℤ → OrderedDict ℤ (List (List Char)) →
    OrderedDict ℤ (List (List Char))
  | [], _, pages => pages
  | el :: els, lastKnownPage, pages =>
      let pageNumber := el.pageNumber.getD lastKnownPage
      let text := Text.strip el.text
      groupElements els pageNumber (if text = [] then pages else addText pageNumber text pages)

/-- `sorted(pages.items())`, joined page by page. -/
def toPages (separator : List Char) (pages : OrderedDict ℤ (List (List Char))) : List Page :=
  (pages.insertionSort fun a b => a.1 ≤ b.1).map fun e =>
    ⟨e.1, separator.intercalate e.2, "Text"⟩

/-- `extract_pdf`. -/
def pdfPages (texts : List (List Char)) : List Page :=
  (texts.mapIdx fun i text => (⟨i + 1, Text.strip text, "Text"⟩ : Page)).filter (·.text ≠ [])

/-- `_extract_with_unstructured`. -/
def extractWithUnstructured (x : Extractors) (s : Source) : Extraction :=
  match x.partition s.document with
  | .ok elements => ([.partition], .ok (toPages "\n\n".toList (groupElements elements 1 [])))
  | .error .importError =>
      if lower (splitExt s.path) ≠ ".pdf".toList then ([.partition], .error .importError)
      else ([.partition, .pypdf], (x.pypdf s.document).map pdfPages)
  | .error e => ([.partition], .error e)

/-- `_blocks_to_pages`. -/
def blocksToPages (blocks : List Block) : List Page :=
  toPages ['\n'] ((blocks.filter (·.blockType = "LINE")).foldl
    (fun pages block => addText (block.page.getD 1) (block.text.getD []) pages) [])

/-- `_run_async_textract`. -/
def runAsyncTextract (x : Extractors) (s : Source) (jobKey : List Char) :
    List Call × Except ExtractError (List Block) :=
  if x.textractBucket then
    ([.startDocumentAnalysis ("textract-input/".toList ++ jobKey ++ splitExt s.path)],
      x.documentAnalysis s.document)
  else
    ([], .error (.runtimeError ("TEXTRACT_S3_BUCKET must be set to OCR multi-page documents " ++
      "(Textract's async API requires an S3 source, not inline bytes)")))

/-- `_extract_with_textract`. -/
def extractWithTextract (x : Extractors) (s : Source) (jobKey : List Char) : Extraction :=
  let blocks :=
    if isImage (lower (splitExt s.path)) then
      ([.analyzeDocument], x.analyzeDocument s.document)
    else runAsyncTextract x s jobKey
  (blocks.1, blocks.2.map blocksToPages)

/-- The two extraction stages of the workflow. -/
def extract (x : Extractors) (s : Source) (filename jobKey : List Char) : Extraction :=
  let detected := detectDocumentType x s filename
  let extracted :=
    match detected.2 with
    | .scanned => extractWithTextract x s jobKey
    | .native => extractWithUnstructured x s
  (detected.1 ++ extracted.1, extracted.2)

/-! ### The two backends -/

structure Upload where
  filename : SafeFilename
  bytes : List UInt8
  documentId : Uuid
  versionId : Uuid

def Upload.document (u : Upload) : Document := ⟨u.bytes, u.filename.extension⟩

/-- The random part of the name of a temporary file. -/
structure TempName where
  chars : List Char
  alphabet : ∀ c ∈ chars, c ∈ "abcdefghijklmnopqrstuvwxyz0123456789_".toList

/-- The file that `LocalUploadStorage` has written, at the path that it returns. -/
def localSource (uploadDir : Directory) (u : Upload) : Source where
  path := uploadDir.text ++ (Uuid.chars u.documentId ++ '_' :: (Uuid.chars u.versionId ++ ['_']) ++
    u.filename.name)
  document := u.document

/-- The file that `_materialized_source` makes for an S3 reference. -/
def s3Source (tempDir : Directory) (temp : TempName) (u : Upload) : Source where
  path := tempDir.text ++ ("ally-ingestion-".toList ++ temp.chars)
  document := u.document

def process (x : Extractors) (s : Source) (u : Upload) (jobKey : List Char) : Extraction :=
  extract x s u.filename.name jobKey

/-- Both extractions take the same route to the same pages. -/
def Agree (a b : Extraction) : Prop := a.1.map Call.route = b.1.map Call.route ∧ a.2 = b.2

/-! ### Where the backends agree -/

variable {x : Extractors} {u : Upload}

theorem SafeFilename.splitExt_ne_nil (f : SafeFilename) : splitExt f.name ≠ [] := by
  intro h
  have hallowed := f.allowed
  rw [h] at hallowed
  revert hallowed
  decide

theorem localSource_extension (uploadDir : Directory) (u : Upload) :
    lower (splitExt (localSource uploadDir u).path) = u.filename.extension := by
  have hslash : ∀ id : Uuid, '/' ∉ Uuid.chars id := by
    intro id h
    exact absurd (Uuid.alphabet '/' h) (by decide)
  rw [localSource, splitExt_append _ u.filename.slash u.filename.splitExt_ne_nil,
    SafeFilename.extension]
  simp [hslash]

theorem s3Source_extension (tempDir : Directory) (temp : TempName) (u : Upload) :
    lower (splitExt (s3Source tempDir temp u).path) = [] := by
  have hname : ∀ c ∈ ['/', '.'], c ∉ "ally-ingestion-".toList ++ temp.chars := by
    intro c hc hmem
    have hfixed : ∀ c ∈ ['/', '.'], c ∉ "ally-ingestion-".toList :=
      List.all_iff_forall_prop.mp (by decide)
    have halphabet : ∀ c ∈ ['/', '.'], c ∉ "abcdefghijklmnopqrstuvwxyz0123456789_".toList :=
      List.all_iff_forall_prop.mp (by decide)
    rcases List.mem_append.mp hmem with hmem | hmem
    · exact hfixed c hc hmem
    · exact halphabet c hc (temp.alphabet c hmem)
  rw [s3Source, splitExt_eq_nil (hname '/' (by decide)) (hname '.' (by decide))]
  rfl

theorem detected_of_pdf {s : Source} {filename : List Char}
    (h : lower (splitExt filename) = ".pdf".toList) :
    detectDocumentType x s filename =
      ([.hasTextLayer], if x.hasTextLayer s.document then .native else .scanned) := by
  rw [detectDocumentType, h, if_pos rfl]

theorem detected_of_ne_pdf {s : Source} {filename : List Char}
    (h : lower (splitExt filename) ≠ ".pdf".toList) :
    detectDocumentType x s filename =
      ([], if isImage (lower (splitExt filename)) ∨ lower (splitExt filename) = ".tiff".toList
        then .scanned else .native) := by
  simp only [detectDocumentType, if_neg h]
  split_ifs <;> rfl

/-- Without a suffix in play Textract runs its asynchronous route. -/
theorem extractWithTextract_of_not_image {s : Source} {jobKey : List Char}
    (h : isImage (lower (splitExt s.path)) = false) :
    extractWithTextract x s jobKey =
      ((runAsyncTextract x s jobKey).1, (runAsyncTextract x s jobKey).2.map blocksToPages) := by
  simp [extractWithTextract, h]

theorem runAsyncTextract_agree (x : Extractors) {a b : Source} (jobKey : List Char)
    (h : a.document = b.document) :
    (runAsyncTextract x a jobKey).1.map Call.route = (runAsyncTextract x b jobKey).1.map Call.route ∧
      (runAsyncTextract x a jobKey).2 = (runAsyncTextract x b jobKey).2 := by
  unfold runAsyncTextract
  by_cases hbucket : x.textractBucket = true
  · rw [if_pos hbucket, if_pos hbucket, h]
    exact ⟨rfl, rfl⟩
  · rw [if_neg hbucket, if_neg hbucket]
    exact ⟨rfl, rfl⟩

/-- The suffix of the path does not decide anything for this upload. -/
structure SuffixFree (x : Extractors) (u : Upload) : Prop where
  image : isImage u.filename.extension = false
  pdf : ¬ (u.filename.extension = ".pdf".toList ∧ x.hasTextLayer u.document = true ∧
    x.partition u.document = .error .importError)

theorem Upload.extension_cases (u : Upload) :
    u.filename.extension = ".pdf".toList ∨ isImage u.filename.extension = true ∨
      u.filename.extension ∈ [".docx", ".txt", ".tiff"].map String.toList := by
  have h : ∀ e ∈ allowedUploadExtensions, e = ".pdf".toList ∨ isImage e = true ∨
      e ∈ [".docx", ".txt", ".tiff"].map String.toList := by decide
  exact h _ u.filename.allowed

section Backends

variable {jobKey : List Char} {a b : Source}

theorem extract_scanned {s : Source} {filename : List Char}
    (h : (detectDocumentType x s filename).2 = .scanned) :
    extract x s filename jobKey = ((detectDocumentType x s filename).1 ++
      (extractWithTextract x s jobKey).1, (extractWithTextract x s jobKey).2) := by
  simp only [extract, h]

theorem extract_native {s : Source} {filename : List Char}
    (h : (detectDocumentType x s filename).2 = .native) :
    extract x s filename jobKey = ((detectDocumentType x s filename).1 ++
      (extractWithUnstructured x s).1, (extractWithUnstructured x s).2) := by
  simp only [extract, h]

theorem detected_agree (h : a.document = b.document) (filename : List Char) :
    detectDocumentType x a filename = detectDocumentType x b filename := by
  simp only [detectDocumentType, h]

/-- Two files of one document that are not taken for images. -/
theorem agree_scanned (h : a.document = b.document) {filename : List Char}
    (hscanned : (detectDocumentType x b filename).2 = .scanned)
    (ha : isImage (lower (splitExt a.path)) = false)
    (hb : isImage (lower (splitExt b.path)) = false) :
    Agree (extract x a filename jobKey) (extract x b filename jobKey) := by
  obtain ⟨hroute, hblocks⟩ := runAsyncTextract_agree x jobKey h
  have hdetect := detected_agree (x := x) h filename
  rw [extract_scanned hscanned, extract_scanned (hdetect ▸ hscanned),
    extractWithTextract_of_not_image ha, extractWithTextract_of_not_image hb]
  refine ⟨?_, ?_⟩
  · simp only [List.map_append, hdetect, hroute]
  · simp only [hblocks]

theorem extractWithUnstructured_importError {s : Source}
    (h : x.partition s.document = .error .importError)
    (hpath : lower (splitExt s.path) ≠ ".pdf".toList) :
    extractWithUnstructured x s = ([.partition], .error .importError) := by
  simp only [extractWithUnstructured, h, if_pos hpath]

theorem extractWithUnstructured_pypdf {s : Source}
    (h : x.partition s.document = .error .importError)
    (hpath : lower (splitExt s.path) = ".pdf".toList) :
    extractWithUnstructured x s = ([.partition, .pypdf], (x.pypdf s.document).map pdfPages) := by
  have hnot : ¬ lower (splitExt s.path) ≠ ".pdf".toList := not_not.mpr hpath
  simp only [extractWithUnstructured, h, if_neg hnot]

/-- The pypdf fallback is the one place where partitioning looks at the path. -/
theorem extractWithUnstructured_agree (h : a.document = b.document)
    (hpath : x.partition b.document ≠ .error .importError ∨
      (lower (splitExt a.path) ≠ ".pdf".toList ∧ lower (splitExt b.path) ≠ ".pdf".toList)) :
    extractWithUnstructured x a = extractWithUnstructured x b := by
  cases hpartition : x.partition b.document with
  | ok elements => simp only [extractWithUnstructured, h, hpartition]
  | error e =>
      cases e with
      | importError =>
          rcases hpath with hne | ⟨ha, hb⟩
          · exact absurd hpartition hne
          · rw [extractWithUnstructured_importError (h ▸ hpartition) ha,
              extractWithUnstructured_importError hpartition hb]
      | runtimeError message => simp only [extractWithUnstructured, h, hpartition]
      | other message => simp only [extractWithUnstructured, h, hpartition]

theorem agree_native (h : a.document = b.document) {filename : List Char}
    (hnative : (detectDocumentType x b filename).2 = .native)
    (hpath : x.partition b.document ≠ .error .importError ∨
      (lower (splitExt a.path) ≠ ".pdf".toList ∧ lower (splitExt b.path) ≠ ".pdf".toList)) :
    Agree (extract x a filename jobKey) (extract x b filename jobKey) := by
  have hdetect := detected_agree (x := x) h filename
  rw [extract_native hnative, extract_native (hdetect ▸ hnative), hdetect,
    extractWithUnstructured_agree h hpath]
  exact ⟨rfl, rfl⟩

end Backends

/-- Going through S3 changes neither the route nor the pages exactly when the upload is no
image for the synchronous Textract and no native PDF that needs the pypdf fallback. -/
theorem backends_agree_iff (x : Extractors) (u : Upload) (uploadDir tempDir : Directory)
    (temp : TempName) (jobKey : List Char) :
    Agree (process x (localSource uploadDir u) u jobKey) (process x (s3Source tempDir temp u) u jobKey) ↔
      SuffixFree x u := by
  have hlocal := localSource_extension uploadDir u
  have hs3 := s3Source_extension tempDir temp u
  have hdocument : (localSource uploadDir u).document = (s3Source tempDir temp u).document := rfl
  have hs3image : isImage (lower (splitExt (s3Source tempDir temp u).path)) = false := by
    rw [hs3]
    decide
  have hs3pdf : lower (splitExt (s3Source tempDir temp u).path) ≠ ".pdf".toList := by
    rw [hs3]
    decide
  constructor
  · intro h
    constructor
    · -- an image takes the synchronous route from the local path only
      by_contra himage
      have himage : isImage u.filename.extension = true := by simpa using himage
      have hpdf : u.filename.extension ≠ ".pdf".toList := by
        intro heq
        rw [heq] at himage
        revert himage
        decide
      have hdetect : ∀ s, detectDocumentType x s u.filename.name = ([], .scanned) := by
        intro s
        rw [detected_of_ne_pdf hpdf, if_pos (.inl himage)]
      have hroute := h.1
      rw [process, process, extract_scanned (by rw [hdetect]), extract_scanned (by rw [hdetect]),
        hdetect, hdetect, extractWithTextract_of_not_image hs3image] at hroute
      simp only [extractWithTextract, hlocal, himage, if_true, runAsyncTextract] at hroute
      by_cases hbucket : x.textractBucket = true
      · simp [hbucket, Call.route] at hroute
      · simp [hbucket, Call.route] at hroute
    · rintro ⟨hpdf, hlayer, himport⟩
      have hdetect : ∀ s, s.document = u.document →
          detectDocumentType x s u.filename.name = ([.hasTextLayer], .native) := by
        intro s hs
        rw [detected_of_pdf hpdf, hs, if_pos hlayer]
      have hroute := h.1
      rw [process, process, extract_native (by rw [hdetect _ rfl]),
        extract_native (by rw [hdetect _ rfl]), hdetect _ rfl, hdetect _ rfl] at hroute
      rw [extractWithUnstructured_pypdf himport (by rw [hlocal, hpdf]),
        extractWithUnstructured_importError himport hs3pdf] at hroute
      simp [Call.route] at hroute
  · intro h
    rcases u.extension_cases with hpdf | himage | hother
    · by_cases hlayer : x.hasTextLayer u.document = true
      · have hnative : (detectDocumentType x (s3Source tempDir temp u) u.filename.name).2 =
            .native := by
          rw [detected_of_pdf hpdf]
          exact if_pos hlayer
        exact agree_native hdocument hnative (.inl fun himport => h.pdf ⟨hpdf, hlayer, himport⟩)
      · have hscanned : (detectDocumentType x (s3Source tempDir temp u) u.filename.name).2 =
            .scanned := by
          rw [detected_of_pdf hpdf]
          exact if_neg hlayer
        exact agree_scanned hdocument hscanned (by rw [hlocal, h.image]) hs3image
    · rw [h.image] at himage
      cases himage
    · have hpdf : u.filename.extension ≠ ".pdf".toList := by
        intro heq
        rw [heq] at hother
        revert hother
        decide
      have hdetect := detected_of_ne_pdf (x := x) (s := s3Source tempDir temp u) hpdf
      by_cases hscan : isImage u.filename.extension ∨ u.filename.extension = ".tiff".toList
      · refine agree_scanned hdocument ?_ (by rw [hlocal, h.image]) hs3image
        rw [hdetect]
        exact if_pos hscan
      · refine agree_native hdocument ?_ (.inr ⟨by rw [hlocal]; exact hpdf, hs3pdf⟩)
        rw [hdetect]
        exact if_neg hscan

/-- A photograph takes the synchronous route from the local path and the asynchronous one
from S3, and a native PDF is read by pypdf from the local path only. -/
theorem backends_agree_iff_scanPng :
    ¬ Agree
      (process ⟨fun _ => false, fun _ => .ok [], fun _ => .ok [], fun _ => .ok [], fun _ => .ok [],
          true⟩
        (localSource ⟨"data/".toList, .inr ⟨"data".toList, rfl⟩⟩
          ⟨⟨"scan.png".toList, by decide, by decide⟩, [137, 80], 1, 2⟩)
        ⟨⟨"scan.png".toList, by decide, by decide⟩, [137, 80], 1, 2⟩ "token".toList)
      (process ⟨fun _ => false, fun _ => .ok [], fun _ => .ok [], fun _ => .ok [], fun _ => .ok [],
          true⟩
        (s3Source ⟨"/tmp/".toList, .inr ⟨"/tmp".toList, rfl⟩⟩
          ⟨"a1b2c3d_".toList, List.all_iff_forall_prop.mp (by decide)⟩
          ⟨⟨"scan.png".toList, by decide, by decide⟩, [137, 80], 1, 2⟩)
        ⟨⟨"scan.png".toList, by decide, by decide⟩, [137, 80], 1, 2⟩ "token".toList) ∧
    ¬ Agree
      (process ⟨fun _ => true, fun _ => .error .importError, fun _ => .ok ["text".toList],
          fun _ => .ok [], fun _ => .ok [], true⟩
        (localSource ⟨"data/".toList, .inr ⟨"data".toList, rfl⟩⟩
          ⟨⟨"a.pdf".toList, by decide, by decide⟩, [37, 80], 1, 2⟩)
        ⟨⟨"a.pdf".toList, by decide, by decide⟩, [37, 80], 1, 2⟩ "token".toList)
      (process ⟨fun _ => true, fun _ => .error .importError, fun _ => .ok ["text".toList],
          fun _ => .ok [], fun _ => .ok [], true⟩
        (s3Source ⟨"/tmp/".toList, .inr ⟨"/tmp".toList, rfl⟩⟩
          ⟨"a1b2c3d_".toList, List.all_iff_forall_prop.mp (by decide)⟩
          ⟨⟨"a.pdf".toList, by decide, by decide⟩, [37, 80], 1, 2⟩)
        ⟨⟨"a.pdf".toList, by decide, by decide⟩, [37, 80], 1, 2⟩ "token".toList) := by
  constructor
  · intro h
    have hroute := h.1
    revert hroute
    decide +kernel
  · intro h
    have hroute := h.1
    revert hroute
    decide +kernel

end Ally.ExtractionRoutes
