import Ally.ArtifactStore

/-!
# Addresses of artifacts

The keys of different identities and stages are different, a reference stands for the place
that was written, and no operation goes to the place of another artifact.
-/

namespace Ally.ArtifactStore

open Paths Urls

variable {identity : Identity} {stage k : List Char} {s : Store}

/-! ### Keys -/

/-- The components of a key. -/
def keyParts (tenantId documentId versionId stage : List Char) : List (List Char) :=
  ["tenants".toList, tenantId, "documents".toList, documentId, "versions".toList, versionId,
    "artifacts".toList, stage ++ ".json.gz".toList]

theorem key_eq_ok : key identity stage = .ok k ↔
    ∃ t d v, identity = ⟨some t, some d, some v⟩ ∧ stage ∈ stages ∧ validPart t = true ∧
      validPart d = true ∧ validPart v = true ∧ k = keyText t d v stage := by
  constructor
  · intro h
    unfold key at h
    split at h
    · cases h
    next hstage =>
      split at h
      next t d v =>
        split at h
        next hvalid =>
          simp only [Bool.and_eq_true] at hvalid
          exact ⟨t, d, v, rfl, not_not.mp hstage, hvalid.1.1, hvalid.1.2, hvalid.2,
            (Except.ok.inj h).symm⟩
        · cases h
      · cases h
  · rintro ⟨t, d, v, rfl, hstage, ht, hd, hv, rfl⟩
    simp [key, hstage, ht, hd, hv]

theorem isName_of_validPart {value : List Char} (h : validPart value = true) : IsName value := by
  simp only [validPart, Bool.and_eq_true, decide_eq_true_eq, List.mem_cons, List.not_mem_nil,
    or_false, not_or] at h
  exact ⟨h.1.1.1, h.1.1.2, h.2.1, h.2.2⟩

theorem isName_keyParts {t d v : List Char} (hstage : stage ∈ stages) (ht : validPart t = true)
    (hd : validPart d = true) (hv : validPart v = true) :
    ∀ part ∈ keyParts t d v stage, IsName part := by
  have hlast : ∀ stage ∈ stages, IsName (stage ++ ".json.gz".toList) := by decide
  have hfixed : IsName "tenants".toList ∧ IsName "documents".toList ∧ IsName "versions".toList ∧
      IsName "artifacts".toList := by decide
  obtain ⟨htenants, hdocuments, hversions, hartifacts⟩ := hfixed
  intro part hpart
  simp only [keyParts, List.mem_cons, List.not_mem_nil, or_false] at hpart
  rcases hpart with rfl | rfl | rfl | rfl | rfl | rfl | rfl | rfl
  · exact htenants
  · exact isName_of_validPart ht
  · exact hdocuments
  · exact isName_of_validPart hd
  · exact hversions
  · exact isName_of_validPart hv
  · exact hartifacts
  · exact hlast stage hstage

theorem keyText_eq (t d v stage : List Char) :
    keyText t d v stage = ['/'].intercalate (keyParts t d v stage) := by
  have htenants : "tenants/".toList = "tenants".toList ++ ['/'] := by simp
  have hdocuments : "/documents/".toList = ['/'] ++ ("documents".toList ++ ['/']) := by simp
  have hversions : "/versions/".toList = ['/'] ++ ("versions".toList ++ ['/']) := by simp
  have hartifacts : "/artifacts/".toList = ['/'] ++ ("artifacts".toList ++ ['/']) := by simp
  unfold keyText keyParts
  generalize ".json.gz".toList = suffix
  simp only [htenants, hdocuments, hversions, hartifacts, List.intercalate_cons_cons,
    List.intercalate_singleton, List.append_assoc]

/-- A key splits into its components. -/
theorem splitOn_keyText {t d v : List Char} (h : ∀ part ∈ keyParts t d v stage, IsName part) :
    (keyText t d v stage).splitOn '/' = keyParts t d v stage := by
  have hne : keyParts t d v stage ≠ [] := List.cons_ne_nil _ _
  rw [keyText_eq]
  exact List.splitOn_intercalate '/' (fun part hpart => (h part hpart).2.1) hne

theorem prefix_keyText (t d v stage : List Char) : "tenants/".toList <+: keyText t d v stage := by
  refine ⟨t ++ ("/documents/".toList ++ (d ++ ("/versions/".toList ++ (v ++
    ("/artifacts/".toList ++ (stage ++ ".json.gz".toList)))))), ?_⟩
  unfold keyText
  simp only [List.append_assoc]

/-- A key has the names of its components, and they give it back. -/
theorem names_of_key (h : key identity stage = .ok k) :
    (∀ part ∈ k.splitOn '/', IsName part) ∧ "tenants/".toList <+: k := by
  obtain ⟨t, d, v, -, hstage, ht, hd, hv, rfl⟩ := key_eq_ok.mp h
  have hnames := isName_keyParts hstage ht hd hv
  exact ⟨splitOn_keyText hnames ▸ hnames, prefix_keyText t d v stage⟩

theorem key_injective {identity' : Identity} {stage' : List Char} (h : key identity stage = .ok k)
    (h' : key identity' stage' = .ok k) : identity = identity' ∧ stage = stage' := by
  obtain ⟨t, d, v, rfl, hstage, ht, hd, hv, rfl⟩ := key_eq_ok.mp h
  obtain ⟨t', d', v', rfl, hstage', ht', hd', hv', htext⟩ := key_eq_ok.mp h'
  have hsplit := congrArg (List.splitOn '/') htext
  rw [splitOn_keyText (isName_keyParts hstage ht hd hv),
    splitOn_keyText (isName_keyParts hstage' ht' hd' hv')] at hsplit
  simp only [keyParts, List.cons.injEq, true_and, and_true, List.append_cancel_right_eq] at hsplit
  obtain ⟨rfl, rfl, rfl, rfl⟩ := hsplit
  exact ⟨rfl, rfl⟩

/-! ### Files -/

theorem isName_root (s : Store) : ∀ part ∈ s.root, IsName part := by
  refine isName_resolve s.cwdNames fun part hpart => ?_
  have hparse : PurePath.parse "artifacts".toList = ⟨false, ["artifacts".toList]⟩ :=
    parse_name (by decide)
  rw [Store.base, hparse] at hpart
  rcases List.mem_append.mp hpart with hpart | hpart
  · exact s.uploadNames part hpart
  · rw [List.mem_singleton.mp hpart]
    exact .inr (by decide)

theorem locatePath_append (s : Store) {names : List (List Char)}
    (h : ∀ part ∈ names, IsName part) :
    s.locatePath ⟨s.base.absolute, s.base.parts ++ names⟩ = s.root ++ names := by
  simp only [Store.locatePath, Store.root, PurePath.resolve, List.foldl_append]
  exact foldl_descend_names _ h

/-- The three ways to the file of a key end in one place. -/
theorem path_of_key (s : Store) (h : key identity stage = .ok k) :
    s.target k = s.artifactPath k ∧ s.locatePath (s.artifactPath k) = s.root ++ k.splitOn '/' := by
  obtain ⟨hnames, -⟩ := names_of_key h
  have htarget : s.target k = ⟨s.base.absolute, s.base.parts ++ k.splitOn '/'⟩ :=
    joinpath_names s.base hnames
  have hpath : s.artifactPath k = ⟨s.base.absolute, s.base.parts ++ k.splitOn '/'⟩ := by
    have hempty : PurePath.parse [] = ⟨false, []⟩ := by decide
    rw [Store.artifactPath, joinpath_names _ hnames, hempty]
    rfl
  exact ⟨htarget.trans hpath.symm, hpath ▸ locatePath_append s hnames⟩

theorem isName_location (s : Store) (h : key identity stage = .ok k) :
    ∀ part ∈ s.root ++ k.splitOn '/', IsName part := by
  intro part hpart
  rcases List.mem_append.mp hpart with hpart | hpart
  · exact isName_root s part hpart
  · exact (names_of_key h).1 part hpart

theorem location_injective {identity' : Identity} {stage' k' : List Char}
    (h : key identity stage = .ok k) (h' : key identity' stage' = .ok k')
    (hloc : s.location k = s.location k') : k = k' := by
  unfold Store.location at hloc
  cases hb : s.backend with
  | s3 =>
      rw [hb] at hloc
      exact (Location.object.inj hloc).2
  | disk =>
      rw [hb] at hloc
      have hfile := Location.file.inj hloc
      rw [(path_of_key s h).1, (path_of_key s h).2, (path_of_key s h').1, (path_of_key s h').2]
        at hfile
      exact splitOn_injective (List.append_cancel_left hfile)

/-! ### References -/

variable {r : List Char}

/-- The reference of the file with these components. -/
def fileUri (parts : List (List Char)) : List Char :=
  "file://".toList ++ quote (PurePath.text ⟨true, parts⟩)

theorem reference_cases (h : s.reference identity stage = .ok r) :
    ∃ k, key identity stage = .ok k ∧
      ((s.backend = .s3 ∧ r = "s3://".toList ++ s.bucket ++ '/' :: quote k) ∨
        (s.backend = .disk ∧ s.hasNull (s.artifactPath k) = false ∧
          r = fileUri (s.root ++ k.splitOn '/'))) := by
  unfold Store.reference at h
  cases hkey : key identity stage with
  | error e =>
      rw [hkey] at h
      cases h
  | ok k =>
      rw [hkey] at h
      refine ⟨k, rfl, ?_⟩
      dsimp only [bind, Except.bind] at h
      cases hb : s.backend with
      | s3 =>
          rw [if_pos hb] at h
          exact .inl ⟨rfl, (Except.ok.inj h).symm⟩
      | disk =>
          rw [if_neg (by rw [hb]; decide)] at h
          cases hnull : s.hasNull (s.artifactPath k) with
          | true =>
              rw [hnull, if_pos rfl] at h
              cases h
          | false =>
              rw [hnull, if_neg (by decide)] at h
              have hparts : (s.artifactPath k).resolve s.cwd = ⟨true, s.root ++ k.splitOn '/'⟩ :=
                congrArg (PurePath.mk true) (path_of_key s hkey).2
              rw [hparts] at h
              exact .inr ⟨rfl, rfl, (Except.ok.inj h).symm⟩

/-- A valid pair has a reference, unless the path of its file cannot be named. -/
theorem reference_isOk (s : Store) (h : key identity stage = .ok k) :
    (∃ r, s.reference identity stage = .ok r) ∨
      (s.backend = .disk ∧ s.hasNull (s.artifactPath k) = true) := by
  unfold Store.reference
  rw [h]
  dsimp only [bind, Except.bind]
  cases hb : s.backend with
  | s3 => exact .inl ⟨_, rfl⟩
  | disk =>
      cases hnull : s.hasNull (s.artifactPath k) with
      | true => exact .inr ⟨rfl, rfl⟩
      | false => exact .inl ⟨_, rfl⟩

theorem fileUri_injective {parts parts' : List (List Char)} (h : ∀ part ∈ parts, IsName part)
    (h' : ∀ part ∈ parts', IsName part) (huri : fileUri parts = fileUri parts') :
    parts = parts' := by
  have htext := congrArg PurePath.parse (quote_injective (List.append_cancel_left huri))
  rw [parse_text h, parse_text h'] at htext
  exact (PurePath.mk.inj htext).2

theorem reference_injective {identity' : Identity} {stage' : List Char}
    (h : s.reference identity stage = .ok r) (h' : s.reference identity' stage' = .ok r) :
    identity = identity' ∧ stage = stage' := by
  obtain ⟨k, hkey, hr⟩ := reference_cases h
  obtain ⟨k', hkey', hr'⟩ := reference_cases h'
  have hsame : k = k' := by
    rcases hr with ⟨hb, rfl⟩ | ⟨hb, -, rfl⟩
    · rcases hr' with ⟨-, hr'⟩ | ⟨hb', -⟩
      · exact quote_injective (List.cons.inj (List.append_cancel_left hr')).2
      · rw [hb] at hb'
        cases hb'
    · rcases hr' with ⟨hb', -⟩ | ⟨-, -, hr'⟩
      · rw [hb] at hb'
        cases hb'
      · have hparts := fileUri_injective (isName_location s hkey) (isName_location s hkey') hr'
        exact splitOn_injective (List.append_cancel_left hparts)
  rw [← hsame] at hkey'
  exact key_injective hkey hkey'

theorem isPlain_bucket {bucket : List Char} (h : IsBucketName bucket) :
    ∀ c ∈ bucket, isPlain c = true ∧ c ≠ '/' := by
  intro c hc
  rcases h.2 c hc with halnum | hmark
  · exact isPlain_of_alphanum halnum
  · have hall : ∀ c ∈ ['.', '-', '_'], isPlain c = true ∧ c ≠ '/' :=
      List.all_iff_forall_prop.mp (by decide)
    exact hall c hmark

/-- The reference of an object comes apart into its bucket and its key. -/
theorem urlsplit_object (special : List Char → Bool) {bucket : List Char}
    (h : IsBucketName bucket) (key : List Char) :
    urlsplit special ("s3://".toList ++ bucket ++ '/' :: quote key) =
      some ⟨"s3".toList, bucket, '/' :: quote key, [], []⟩ := by
  have hscheme : ∀ c ∈ "s3".toList,
      isSchemeChar c = true ∧ c.toLower = c ∧ ' ' < c ∧ c ≠ ':' :=
    List.all_iff_forall_prop.mp (by decide)
  exact urlsplit_reference special (by decide) hscheme (isPlain_bucket h) isPlain_quote

theorem urlsplit_file (special : List Char → Bool) (path : List Char) :
    urlsplit special ("file://".toList ++ '/' :: quote path) =
      some ⟨"file".toList, [], '/' :: quote path, [], []⟩ := by
  have hscheme : ∀ c ∈ "file".toList,
      isSchemeChar c = true ∧ c.toLower = c ∧ ' ' < c ∧ c ≠ ':' :=
    List.all_iff_forall_prop.mp (by decide)
  have hfront : "file://".toList = "file".toList ++ "://".toList ++ [] := by decide
  have hurl : "file://".toList ++ '/' :: quote path =
      "file".toList ++ "://".toList ++ [] ++ '/' :: quote path :=
    congrArg (· ++ '/' :: quote path) hfront
  rw [hurl]
  exact urlsplit_reference special (by decide) hscheme nofun isPlain_quote

theorem locate_file {special : List Char → Bool} {url path : List Char} {parts : List (List Char)}
    (hsplit : urlsplit special url = some ⟨"file".toList, [], path, [], []⟩)
    (hpath : PurePath.parse (unquote path) = ⟨true, s.root ++ parts⟩)
    (hfile : s.locatePath ⟨true, s.root ++ parts⟩ = s.root ++ parts)
    (hnull : s.hasNull ⟨true, s.root ++ parts⟩ = false) :
    s.locate special url = .ok (.file (s.root ++ parts)) := by
  have hscheme : "file".toList ≠ "s3".toList := by decide
  unfold Store.locate
  rw [hsplit]
  dsimp only
  rw [if_neg hscheme, if_pos rfl, hpath, hnull, hfile, if_neg (by simp)]

/-- A reference stands for the place that is written. -/
theorem locate_reference (special : List Char → Bool) (h : s.reference identity stage = .ok r)
    (hkey : key identity stage = .ok k) : s.locate special r = .ok (s.location k) := by
  obtain ⟨k', hkey', hr⟩ := reference_cases h
  obtain rfl := Except.ok.inj (hkey.symm.trans hkey')
  obtain ⟨hnames, hprefix⟩ := names_of_key hkey
  rcases hr with ⟨hb, rfl⟩ | ⟨hb, hnull, rfl⟩
  · have hdots : ['.', '.'] ∉ k.splitOn '/' := fun hmem => (hnames _ hmem).2.2.2 rfl
    have hhead : k.head? ≠ some '/' := by
      obtain ⟨rest, rfl⟩ := hprefix
      intro hslash
      rw [List.head?_append_of_ne_nil _ (by decide)] at hslash
      exact absurd hslash (by decide)
    rw [Store.locate, urlsplit_object special (s.bucketName hb)]
    dsimp only
    rw [if_pos rfl, if_neg (not_not.mpr rfl), unquote_lstrip hhead,
      if_neg (not_or.mpr ⟨not_not.mpr hprefix, hdots⟩), Store.location, hb]
  · have hlocation := isName_location s hkey
    have htext : PurePath.text ⟨true, s.root ++ k.splitOn '/'⟩ =
        '/' :: ['/'].intercalate (s.root ++ k.splitOn '/') := rfl
    have hpath : PurePath.parse (unquote ('/' :: quote (['/'].intercalate
        (s.root ++ k.splitOn '/')))) = ⟨true, s.root ++ k.splitOn '/'⟩ := by
      rw [← quote_slash, unquote_quote, ← htext, parse_text hlocation]
    have hfile : s.locatePath ⟨true, s.root ++ k.splitOn '/'⟩ = s.root ++ k.splitOn '/' :=
      congrArg PurePath.parts (resolve_of_names s.cwd hlocation)
    have hnull' : s.hasNull ⟨true, s.root ++ k.splitOn '/'⟩ = false := by
      rw [Store.hasNull, (path_of_key s hkey).2] at hnull
      rw [Store.hasNull, hfile, hnull]
    have huri : fileUri (s.root ++ k.splitOn '/') =
        "file://".toList ++ '/' :: quote (['/'].intercalate (s.root ++ k.splitOn '/')) := by
      unfold fileUri
      rw [htext, quote_slash]
    have hlocate : s.locate special (fileUri (s.root ++ k.splitOn '/')) =
        .ok (.file (s.root ++ k.splitOn '/')) := by
      rw [huri]
      exact locate_file (urlsplit_file special _) hpath hfile hnull'
    rw [hlocate, Store.location, hb]
    dsimp only
    rw [(path_of_key s hkey).1, (path_of_key s hkey).2]

/-! ### What a put does -/

variable {w w' : World} {location location' : Location} {content content' : Option (List UInt8)}

namespace World

theorem read_write : (w.write location content).read location = content := by
  cases location <;> simp [read, write]

theorem read_write_of_ne (h : location' ≠ location) :
    (w.write location content).read location' = w.read location' := by
  cases location with
  | object bucket key =>
      cases location' with
      | object bucket' key' =>
          have hne : ¬(bucket' = bucket ∧ key' = key) := fun heq => h (by rw [heq.1, heq.2])
          simp only [read, write, if_neg hne]
      | file parts => rfl
  | file parts =>
      cases location' with
      | object bucket key => rfl
      | file parts' =>
          have hne : parts' ≠ parts := fun heq => h (by rw [heq])
          simp only [read, write, if_neg hne]

theorem eq_of_read (h : ∀ location, w.read location = w'.read location) : w = w' := by
  obtain ⟨objects, files⟩ := w
  obtain ⟨objects', files'⟩ := w'
  have hobjects : objects = objects' := funext fun bucket => funext fun key =>
    h (.object bucket key)
  have hfiles : files = files' := funext fun parts => h (.file parts)
  rw [hobjects, hfiles]

/-- A temporary file that was written and removed is as if it had never been. -/
theorem write_temp (h : w.read location = none) :
    ((w.write location content).write location content').write location none = w := by
  refine eq_of_read fun other => ?_
  by_cases heq : other = location
  · rw [heq, read_write, h]
  · rw [read_write_of_ne heq, read_write_of_ne heq, read_write_of_ne heq]

theorem write_renamed (h : w.read location = none) (hne : location' ≠ location) :
    (((w.write location content).write location content').write location' content').write location
      none = w.write location' content' := by
  refine eq_of_read fun other => ?_
  by_cases heq : other = location
  · rw [heq, read_write, read_write_of_ne (Ne.symm hne), h]
  · rw [read_write_of_ne heq]
    by_cases heq' : other = location'
    · rw [heq', read_write, read_write]
    · rw [read_write_of_ne heq', read_write_of_ne heq', read_write_of_ne heq, read_write_of_ne heq]

end World

theorem last_of_key (h : key identity stage = .ok k) :
    (k.splitOn '/').getLast? = some (stage ++ ".json.gz".toList) ∧ stage ∈ stages := by
  obtain ⟨t, d, v, -, hstage, ht, hd, hv, rfl⟩ := key_eq_ok.mp h
  rw [splitOn_keyText (isName_keyParts hstage ht hd hv)]
  exact ⟨rfl, hstage⟩

/-- No artifact has the name of a temporary file. -/
theorem location_ne_temp (s : Store) (h : key identity stage = .ok k)
    (directory : List (List Char)) (token : List Char) :
    s.location k ≠ .file (directory ++ [tempName token]) := by
  intro heq
  unfold Store.location at heq
  cases hb : s.backend with
  | s3 =>
      rw [hb] at heq
      cases heq
  | disk =>
      rw [hb] at heq
      have hparts := congrArg List.getLast? (Location.file.inj heq)
      obtain ⟨hlast, hstage⟩ := last_of_key h
      rw [(path_of_key s h).1, (path_of_key s h).2, List.getLast?_append, hlast,
        List.getLast?_concat] at hparts
      have hname : stage ++ ".json.gz".toList = tempName token := Option.some.inj hparts
      have hhead : ∀ stage ∈ stages, (stage ++ ".json.gz".toList).head? ≠ some '.' := by decide
      exact hhead stage hstage (by rw [hname]; rfl)

section Operations

variable {F : Type} {fl : Json.Floats F} {gz : Gzip} {special : List Char → Bool}

/-- A dump without exception writes the whole text, within the limit. -/
theorem dump_none {limit : ℕ} {chunks : List Json.Chunk} {b b' : BoundedWriter}
    (h : dump limit chunks b = (b', none)) (hb : b.written ≤ limit) :
    ∃ text, Json.joinChunks chunks = some text ∧ b'.text = b.text ++ text ∧
      b'.written = b.written + (encode text).length ∧ b'.written ≤ limit := by
  induction chunks generalizing b with
  | nil =>
      obtain ⟨rfl, -⟩ := Prod.mk.inj h
      exact ⟨[], rfl, (List.append_nil _).symm, rfl, hb⟩
  | cons c chunks ih =>
      cases c with
      | none => cases (Prod.mk.inj h).2
      | some c =>
          unfold dump BoundedWriter.write at h
          dsimp only at h
          by_cases hlimit : limit < b.written + (encode c).length
          · rw [if_pos hlimit] at h
            cases (Prod.mk.inj h).2
          · rw [if_neg hlimit] at h
            obtain ⟨text, hjoin, htext, hwritten, hle⟩ := ih h (not_lt.mp hlimit)
            refine ⟨c ++ text, by rw [Json.joinChunks, hjoin]; rfl, ?_, ?_, hle⟩
            · rw [htext, List.append_assoc]
            · rw [hwritten, encode_append, List.length_append, Nat.add_assoc]

/-- What a put leaves behind: nothing, or the artifact in its place. -/
inductive Put (fl : Json.Floats F) (gz : Gzip) (s : Store) (identity : Identity)
    (stage : List Char) (payload : Json.Value F) (w : World) :
    Except StoreError (List Char) → World → Prop
  | failed (e : StoreError) : Put fl gz s identity stage payload w (.error e) w
  | stored (r k text : List Char) (hkey : key identity stage = .ok k)
      (href : s.reference identity stage = .ok r)
      (htext : Json.joinChunks (Json.chunks fl payload) = some text)
      (hsize : (encode text).length ≤ s.maxBytes)
      (harchive : (gz.compress (encode text)).length ≤ s.maxBytes) :
      Put fl gz s identity stage payload w (.ok r)
        (w.write (s.location k) (some (gz.compress (encode text))))

theorem put_body {fails : Step → Bool} {payload : Json.Value F} {temp : Location} {r : List Char}
    (hkey : key identity stage = .ok k) (href : s.reference identity stage = .ok r)
    (hfree : w.read temp = none) (hne : s.location k ≠ temp)
    {result : Except StoreError (List Char)} {pending : Bool}
    (h : putBody fl gz s fails identity stage k payload temp (w.write temp (some [])) =
      (result, pending, w')) :
    Put fl gz s identity stage payload w result (if pending then w'.write temp none else w') := by
  unfold putBody at h
  rcases hdump : dump s.maxBytes (Json.chunks fl payload) ⟨0, []⟩ with ⟨output, exception⟩
  rw [hdump] at h
  dsimp only at h
  have hfailed : ∀ e, Put fl gz s identity stage payload w (.error e)
      (((w.write temp (some [])).write temp (some (gz.compress (encode output.text)))).write temp
        none) := fun e => by
    rw [World.write_temp hfree]
    exact .failed e
  cases exception with
  | some e =>
      obtain ⟨rfl, rfl, rfl⟩ : _ ∧ _ ∧ _ := by simpa using h
      exact hfailed e
  | none =>
      dsimp only at h
      obtain ⟨text, htext, houtput, hwritten, hsize⟩ := dump_none hdump (Nat.zero_le _)
      rw [List.nil_append] at houtput
      rw [hwritten, Nat.zero_add] at hsize
      rw [houtput] at h hfailed
      split at h
      · obtain ⟨rfl, rfl, rfl⟩ : _ ∧ _ ∧ _ := by simpa using h
        exact hfailed _
      split at h
      · obtain ⟨rfl, rfl, rfl⟩ : _ ∧ _ ∧ _ := by simpa using h
        exact hfailed _
      next hlimit =>
        have hstored := Put.stored (w := w) r k text hkey href htext hsize (not_lt.mp hlimit)
        have hrenamed : (((w.write temp (some [])).write temp
            (some (gz.compress (encode text)))).write (s.location k)
            (some (gz.compress (encode text)))).write temp none =
            w.write (s.location k) (some (gz.compress (encode text))) :=
          World.write_renamed hfree hne
        rw [← hrenamed] at hstored
        cases hb : s.backend with
        | s3 =>
            have hlocation : s.location k = .object s.bucket k := by rw [Store.location, hb]
            rw [hlocation] at hstored
            simp only [hb] at h
            split at h
            · obtain ⟨rfl, rfl, rfl⟩ : _ ∧ _ ∧ _ := by simpa using h
              exact hfailed _
            · obtain ⟨rfl, rfl, rfl⟩ : _ ∧ _ ∧ _ := by simpa using h
              rw [href]
              exact hstored
        | disk =>
            have hlocation : s.location k = .file (s.locatePath (s.target k)) := by
              rw [Store.location, hb]
            rw [hlocation] at hstored
            simp only [hb] at h
            split at h
            · obtain ⟨rfl, rfl, rfl⟩ : _ ∧ _ ∧ _ := by simpa using h
              exact hfailed _
            · obtain ⟨rfl, rfl, rfl⟩ : _ ∧ _ ∧ _ := by simpa using h
              rw [href]
              exact hstored

theorem put_cases {fails : Step → Bool} {token : List Char} {payload : Json.Value F}
    {result : Except StoreError (List Char)}
    (h : putJson fl gz s fails token identity stage payload w = (result, w')) :
    Put fl gz s identity stage payload w result w' := by
  unfold putJson at h
  cases hkey : key identity stage with
  | error e =>
      rw [hkey] at h
      obtain ⟨rfl, rfl⟩ := Prod.mk.inj h
      exact .failed e
  | ok k =>
      rw [hkey] at h
      dsimp only at h
      split at h
      · obtain ⟨rfl, rfl⟩ := Prod.mk.inj h
        exact .failed _
      next hmkdir =>
        split at h
        · obtain ⟨rfl, rfl⟩ := Prod.mk.inj h
          exact .failed _
        next hcreate =>
          simp only [not_or, Bool.not_eq_true] at hmkdir hcreate
          have hfree := Option.isSome_eq_false_iff.mp hcreate.2
          have hnull : s.hasNull (s.artifactPath k) = false := (path_of_key s hkey).1 ▸ hmkdir.2
          obtain ⟨r, href⟩ := (reference_isOk s hkey).resolve_right fun hright => by
            rw [hnull] at hright
            cases hright.2
          have hne := location_ne_temp s hkey (s.locatePath (s.target k)).dropLast token
          split at h
          next result' w'' hbody =>
            obtain ⟨rfl, rfl⟩ := Prod.mk.inj h
            exact put_body hkey href (Option.isNone_iff_eq_none.mp hfree) hne hbody
          next result' w'' hbody =>
            obtain ⟨rfl, rfl⟩ := Prod.mk.inj h
            exact put_body hkey href (Option.isNone_iff_eq_none.mp hfree) hne hbody

/-! ### No operation goes to another artifact -/

/-- The changes of a list, one after another. -/
def World.edit (edits : List (Location × Option (List UInt8))) (w : World) : World :=
  edits.foldl (fun w e => w.write e.1 e.2) w

theorem World.write_comm (h : location' ≠ location) :
    (w.write location content).write location' content' =
      (w.write location' content').write location content := by
  refine World.eq_of_read fun other => ?_
  by_cases heq : other = location
  · rw [heq, read_write, read_write_of_ne (Ne.symm h), read_write]
  · rw [read_write_of_ne heq]
    by_cases heq' : other = location'
    · rw [heq', read_write, read_write]
    · rw [read_write_of_ne heq', read_write_of_ne heq', read_write_of_ne heq]

theorem World.edit_write {edits : List (Location × Option (List UInt8))}
    (h : ∀ e ∈ edits, e.1 ≠ location) :
    (w.write location content).edit edits = (w.edit edits).write location content := by
  induction edits generalizing w with
  | nil => rfl
  | cons e edits ih =>
      rw [World.edit, List.foldl_cons, World.write_comm (h e List.mem_cons_self)]
      exact ih fun e' he' => h e' (List.mem_cons_of_mem _ he')

/-- The body of a put looks at no content, and changes the temporary file and its artifact. -/
theorem putBody_edits (fails : Step → Bool) (identity : Identity) (stage k : List Char)
    (payload : Json.Value F) (temp : Location) :
    ∃ result pending edits, (∀ e ∈ edits, e.1 = temp ∨ e.1 = s.location k) ∧
      ∀ w, putBody fl gz s fails identity stage k payload temp w =
        (result, pending, w.edit edits) := by
  unfold putBody
  rcases dump s.maxBytes (Json.chunks fl payload) ⟨0, []⟩ with ⟨output, exception⟩
  dsimp only
  have hfailed : ∀ e : StoreError, ∃ result pending edits,
      (∀ e ∈ edits, e.1 = temp ∨ e.1 = s.location k) ∧ ∀ w : World,
        ((Except.error e : Except StoreError (List Char)), true,
          w.write temp (some (gz.compress (encode output.text)))) =
            (result, pending, w.edit edits) := fun e =>
    ⟨.error e, true, [(temp, some (gz.compress (encode output.text)))], by simp, fun w => rfl⟩
  cases exception with
  | some e => exact hfailed e
  | none =>
      dsimp only
      split
      · exact hfailed _
      split
      · exact hfailed _
      cases hb : s.backend with
      | s3 =>
          dsimp only
          split
          · exact hfailed _
          · refine ⟨s.reference identity stage, true,
              [(temp, some (gz.compress (encode output.text))),
                (s.location k, some (gz.compress (encode output.text)))], by simp, fun w => ?_⟩
            rw [Store.location, hb]
            rfl
      | disk =>
          dsimp only
          split
          · exact hfailed _
          · refine ⟨s.reference identity stage, false,
              [(temp, some (gz.compress (encode output.text))),
                (s.location k, some (gz.compress (encode output.text))), (temp, none)],
              by simp, fun w => ?_⟩
            rw [Store.location, hb]
            rfl

/-- A put and a change of another artifact do not see each other. -/
theorem put_write {identity' : Identity} {stage' k' : List Char}
    (hkey' : key identity' stage' = .ok k')
    (hne : ∀ k, key identity stage = .ok k → s.location k ≠ s.location k')
    (fails : Step → Bool) (token : List Char) (payload : Json.Value F) :
    putJson fl gz s fails token identity stage payload (w.write (s.location k') content) =
      ((putJson fl gz s fails token identity stage payload w).1,
        (putJson fl gz s fails token identity stage payload w).2.write (s.location k') content) := by
  unfold putJson
  cases hkey : key identity stage with
  | error e => rfl
  | ok k =>
      dsimp only
      have htemp := location_ne_temp s hkey' (s.locatePath (s.target k)).dropLast token
      split
      · rfl
      · rw [World.read_write_of_ne (Ne.symm htemp)]
        split
        · rfl
        · obtain ⟨result, pending, edits, hplaces, hbody⟩ := putBody_edits (s := s) fails identity stage k payload
            (.file ((s.locatePath (s.target k)).dropLast ++ [tempName token]))
          have hedits : ∀ e ∈ edits, e.1 ≠ s.location k' := by
            intro e he
            rcases hplaces e he with heq | heq
            · rw [heq]
              exact Ne.symm htemp
            · rw [heq]
              exact hne k hkey
          rw [World.write_comm (Ne.symm htemp), hbody, hbody, World.edit_write hedits]
          cases pending with
          | true =>
              dsimp only
              rw [World.write_comm (Ne.symm htemp)]
          | false => rfl

theorem delete_write {k' : List Char}
    (hne : ∀ k, key identity stage = .ok k → s.location k ≠ s.location k') :
    delete s identity stage (w.write (s.location k') content) =
      ((delete s identity stage w).1, (delete s identity stage w).2.write (s.location k') content) := by
  unfold delete
  cases hkey : key identity stage with
  | error e => rfl
  | ok k =>
      have hplace := hne k hkey
      generalize s.location k' = location at hplace ⊢
      unfold Store.location at hplace
      dsimp only
      cases hb : s.backend with
      | s3 =>
          rw [hb] at hplace
          dsimp only at hplace ⊢
          rw [World.write_comm hplace]
      | disk =>
          rw [hb, (path_of_key s hkey).1] at hplace
          dsimp only at hplace ⊢
          split
          · rfl
          · rw [World.write_comm hplace]

theorem get_write {r : List Char} (hkey : key identity stage = .ok k)
    (href : s.reference identity stage = .ok r) (hne : s.location k ≠ location) :
    getJson fl gz special s r (w.write location content) = getJson fl gz special s r w := by
  unfold getJson
  rw [locate_reference special href hkey]
  dsimp only [bind, Except.bind]
  rw [World.read_write_of_ne hne]

/-- What `_load_artifact` accepts is the descriptor of its own artifact. -/
theorem loadArtifact_ok {isLength : Option (Json.Value F) → ℕ → Bool} {descriptor : Descriptor F}
    {payload : List (Json.Value F)}
    (h : loadArtifact fl gz special s isLength descriptor identity stage w = .ok payload) :
    descriptor.stage = some (.string stage) ∧
      ∃ r, s.reference identity stage = .ok r ∧ descriptor.storageRef = some (.string r) := by
  unfold loadArtifact at h
  split at h
  next stage' hstage =>
    split at h
    · cases h
    next hsame =>
      split at h
      next r href =>
        cases hreference : s.reference identity stage with
        | error e =>
            rw [hreference] at h
            cases h
        | ok expected =>
            rw [hreference] at h
            dsimp only [bind, Except.bind] at h
            split at h
            · cases h
            next heq =>
              rw [not_not.mp heq] at href
              rw [not_not.mp hsame] at hstage
              exact ⟨hstage, expected, rfl, href⟩
      · cases h
  · cases h

end Operations

/-- The places of the artifacts of a store. -/
def Store.Inside (s : Store) : Location → Prop
  | .object bucket key =>
      bucket = s.bucket ∧ "tenants/".toList <+: key ∧ ['.', '.'] ∉ key.splitOn '/'
  | .file parts => s.root <+: parts ∧ ∀ part ∈ parts, IsName part

theorem inside_location (s : Store) (h : key identity stage = .ok k) :
    s.Inside (s.location k) := by
  obtain ⟨hnames, hprefix⟩ := names_of_key h
  unfold Store.location
  cases hb : s.backend with
  | s3 => exact ⟨rfl, hprefix, fun hmem => (hnames _ hmem).2.2.2 rfl⟩
  | disk =>
      dsimp only
      rw [(path_of_key s h).1, (path_of_key s h).2]
      exact ⟨List.prefix_append _ _, isName_location s h⟩

end Ally.ArtifactStore
