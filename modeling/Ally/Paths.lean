import Ally.Text

/-!
# POSIX paths

`os.path.basename` and `os.path.splitext` on lists of code points.
-/

namespace Paths

/-- `os.path.basename`. -/
def basename (p : List Char) : List Char := p.rtakeWhile (· ≠ '/')

/-- `os.path.splitext(p)[1]`. -/
def splitExt (p : List Char) : List Char :=
  -- the dots at the start of a name begin no extension
  let stem := (basename p).dropWhile (· = '.')
  if '.' ∈ stem then '.' :: stem.rtakeWhile (· ≠ '.') else []

/-- `s.lower()`. -/
def lower (s : List Char) : List Char := s.flatMap Text.lower

/-- What `directory / name` puts before the name. -/
structure Directory where
  text : List Char
  slash : text = [] ∨ ∃ d, text = d ++ ['/']

theorem notMem_basename (p : List Char) : '/' ∉ basename p := by
  intro h
  simpa using List.mem_rtakeWhile_imp h

theorem rtakeWhile_append {α : Type*} {q : α → Bool} {a b : List α} {x : α} (hx : q x = false)
    (hb : ∀ y ∈ b, q y = true) : (a ++ x :: b).rtakeWhile q = b := by
  rw [List.rtakeWhile, List.reverse_append, List.reverse_cons, List.append_assoc,
    List.takeWhile_append_of_pos fun y hy => hb y (List.mem_reverse.mp hy), List.singleton_append,
    List.takeWhile_cons_of_neg (by simp [hx]), List.append_nil, List.reverse_reverse]

theorem basename_append {dir : List Char} {name : List Char} (h : '/' ∉ name) :
    basename (dir ++ '/' :: name) = name := by
  refine rtakeWhile_append (by simp) fun y hy => ?_
  have hne : y ≠ '/' := fun heq => h (heq ▸ hy)
  simpa using hne

theorem basename_of_notMem {name : List Char} (h : '/' ∉ name) : basename name = name := by
  refine List.rtakeWhile_eq_self_iff.mpr fun y hy => ?_
  have hne : y ≠ '/' := fun heq => h (heq ▸ hy)
  simpa using hne

theorem basename_directory (dir : Directory) {name : List Char} (h : '/' ∉ name) :
    basename (dir.text ++ name) = name := by
  rcases dir.slash with hnil | ⟨d, hd⟩
  · rw [hnil, List.nil_append]
    exact basename_of_notMem h
  · rw [hd, List.append_assoc]
    exact basename_append h

theorem rtakeWhile_append_of_mem {α : Type*} {q : α → Bool} {b : List α} {x : α} (hmem : x ∈ b)
    (hx : q x = false) (a : List α) : (a ++ b).rtakeWhile q = b.rtakeWhile q := by
  have hlen : (b.reverse.takeWhile q).length ≠ b.reverse.length := by
    intro hlen
    have hall := (List.takeWhile_prefix (l := b.reverse) q).eq_of_length hlen
    have htrue := List.mem_takeWhile_imp (hall.symm ▸ List.mem_reverse.mpr hmem)
    rw [hx] at htrue
    cases htrue
  rw [List.rtakeWhile, List.reverse_append, List.takeWhile_append, if_neg hlen, List.rtakeWhile]

/-- More text at the front leaves what follows the dots at the start of a name. -/
theorem dropWhile_append {α : Type*} (q : α → Bool) (a b : List α) :
    ∃ t, (a ++ b).dropWhile q = t ++ b.dropWhile q := by
  induction a with
  | nil => exact ⟨[], rfl⟩
  | cons x a ih =>
      by_cases hx : q x = true
      · rw [List.cons_append, List.dropWhile_cons_of_pos hx]
        exact ih
      · rw [List.cons_append, List.dropWhile_cons_of_neg hx]
        refine ⟨x :: (a ++ b.takeWhile q), ?_⟩
        rw [List.cons_append, List.append_assoc, List.takeWhile_append_dropWhile]

/-- An extension survives more text at the front of the name. -/
theorem splitExt_append {stem name : List Char} (hstem : '/' ∉ stem) (hname : '/' ∉ name)
    (h : splitExt name ≠ []) (dir : Directory) :
    splitExt (dir.text ++ (stem ++ name)) = splitExt name := by
  have hslash : '/' ∉ stem ++ name := by simp [hstem, hname]
  unfold splitExt at h ⊢
  dsimp only at h ⊢
  rw [basename_directory dir hslash]
  rw [basename_of_notMem hname] at h ⊢
  by_cases hdot : '.' ∈ name.dropWhile (· = '.')
  · obtain ⟨t, ht⟩ := dropWhile_append (fun c : Char => decide (c = '.')) stem name
    have hmem : '.' ∈ t ++ name.dropWhile (· = '.') := List.mem_append_right t hdot
    rw [ht, if_pos hmem, if_pos hdot, rtakeWhile_append_of_mem hdot (by simp)]
  · rw [if_neg hdot] at h
    exact absurd rfl h

theorem splitExt_eq_nil {name : List Char} (hname : '/' ∉ name) (hdot : '.' ∉ name)
    (dir : Directory) : splitExt (dir.text ++ name) = [] := by
  unfold splitExt
  dsimp only
  rw [basename_directory dir hname, if_neg]
  exact fun h => hdot (List.dropWhile_subset _ h)

/-! ### `pathlib` -/

/-- A `PurePosixPath`. -/
structure PurePath where
  absolute : Bool
  parts : List (List Char)
  deriving DecidableEq, Repr

/-- A part that names a file or a directory. -/
def IsName (part : List Char) : Prop :=
  part ≠ [] ∧ '/' ∉ part ∧ part ≠ ['.'] ∧ part ≠ ['.', '.']

instance : DecidablePred IsName := fun _ => inferInstanceAs (Decidable (_ ∧ _))

/-- What follows a component that is resolved: `..` goes back. -/
def descend (parts : List (List Char)) (part : List Char) : List (List Char) :=
  if part = ['.', '.'] then parts.dropLast else parts ++ [part]

namespace PurePath

/-- `Path(s)`. -/
def parse (s : List Char) : PurePath :=
  ⟨s.head? = some '/', (s.splitOn '/').filter fun part => part ≠ [] ∧ part ≠ ['.']⟩

/-- `p / q`. -/
def join (p q : PurePath) : PurePath :=
  if q.absolute then q else ⟨p.absolute, p.parts ++ q.parts⟩

/-- `p.joinpath(*args)`. -/
def joinpath (p : PurePath) (args : List (List Char)) : PurePath :=
  args.foldl (fun p arg => p.join (parse arg)) p

/-- `p.resolve()`, where no component is a symbolic link. -/
def resolve (cwd : List (List Char)) (p : PurePath) : PurePath :=
  ⟨true, p.parts.foldl descend (if p.absolute then [] else cwd)⟩

/-- `str(p)`. -/
def text (p : PurePath) : List Char :=
  if p.absolute then '/' :: ['/'].intercalate p.parts
  else if p.parts = [] then ['.'] else ['/'].intercalate p.parts

end PurePath

open PurePath

theorem splitOn_injective : Function.Injective fun s : List Char => s.splitOn '/' :=
  Function.LeftInverse.injective fun _ => List.intercalate_splitOn '/'

theorem parse_name {part : List Char} (h : IsName part) : parse part = ⟨false, [part]⟩ := by
  obtain ⟨hne, hslash, hdot, -⟩ := h
  have hhead : part.head? ≠ some '/' := fun heq => hslash (List.mem_of_head? heq)
  rw [parse, List.splitOn_eq_singleton hslash]
  simp [hhead, hne, hdot]

theorem joinpath_names (p : PurePath) {names : List (List Char)} (h : ∀ part ∈ names, IsName part) :
    p.joinpath names = ⟨p.absolute, p.parts ++ names⟩ := by
  induction names generalizing p with
  | nil => simp [joinpath]
  | cons part names ih =>
      have hjoin : p.join (parse part) = ⟨p.absolute, p.parts ++ [part]⟩ := by
        rw [parse_name (h part List.mem_cons_self)]
        rfl
      have hrest := ih (p.join (parse part)) fun q hq => h q (List.mem_cons_of_mem _ hq)
      rw [joinpath, List.foldl_cons]
      rw [joinpath] at hrest
      rw [hrest, hjoin, List.append_assoc, List.singleton_append]

theorem foldl_descend_names (base : List (List Char)) {names : List (List Char)}
    (h : ∀ part ∈ names, IsName part) : names.foldl descend base = base ++ names := by
  induction names generalizing base with
  | nil => simp
  | cons part names ih =>
      have hne : part ≠ ['.', '.'] := (h part List.mem_cons_self).2.2.2
      rw [List.foldl_cons, descend, if_neg hne,
        ih (base ++ [part]) fun q hq => h q (List.mem_cons_of_mem _ hq), List.append_assoc,
        List.singleton_append]

/-- A path that is resolved has only names. -/
theorem isName_resolve {cwd : List (List Char)} {p : PurePath} (hcwd : ∀ part ∈ cwd, IsName part)
    (hp : ∀ part ∈ p.parts, part = ['.', '.'] ∨ IsName part) :
    ∀ part ∈ (p.resolve cwd).parts, IsName part := by
  have hfold : ∀ (parts base : List (List Char)), (∀ part ∈ base, IsName part) →
      (∀ part ∈ parts, part = ['.', '.'] ∨ IsName part) →
      ∀ part ∈ parts.foldl descend base, IsName part := by
    intro parts
    induction parts with
    | nil => exact fun _ hbase _ => hbase
    | cons q parts ih =>
        intro base hbase hparts
        refine ih (descend base q) (fun part hpart => ?_) fun part hpart =>
          hparts part (List.mem_cons_of_mem _ hpart)
        unfold descend at hpart
        split at hpart
        · exact hbase part (List.dropLast_subset _ hpart)
        next hne =>
          rcases List.mem_append.mp hpart with hpart | hpart
          · exact hbase part hpart
          · rw [List.mem_singleton.mp hpart]
            exact (hparts q List.mem_cons_self).resolve_left hne
  refine hfold p.parts _ ?_ hp
  split
  · exact fun _ h => absurd h List.not_mem_nil
  · exact hcwd

/-- The text of an absolute path of names is the path again. -/
theorem parse_text {parts : List (List Char)} (h : ∀ part ∈ parts, IsName part) :
    parse (text ⟨true, parts⟩) = ⟨true, parts⟩ := by
  have hfilter : parts.filter (fun part => part ≠ [] ∧ part ≠ ['.']) = parts :=
    List.filter_eq_self.mpr fun part hpart => by
      simpa using ⟨(h part hpart).1, (h part hpart).2.2.1⟩
  have hsplit : ('/' :: ['/'].intercalate parts).splitOn '/' =
      [] :: (['/'].intercalate parts).splitOn '/' := by
    simp [List.splitOn_cons_eq_if_modifyHead]
  simp only [text, parse, if_true, hsplit]
  cases parts with
  | nil => rfl
  | cons part parts =>
      rw [List.splitOn_intercalate '/' (fun part hpart => (h part hpart).2.1) (by simp)]
      simpa using hfilter

theorem resolve_of_names (cwd : List (List Char)) {parts : List (List Char)}
    (h : ∀ part ∈ parts, IsName part) : resolve cwd ⟨true, parts⟩ = ⟨true, parts⟩ := by
  simp [resolve, foldl_descend_names [] h]

end Paths
