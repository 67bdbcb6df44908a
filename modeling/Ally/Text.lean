import Mathlib.Data.List.DropRight
import Mathlib.Data.List.Infix

/-!
# Python strings

The string methods of the modelled code, on lists of code points.
-/

namespace Text

/-- The code points for which `str.isspace` holds; `\s` in a pattern is the same class. -/
def isSpace (c : Char) : Bool :=
  let n := c.toNat
  (0x09 ≤ n && n ≤ 0x0d) || (0x1c ≤ n && n ≤ 0x20) || n = 0x85 || n = 0xa0 || n = 0x1680 ||
    (0x2000 ≤ n && n ≤ 0x200a) || n = 0x2028 || n = 0x2029 || n = 0x202f || n = 0x205f ||
    n = 0x3000

/-- `str.strip`. -/
def strip (s : List Char) : List Char := (s.dropWhile isSpace).rdropWhile isSpace

/-- `not s.strip()`. -/
def blank (s : String) : Bool := s.toList.all isSpace

/-- `str.lower` as far as ASCII letters of the result go: the two code points outside
ASCII whose lower case has one are the Kelvin sign and the capital I with a dot. -/
def lower (c : Char) : List Char :=
  if c = '\u212a' then ['k'] else if c = '\u0130' then ['i', '\u0307'] else [c.toLower]

/-- The Unicode tables behind `\w` and `str.casefold`. -/
structure Unicode where
  isWord : Char → Bool
  casefold : List Char → List Char

/-- `needle in s`. -/
def contains (needle s : List Char) : Bool :=
  decide (needle <:+: s)

/-- `re.findall` of a pattern that is one or more characters of a class. -/
def runsOf (p : Char → Bool) (s : List Char) : List (List Char) :=
  (s.splitOnP fun c => !p c).filter fun run => !run.isEmpty

/-- `" ".join(parts)`. -/
def joinSpace (parts : List (List Char)) : List Char := [' '].intercalate parts

/-- Named, so that the membership tests on lists of strings share it. -/
instance lawfulBEq_string : LawfulBEq (List Char) := inferInstance

theorem isAlphanum_iff {c : Char} :
    c.isAlphanum = true ↔ (65 ≤ c.toNat ∧ c.toNat ≤ 90) ∨ (97 ≤ c.toNat ∧ c.toNat ≤ 122) ∨
      48 ≤ c.toNat ∧ c.toNat ≤ 57 := by
  change (decide (65 ≤ c.val ∧ c.val ≤ 90) || (decide (97 ≤ c.val) && decide (c.val ≤ 122)) ||
    (decide (48 ≤ c.val) && decide (c.val ≤ 57))) = true ↔ _
  simp only [Bool.or_eq_true, Bool.and_eq_true, decide_eq_true_eq, UInt32.le_iff_toNat_le, or_assoc]
  exact Iff.rfl

theorem toLower_of_isSpace {c : Char} (h : isSpace c = true) : c.toLower = c := by
  have hval : c.val.toNat ≤ 32 ∨ 133 ≤ c.val.toNat := by
    simp only [isSpace, Bool.or_eq_true, Bool.and_eq_true, decide_eq_true_eq] at h
    change c.toNat ≤ 32 ∨ 133 ≤ c.toNat
    omega
  unfold Char.toLower
  apply dif_neg
  rintro ⟨hA, hZ⟩
  have hA' : 65 ≤ c.val.toNat := UInt32.le_iff_toNat_le.mp hA
  have hZ' : c.val.toNat ≤ 90 := UInt32.le_iff_toNat_le.mp hZ
  omega

/-! ### Words -/

/-- The maximal runs of characters that are no whitespace. -/
def words (s : List Char) : List (List Char) := runsOf (fun c => !isSpace c) s

@[simp] theorem words_nil : words [] = [] := by
  simp [words, runsOf]

theorem words_append_space {c : Char} (hc : isSpace c = true) (a b : List Char) :
    words (a ++ c :: b) = words a ++ words b := by
  have hsplit : (a ++ c :: b).splitOnP (fun c => !!isSpace c) =
      a.splitOnP (fun c => !!isSpace c) ++ b.splitOnP fun c => !!isSpace c :=
    List.splitOnP_append_cons a b (by simp [hc])
  simp only [words, runsOf, hsplit, List.filter_append]

theorem words_cons_space {c : Char} (hc : isSpace c = true) (s : List Char) :
    words (c :: s) = words s := by
  simpa using words_append_space hc [] s

theorem words_concat_space {c : Char} (hc : isSpace c = true) (s : List Char) :
    words (s ++ [c]) = words s := by
  simpa using words_append_space hc s []

theorem words_eq_nil_of_blank {s : List Char} (hs : ∀ c ∈ s, isSpace c = true) : words s = [] := by
  induction s with
  | nil => exact words_nil
  | cons c s ih =>
    rw [words_cons_space (hs c List.mem_cons_self)]
    exact ih fun d hd => hs d (List.mem_cons_of_mem c hd)

theorem words_dropWhile (s : List Char) : words (s.dropWhile isSpace) = words s := by
  induction s with
  | nil => rfl
  | cons c s ih =>
    by_cases hc : isSpace c = true
    · rw [List.dropWhile_cons_of_pos hc, ih, words_cons_space hc]
    · rw [List.dropWhile_cons_of_neg hc]

theorem words_rdropWhile (s : List Char) : words (s.rdropWhile isSpace) = words s := by
  induction s using List.reverseRecOn with
  | nil => simp
  | append_singleton s c ih =>
    by_cases hc : isSpace c = true
    · rw [List.rdropWhile_concat_pos _ _ _ hc, ih, words_concat_space hc]
    · rw [List.rdropWhile_concat_neg _ _ _ hc]

@[simp] theorem words_strip (s : List Char) : words (strip s) = words s := by
  rw [strip, words_rdropWhile, words_dropWhile]

theorem words_intercalate {c : Char} (hc : isSpace c = true) (parts : List (List Char)) :
    words ([c].intercalate parts) = parts.flatMap words := by
  induction parts with
  | nil => simp
  | cons p parts ih =>
    cases parts with
    | nil => simp
    | cons q parts =>
      rw [List.intercalate_cons_cons, List.append_assoc, List.singleton_append,
        words_append_space hc, ih]
      rfl

@[simp] theorem words_joinSpace (parts : List (List Char)) :
    words (joinSpace parts) = parts.flatMap words :=
  words_intercalate (by decide) parts

theorem words_splitOn {c : Char} (hc : isSpace c = true) (s : List Char) :
    (s.splitOn c).flatMap words = words s := by
  rw [← words_intercalate hc, List.intercalate_splitOn]

/-- The words hold the characters that are no whitespace, in their order. -/
theorem flatten_words (s : List Char) :
    (words s).flatten = s.filter fun c => !isSpace c := by
  rw [words, runsOf, List.flatten_filter_not_isEmpty]
  induction s with
  | nil => simp
  | cons c s ih =>
    rw [List.splitOnP_cons_eq_if_modifyHead]
    obtain ⟨run, runs, hruns⟩ := List.exists_cons_of_ne_nil
      (List.splitOnP_ne_nil (fun c => !!isSpace c) s)
    rw [hruns] at ih ⊢
    by_cases hc : isSpace c = true
    · simpa [hc] using ih
    · simpa [hc] using ih

/-! ### Trimmed strings -/

/-- Begins and ends with a character that is no whitespace. -/
structure Trimmed (s : List Char) : Prop where
  first : ∃ c rest, s = c :: rest ∧ isSpace c = false
  last : ∃ front c, s = front ++ [c] ∧ isSpace c = false

theorem Trimmed.ne_nil {s : List Char} (hs : Trimmed s) : s ≠ [] := by
  obtain ⟨c, rest, rfl, -⟩ := hs.first
  exact List.cons_ne_nil c rest

theorem Trimmed.strip {s : List Char} (hs : Trimmed s) : strip s = s := by
  obtain ⟨c, rest, hfirst, hc⟩ := hs.first
  obtain ⟨front, d, hlast, hd⟩ := hs.last
  have hdrop : s.dropWhile isSpace = s := by
    rw [hfirst, List.dropWhile_cons_of_neg (by simp [hc])]
  rw [Text.strip, hdrop, hlast, List.rdropWhile_concat_neg _ _ _ (by simp [hd])]

theorem drop_pad {p : Char → Bool} {front s back : List Char}
    (hfirst : ∃ c rest, s = c :: rest ∧ p c = false) (hlast : ∃ init d, s = init ++ [d] ∧ p d = false)
    (hfront : ∀ c ∈ front, p c = true) (hback : ∀ c ∈ back, p c = true) :
    ((front ++ (s ++ back)).dropWhile p).rdropWhile p = s := by
  obtain ⟨c, rest, hs, hc⟩ := hfirst
  obtain ⟨init, d, hs', hd⟩ := hlast
  have hdrop : (front ++ (s ++ back)).dropWhile p = s ++ back := by
    rw [List.dropWhile_append_of_pos hfront, hs, List.cons_append,
      List.dropWhile_cons_of_neg (by simp [hc])]
  rw [hdrop, List.rdropWhile, List.reverse_append,
    List.dropWhile_append_of_pos fun e he => hback e (List.mem_reverse.mp he), hs',
    List.reverse_append, List.reverse_singleton, List.singleton_append,
    List.dropWhile_cons_of_neg (by simp [hd]), List.reverse_cons, List.reverse_reverse]

/-- Whitespace around a trimmed string is what `strip` takes off. -/
theorem Trimmed.strip_pad {front s back : List Char} (hs : Trimmed s)
    (hfront : ∀ c ∈ front, isSpace c = true) (hback : ∀ c ∈ back, isSpace c = true) :
    Text.strip (front ++ (s ++ back)) = s :=
  drop_pad hs.first hs.last hfront hback

theorem trimmed_strip {s : List Char} (hs : strip s ≠ []) : Trimmed (strip s) := by
  have hlast := List.rdropWhile_last_not isSpace (s.dropWhile isSpace) hs
  obtain ⟨back, hback⟩ := List.rdropWhile_prefix isSpace (s.dropWhile isSpace)
  obtain ⟨c, rest, hcons⟩ := List.exists_cons_of_ne_nil hs
  refine ⟨⟨c, rest, hcons, ?_⟩, ?_⟩
  · have hdrop : s.dropWhile isSpace = c :: (rest ++ back) := by
      rw [← hback]
      simpa [strip] using congrArg (· ++ back) hcons
    have hhead := List.dropWhile_get_zero_not isSpace s (by simp [hdrop])
    simpa [hdrop] using hhead
  · exact ⟨_, _, (List.dropLast_append_getLast hs).symm, by simpa [strip] using hlast⟩

theorem Trimmed.words_ne_nil {s : List Char} (hs : Trimmed s) : words s ≠ [] := by
  obtain ⟨c, rest, rfl, hc⟩ := hs.first
  intro hnone
  have hflat := flatten_words (c :: rest)
  simp [hnone, hc] at hflat

theorem words_eq_nil_iff {s : List Char} : words s = [] ↔ strip s = [] := by
  constructor
  · intro hnone
    by_contra hs
    exact (trimmed_strip hs).words_ne_nil (by rwa [words_strip])
  · intro hs
    rw [← words_strip, hs, words_nil]

theorem Trimmed.joinSpace {parts : List (List Char)} (hparts : ∀ p ∈ parts, Trimmed p)
    (hne : parts ≠ []) : Trimmed (joinSpace parts) := by
  induction parts with
  | nil => exact absurd rfl hne
  | cons p parts ih =>
    cases parts with
    | nil => simpa [Text.joinSpace] using hparts p List.mem_cons_self
    | cons q parts =>
      have hrest := ih (fun r hr => hparts r (List.mem_cons_of_mem p hr)) (List.cons_ne_nil q parts)
      obtain ⟨c, rest, hc, hcs⟩ := (hparts p List.mem_cons_self).first
      obtain ⟨front, d, hd, hds⟩ := hrest.last
      have hjoin : Text.joinSpace (p :: q :: parts) = p ++ ' ' :: Text.joinSpace (q :: parts) := by
        simp [Text.joinSpace]
      refine ⟨⟨c, rest ++ ' ' :: Text.joinSpace (q :: parts), by rw [hjoin, hc]; rfl, hcs⟩,
        ⟨p ++ ' ' :: front, d, by rw [hjoin, hd]; simp, hds⟩⟩

end Text
