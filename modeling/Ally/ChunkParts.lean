import Ally.Chunking

/-!
# What the chunks of a page are made of

Each chunk is a carried overlap and new text. `Divides` says how the parts behind the
chunks divide the sentences of a page: the new texts hold every word of the sentences once
and in order, and each overlap is the longest end of the chunk before it that fits. One
round of the packing loop keeps this.
-/

namespace Ally.Chunking

open Text

/-- What is behind a chunk: an overlap and new whole sentences, or consecutive words of a
sentence that is too long for a chunk. -/
inductive Part
  | packed (overlap whole : List (List Char))
  | piece (sentence : List Char) (run : List (List Char))

def Part.overlap : Part → List (List Char)
  | .packed overlap _ => overlap
  | .piece _ _ => []

/-- The new text. -/
def Part.fresh : Part → List Char
  | .packed _ whole => joinSpace whole
  | .piece _ run => strip (joinSpace run)

def Part.text (p : Part) : List Char := joinSpace (p.overlap ++ [p.fresh])

/-- The sentence that made the chunk before this one end. -/
def Part.first : Part → List Char
  | .packed _ whole => whole.headD []
  | .piece sentence _ => sentence

/-- The whole sentences of a chunk. -/
def Part.sentences : Part → List (List Char)
  | .packed overlap whole => overlap ++ whole
  | .piece sentence run => if run = sentence.splitOn ' ' then [sentence] else []

/-- The longest suffix of a list of sentences within a budget, each counted with the space
after it. -/
structure LongestFit (budget : ℤ) (sentences taken : List (List Char)) : Prop where
  suffix : taken <:+ sentences
  fits : taken = [] ∨ totalLen taken ≤ budget
  longest : ∀ other, other <:+ sentences → totalLen other ≤ budget → other.length ≤ taken.length

section

variable (maxChars overlapChars : ℤ)

/-- The new text of a part comes from the sentences of the page. -/
def Part.Of (sentences : List (List Char)) : Part → Prop
  | .packed _ whole => whole ≠ [] ∧ whole <:+: sentences ∧ ∀ s ∈ whole, spacedLen s ≤ maxChars
  | .piece sentence run =>
      sentence ∈ sentences ∧ maxChars < spacedLen sentence ∧ run <:+: sentence.splitOn ' '

/-- The overlap of a chunk against the chunk flushed just before. -/
def Carried (p q : Part) : Prop :=
  LongestFit (min overlapChars (maxChars - spacedLen q.first)) p.sentences q.overlap

structure Divides (sentences : List (List Char)) (parts : List Part) : Prop where
  made : ∀ p ∈ parts, p.Of maxChars sentences
  nonempty : ∀ p ∈ parts, words p.fresh ≠ []
  bounded : ∀ p ∈ parts, (p.text.length : ℤ) < maxChars ∨ ' ' ∉ p.text
  first : ∀ p ∈ parts.head?, p.overlap = []
  carried : parts.IsChain (Carried maxChars overlapChars)
  complete : parts.flatMap (fun p => words p.fresh) = sentences.flatMap words

end

variable {maxChars overlapChars : ℤ}

/-! ### Lengths -/

theorem spacedLen_pos (s : List Char) : 0 < spacedLen s := by
  unfold spacedLen
  omega

@[simp] theorem totalLen_nil : totalLen [] = 0 := rfl

@[simp] theorem totalLen_cons (s : List Char) (parts : List (List Char)) :
    totalLen (s :: parts) = spacedLen s + totalLen parts := by
  simp [totalLen]

@[simp] theorem totalLen_append (parts parts' : List (List Char)) :
    totalLen (parts ++ parts') = totalLen parts + totalLen parts' := by
  simp [totalLen]

theorem totalLen_nonneg (parts : List (List Char)) : 0 ≤ totalLen parts := by
  induction parts with
  | nil => simp
  | cons s parts ih =>
    have hs := spacedLen_pos s
    rw [totalLen_cons]
    omega

theorem totalLen_le_of_suffix {parts parts' : List (List Char)} (h : parts <:+ parts') :
    totalLen parts ≤ totalLen parts' := by
  obtain ⟨front, rfl⟩ := h
  have hfront := totalLen_nonneg front
  rw [totalLen_append]
  omega

theorem length_joinSpace {parts : List (List Char)} (hne : parts ≠ []) :
    ((joinSpace parts).length : ℤ) = totalLen parts - 1 := by
  induction parts with
  | nil => exact absurd rfl hne
  | cons p parts ih =>
    cases parts with
    | nil => simp [joinSpace, spacedLen]
    | cons q parts =>
      have hrest := ih (List.cons_ne_nil q parts)
      have hjoin : joinSpace (p :: q :: parts) = p ++ ' ' :: joinSpace (q :: parts) := by
        simp [joinSpace]
      rw [hjoin, totalLen_cons]
      simp only [List.length_append, List.length_cons, spacedLen]
      omega

theorem joinSpace_append_join (parts : List (List Char)) {rest : List (List Char)}
    (hne : rest ≠ []) : joinSpace (parts ++ [joinSpace rest]) = joinSpace (parts ++ rest) := by
  induction parts with
  | nil => simp [joinSpace]
  | cons p parts ih =>
    have hcons : ∀ tail : List (List Char), tail ≠ [] →
        joinSpace (p :: tail) = p ++ ' ' :: joinSpace tail := by
      intro tail htail
      obtain ⟨q, tail, rfl⟩ := List.exists_cons_of_ne_nil htail
      simp [joinSpace]
    rw [List.cons_append, List.cons_append, hcons _ (by simp), hcons _ (by simp [hne]), ih]

/-! ### Overlaps -/

theorem longestFit_nil_of_neg {budget : ℤ} (hbudget : budget < 0) (sentences : List (List Char)) :
    LongestFit budget sentences [] where
  suffix := List.nil_suffix
  fits := Or.inl rfl
  longest other _ hother := by
    have hnonneg := totalLen_nonneg other
    omega

/-- The loop has taken a suffix that fits; `rest` is what lies before it, reversed. -/
theorem overlapLoop_longestFit {budget : ℤ} {sentences : List (List Char)}
    {overlap rest : List (List Char)} (hsplit : sentences = rest.reverse ++ overlap)
    (hfits : overlap = [] ∨ totalLen overlap ≤ budget) :
    LongestFit budget sentences (overlapLoop budget overlap (totalLen overlap) rest) := by
  induction rest generalizing overlap with
  | nil =>
    have hall : sentences = overlap := by simpa using hsplit
    rw [overlapLoop]
    refine ⟨⟨[], hall.symm⟩, hfits, ?_⟩
    intro other hother _
    simpa [hall] using hother.length_le
  | cons s rest ih =>
    have hnext : sentences = rest.reverse ++ (s :: overlap) := by
      rw [hsplit]
      simp
    have hlen : totalLen (s :: overlap) = totalLen overlap + (s.length + 1) := by
      rw [totalLen_cons, spacedLen]
      omega
    rw [overlapLoop]
    split
    · -- the next sentence does not fit, so no longer suffix does
      rename_i hover
      refine ⟨⟨(s :: rest).reverse, hsplit.symm⟩, hfits, ?_⟩
      intro other hother hfit
      by_contra hlonger
      have hsuffix : s :: overlap <:+ other :=
        List.suffix_of_suffix_length_le ⟨rest.reverse, hnext.symm⟩ hother
          (by simp only [List.length_cons]; omega)
      have hle := totalLen_le_of_suffix hsuffix
      omega
    · rename_i hroom
      rw [← hlen]
      exact ih hnext (Or.inr (by omega))

theorem buildOverlap_longestFit (current : List (List Char)) (budget : ℤ) :
    LongestFit budget current (buildOverlap current budget) := by
  have hall : current = current.reverse.reverse ++ [] := by simp
  exact overlapLoop_longestFit hall (Or.inl rfl)

/-! ### Sentences that are too long -/

/-- The wrapping loop has put the words seen so far into groups, the last one still open. -/
structure Wrapping (maxChars : ℤ) (seen : List (List Char)) (st : WrapState)
    (groups : List (List (List Char))) : Prop where
  chunks : st.chunks = groups.map joinSpace
  seen_eq : groups.flatten ++ st.piece = seen
  pieceLen : st.pieceLen = totalLen st.piece
  tight : ∀ g ∈ groups ++ [st.piece], totalLen g ≤ maxChars ∨ g.length ≤ 1

theorem Wrapping.step {seen : List (List Char)} {st : WrapState}
    {groups : List (List (List Char))} (h : Wrapping maxChars seen st groups)
    (word : List Char) :
    ∃ groups', Wrapping maxChars (seen ++ [word]) (wrapWord maxChars st word) groups' := by
  have hword : totalLen [word] = word.length + 1 := by simp [spacedLen]
  unfold wrapWord
  by_cases hfull : (!st.piece.isEmpty && decide (maxChars < st.pieceLen + word.length + 1)) = true
  · rw [if_pos hfull]
    refine ⟨groups ++ [st.piece], ?_, ?_, ?_, ?_⟩
    · simp [h.chunks]
    · simp [← h.seen_eq]
    · simp [spacedLen]
    · intro g hg
      rcases List.mem_append.mp hg with hg | hg
      · exact h.tight g hg
      · rw [List.mem_singleton.mp hg]
        exact Or.inr (by simp)
  · rw [if_neg hfull]
    refine ⟨groups, h.chunks, ?_, ?_, ?_⟩
    · simp [← h.seen_eq]
    · simp [h.pieceLen, hword]
    · intro g hg
      rcases List.mem_append.mp hg with hg | hg
      · exact h.tight g (List.mem_append_left _ hg)
      · rw [List.mem_singleton.mp hg]
        by_cases hempty : st.piece = []
        · exact Or.inr (by simp [hempty])
        · left
          have hroom : st.pieceLen + word.length + 1 ≤ maxChars := by
            simpa [hempty] using hfull
          rw [totalLen_append, hword, ← h.pieceLen]
          omega

theorem Wrapping.foldl {seen : List (List Char)} {st : WrapState}
    {groups : List (List (List Char))} (h : Wrapping maxChars seen st groups)
    (rest : List (List Char)) :
    ∃ groups', Wrapping maxChars (seen ++ rest) (rest.foldl (wrapWord maxChars) st) groups' := by
  induction rest generalizing seen st groups with
  | nil => exact ⟨groups, by simpa using h⟩
  | cons word rest ih =>
    obtain ⟨groups', h'⟩ := h.step word
    simpa using ih h'

/-- The groups of words a sentence that is too long is wrapped into. -/
theorem wrapSentence_groups (maxChars : ℤ) (sentence : List Char) :
    ∃ groups : List (List (List Char)),
      wrapSentence maxChars sentence = groups.map joinSpace ∧
      groups.flatten = sentence.splitOn ' ' ∧
      ∀ g ∈ groups, totalLen g ≤ maxChars ∨ g.length ≤ 1 := by
  have hstart : Wrapping maxChars [] ⟨[], [], 0⟩ [] := ⟨rfl, rfl, rfl, by simp⟩
  obtain ⟨groups, h⟩ := hstart.foldl (sentence.splitOn ' ')
  unfold wrapSentence
  generalize (sentence.splitOn ' ').foldl (wrapWord maxChars) ⟨[], [], 0⟩ = st at h
  have hseen := h.seen_eq
  by_cases hempty : st.piece = []
  · refine ⟨groups, by simp [hempty, h.chunks], by simpa [hempty] using hseen, ?_⟩
    exact fun g hg => h.tight g (List.mem_append_left _ hg)
  · exact ⟨groups ++ [st.piece], by simp [hempty, h.chunks], by simpa using hseen, h.tight⟩

/-- The parts behind the chunks of a sentence that is too long. -/
def pieceParts (sentence : List Char) (groups : List (List (List Char))) : List Part :=
  (groups.filter fun g => !(strip (joinSpace g)).isEmpty).map (Part.piece sentence)

theorem mem_pieceParts {sentence : List Char} {groups : List (List (List Char))} {p : Part}
    (hp : p ∈ pieceParts sentence groups) :
    ∃ g ∈ groups, strip (joinSpace g) ≠ [] ∧ p = .piece sentence g := by
  obtain ⟨g, hg, rfl⟩ := List.mem_map.mp hp
  have hmem := List.mem_filter.mp hg
  exact ⟨g, hmem.1, by simpa using hmem.2, rfl⟩

theorem map_text_pieceParts (sentence : List Char) (groups : List (List (List Char))) :
    (pieceParts sentence groups).map Part.text = stripped (groups.map joinSpace) := by
  rw [pieceParts, stripped, List.map_map, List.map_map, List.filter_map]
  apply List.map_congr_left
  intro g _
  simp [Part.text, Part.overlap, Part.fresh, joinSpace]

theorem words_pieceParts (sentence : List Char) (groups : List (List (List Char))) :
    (pieceParts sentence groups).flatMap (fun p => words p.fresh) =
      groups.flatten.flatMap words := by
  induction groups with
  | nil => rfl
  | cons g groups ih =>
    rw [List.flatten_cons, List.flatMap_append, ← ih, ← words_joinSpace g]
    unfold pieceParts
    by_cases hg : strip (joinSpace g) = []
    · have hnone : words (joinSpace g) = [] := words_eq_nil_iff.mpr hg
      rw [List.filter_cons_of_neg (by simp [hg]), hnone, List.nil_append]
    · rw [List.filter_cons_of_pos (by simp [hg]), List.map_cons, List.flatMap_cons]
      simp only [Part.fresh, words_strip]

theorem length_strip_le (s : List Char) : (strip s).length ≤ s.length :=
  ((List.rdropWhile_prefix _ _).length_le).trans (List.dropWhile_suffix _).length_le

theorem mem_of_mem_strip {c : Char} {s : List Char} (hc : c ∈ strip s) : c ∈ s :=
  (List.dropWhile_suffix _).subset ((List.rdropWhile_prefix _ _).subset hc)

theorem not_mem_of_mem_splitOn {c : Char} {s run : List Char} (hrun : run ∈ s.splitOn c) :
    c ∉ run := by
  induction s generalizing run with
  | nil => simp_all
  | cons d s ih =>
    obtain ⟨first, rest, hcons⟩ := List.exists_cons_of_ne_nil (List.splitOn_ne_nil c s)
    rw [List.splitOn_cons_eq_if_modifyHead] at hrun
    rw [hcons] at hrun ih
    by_cases hd : d = c
    · rw [if_pos (by simp [hd])] at hrun
      rcases List.mem_cons.mp hrun with rfl | hrun
      · exact List.not_mem_nil
      · exact ih hrun
    · rw [if_neg (by simp [hd]), List.modifyHead_cons] at hrun
      rcases List.mem_cons.mp hrun with rfl | hrun
      · have hfirst : c ∉ first := ih List.mem_cons_self
        exact fun hmem => (List.mem_cons.mp hmem).elim (fun h => hd h.symm) hfirst
      · exact ih (List.mem_cons_of_mem first hrun)

/-- A piece is short unless it is one word. -/
theorem piece_bounded {sentence : List Char} {g : List (List Char)}
    (hne : strip (joinSpace g) ≠ []) (hwords : ∀ word ∈ g, word ∈ sentence.splitOn ' ')
    (htight : totalLen g ≤ maxChars ∨ g.length ≤ 1) :
    ((strip (joinSpace g)).length : ℤ) < maxChars ∨ ' ' ∉ strip (joinSpace g) := by
  have hg : g ≠ [] := by
    rintro rfl
    exact hne rfl
  rcases htight with hfit | hone
  · left
    have hlen := length_joinSpace hg
    have hstrip := length_strip_le (joinSpace g)
    omega
  · right
    obtain ⟨word, rfl⟩ : ∃ word, g = [word] := by
      refine List.length_eq_one_iff.mp ?_
      have hpos := List.length_pos_of_ne_nil hg
      omega
    intro hmem
    have hword := not_mem_of_mem_splitOn (hwords word List.mem_cons_self)
    exact hword (by simpa [joinSpace] using mem_of_mem_strip hmem)

end Ally.Chunking
