import Ally.ChunkParts

/-!
# Chunking loses nothing and splits no word

The invariant of the packing loop, and what follows of the chunks of a page and of a
document.
-/

namespace Ally.Chunking

open Text

variable {maxChars overlapChars : ℤ}

/-! ### Dividing one more sentence -/

theorem Part.Of.mono {sentences : List (List Char)} {p : Part} (h : p.Of maxChars sentences)
    (more : List (List Char)) : p.Of maxChars (sentences ++ more) := by
  have hgrow : sentences <:+: sentences ++ more := (List.prefix_append sentences more).isInfix
  cases p with
  | packed overlap whole => exact ⟨h.1, h.2.1.trans hgrow, h.2.2⟩
  | piece sentence run => exact ⟨List.mem_append_left _ h.1, h.2⟩

theorem Divides.nil : Divides maxChars overlapChars [] [] :=
  ⟨by simp, by simp, by simp, by simp, .nil, rfl⟩

/-- The parts of one more sentence, when they start a chunk of their own. -/
theorem Divides.append {sentences : List (List Char)} {parts news : List Part}
    {sentence : List Char} (h : Divides maxChars overlapChars sentences parts)
    (hmade : ∀ p ∈ news, p.Of maxChars (sentences ++ [sentence]))
    (hnonempty : ∀ p ∈ news, words p.fresh ≠ [])
    (hbounded : ∀ p ∈ news, (p.text.length : ℤ) < maxChars ∨ ' ' ∉ p.text)
    (hfirst : parts = [] → ∀ p ∈ news.head?, p.overlap = [])
    (hlink : ∀ p ∈ parts.getLast?, ∀ q ∈ news.head?, Carried maxChars overlapChars p q)
    (hcarried : news.IsChain (Carried maxChars overlapChars))
    (hcomplete : news.flatMap (fun p => words p.fresh) = words sentence) :
    Divides maxChars overlapChars (sentences ++ [sentence]) (parts ++ news) where
  made p hp := (List.mem_append.mp hp).elim (fun hp => (h.made p hp).mono _) (hmade p)
  nonempty p hp := (List.mem_append.mp hp).elim (h.nonempty p) (hnonempty p)
  bounded p hp := (List.mem_append.mp hp).elim (h.bounded p) (hbounded p)
  first := by
    cases parts with
    | nil => simpa using hfirst rfl
    | cons p parts => simpa using h.first
  carried := List.isChain_append.mpr ⟨h.carried, hcarried, hlink⟩
  complete := by
    rw [List.flatMap_append, h.complete, hcomplete]
    simp

/-- The parts when one more sentence joins the last chunk. -/
theorem Divides.extend {sentences : List (List Char)} {closed : List Part}
    {overlap fresh : List (List Char)} {sentence : List Char}
    (h : Divides maxChars overlapChars sentences (closed ++ [Part.packed overlap fresh]))
    (hne : fresh ≠ []) (hrecent : fresh ++ [sentence] <:+ sentences ++ [sentence])
    (hsentence : Trimmed sentence) (hshort : ∀ s ∈ fresh ++ [sentence], spacedLen s ≤ maxChars)
    (hbounded : ((Part.packed overlap (fresh ++ [sentence])).text.length : ℤ) < maxChars) :
    Divides maxChars overlapChars (sentences ++ [sentence])
      (closed ++ [Part.packed overlap (fresh ++ [sentence])]) := by
  have hwords (whole : List (List Char)) :
      words (Part.packed overlap whole).fresh = whole.flatMap words := words_joinSpace whole
  obtain ⟨hchain, -, hlink⟩ := List.isChain_append.mp h.carried
  refine ⟨?_, ?_, ?_, ?_, ?_, ?_⟩
  · intro p hp
    rcases List.mem_append.mp hp with hp | hp
    · exact (h.made p (List.mem_append_left _ hp)).mono _
    · rw [List.mem_singleton.mp hp]
      exact ⟨by simp, hrecent.isInfix, hshort⟩
  · intro p hp
    rcases List.mem_append.mp hp with hp | hp
    · exact h.nonempty p (List.mem_append_left _ hp)
    · rw [List.mem_singleton.mp hp, hwords, List.flatMap_append]
      simp [hsentence.words_ne_nil]
  · intro p hp
    rcases List.mem_append.mp hp with hp | hp
    · exact h.bounded p (List.mem_append_left _ hp)
    · rw [List.mem_singleton.mp hp]
      exact Or.inl hbounded
  · have hfirst := h.first
    cases closed with
    | nil => simpa [Part.overlap] using hfirst
    | cons p closed => simpa using hfirst
  · refine List.isChain_append.mpr ⟨hchain, List.isChain_singleton _, ?_⟩
    intro p hp q hq
    rw [List.head?_cons, Option.mem_some_iff] at hq
    have hcarried := hlink p hp (.packed overlap fresh) rfl
    obtain ⟨s, rest, hcons⟩ := List.exists_cons_of_ne_nil hne
    subst q
    simpa [Carried, Part.first, Part.overlap, hcons] using hcarried
  · have hcomplete := h.complete
    rw [List.flatMap_append, List.flatMap_singleton, hwords] at hcomplete
    rw [List.flatMap_append, List.flatMap_singleton, hwords, List.flatMap_append,
      List.flatMap_append, ← hcomplete, List.append_assoc]

/-- Nothing fits next to a sentence that is too long. -/
theorem carried_piece (p : Part) {sentence : List Char} (run : List (List Char))
    (hlong : maxChars < spacedLen sentence) :
    Carried maxChars overlapChars p (.piece sentence run) := by
  refine longestFit_nil_of_neg ?_ p.sentences
  have hmin := min_le_right overlapChars (maxChars - spacedLen sentence)
  simp only [Part.first]
  omega

/-- No sentence of a piece fits. -/
theorem carried_after_piece {sentence : List Char} (run : List (List Char))
    (hlong : maxChars < spacedLen sentence) (whole : List (List Char)) :
    Carried maxChars overlapChars (.piece sentence run) (.packed [] whole) := by
  refine ⟨List.nil_suffix, Or.inl rfl, ?_⟩
  intro other hother hfit
  by_contra hlonger
  have hne : other ≠ [] := by
    rintro rfl
    exact hlonger le_rfl
  have hone : other = [sentence] := by
    simp only [Part.sentences] at hother
    split at hother
    · rcases List.suffix_cons_iff.mp hother with heq | hnil
      · exact heq
      · exact absurd (List.suffix_nil.mp hnil) hne
    · exact absurd (List.suffix_nil.mp hother) hne
  have hmin := min_le_right overlapChars (maxChars - spacedLen (Part.packed [] whole).first)
  have hpos := spacedLen_pos (Part.packed [] whole).first
  rw [hone, totalLen_cons, totalLen_nil] at hfit
  omega

theorem Divides.append_pieces {sentences : List (List Char)} {parts : List Part}
    {sentence : List Char} {groups : List (List (List Char))}
    (h : Divides maxChars overlapChars sentences parts) (hlong : maxChars < spacedLen sentence)
    (hgroups : groups.flatten = sentence.splitOn ' ')
    (htight : ∀ g ∈ groups, totalLen g ≤ maxChars ∨ g.length ≤ 1) :
    Divides maxChars overlapChars (sentences ++ [sentence])
      (parts ++ pieceParts sentence groups) := by
  have hruns : ∀ g ∈ groups, g <:+: sentence.splitOn ' ' := fun g hg =>
    hgroups ▸ List.infix_of_mem_flatten hg
  refine h.append ?_ ?_ ?_ ?_ ?_ ?_ ?_
  · intro p hp
    obtain ⟨g, hg, -, rfl⟩ := mem_pieceParts hp
    exact ⟨by simp, hlong, hruns g hg⟩
  · intro p hp
    obtain ⟨g, -, hne, rfl⟩ := mem_pieceParts hp
    rw [Part.fresh, words_strip]
    exact fun hnone => hne (words_eq_nil_iff.mp hnone)
  · intro p hp
    obtain ⟨g, hg, hne, rfl⟩ := mem_pieceParts hp
    have hbound := piece_bounded hne (fun word hword => (hruns g hg).subset hword) (htight g hg)
    simpa [Part.text, Part.overlap, Part.fresh, joinSpace] using hbound
  · intro _ p hp
    obtain ⟨g, -, -, rfl⟩ := mem_pieceParts (List.mem_of_mem_head? hp)
    rfl
  · intro p _ q hq
    obtain ⟨g, -, -, rfl⟩ := mem_pieceParts (List.mem_of_mem_head? hq)
    exact carried_piece p g hlong
  · refine List.Pairwise.isChain (List.pairwise_map.mpr ?_)
    exact List.pairwise_of_forall fun g g' => carried_piece _ g' hlong
  · rw [words_pieceParts, hgroups, words_splitOn (by decide)]

/-! ### The packing loop -/

/-- The chunk being filled, when it has a sentence. -/
def openPart (overlap fresh : List (List Char)) : List Part :=
  if fresh = [] then [] else [Part.packed overlap fresh]

@[simp] theorem openPart_nil (overlap : List (List Char)) : openPart overlap [] = [] := rfl

theorem openPart_of_ne (overlap : List (List Char)) {fresh : List (List Char)} (hne : fresh ≠ []) :
    openPart overlap fresh = [Part.packed overlap fresh] :=
  if_neg hne

theorem text_sentences (overlap : List (List Char)) {fresh : List (List Char)}
    (hne : fresh ≠ []) :
    (Part.packed overlap fresh).text = joinSpace (overlap ++ fresh) :=
  joinSpace_append_join overlap hne

/-- The local variables of the loop against the parts: `closed` are the ones behind the
chunks flushed so far. -/
structure Packing (maxChars overlapChars : ℤ) (seen : List (List Char)) (st : PackState)
    (closed : List Part) (overlap fresh : List (List Char)) : Prop where
  chunks : stripped st.chunks = closed.map Part.text
  current : st.current = overlap ++ fresh
  currentLen : st.currentLen = totalLen st.current
  trimmed : ∀ s ∈ st.current, Trimmed s
  fits : fresh ≠ [] → totalLen st.current ≤ maxChars
  idle : fresh = [] → overlap = [] ∧ ∀ p ∈ closed.getLast?, ∃ sentence run,
    p = (.piece sentence run) ∧ maxChars < spacedLen sentence
  recent : fresh <:+ seen
  divides : Divides maxChars overlapChars seen (closed ++ openPart overlap fresh)

theorem stripped_append (parts parts' : List (List Char)) :
    stripped (parts ++ parts') = stripped parts ++ stripped parts' := by
  simp [stripped]

theorem stripped_singleton {s : List Char} (hs : Trimmed s) : stripped [s] = [s] := by
  simp [stripped, hs.strip, hs.ne_nil]

section

variable {seen : List (List Char)} {st : PackState} {closed : List Part}
  {overlap fresh : List (List Char)}

theorem Packing.fresh_eq_nil_iff (h : Packing maxChars overlapChars seen st closed overlap fresh) :
    fresh = [] ↔ st.current = [] := by
  rw [h.current]
  constructor
  · intro hnil
    simp [hnil, (h.idle hnil).1]
  · exact fun hnil => (List.append_eq_nil_iff.mp hnil).2

theorem Packing.stripped_flushed
    (h : Packing maxChars overlapChars seen st closed overlap fresh) :
    stripped st.flushed = (closed ++ openPart overlap fresh).map Part.text := by
  by_cases hnil : fresh = []
  · have hcurrent := h.fresh_eq_nil_iff.mp hnil
    simp [PackState.flushed, hcurrent, openPart, hnil, h.chunks]
  · have hcurrent : st.current ≠ [] := fun hc => hnil (h.fresh_eq_nil_iff.mpr hc)
    have htrimmed := Trimmed.joinSpace h.trimmed hcurrent
    rw [PackState.flushed, if_neg (by simp [hcurrent]), stripped_append, h.chunks,
      stripped_singleton htrimmed, openPart_of_ne overlap hnil, List.map_append, List.map_singleton,
      text_sentences overlap hnil, h.current]

theorem sentences_bounded {overlap fresh : List (List Char)} (hne : fresh ≠ [])
    (hfits : totalLen (overlap ++ fresh) ≤ maxChars) :
    ((Part.packed overlap fresh).text.length : ℤ) < maxChars := by
  have hne' : overlap ++ fresh ≠ [] := by simp [hne]
  have hlen := length_joinSpace hne'
  rw [text_sentences overlap hne]
  omega

/-- A sentence that is too long closes the open chunk and fills chunks of its own. -/
theorem Packing.wrap (h : Packing maxChars overlapChars seen st closed overlap fresh)
    {sentence : List Char} (hsentence : Trimmed sentence)
    (hlong : maxChars < spacedLen sentence) :
    ∃ closed', Packing maxChars overlapChars (seen ++ [sentence])
      ⟨st.flushed ++ wrapSentence maxChars sentence, [], 0⟩ closed' [] [] := by
  obtain ⟨groups, hwrap, hflatten, htight⟩ := wrapSentence_groups maxChars sentence
  have hdivides := h.divides.append_pieces hlong hflatten htight
  refine ⟨closed ++ openPart overlap fresh ++ pieceParts sentence groups, ?_, rfl, rfl, by simp,
    fun hne => absurd rfl hne, fun _ => ⟨rfl, ?_⟩, List.nil_suffix, ?_⟩
  · rw [stripped_append, h.stripped_flushed, hwrap, ← map_text_pieceParts sentence,
      ← List.map_append]
  · -- the last chunk is a piece, as the sentence has a word
    have hpieces : pieceParts sentence groups ≠ [] := by
      intro hnone
      have hwords := words_pieceParts sentence groups
      rw [hnone, hflatten, words_splitOn (by decide)] at hwords
      exact hsentence.words_ne_nil hwords.symm
    intro p hp
    rw [List.getLast?_append_of_ne_nil _ hpieces] at hp
    obtain ⟨g, -, -, rfl⟩ := mem_pieceParts (List.mem_of_getLast? hp)
    exact ⟨sentence, g, rfl, hlong⟩
  · simpa [openPart] using hdivides

/-- A sentence without room closes the open chunk and starts the next one. -/
theorem Packing.flush (h : Packing maxChars overlapChars seen st closed overlap fresh)
    {sentence : List Char} (hsentence : Trimmed sentence)
    (hshort : spacedLen sentence ≤ maxChars) (hne : fresh ≠ [])
    {carried : List (List Char)}
    (hcarried : LongestFit (min overlapChars (maxChars - spacedLen sentence)) st.current carried) :
    Packing maxChars overlapChars (seen ++ [sentence])
      ⟨st.chunks ++ [joinSpace st.current], carried ++ [sentence],
        totalLen carried + spacedLen sentence⟩
      (closed ++ openPart overlap fresh) carried [sentence] := by
  have hcurrent : st.current ≠ [] := fun hc => hne (h.fresh_eq_nil_iff.mpr hc)
  have hflushed := h.stripped_flushed
  rw [PackState.flushed, if_neg (by simp [hcurrent])] at hflushed
  have hroom : totalLen carried + spacedLen sentence ≤ maxChars := by
    rcases hcarried.fits with hnil | hfit
    · simpa [hnil] using hshort
    · have hmin := min_le_right overlapChars (maxChars - spacedLen sentence)
      omega
  have hlen : totalLen (carried ++ [sentence]) ≤ maxChars := by simpa using hroom
  refine ⟨hflushed, rfl, by simp, ?_, fun _ => hlen, fun hnil => by simp at hnil,
    List.suffix_append _ _, ?_⟩
  · intro s hs
    rcases List.mem_append.mp hs with hs | hs
    · exact h.trimmed s (hcarried.suffix.subset hs)
    · rwa [List.mem_singleton.mp hs]
  · have hopen := openPart_of_ne overlap hne
    rw [openPart_of_ne carried (List.cons_ne_nil sentence [])]
    refine h.divides.append ?_ ?_ ?_ ?_ ?_ (List.isChain_singleton _) ?_
    · simpa [Part.Of] using ⟨⟨seen, [], by simp⟩, hshort⟩
    · simpa [Part.fresh, joinSpace] using hsentence.words_ne_nil
    · simpa using Or.inl (sentences_bounded (List.cons_ne_nil sentence []) hlen)
    · intro hnone
      simp [hopen] at hnone
    · intro p hp q hq
      rw [hopen, List.getLast?_concat, Option.mem_some_iff] at hp
      rw [List.head?_cons, Option.mem_some_iff] at hq
      subst p q
      simpa [Carried, Part.sentences, Part.overlap, Part.first, h.current] using hcarried
    · simp [Part.fresh, joinSpace]

/-- A sentence with room joins the open chunk. -/
theorem Packing.extend (h : Packing maxChars overlapChars seen st closed overlap fresh)
    {sentence : List Char} (hsentence : Trimmed sentence)
    (hroom : totalLen st.current + spacedLen sentence ≤ maxChars) :
    Packing maxChars overlapChars (seen ++ [sentence])
      ⟨st.chunks, st.current ++ [sentence], st.currentLen + spacedLen sentence⟩
      closed overlap (fresh ++ [sentence]) := by
  have hlen : totalLen (overlap ++ (fresh ++ [sentence])) ≤ maxChars := by
    rw [h.current] at hroom
    simp only [totalLen_append, totalLen_cons, totalLen_nil] at hroom ⊢
    omega
  have hrecent : fresh ++ [sentence] <:+ seen ++ [sentence] := by
    obtain ⟨front, hfront⟩ := h.recent
    exact ⟨front, by rw [← hfront]; simp⟩
  refine ⟨h.chunks, by simp [h.current], by simp [h.currentLen], ?_, fun _ => ?_,
    fun hnil => by simp at hnil, hrecent, ?_⟩
  · intro s hs
    rcases List.mem_append.mp hs with hs | hs
    · exact h.trimmed s hs
    · rwa [List.mem_singleton.mp hs]
  · rw [h.current]
    simpa using hlen
  · have hne : fresh ++ [sentence] ≠ [] := by simp
    have hbounded := sentences_bounded hne hlen
    have hshort : ∀ s ∈ fresh ++ [sentence], spacedLen s ≤ maxChars := by
      intro s hs
      obtain ⟨a, b, hab⟩ := List.append_of_mem (List.mem_append_right overlap hs)
      have ha := totalLen_nonneg a
      have hb := totalLen_nonneg b
      rw [hab, totalLen_append, totalLen_cons] at hlen
      omega
    rw [openPart_of_ne overlap (by simp)]
    have hdivides := h.divides
    by_cases hnil : fresh = []
    · -- the sentence starts a chunk, with nothing to repeat
      subst hnil
      obtain ⟨rfl, hlast⟩ := h.idle rfl
      rw [openPart_nil, List.append_nil] at hdivides
      refine hdivides.append ?_ ?_ ?_ ?_ ?_ (List.isChain_singleton _) ?_
      · simpa [Part.Of] using ⟨⟨seen, [], by simp⟩, hshort sentence (by simp)⟩
      · simpa [Part.fresh, joinSpace] using hsentence.words_ne_nil
      · simpa using Or.inl hbounded
      · simp [Part.overlap]
      · intro p hp q hq
        rw [List.head?_cons, Option.mem_some_iff] at hq
        obtain ⟨long, run, rfl, hlong⟩ := hlast p hp
        subst q
        exact carried_after_piece run hlong _
      · simp [Part.fresh, joinSpace]
    · rw [openPart_of_ne overlap hnil] at hdivides
      exact hdivides.extend hnil hrecent hsentence hshort hbounded

/-- One round of the loop. -/
theorem Packing.step (h : Packing maxChars overlapChars seen st closed overlap fresh)
    {sentence : List Char} (hsentence : Trimmed sentence) :
    ∃ closed' overlap' fresh', Packing maxChars overlapChars (seen ++ [sentence])
      (packSentence maxChars overlapChars st sentence) closed' overlap' fresh' := by
  unfold packSentence
  by_cases hlong : maxChars < spacedLen sentence
  · obtain ⟨closed', h'⟩ := h.wrap hsentence hlong
    simp only [hlong, if_true]
    exact ⟨closed', [], [], h'⟩
  · have hshort : spacedLen sentence ≤ maxChars := by omega
    simp only [hlong, if_false]
    by_cases hfull :
        (!st.current.isEmpty && decide (maxChars < st.currentLen + spacedLen sentence)) = true
    · have hne : fresh ≠ [] := by
        intro hnil
        simp [h.fresh_eq_nil_iff.mp hnil] at hfull
      simp only [hfull, if_true]
      exact ⟨_, _, _, h.flush hsentence hshort hne (buildOverlap_longestFit _ _)⟩
    · have hroom : totalLen st.current + spacedLen sentence ≤ maxChars := by
        by_cases hcurrent : st.current = []
        · simpa [hcurrent] using hshort
        · rw [← h.currentLen]
          simpa [hcurrent] using hfull
      simp only [hfull, Bool.false_eq_true, if_false]
      exact ⟨_, _, _, h.extend hsentence hroom⟩

theorem Packing.foldl (h : Packing maxChars overlapChars seen st closed overlap fresh)
    {rest : List (List Char)} (hrest : ∀ s ∈ rest, Trimmed s) :
    ∃ closed' overlap' fresh', Packing maxChars overlapChars (seen ++ rest)
      (rest.foldl (packSentence maxChars overlapChars) st) closed' overlap' fresh' := by
  induction rest generalizing seen st closed overlap fresh with
  | nil => exact ⟨closed, overlap, fresh, by simpa using h⟩
  | cons sentence rest ih =>
    obtain ⟨closed', overlap', fresh', h'⟩ := h.step (hrest sentence List.mem_cons_self)
    simpa using ih h' fun s hs => hrest s (List.mem_cons_of_mem sentence hs)

end

theorem packSentences_divides (maxChars overlapChars : ℤ) {sentences : List (List Char)}
    (hsentences : ∀ s ∈ sentences, Trimmed s) :
    ∃ parts, stripped (packSentences maxChars overlapChars sentences) = parts.map Part.text ∧
      Divides maxChars overlapChars sentences parts := by
  have hstart : Packing maxChars overlapChars [] ⟨[], [], 0⟩ [] [] [] :=
    ⟨rfl, rfl, rfl, by simp, by simp, by simp, List.nil_suffix, Divides.nil⟩
  obtain ⟨closed, overlap, fresh, h⟩ := hstart.foldl hsentences
  exact ⟨closed ++ openPart overlap fresh, h.stripped_flushed, h.divides⟩

/-! ### Sentences of a text -/

theorem words_stripped (parts : List (List Char)) :
    (stripped parts).flatMap words = parts.flatMap words := by
  induction parts with
  | nil => rfl
  | cons p parts ih =>
    have hsplit : stripped (p :: parts) = stripped [p] ++ stripped parts := stripped_append [p] parts
    rw [hsplit, List.flatMap_append, ih, List.flatMap_cons]
    congr 1
    by_cases hp : strip p = []
    · simp [stripped, hp, words_eq_nil_iff.mpr hp]
    · simp [stripped, hp]

theorem trimmed_of_mem_stripped {parts : List (List Char)} {s : List Char}
    (hs : s ∈ stripped parts) : Trimmed s := by
  obtain ⟨hmem, hne⟩ := List.mem_filter.mp hs
  obtain ⟨p, -, rfl⟩ := List.mem_map.mp hmem
  exact trimmed_strip (by simpa using hne)

theorem words_splitBlankLines (acc text : List Char) :
    (splitBlankLines acc text).flatMap words = words (acc ++ text) := by
  have hnewline : isSpace '\n' = true := by decide
  fun_induction splitBlankLines acc text with
  | case1 acc rest ih =>
    rw [List.flatMap_cons, ih, words_append_space hnewline, words_cons_space hnewline]
    rfl
  | case2 acc c rest _ ih =>
    rw [ih]
    simp
  | case3 acc => simp

theorem words_splitBoundaries (inMatch : Bool) (acc text : List Char)
    (hacc : inMatch = true → acc = []) :
    (splitBoundaries inMatch acc text).flatMap words = words (acc ++ text) := by
  fun_induction splitBoundaries inMatch acc text with
  | case1 inMatch acc => simp
  | case2 acc c rest hc ih =>
    rw [ih hacc, hacc rfl]
    exact (words_cons_space hc rest).symm
  | case3 inMatch acc c rest hc _ _ ih =>
    rw [List.flatMap_cons, ih fun _ => rfl, words_append_space hc]
    rfl
  | case4 inMatch acc c rest _ _ _ ih =>
    rw [ih nofun]
    simp
  | case5 inMatch acc c rest _ ih =>
    rw [ih nofun]
    simp

theorem words_lineSentences (line : List Char) :
    (lineSentences line).flatMap words = words line := by
  unfold lineSentences
  by_cases hline : strip line = []
  · simp [hline, words_eq_nil_iff.mpr hline]
  · rw [if_neg (by simpa using hline), words_stripped, words_splitBoundaries false [] _ (by simp),
      List.nil_append, words_strip]

theorem words_paragraphs (text : List Char) :
    (paragraphs text).flatMap words = words text := by
  unfold paragraphs
  by_cases hnone : (stripped (splitBlankLines [] text)).isEmpty = true
  · rw [if_pos hnone, words_stripped, List.flatMap_singleton]
  · rw [if_neg hnone, words_stripped, words_splitBlankLines, List.nil_append]

/-- The sentences of a text have its words. -/
theorem words_splitIntoSentences (text : List Char) :
    (splitIntoSentences text).flatMap words = words text := by
  have hparagraph (paragraph : List Char) :
      ((paragraph.splitOn '\n').flatMap lineSentences).flatMap words = words paragraph := by
    rw [List.flatMap_assoc]
    simp only [words_lineSentences]
    exact words_splitOn (by decide) paragraph
  rw [splitIntoSentences, List.flatMap_assoc]
  simp only [hparagraph]
  exact words_paragraphs text

theorem trimmed_of_mem_splitIntoSentences {text s : List Char}
    (hs : s ∈ splitIntoSentences text) : Trimmed s := by
  obtain ⟨paragraph, -, hs⟩ := List.mem_flatMap.mp hs
  obtain ⟨line, -, hs⟩ := List.mem_flatMap.mp hs
  by_cases hline : (strip line).isEmpty = true
  · simp [lineSentences, hline] at hs
  · simp only [lineSentences, hline, Bool.false_eq_true, if_false] at hs
    exact trimmed_of_mem_stripped hs

/-! ### Pages -/

theorem pageChunks_divides (maxChars overlapChars : ℤ) (text : List Char) :
    ∃ parts, pageChunks maxChars overlapChars text = parts.map Part.text ∧
      Divides maxChars overlapChars (splitIntoSentences text) parts :=
  packSentences_divides maxChars overlapChars fun _ => trimmed_of_mem_splitIntoSentences

theorem filter_flatMap_fresh {text : List Char} {parts : List Part}
    (h : Divides maxChars overlapChars (splitIntoSentences text) parts) :
    (parts.flatMap Part.fresh).filter (fun c => !isSpace c) = text.filter fun c => !isSpace c := by
  have hcomplete := congrArg List.flatten (h.complete.trans (words_splitIntoSentences text))
  rw [flatten_words, List.flatMap_def, List.flatten_flatten, List.map_map] at hcomplete
  rw [List.filter_flatMap, List.flatMap_def, ← hcomplete]
  congr 1
  exact List.map_congr_left fun p _ => (flatten_words p.fresh).symm

/-- Every chunk is made of a part of its own page: an overlap carried from the chunk flushed
before it and new text, and the new texts hold the page without its whitespace. -/
theorem chunkPages_loses_nothing {N : Type} (pages : List (Page N)) (maxChars overlapChars : ℤ) :
    ∃ parts : List Char → List Part,
      chunkPages pages maxChars overlapChars = pages.flatMap (fun page =>
        (parts page.text).map fun p => ⟨joinSpace (p.overlap ++ [p.fresh]), page.pageNumber⟩) ∧
      ∀ text,
        (∀ p ∈ parts text, p.Of maxChars (splitIntoSentences text) ∧ words p.fresh ≠ []) ∧
        (∀ p ∈ (parts text).head?, p.overlap = []) ∧
        (parts text).IsChain (Carried maxChars overlapChars) ∧
        ((parts text).flatMap Part.fresh).filter (fun c => !isSpace c) =
          text.filter fun c => !isSpace c := by
  choose parts hparts using pageChunks_divides maxChars overlapChars
  refine ⟨parts, ?_, fun text => ?_⟩
  · simp only [chunkPages, (hparts _).1, List.map_map]
    rfl
  · have h := (hparts text).2
    exact ⟨fun p hp => ⟨h.made p hp, h.nonempty p hp⟩, h.first, h.carried, filter_flatMap_fresh h⟩

/-- The words of each chunk are the last words of the chunk before it and then a group of new
ones. -/
def WholeRuns : List (List Char) → List (List Char) → List (List (List Char)) → Prop
  | _, [], [] => True
  | before, chunk :: chunks, group :: groups =>
      group ≠ [] ∧ (∃ repeated, repeated <:+ before ∧ words chunk = repeated ++ group) ∧
        WholeRuns (words chunk) chunks groups
  | _, _, _ => False

theorem words_text (p : Part) : words p.text = p.overlap.flatMap words ++ words p.fresh := by
  simp [Part.text]

theorem words_sentences_suffix (p : Part) : p.sentences.flatMap words <:+ words p.text := by
  rw [words_text]
  cases p with
  | packed overlap whole =>
    simp [Part.sentences, Part.overlap, Part.fresh]
  | piece sentence run =>
    by_cases hrun : run = sentence.splitOn ' '
    · have hspace : isSpace ' ' = true := by decide
      simp [Part.sentences, Part.overlap, Part.fresh, hrun, words_splitOn hspace]
    · simp [Part.sentences, hrun]

theorem wholeRuns_parts {parts : List Part} {before : List (List Char)}
    (hcarried : parts.IsChain (Carried maxChars overlapChars))
    (hfirst : ∀ p ∈ parts.head?, p.overlap.flatMap words <:+ before)
    (hnonempty : ∀ p ∈ parts, words p.fresh ≠ []) :
    WholeRuns before (parts.map Part.text) (parts.map fun p => words p.fresh) := by
  induction parts generalizing before with
  | nil => trivial
  | cons p parts ih =>
    refine ⟨hnonempty p List.mem_cons_self, ⟨_, hfirst p rfl, words_text p⟩, ?_⟩
    refine ih hcarried.tail ?_ fun q hq => hnonempty q (List.mem_cons_of_mem p hq)
    intro q hq
    have hlink : Carried maxChars overlapChars p q := (List.isChain_cons.mp hcarried).1 q hq
    obtain ⟨front, hfront⟩ := hlink.suffix
    refine List.IsSuffix.trans ?_ (words_sentences_suffix p)
    exact ⟨front.flatMap words, by rw [← List.flatMap_append, hfront]⟩

/-- A chunk is shorter than `max_chars` unless it is one word without a space, and the words of
the page go whole into the chunks, in groups. -/
theorem chunkPages_bounded {N : Type} (page : Page N) (maxChars overlapChars : ℤ) :
    (∀ chunk ∈ chunkPages [page] maxChars overlapChars,
      (chunk.text.length : ℤ) < maxChars ∨ ' ' ∉ chunk.text) ∧
    ∃ groups, groups.flatten = words page.text ∧
      WholeRuns [] ((chunkPages [page] maxChars overlapChars).map Chunk.text) groups := by
  obtain ⟨parts, hparts, h⟩ := pageChunks_divides maxChars overlapChars page.text
  have htexts : (chunkPages [page] maxChars overlapChars).map Chunk.text = parts.map Part.text := by
    simp [chunkPages, hparts]
  refine ⟨?_, parts.map fun p => words p.fresh, ?_, ?_⟩
  · intro chunk hchunk
    have hmem : chunk.text ∈ parts.map Part.text := htexts ▸ List.mem_map_of_mem hchunk
    obtain ⟨p, hp, htext⟩ := List.mem_map.mp hmem
    exact htext ▸ h.bounded p hp
  · rw [← List.flatMap_def, h.complete, words_splitIntoSentences]
  · rw [htexts]
    refine wholeRuns_parts h.carried ?_ h.nonempty
    intro p hp
    simp [h.first p hp]

end Ally.Chunking
