import Ally.ExtractionRoutes
import Ally.Grouping

/-!
# The pages of extracted texts

Both extractions collect their texts in a dictionary of lists. The loop over the elements
carries a page number, so what it collects is stated over the positions of the elements.
-/

namespace Ally.ExtractionRoutes

open Grouping

/-- The page of the last element up to and including the one at `i` that carries a page
number, and `first` when there is none. -/
def pageAt (first : ℤ) (elements : List Element) (i : ℕ) : ℤ :=
  ((elements.take (i + 1)).filterMap (·.pageNumber)).getLast?.getD first

/-- The texts of the elements that are not empty, with their pages. -/
def elementTexts (first : ℤ) (elements : List Element) : List (ℤ × List Char) :=
  (elements.mapIdx fun i el => (pageAt first elements i, Text.strip el.text)).filter (·.2 ≠ [])

/-- The texts of the lines, with their pages. -/
def lineTexts (blocks : List Block) : List (ℤ × List Char) :=
  (blocks.filter (·.blockType = "LINE")).map fun block => (block.page.getD 1, block.text.getD [])

/-- The page of one group of texts. -/
def toPage (separator : List Char) (group : ℤ × List (List Char)) : Page :=
  ⟨group.1, separator.intercalate group.2, "Text"⟩

/-- One group for each page, in strictly ascending order: each text is in the group of its
page once and in order, and nothing else is. -/
structure OnItsPage (texts : List (ℤ × List Char)) (groups : List (ℤ × List (List Char))) :
    Prop where
  ascending : (groups.map Prod.fst).Pairwise (· < ·)
  inOrder : ∀ page values, (page, values) ∈ groups → values ≠ [] ∧ values = valuesOf page texts
  once : (flatten groups).Perm texts

theorem toPages_onItsPage (separator : List Char) {texts : List (ℤ × List Char)}
    {pages : OrderedDict ℤ (List (List Char))} (h : Groups texts pages) :
    ∃ groups, toPages separator pages = groups.map (toPage separator) ∧ OnItsPage texts groups := by
  have hperm := List.perm_insertionSort (fun a b : ℤ × List (List Char) => a.1 ≤ b.1) pages
  have hsorted := h.of_perm hperm
  exact ⟨_, rfl, ascending_sort h.nodup, hsorted.values, hsorted.perm⟩

theorem addText_eq_push (pageNumber : ℤ) (text : List Char)
    (pages : OrderedDict ℤ (List (List Char))) :
    addText pageNumber text pages = push pageNumber text pages := rfl

/-! ### The carried page number -/

section Elements

variable (first : ℤ) (el : Element) (elements : List Element)

@[simp] theorem pageAt_cons_zero : pageAt first (el :: elements) 0 = el.pageNumber.getD first := by
  cases h : el.pageNumber <;> simp [pageAt, h]

theorem pageAt_cons_succ (i : ℕ) :
    pageAt first (el :: elements) (i + 1) = pageAt (el.pageNumber.getD first) elements i := by
  unfold pageAt
  rw [List.take_succ_cons]
  cases h : el.pageNumber with
  | none => simp [h]
  | some pageNumber => simp [h, List.getLast?_cons]

/-- The first element decides the page of those that follow without a number. -/
theorem elementTexts_cons :
    elementTexts first (el :: elements) =
      (if Text.strip el.text = [] then [] else [(el.pageNumber.getD first, Text.strip el.text)]) ++
        elementTexts (el.pageNumber.getD first) elements := by
  unfold elementTexts
  rw [List.mapIdx_cons]
  simp only [pageAt_cons_zero, pageAt_cons_succ, List.filter_cons]
  by_cases h : Text.strip el.text = []
  · simp [h]
  · simp [h]

end Elements

/-- What the loop has collected after the rest of the elements, from any carried number. -/
theorem groups_groupElements (elements : List Element) (lastKnownPage : ℤ)
    {texts : List (ℤ × List Char)} {pages : OrderedDict ℤ (List (List Char))}
    (h : Groups texts pages) :
    Groups (texts ++ elementTexts lastKnownPage elements)
      (groupElements elements lastKnownPage pages) := by
  induction elements generalizing lastKnownPage texts pages with
  | nil => simpa [elementTexts, groupElements] using h
  | cons el elements ih =>
      rw [elementTexts_cons, ← List.append_assoc]
      apply ih
      by_cases hempty : Text.strip el.text = []
      · simpa [hempty] using h
      · simp only [hempty, if_false, addText_eq_push]
        exact h.push _ _

theorem groups_blocks (blocks : List Block) :
    Groups (lineTexts blocks) ((blocks.filter (·.blockType = "LINE")).foldl
      (fun pages block => addText (block.page.getD 1) (block.text.getD []) pages) []) := by
  have h := groups_nil.foldl_push (lineTexts blocks)
  rw [List.nil_append, lineTexts, List.foldl_map] at h
  exact h

theorem OnItsPage.nonEmpty {texts : List (ℤ × List Char)} {groups : List (ℤ × List (List Char))}
    (h : OnItsPage texts groups) :
    (∀ page values, (page, values) ∈ groups →
      values.filter (· ≠ []) = valuesOf page (texts.filter (·.2 ≠ []))) ∧
    ((flatten groups).filter (·.2 ≠ [])).Perm (texts.filter (·.2 ≠ [])) := by
  refine ⟨fun page values hmem => ?_, h.once.filter _⟩
  rw [(h.inOrder page values hmem).2, filter_valuesOf]

/-- The pages come out in strictly ascending order. Each text of an Unstructured element that
is not empty is on the page of the last element up to it that carries a number, and each line
of Textract on its own page, once and in order; besides these, only lines without a text are
joined. -/
theorem texts_on_their_pages :
    (∀ (x : Extractors) (s : Source) (elements : List Element),
      x.partition s.document = .ok elements → ∃ groups,
        extractWithUnstructured x s =
          ([.partition], .ok (groups.map (toPage "\n\n".toList))) ∧
        OnItsPage (elementTexts 1 elements) groups) ∧
    ∀ blocks : List Block, ∃ groups,
      blocksToPages blocks = groups.map (toPage ['\n']) ∧
      OnItsPage (lineTexts blocks) groups ∧
      (∀ page values, (page, values) ∈ groups →
        values.filter (· ≠ []) = valuesOf page ((lineTexts blocks).filter (·.2 ≠ []))) ∧
      ((flatten groups).filter (·.2 ≠ [])).Perm ((lineTexts blocks).filter (·.2 ≠ [])) := by
  constructor
  · intro x s elements hpartition
    obtain ⟨groups, hpages, honpage⟩ :=
      toPages_onItsPage "\n\n".toList (groups_groupElements elements 1 groups_nil)
    refine ⟨groups, ?_, honpage⟩
    simp only [extractWithUnstructured, hpartition, hpages]
  · intro blocks
    obtain ⟨groups, hpages, honpage⟩ := toPages_onItsPage ['\n'] (groups_blocks blocks)
    exact ⟨groups, hpages, honpage, honpage.nonEmpty⟩

/-- An element before the first page number, a footer without one, an empty element that
carries one, and an element after it. -/
def mixedElements : List Element :=
  [⟨none, "Cover".toList⟩, ⟨some 3, "Body".toList⟩, ⟨none, "Footer ".toList⟩, ⟨some 2, " ".toList⟩,
    ⟨none, "Note".toList⟩]

example : toPages "\n\n".toList (groupElements mixedElements 1 []) =
    [⟨1, "Cover".toList, "Text"⟩, ⟨2, "Note".toList, "Text"⟩,
      ⟨3, "Body\n\nFooter".toList, "Text"⟩] := by decide

theorem texts_on_their_pages_mixedElements :
    ∃ groups,
      extractWithUnstructured ⟨fun _ => true, fun _ => .ok mixedElements, fun _ => .ok [],
          fun _ => .ok [], fun _ => .ok [], true⟩ ⟨"a.pdf".toList, [37, 80], ".pdf".toList⟩ =
        ([.partition], .ok (groups.map (toPage "\n\n".toList))) ∧
      OnItsPage [(1, "Cover".toList), (3, "Body".toList), (3, "Footer".toList),
        (2, "Note".toList)] groups := by
  have htexts : elementTexts 1 mixedElements = [(1, "Cover".toList), (3, "Body".toList),
      (3, "Footer".toList), (2, "Note".toList)] := by decide
  rw [← htexts]
  exact texts_on_their_pages.1 _ _ _ rfl

end Ally.ExtractionRoutes
