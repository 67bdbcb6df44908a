import Ally.Text
import Mathlib.Data.List.Infix
import Mathlib.Tactic

/-!
# Chunking

`_split_into_sentences`, `_pack_sentences` and `_chunk_pages_sync`, on strings as lists
of code points. `max_chars` and `overlap_chars` are any integers.
-/

namespace Ally.Chunking

open Text

/-! ### Sentences -/

/-- `text.split("\n\n")`, with the characters since the last separator. -/
def splitBlankLines : List Char → List Char → List (List Char)
  | acc, '\n' :: '\n' :: rest => acc :: splitBlankLines [] rest
  | acc, c :: rest => splitBlankLines (acc ++ [c]) rest
  | acc, [] => [acc]

/-- The lookbehind of `_SENTENCE_BOUNDARY_RE`. -/
def endsSentence (acc : List Char) : Bool :=
  match acc.getLast? with
  | some c => c = '.' || c = '!' || c = '?'
  | none => false

/-- `_SENTENCE_BOUNDARY_RE.split(line)`, with the characters since the last match. The flag
is set while the run of whitespace of a match lasts. -/
def splitBoundaries (inMatch : Bool) (acc : List Char) : List Char → List (List Char)
  | [] => [acc]
  | c :: rest =>
      if isSpace c = true then
        if inMatch = true then splitBoundaries true acc rest
        else if endsSentence acc = true then acc :: splitBoundaries true [] rest
        else splitBoundaries false (acc ++ [c]) rest
      else splitBoundaries false (acc ++ [c]) rest

/-- `[p.strip() for p in parts if p.strip()]`. -/
def stripped (parts : List (List Char)) : List (List Char) :=
  (parts.map strip).filter fun p => !p.isEmpty

/-- The paragraphs, with the fallback to the whole text. -/
def paragraphs (text : List Char) : List (List Char) :=
  let found := stripped (splitBlankLines [] text)
  if found.isEmpty then stripped [text] else found

/-- One round of the loop over the lines of a paragraph. -/
def lineSentences (line : List Char) : List (List Char) :=
  let line := strip line
  if line.isEmpty then [] else stripped (splitBoundaries false [] line)

/-- `_split_into_sentences`. -/
def splitIntoSentences (text : List Char) : List (List Char) :=
  (paragraphs text).flatMap fun paragraph => (paragraph.splitOn '\n').flatMap lineSentences

/-! ### Packing -/

section Packing

variable (maxChars overlapChars : ℤ)

/-- The length of a string with its joining space. -/
def spacedLen (s : List Char) : ℤ := s.length + 1

/-- `sum(len(s) + 1 for s in parts)`. -/
def totalLen (parts : List (List Char)) : ℤ := (parts.map spacedLen).sum

/-- The loop of `build_overlap` over the reversed sentences. -/
def overlapLoop (budget : ℤ) : List (List Char) → ℤ → List (List Char) → List (List Char)
  | overlap, _, [] => overlap
  | overlap, overlapLen, sentence :: rest =>
      if budget < overlapLen + sentence.length + 1 then overlap
      else overlapLoop budget (sentence :: overlap) (overlapLen + (sentence.length + 1)) rest

/-- `build_overlap(budget)` while `current` is the chunk just flushed. -/
def buildOverlap (current : List (List Char)) (budget : ℤ) : List (List Char) :=
  overlapLoop budget [] 0 current.reverse

structure WrapState where
  chunks : List (List Char)
  piece : List (List Char)
  pieceLen : ℤ

/-- One word of a sentence that is too long. -/
def wrapWord (st : WrapState) (word : List Char) : WrapState :=
  let st := if !st.piece.isEmpty && decide (maxChars < st.pieceLen + word.length + 1) then
      ⟨st.chunks ++ [joinSpace st.piece], [], 0⟩
    else st
  ⟨st.chunks, st.piece ++ [word], st.pieceLen + (word.length + 1)⟩

/-- The chunks of a sentence that is too long. -/
def wrapSentence (sentence : List Char) : List (List Char) :=
  let st := (sentence.splitOn ' ').foldl (wrapWord maxChars) ⟨[], [], 0⟩
  if st.piece.isEmpty then st.chunks else st.chunks ++ [joinSpace st.piece]

/-- The local variables of `_pack_sentences`. -/
structure PackState where
  chunks : List (List Char)
  current : List (List Char)
  currentLen : ℤ

/-- `if current: chunks.append(" ".join(current))`. -/
def PackState.flushed (st : PackState) : List (List Char) :=
  if st.current.isEmpty then st.chunks else st.chunks ++ [joinSpace st.current]

/-- One round of the loop over the sentences. -/
def packSentence (st : PackState) (sentence : List Char) : PackState :=
  let sentenceLen := spacedLen sentence
  if maxChars < sentenceLen then ⟨st.flushed ++ wrapSentence maxChars sentence, [], 0⟩
  else
    let st := if !st.current.isEmpty && decide (maxChars < st.currentLen + sentenceLen) then
        let current := buildOverlap st.current (min overlapChars (maxChars - sentenceLen))
        ⟨st.chunks ++ [joinSpace st.current], current, totalLen current⟩
      else st
    ⟨st.chunks, st.current ++ [sentence], st.currentLen + sentenceLen⟩

/-- `_pack_sentences`. -/
def packSentences (sentences : List (List Char)) : List (List Char) :=
  (sentences.foldl (packSentence maxChars overlapChars) ⟨[], [], 0⟩).flushed

end Packing

/-! ### Pages -/

/-- A page of the extracted text; `N` is the type of page numbers. -/
structure Page (N : Type) where
  pageNumber : N
  text : List Char
  deriving DecidableEq

structure Chunk (N : Type) where
  text : List Char
  pageNumber : N
  deriving DecidableEq

variable {N : Type}

/-- The chunk texts of one page. -/
def pageChunks (maxChars overlapChars : ℤ) (text : List Char) : List (List Char) :=
  stripped (packSentences maxChars overlapChars (splitIntoSentences text))

/-- `_chunk_pages_sync`. -/
def chunkPages (pages : List (Page N)) (maxChars overlapChars : ℤ) : List (Chunk N) :=
  pages.flatMap fun page =>
    (pageChunks maxChars overlapChars page.text).map fun text => ⟨text, page.pageNumber⟩

end Ally.Chunking
