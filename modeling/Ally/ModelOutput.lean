import Ally.AgentGraph
import Ally.Regions
import Ally.Wire

/-!
# The answers of a model

`_parse_intent` of the classifier and `_clean_output` of the condensation, on the raw text of a
model that may put its reasoning in front.
-/

namespace Ally.ModelOutput

open Agent (Intent truthy)
open PCAgentBridge (Json Decoder DecodeError)
open Regions

/-! ### Reasoning -/

/-- The case folding of `re.IGNORECASE`, as far as the letters of the patterns go. -/
def fold (c : Char) : Char :=
  if c = '\u212a' then 'k' else if c = '\u0130' ∨ c = '\u0131' then 'i'
  else if c = '\u017f' then 's' else c.toLower

def opening : Tag Char := ⟨'<', "think>".toList⟩

def closing : Tag Char := ⟨'<', "/think>".toList⟩

theorem paired : Paired opening closing := by
  constructor <;> decide

/-- What both functions do first: the blocks go, then all before the last closing tag, then the
tags that are left. -/
def withoutReasoning (raw : List Char) : List Char :=
  let s := remove fold opening closing raw
  let s := if Text.contains "</think>".toList (s.flatMap Text.lower) then lastPart fold closing s
    else s
  Text.strip (erase fold opening closing s)

/-! ### `_parse_intent` -/

/-- `s.strip(chars)`. -/
def stripOf (p : Char → Bool) (s : List Char) : List Char := (s.dropWhile p).rdropWhile p

/-- The text inside of a code fence. -/
def unfenced (s : List Char) : List Char :=
  if "```".toList <+: s then
    let s := stripOf (· = '`') s
    Text.strip (if "json".toList <+: s.flatMap Text.lower then s.drop 4 else s)
  else s

/-- An `Intent` with its reasoning. -/
structure Classified where
  intent : Intent
  reasoning : String

def fallback : Classified :=
  ⟨⟨"rag", .null, .null, .object []⟩, "fallback: classifier output could not be parsed"⟩

def kinds : List String := ["rag", "tool", "conversational"]

/-- `value or {}`; the floats that are not finite are true. -/
def orEmpty : Json → Json
  | .number literal =>
      if literal ∈ ["NaN", "Infinity", "-Infinity"] ∨ truthy (.number literal) = true then
        .number literal
      else .object []
  | value => if truthy value then value else .object []

/-- The intent of a decoded answer; what is no dictionary has no `get`. -/
def readIntent : Json → Classified
  | .object fields =>
      match fields.lookup "kind" with
      | some (.string kind) =>
          if kind ∈ kinds then
            ⟨⟨kind, (fields.lookup "tool_name").getD .null, (fields.lookup "action").getD .null,
              orEmpty ((fields.lookup "params").getD .null)⟩, ""⟩
          else fallback
      | _ => fallback
  | _ => fallback

/-- `_parse_intent`: a `RecursionError` of the decoder is not caught. -/
def parseIntent (decode : Decoder) (raw : List Char) : Except DecodeError Classified :=
  match decode (String.ofList (unfenced (withoutReasoning raw))) with
  | .ok data => .ok (readIntent data)
  | .error .valueError => .ok fallback
  | .error .recursionError => .error .recursionError

/-! ### `_clean_output` -/

/-- `^\s*output:\s*` is taken off. -/
def withoutPrefix (s : List Char) : List Char :=
  let rest := s.dropWhile Text.isSpace
  if "output:".toList <+: rest.map fold then (rest.drop 7).dropWhile Text.isSpace else s

def cleanOutput (raw : List Char) : List Char :=
  let s := Text.strip (withoutPrefix (withoutReasoning raw))
  Text.strip (stripOf (fun c => c = '"' || c = '\'') s)

/-! ### Reasoning has no influence -/

/-- One closed reasoning block of a text is replaced by another. -/
inductive Rethinks : List Char → List Char → Prop
  | block {o b c o' b' c' : List Char} (before after : List Char)
      (ho : opening.Spells fold o) (hb : cut fold closing b = none) (hc : closing.Spells fold c)
      (ho' : opening.Spells fold o') (hb' : cut fold closing b' = none)
      (hc' : closing.Spells fold c') :
      Rethinks (before ++ (o ++ (b ++ (c ++ after)))) (before ++ (o' ++ (b' ++ (c' ++ after))))

theorem Rethinks.withoutReasoning {raw raw' : List Char} (h : Rethinks raw raw') :
    ModelOutput.withoutReasoning raw = ModelOutput.withoutReasoning raw' := by
  obtain ⟨before, after, ho, hb, hc, ho', hb', hc'⟩ := h
  unfold ModelOutput.withoutReasoning
  rw [paired.remove_region ho hb hc ho' hb' hc']

/-- Texts that differ in what their closed reasoning blocks say, and in how the tags of these are
written, lead to the same intent and to the same question. -/
theorem reasoning_has_no_influence (decode : Decoder) {raw raw' : List Char}
    (h : Relation.ReflTransGen Rethinks raw raw') :
    parseIntent decode raw = parseIntent decode raw' ∧ cleanOutput raw = cleanOutput raw' := by
  have hsame : withoutReasoning raw = withoutReasoning raw' := by
    induction h with
    | refl => rfl
    | tail _ hstep ih => exact ih.trans hstep.withoutReasoning
  unfold parseIntent cleanOutput
  rw [hsame]
  exact ⟨rfl, rfl⟩

theorem reasoning_has_no_influence_thought :
    parseIntent (fun _ => .ok (.object [("kind", .string "tool")])) ("hm ".toList ++
        ("<think>".toList ++ ("a tool".toList ++ ("</think>".toList ++ "{}".toList)))) =
      parseIntent (fun _ => .ok (.object [("kind", .string "tool")])) ("hm ".toList ++
        ("<Think>".toList ++ ([] ++ ("</THINK>".toList ++ "{}".toList)))) ∧
    cleanOutput ("hm ".toList ++
        ("<think>".toList ++ ("a tool".toList ++ ("</think>".toList ++ "{}".toList)))) =
      cleanOutput ("hm ".toList ++
        ("<Think>".toList ++ ([] ++ ("</THINK>".toList ++ "{}".toList)))) :=
  reasoning_has_no_influence _ (.single
    (.block _ _ (by decide) (by decide) (by decide) (by decide) rfl (by decide)))

/-! ### What is in front of an answer -/

section Printed

open Text (isSpace Trimmed)

variable {t lang front back pre body raw : List Char}

theorem fold_space {c : Char} (h : isSpace c = true) : fold c = c := by
  unfold fold
  split_ifs with hk hi hs
  · subst hk
    exact absurd h (by decide)
  · rcases hi with rfl | rfl <;> exact absurd h (by decide)
  · subst hs
    exact absurd h (by decide)
  · exact Text.toLower_of_isSpace h

/-- Whitespace and closed reasoning blocks. -/
inductive Preamble : List Char → Prop
  | nil : Preamble []
  | space {c : Char} {s : List Char} (hc : isSpace c = true) (hs : Preamble s) : Preamble (c :: s)
  | block {o b c s : List Char} (ho : opening.Spells fold o) (hb : cut fold closing b = none)
      (hc : closing.Spells fold c) (hs : Preamble s) : Preamble (o ++ (b ++ (c ++ s)))

theorem Preamble.remove {p : List Char} (h : Preamble p) : ∃ spaces : List Char,
    (∀ c ∈ spaces, isSpace c = true) ∧ ∀ s, Regions.remove fold opening closing (p ++ s) =
      spaces ++ Regions.remove fold opening closing s := by
  induction h with
  | nil => exact ⟨[], nofun, fun s => rfl⟩
  | space hc hs ih =>
      rename_i c p
      obtain ⟨spaces, hspaces, hremove⟩ := ih
      refine ⟨c :: spaces, ?_, fun s => ?_⟩
      · intro d hd
        rcases List.mem_cons.mp hd with rfl | hd
        · exact hc
        · exact hspaces d hd
      · have hne : fold c ≠ opening.head := by
          rw [fold_space hc]
          rintro rfl
          cases hc
        rw [List.cons_append, remove_cons, after_of_head_ne hne, Option.bind_none, hremove]
        rfl
  | block ho hb hc hs ih =>
      obtain ⟨spaces, hspaces, hremove⟩ := ih
      refine ⟨spaces, hspaces, fun s => ?_⟩
      rw [← hremove, List.append_assoc, List.append_assoc, List.append_assoc,
        paired.remove_front ho hb hc]

/-- No tag spans a character that is not one of its symbols. -/
theorem cut_of_parts {t : Tag Char} {a b : List Char} (ha : cut fold t a = none)
    (hb : ∀ c ∈ b, fold c ∉ t.symbols) : cut fold t (a ++ b) = none := by
  cases b with
  | nil => rw [List.append_nil, ha]
  | cons x b =>
      have hx : fold x ∉ t.tail := fun h => hb x List.mem_cons_self (List.mem_cons_of_mem _ h)
      have hrest : cut fold t (x :: b ++ []) = none := by
        rw [cut_skip]
        · rfl
        · intro c hc he
          exact hb c hc (he ▸ List.mem_cons_self)
      rw [List.append_nil] at hrest
      rw [cut_append hx, ha, hrest]
      rfl

/-- Neither tag is in the text. -/
structure Untagged (t : List Char) : Prop where
  opening : cut fold opening t = none
  closing : cut fold closing t = none

theorem isSpace_of_symbol {c : Char} (h : c ∈ opening.symbols ++ closing.symbols) :
    isSpace c = false := by
  have hall : (opening.symbols ++ closing.symbols).all (fun c => !isSpace c) = true := by decide
  simpa using List.all_eq_true.mp hall c h

theorem Untagged.pad {a b : List Char} (ht : Untagged t) (ha : ∀ c ∈ a, fold c ≠ '<')
    (hb : ∀ c ∈ b, isSpace c = true ∨ c = '`') : Untagged (a ++ (t ++ b)) := by
  have hfold : ∀ c ∈ b, fold c ∉ ModelOutput.opening.symbols ++ ModelOutput.closing.symbols := by
    intro c hc hmem
    rcases hb c hc with hspace | rfl
    · rw [fold_space hspace] at hmem
      rw [isSpace_of_symbol hmem] at hspace
      cases hspace
    · revert hmem
      decide
  constructor
  · rw [cut_skip ha]
    exact cut_of_parts ht.opening fun c hc h =>
      hfold c hc (List.mem_append_left _ h)
  · rw [cut_skip ha]
    exact cut_of_parts ht.closing fun c hc h =>
      hfold c hc (List.mem_append_right _ h)

/-- A text without tags behind a preamble. -/
theorem withoutReasoning_of_preamble (hpre : Preamble pre) (hbody : Trimmed body)
    (huntagged : Untagged (body ++ back)) (hback : ∀ c ∈ back, isSpace c = true) :
    withoutReasoning (pre ++ (body ++ back)) = body := by
  obtain ⟨spaces, hspaces, hremove⟩ := hpre.remove
  have hskip : ∀ c ∈ spaces, fold c ≠ '<' := by
    rintro c hc he
    have hspace := hspaces c hc
    rw [← fold_space hspace, he] at hspace
    cases hspace
  have hclosing : cut fold closing (spaces ++ (body ++ back)) = none := by
    rw [cut_skip hskip, huntagged.closing]
  have hopening : cut fold opening (spaces ++ (body ++ back)) = none := by
    rw [cut_skip hskip, huntagged.opening]
  unfold withoutReasoning
  rw [hremove, remove_eq_self huntagged.opening]
  simp only [lastPart_eq_self hclosing, ite_self]
  rw [erase_eq_self hopening hclosing, hbody.strip_pad hspaces hback]

/-- A text as a model writes it, bare or in a code fence that may name its language. -/
inductive Written (t : List Char) : List Char → Prop
  | bare : Written t t
  | fenced {lang front back : List Char} (hlang : lang = [] ∨ lang.map Char.toLower = "json".toList)
      (hfront : ∀ c ∈ front, isSpace c = true) (hback : ∀ c ∈ back, isSpace c = true) :
      Written t ("```".toList ++ (lang ++ (front ++ (t ++ (back ++ "```".toList)))))

/-- The text of a dictionary. -/
structure Braced (t : List Char) : Prop where
  first : ∃ rest, t = '{' :: rest
  last : ∃ front, t = front ++ ['}']

theorem Braced.trimmed (ht : Braced t) : Trimmed t := by
  obtain ⟨rest, hrest⟩ := ht.first
  obtain ⟨init, hinit⟩ := ht.last
  exact ⟨⟨'{', rest, hrest, rfl⟩, ⟨init, '}', hinit, rfl⟩⟩

/-- The fence does not start with the word `json` where the text inside has no such line. -/
theorem not_json {c : Char} (hc : isSpace c = true ∨ c = '{') (s : List Char) :
    ¬ "json".toList <+: (c :: s).flatMap Text.lower := by
  have hlower : Text.lower c = [c] := by
    rcases hc with hc | rfl
    · unfold Text.lower
      rw [if_neg, if_neg, Text.toLower_of_isSpace hc]
      · rintro rfl
        exact absurd hc (by decide)
      · rintro rfl
        exact absurd hc (by decide)
    · rfl
  intro h
  rw [List.flatMap_cons, hlower] at h
  obtain ⟨hj, -⟩ := List.cons_prefix_cons.mp h
  rcases hc with hc | rfl
  · rw [← hj] at hc
    cases hc
  · cases hj

theorem lower_of_json {c : Char} (h : c.toLower ∈ "json".toList) :
    Text.lower c = [c.toLower] ∧ c ≠ '`' := by
  unfold Text.lower
  refine ⟨?_, ?_⟩
  · rw [if_neg, if_neg]
    · rintro rfl
      exact absurd h (by decide)
    · rintro rfl
      exact absurd h (by decide)
  · rintro rfl
    exact absurd h (by decide)

theorem flatMap_lower_of_json (h : lang.map Char.toLower = "json".toList) :
    lang.flatMap Text.lower = "json".toList ∧ ∀ c ∈ lang, c ≠ '`' := by
  have hmem : ∀ c ∈ lang, c.toLower ∈ "json".toList := by
    intro c hc
    rw [← h]
    exact List.mem_map_of_mem hc
  refine ⟨?_, fun c hc => (lower_of_json (hmem c hc)).2⟩
  have hflat : ∀ s : List Char, (∀ c ∈ s, c.toLower ∈ "json".toList) →
      s.flatMap Text.lower = s.map Char.toLower := by
    intro s hs
    induction s with
    | nil => rfl
    | cons c s ih =>
        rw [List.flatMap_cons, (lower_of_json (hs c List.mem_cons_self)).1,
          ih fun d hd => hs d (List.mem_cons_of_mem c hd)]
        rfl
  rw [hflat lang hmem, h]

theorem tick_of_mem {c : Char} (h : c ∈ "```".toList) : c = '`' :=
  List.eq_of_mem_replicate (n := 3) h

/-- The backticks of a fence go, and nothing of what is inside of it. -/
theorem stripOf_fence (ht : Braced t) (hlang : ∀ c ∈ lang, c ≠ '`')
    (hfront : ∀ c ∈ front, isSpace c = true) (hback : ∀ c ∈ back, isSpace c = true) :
    stripOf (· = '`') ("```".toList ++ (lang ++ (front ++ (t ++ (back ++ "```".toList))))) =
      lang ++ (front ++ (t ++ back)) := by
  obtain ⟨rest, hrest⟩ := ht.first
  obtain ⟨init, hinit⟩ := ht.last
  have hspace : ∀ c, isSpace c = true → c ≠ '`' := by
    rintro c hc rfl
    cases hc
  have hnone : ∀ c ∈ lang ++ front, c ≠ '`' := by
    intro c hc
    rcases List.mem_append.mp hc with hc | hc
    · exact hlang c hc
    · exact hspace c (hfront c hc)
  have hfirst : ∃ c s, lang ++ (front ++ (t ++ back)) = c :: s ∧ decide (c = '`') = false := by
    rw [← List.append_assoc]
    cases h : lang ++ front with
    | nil => exact ⟨'{', rest ++ back, by rw [hrest]; rfl, rfl⟩
    | cons c s => exact ⟨c, s ++ (t ++ back), rfl, decide_eq_false (hnone c (h ▸ List.mem_cons_self))⟩
  have hlast : ∃ s d, lang ++ (front ++ (t ++ back)) = s ++ [d] ∧ decide (d = '`') = false := by
    rcases List.eq_nil_or_concat back with rfl | ⟨b, d, rfl⟩
    · exact ⟨lang ++ (front ++ init), '}', by rw [hinit]; simp, rfl⟩
    · refine ⟨lang ++ (front ++ (t ++ b)), d, by simp, decide_eq_false (hspace d (hback d ?_))⟩
      rw [List.concat_eq_append]
      exact List.mem_append_right _ (List.mem_singleton.mpr rfl)
  have hassoc : lang ++ (front ++ (t ++ (back ++ "```".toList))) =
      lang ++ (front ++ (t ++ back)) ++ "```".toList := by
    simp only [List.append_assoc]
  rw [hassoc]
  exact Text.drop_pad hfirst hlast (fun c hc => decide_eq_true (tick_of_mem hc))
    fun c hc => decide_eq_true (tick_of_mem hc)

theorem unfenced_of_written (ht : Braced t) (h : Written t body) : unfenced body = t := by
  obtain ⟨rest, hrest⟩ := ht.first
  cases h with
  | bare =>
      unfold unfenced
      rw [if_neg]
      rw [hrest]
      intro hpre
      exact absurd (List.cons_prefix_cons.mp hpre).1 (by decide)
  | fenced hlang hfront hback =>
      rename_i lang front back
      have hticks : ∀ c ∈ lang, c ≠ '`' := by
        rcases hlang with rfl | hlang
        · exact fun c hc => absurd hc List.not_mem_nil
        · exact (flatMap_lower_of_json hlang).2
      unfold unfenced
      rw [if_pos (List.prefix_append _ _), stripOf_fence ht hticks hfront hback]
      rcases hlang with rfl | hlang
      · have hnot : ¬ "json".toList <+: (front ++ (t ++ back)).flatMap Text.lower := by
          cases front with
          | nil =>
              rw [hrest]
              exact not_json (.inr rfl) _
          | cons c front => exact not_json (.inl (hfront c List.mem_cons_self)) _
        rw [List.nil_append]
        simp only [if_neg hnot]
        exact ht.trimmed.strip_pad hfront hback
      · have hjson : "json".toList <+: (lang ++ (front ++ (t ++ back))).flatMap Text.lower := by
          rw [List.flatMap_append, (flatMap_lower_of_json hlang).1]
          exact List.prefix_append _ _
        have hlength : lang.length = 4 := by
          rw [← List.length_map Char.toLower, hlang]
          rfl
        simp only [if_pos hjson, List.drop_left' hlength]
        exact ht.trimmed.strip_pad hfront hback

theorem Written.trimmed (ht : Braced t) (h : Written t body) : Trimmed body := by
  cases h with
  | bare => exact ht.trimmed
  | fenced hlang hfront hback =>
      rename_i lang front back
      refine ⟨⟨'`', _, rfl, rfl⟩, ⟨"```".toList ++ (lang ++ (front ++ (t ++ (back ++ "``".toList)))),
        '`', ?_, rfl⟩⟩
      simp

theorem fold_ne_of_json {c : Char} (h : c.toLower ∈ "json".toList) : fold c ≠ '<' := by
  unfold fold
  split_ifs
  · decide
  · decide
  · decide
  · intro he
    rw [he] at h
    exact absurd h (by decide)

theorem Written.untagged (ht : Untagged t) (h : Written t body)
    (hback : ∀ c ∈ back, isSpace c = true) : Untagged (body ++ back) := by
  cases h with
  | bare => exact ht.pad (a := []) (fun c hc => absurd hc List.not_mem_nil) fun c hc => .inl (hback c hc)
  | fenced hlang hfront hback' =>
      rename_i lang front back'
      have hfold : ∀ c ∈ "```".toList ++ (lang ++ front), fold c ≠ '<' := by
        intro c hc
        rcases List.mem_append.mp hc with hc | hc
        · rw [tick_of_mem hc]
          decide
        · rcases List.mem_append.mp hc with hc | hc
          · rcases hlang with rfl | hlang
            · exact absurd hc List.not_mem_nil
            · exact fold_ne_of_json (hlang ▸ List.mem_map_of_mem hc)
          · intro he
            have hspace := hfront c hc
            rw [← fold_space hspace, he] at hspace
            cases hspace
      have hpad : Untagged ("```".toList ++ (lang ++ front) ++ (t ++ (back' ++ ("```".toList ++ back)))) := by
        apply ht.pad hfold
        intro c hc
        rcases List.mem_append.mp hc with hc | hc
        · exact .inl (hback' c hc)
        · rcases List.mem_append.mp hc with hc | hc
          · exact .inr (tick_of_mem hc)
          · exact .inl (hback c hc)
      simpa only [List.append_assoc] using hpad

/-- Answers whose text is wrapped mean what the text alone means. -/
theorem parseIntent_of_written (decode : Decoder) (hpre : Preamble pre) (ht : Braced t)
    (huntagged : Untagged t) (hbody : Written t body) (hback : ∀ c ∈ back, isSpace c = true) :
    parseIntent decode (pre ++ (body ++ back)) =
      match decode (String.ofList t) with
      | .ok data => .ok (readIntent data)
      | .error .valueError => .ok fallback
      | .error .recursionError => .error .recursionError := by
  unfold parseIntent
  rw [withoutReasoning_of_preamble hpre (hbody.trimmed ht) (hbody.untagged huntagged hback) hback,
    unfenced_of_written ht hbody]

variable {F : Type} (fl : Json.Floats F)

theorem braced_dump {entries : List (List Char × Json.Value F)}
    (ht : Json.joinChunks (Json.chunks fl (.dict entries)) = some t) : Braced t := by
  cases entries with
  | nil =>
      obtain rfl := Option.some.inj (Json.joinChunks_singleton.mp ht)
      exact ⟨⟨['}'], rfl⟩, ⟨['{'], rfl⟩⟩
  | cons e entries =>
      obtain ⟨key, v⟩ := e
      rw [Json.chunks, Json.joinChunks_cons] at ht
      obtain ⟨x, hx, rfl⟩ := ht
      refine ⟨⟨x, rfl⟩, ?_⟩
      rw [Json.joinChunks_cons] at hx
      obtain ⟨y, hy, rfl⟩ := hx
      rw [Json.joinChunks_cons] at hy
      obtain ⟨z, hz, rfl⟩ := hy
      obtain ⟨u, w, -, hw, rfl⟩ := Json.joinChunks_append.mp hz
      obtain rfl := Option.some.inj (Json.joinChunks_singleton.mp hw)
      exact ⟨['{'] ++ (Json.encodeString key ++ (": ".toList ++ u)), by simp⟩

/-- The dictionary that the prompt of the classifier asks for. -/
def decision (kind : String) (toolName action params : Json.Value F) : Json.Value F :=
  .dict [("kind".toList, .string kind.toList), ("tool_name".toList, toolName),
    ("action".toList, action), ("params".toList, params)]

theorem readIntent_decision {kind : String} (hkind : kind ∈ kinds)
    (toolName action params : Json.Value F) :
    readIntent (PCAgentBridge.ofValue fl (decision kind toolName action params)) =
      ⟨⟨kind, PCAgentBridge.ofValue fl toolName, PCAgentBridge.ofValue fl action,
        orEmpty (PCAgentBridge.ofValue fl params)⟩, ""⟩ := by
  have hfields : PCAgentBridge.ofValue fl (decision kind toolName action params) =
      .object [("kind", .string kind), ("tool_name", PCAgentBridge.ofValue fl toolName),
        ("action", PCAgentBridge.ofValue fl action),
        ("params", PCAgentBridge.ofValue fl params)] := by
    simp only [decision, PCAgentBridge.ofValue, PCAgentBridge.ofEntries, String.ofList_toList]
  rw [hfields]
  exact if_pos hkind

/-- A decision dumped as JSON, bare or in a code fence, with whitespace around it and closed
reasoning in front, is read back. -/
theorem decision_read_back {kind : String} {toolName action params : Json.Value F}
    (hkind : kind ∈ kinds) (htool : toolName.Regular) (haction : action.Regular)
    (hparams : params.Regular)
    (ht : Json.joinChunks (Json.chunks fl (decision kind toolName action params)) = some t)
    (huntagged : Untagged t) (hpre : Preamble pre) (hbody : Written t body)
    (hback : ∀ c ∈ back, isSpace c = true) :
    parseIntent (PCAgentBridge.loads fl) (pre ++ (body ++ back)) =
      .ok ⟨⟨kind, PCAgentBridge.ofValue fl toolName, PCAgentBridge.ofValue fl action,
        orEmpty (PCAgentBridge.ofValue fl params)⟩, ""⟩ := by
  have hregular : (decision kind toolName action params).Regular := by
    refine ⟨?_, trivial, htool, haction, hparams, trivial⟩
    change ["kind".toList, "tool_name".toList, "action".toList, "params".toList].Nodup
    decide
  have hload : PCAgentBridge.loads fl (String.ofList t) =
      .ok (PCAgentBridge.ofValue fl (decision kind toolName action params)) := by
    unfold PCAgentBridge.loads
    rw [String.toList_ofList, Json.loads_dump fl hregular ht]
  rw [parseIntent_of_written _ hpre (braced_dump fl ht) huntagged hbody hback, hload]
  exact congrArg Except.ok (readIntent_decision fl hkind toolName action params)

/-- One float. -/
def half : Json.Floats Unit where
  repr _ := "0.5".toList
  parse s := if s = "0.5".toList then some () else none
  text _ := ⟨[], ['0'], ['.', '5'], [], rfl, by decide,
    ⟨by decide, List.all_eq_true.mp (by decide), by decide⟩,
    .inr ⟨['5'], rfl, by decide, List.all_eq_true.mp (by decide)⟩, .inl rfl, by decide⟩
  parse_repr _ := rfl

def listEvents : List Char :=
  "\x7b\"kind\": \"tool\", \"tool_name\": \"calendar\", \"action\": null, \"params\": \x7b\x7d\x7d".toList

theorem decision_read_back_fenced :
    parseIntent (PCAgentBridge.loads half) (("<think>".toList ++ ("a tool".toList ++
        ("</THINK>".toList ++ [' ']))) ++ (("```".toList ++ ("JSON".toList ++ (['\n'] ++
          (listEvents ++ ([] ++ "```".toList))))) ++ ['\n'])) =
      .ok ⟨⟨"tool", PCAgentBridge.ofValue half (.string "calendar".toList),
        PCAgentBridge.ofValue half .null,
        orEmpty (PCAgentBridge.ofValue half (.dict []))⟩, ""⟩ :=
  decision_read_back half (by decide) trivial trivial ⟨List.nodup_nil, trivial⟩
    (by decide +kernel) ⟨by decide +kernel, by decide +kernel⟩
    (.block (by decide) (by decide) (by decide) (.space rfl .nil))
    (.fenced (.inr (by decide)) (List.all_eq_true.mp rfl) (List.all_eq_true.mp rfl))
    (List.all_eq_true.mp rfl)

end Printed

end Ally.ModelOutput
