import Ally.Commands
import Ally.OrderedDict

/-!
# Quoted parameters of a command

The command that writes each value in double quotes, and when `parse_command` reads it back.
The pattern lets a backslash take the next character with it, but only the quotes of a value
are escaped, so a backslash of the value may take a quote that was not meant for it.
-/

namespace Ally.Commands

open Text (Unicode)

/-! ### Values in quotes -/

/-- `value.replace('"', '\\"')`. -/
def escapeQuotes : List Char → List Char
  | [] => []
  | c :: s => if c = '"' then '\\' :: '"' :: escapeQuotes s else c :: escapeQuotes s

/-- The backslashes of a value, each with the next character, take no quote and no newline, and
none of them is the last character. -/
def closes : List Char → Bool
  | [] => true
  | c :: s =>
      if c = '\\' then
        match s with
        | [] => false
        | d :: s => d ≠ '"' && d ≠ '\n' && closes s
      else closes s

/-- The same, but the last character is a backslash that is left over. -/
def trails : List Char → Bool
  | [] => false
  | c :: s =>
      if c = '\\' then
        match s with
        | [] => true
        | d :: s => d ≠ '"' && d ≠ '\n' && trails s
      else trails s

theorem escapeQuotes_quote (s : List Char) :
    escapeQuotes ('"' :: s) = '\\' :: '"' :: escapeQuotes s := rfl

theorem escapeQuotes_cons {c : Char} (hc : c ≠ '"') (s : List Char) :
    escapeQuotes (c :: s) = c :: escapeQuotes s := if_neg hc

theorem head?_escapeQuotes (s : List Char) : (escapeQuotes s).head? ≠ some '"' := by
  cases s with
  | nil => simp [escapeQuotes]
  | cons c s =>
      by_cases hc : c = '"'
      · simp [hc, escapeQuotes_quote]
      · simp [hc, escapeQuotes_cons hc]

theorem unescape_cons {c : Char} {s : List Char} (h : c ≠ '\\' ∨ s.head? ≠ some '"') :
    unescape (c :: s) = c :: unescape s := by
  rw [unescape]
  rintro t rfl rfl
  simp at h

theorem unescape_escapeQuotes (v : List Char) : unescape (escapeQuotes v) = v := by
  induction v with
  | nil => rfl
  | cons c v ih =>
      by_cases hc : c = '"'
      · rw [hc, escapeQuotes_quote, unescape, ih]
      · rw [escapeQuotes_cons hc, unescape_cons (.inr (head?_escapeQuotes v)), ih]

theorem quotedRest_quote (s : List Char) : quotedRest ('"' :: s) = some (['"'], s) := rfl

theorem quotedRest_backslash {c : Char} (hc : c ≠ '\n') (s : List Char) :
    quotedRest ('\\' :: c :: s) =
      (quotedRest s).map fun (value, rest) => ('\\' :: c :: value, rest) := by
  rw [quotedRest, if_neg hc]

theorem quotedRest_cons {c : Char} (hquote : c ≠ '"') (hback : c ≠ '\\') (s : List Char) :
    quotedRest (c :: s) = (quotedRest s).map fun (value, rest) => (c :: value, rest) := by
  rw [quotedRest]
  · exact hquote
  · rintro rfl
    exact absurd rfl hback
  · rintro d t rfl
    exact absurd rfl hback

theorem closes_backslash (d : Char) (s : List Char) :
    closes ('\\' :: d :: s) = (decide (d ≠ '"') && decide (d ≠ '\n') && closes s) := by
  rw [closes, if_pos rfl]

theorem closes_cons {c : Char} (hc : c ≠ '\\') (s : List Char) : closes (c :: s) = closes s := by
  cases s with
  | nil => simp [closes, hc]
  | cons d s => rw [closes, if_neg hc]

theorem trails_backslash (d : Char) (s : List Char) :
    trails ('\\' :: d :: s) = (decide (d ≠ '"') && decide (d ≠ '\n') && trails s) := by
  rw [trails, if_pos rfl]

theorem trails_cons {c : Char} (hc : c ≠ '\\') (s : List Char) : trails (c :: s) = trails s := by
  cases s with
  | nil => simp [trails, hc]
  | cons d s => rw [trails, if_neg hc]

/-- What the pattern captures stands at the front and ends in a quote. -/
theorem quotedRest_spec {s value rest : List Char} (h : quotedRest s = some (value, rest)) :
    s = value ++ rest ∧ ∃ inner, value = inner ++ ['"'] := by
  induction s using quotedRest.induct generalizing value rest with
  | case1 => cases h
  | case2 s =>
      obtain ⟨rfl, rfl⟩ := Prod.mk.inj (Option.some.inj h)
      exact ⟨rfl, [], rfl⟩
  | case3 => cases h
  | case4 s => simp [quotedRest] at h
  | case5 c s hc ih =>
      rw [quotedRest_backslash hc, Option.map_eq_some_iff] at h
      obtain ⟨⟨value', rest'⟩, hread, heq⟩ := h
      obtain ⟨rfl, rfl⟩ := Prod.mk.inj heq
      obtain ⟨hs, inner, rfl⟩ := ih hread
      exact ⟨by rw [hs]; rfl, '\\' :: c :: inner, rfl⟩
  | case6 c s hquote hlast hback ih =>
      have hback : c ≠ '\\' := by
        rintro rfl
        cases s with
        | nil => exact hlast rfl rfl
        | cons d s => exact hback d s rfl rfl
      rw [quotedRest_cons hquote hback, Option.map_eq_some_iff] at h
      obtain ⟨⟨value', rest'⟩, hread, heq⟩ := h
      obtain ⟨rfl, rfl⟩ := Prod.mk.inj heq
      obtain ⟨hs, inner, rfl⟩ := ih hread
      exact ⟨by rw [hs]; rfl, c :: inner, rfl⟩

/-- A value that closes is captured as a whole. -/
theorem quotedRest_of_closes {v : List Char} (h : closes v = true) (tail : List Char) :
    quotedRest (escapeQuotes v ++ '"' :: tail) = some (escapeQuotes v ++ ['"'], tail) := by
  induction v using closes.induct with
  | case1 => rfl
  | case2 => cases h
  | case3 d s ih =>
      rw [closes_backslash, Bool.and_eq_true, Bool.and_eq_true, decide_eq_true_eq,
        decide_eq_true_eq] at h
      obtain ⟨⟨hquote, hnewline⟩, hs⟩ := h
      rw [escapeQuotes_cons (by decide), escapeQuotes_cons hquote, List.cons_append,
        List.cons_append, quotedRest_backslash hnewline, ih hs]
      rfl
  | case4 d s hd ih =>
      rw [closes_cons hd] at h
      by_cases hquote : d = '"'
      · rw [hquote, escapeQuotes_quote, List.cons_append, List.cons_append,
          quotedRest_backslash (by decide), ih h]
        rfl
      · rw [escapeQuotes_cons hquote, List.cons_append, quotedRest_cons hquote hd, ih h]
        rfl

/-! ### What stands between two quotes -/

section Captures

variable {s inner rest : List Char} {c : Char}

theorem capture_backslash (hc : c ≠ '\n')
    (h : quotedRest ('\\' :: c :: s) = some (inner ++ ['"'], rest)) :
    ∃ inner', inner = '\\' :: c :: inner' ∧ quotedRest s = some (inner' ++ ['"'], rest) := by
  rw [quotedRest_backslash hc, Option.map_eq_some_iff] at h
  obtain ⟨⟨value, rest'⟩, hread, heq⟩ := h
  obtain ⟨hvalue, rfl⟩ := Prod.mk.inj heq
  obtain ⟨-, inner', rfl⟩ := quotedRest_spec hread
  rw [← List.cons_append, ← List.cons_append] at hvalue
  exact ⟨inner', (List.append_left_injective _ hvalue).symm, hread⟩

theorem capture_cons (hquote : c ≠ '"') (hback : c ≠ '\\')
    (h : quotedRest (c :: s) = some (inner ++ ['"'], rest)) :
    ∃ inner', inner = c :: inner' ∧ quotedRest s = some (inner' ++ ['"'], rest) := by
  rw [quotedRest_cons hquote hback, Option.map_eq_some_iff] at h
  obtain ⟨⟨value, rest'⟩, hread, heq⟩ := h
  obtain ⟨hvalue, rfl⟩ := Prod.mk.inj heq
  obtain ⟨-, inner', rfl⟩ := quotedRest_spec hread
  rw [← List.cons_append] at hvalue
  exact ⟨inner', (List.append_left_injective _ hvalue).symm, hread⟩

theorem capture_quote (h : quotedRest ('"' :: s) = some (inner ++ ['"'], rest)) : inner = [] := by
  have hvalue := (Prod.mk.inj (Option.some.inj h)).1
  exact (List.append_left_injective _ ((List.nil_append _).trans hvalue)).symm

theorem capture_head (h : quotedRest s = some (inner ++ ['"'], rest)) :
    inner.head? ≠ some '"' := by
  cases s with
  | nil => cases h
  | cons c s =>
      by_cases hquote : c = '"'
      · subst hquote
        simp [capture_quote h]
      · by_cases hback : c = '\\'
        · subst hback
          cases s with
          | nil => cases h
          | cons d s =>
              by_cases hnewline : d = '\n'
              · simp [hnewline, quotedRest] at h
              · obtain ⟨inner', rfl, -⟩ := capture_backslash hnewline h
                simp
        · obtain ⟨inner', rfl, -⟩ := capture_cons hquote hback h
          simpa using hquote

end Captures

/-- A value that does not close is not what the text between the quotes means. -/
theorem unescape_ne {v : List Char} (h : closes v = false) {tail inner rest : List Char}
    (hread : quotedRest (escapeQuotes v ++ '"' :: tail) = some (inner ++ ['"'], rest)) :
    unescape inner ≠ v := by
  induction v using closes.induct generalizing inner with
  | case1 => cases h
  | case2 =>
      -- the closing quote was taken by the backslash
      obtain ⟨inner', rfl, -⟩ := capture_backslash (by decide) hread
      rw [unescape]
      simp
  | case3 d s ih =>
      rw [escapeQuotes_cons (by decide)] at hread
      by_cases hquote : d = '"'
      · -- the quote is not escaped any more
        rw [hquote, escapeQuotes_quote] at hread
        obtain ⟨inner', rfl, hrest⟩ := capture_backslash (by decide) hread
        rw [capture_quote hrest, hquote]
        simp [unescape]
      · rw [escapeQuotes_cons hquote] at hread
        by_cases hnewline : d = '\n'
        · simp [hnewline, quotedRest] at hread
        · obtain ⟨inner', rfl, hrest⟩ := capture_backslash hnewline hread
          have hs : closes s = false := by simpa [closes_backslash, hquote, hnewline] using h
          rw [unescape_cons (.inr (by simpa using hquote)),
            unescape_cons (.inr (capture_head hrest))]
          simpa using ih hs hrest
  | case4 d s hd ih =>
      rw [closes_cons hd] at h
      by_cases hquote : d = '"'
      · rw [hquote, escapeQuotes_quote] at hread
        obtain ⟨inner', rfl, hrest⟩ := capture_backslash (by decide) hread
        rw [hquote, unescape]
        simpa using ih h hrest
      · rw [escapeQuotes_cons hquote] at hread
        obtain ⟨inner', rfl, hrest⟩ := capture_cons hquote hd hread
        rw [unescape_cons (.inl hd)]
        simpa using ih h hrest

/-- Without a newline, a value whose capture fails has a backslash left over. -/
theorem trails_of_none {v : List Char} (hnewline : '\n' ∉ v) (h : closes v = false)
    {tail : List Char} (hread : quotedRest (escapeQuotes v ++ '"' :: tail) = none) :
    trails v = true ∧ quotedRest tail = none := by
  induction v using closes.induct with
  | case1 => cases h
  | case2 =>
      refine ⟨rfl, ?_⟩
      rw [escapeQuotes_cons (by decide), escapeQuotes, List.cons_append, List.nil_append,
        quotedRest_backslash (by decide)] at hread
      simpa using hread
  | case3 d s ih =>
      rw [escapeQuotes_cons (by decide)] at hread
      have hd : d ≠ '\n' := by
        rintro rfl
        simp at hnewline
      by_cases hquote : d = '"'
      · rw [hquote, escapeQuotes_quote, List.cons_append, List.cons_append, List.cons_append,
          quotedRest_backslash (by decide), quotedRest_quote] at hread
        cases hread
      · rw [escapeQuotes_cons hquote, List.cons_append, List.cons_append,
          quotedRest_backslash hd] at hread
        have hs : closes s = false := by simpa [closes_backslash, hquote, hd] using h
        have hrest := ih (by simp at hnewline; exact hnewline.2) hs (by simpa using hread)
        rw [trails_backslash]
        simpa [hquote, hd] using hrest
  | case4 d s hd ih =>
      rw [closes_cons hd] at h
      rw [trails_cons hd]
      have hs : '\n' ∉ s := fun hmem => hnewline (List.mem_cons_of_mem _ hmem)
      by_cases hquote : d = '"'
      · rw [hquote, escapeQuotes_quote, List.cons_append, List.cons_append,
          quotedRest_backslash (by decide)] at hread
        exact ih hs h (by simpa using hread)
      · rw [escapeQuotes_cons hquote, List.cons_append, quotedRest_cons hquote hd] at hread
        exact ih hs h (by simpa using hread)

theorem quotedRest_of_trails {v : List Char} (h : trails v = true) :
    quotedRest (escapeQuotes v ++ ['"']) = none := by
  induction v using closes.induct with
  | case1 => cases h
  | case2 => rfl
  | case3 d s ih =>
      rw [trails_backslash, Bool.and_eq_true, Bool.and_eq_true, decide_eq_true_eq,
        decide_eq_true_eq] at h
      obtain ⟨⟨hquote, hnewline⟩, hs⟩ := h
      rw [escapeQuotes_cons (by decide), escapeQuotes_cons hquote, List.cons_append,
        List.cons_append, quotedRest_backslash hnewline, ih hs]
      rfl
  | case4 d s hd ih =>
      rw [trails_cons hd] at h
      by_cases hquote : d = '"'
      · rw [hquote, escapeQuotes_quote, List.cons_append, List.cons_append,
          quotedRest_backslash (by decide), ih h]
        rfl
      · rw [escapeQuotes_cons hquote, List.cons_append, quotedRest_cons hquote hd, ih h]
        rfl

/-- A value in double quotes, its own quotes escaped. -/
def quoted (v : List Char) : List Char := '"' :: (escapeQuotes v ++ ['"'])

theorem paramValue_quotes (inner : List Char) :
    paramValue ('"' :: (inner ++ ['"'])) = unescape inner := by
  rw [paramValue, ← List.cons_append, List.getLast?_concat]
  simp

theorem paramValue_quoted (v : List Char) : paramValue (quoted v) = v := by
  rw [quoted, paramValue_quotes, unescape_escapeQuotes]

theorem mem_of_mem_unescape {c : Char} {s : List Char} (h : c ∈ unescape s) : c ∈ s := by
  induction s using unescape.induct with
  | case1 s ih =>
      rw [unescape, List.mem_cons] at h
      rcases h with rfl | h
      · simp
      · exact List.mem_cons_of_mem _ (List.mem_cons_of_mem _ (ih h))
  | case2 d s hd ih =>
      rw [unescape, List.mem_cons] at h
      · rcases h with rfl | h
        · exact List.mem_cons_self
        · exact List.mem_cons_of_mem _ (ih h)
      · exact hd
  | case3 => cases h

theorem mem_of_mem_paramValue {c : Char} {w : List Char} (h : c ∈ paramValue w) : c ∈ w := by
  rw [paramValue] at h
  split_ifs at h
  · exact List.mem_of_mem_drop (List.mem_of_mem_dropLast (mem_of_mem_unescape h))
  · exact h

theorem bareValue_eq {s value rest : List Char} (h : bareValue s = some (value, rest)) :
    s = value ++ rest ∧ ∀ c ∈ value, Text.isSpace c = false := by
  simp only [bareValue] at h
  split_ifs at h
  obtain ⟨rfl, rfl⟩ := Prod.mk.inj (Option.some.inj h)
  constructor
  · exact (List.prefix_append_drop (List.takeWhile_prefix _))
  · intro c hc
    simpa using List.mem_takeWhile_imp hc

theorem rawValue_eq {s value rest : List Char} (h : rawValue s = some (value, rest)) :
    s = value ++ rest := by
  unfold rawValue at h
  split at h
  · split at h
    next hread =>
      obtain ⟨rfl, rfl⟩ := Prod.mk.inj (Option.some.inj h)
      rw [(quotedRest_spec hread).1]
      rfl
    · exact (bareValue_eq h).1
  · exact (bareValue_eq h).1

/-! ### One parameter -/

theorem quoted_append (v tail : List Char) :
    quoted v ++ tail = '"' :: (escapeQuotes v ++ '"' :: tail) := by
  simp [quoted]

theorem rawValue_of_closes {v : List Char} (h : closes v = true) (tail : List Char) :
    rawValue (quoted v ++ tail) = some (quoted v, tail) := by
  rw [quoted_append, rawValue, quotedRest_of_closes h tail]
  rfl

theorem mem_quoted {c : Char} {v : List Char} (h : c ∈ quoted v) : c = '"' ∨ c = '\\' ∨ c ∈ v := by
  have hescaped : ∀ v : List Char, c ∈ escapeQuotes v → c = '"' ∨ c = '\\' ∨ c ∈ v := by
    intro v hc
    induction v with
    | nil => cases hc
    | cons d v ih =>
        rw [escapeQuotes] at hc
        split_ifs at hc
        · rcases List.mem_cons.mp hc with hc | hc
          · exact .inr (.inl hc)
          rcases List.mem_cons.mp hc with hc | hc
          · exact .inl hc
          · exact (ih hc).imp_right (Or.imp_right (List.mem_cons_of_mem _))
        · rcases List.mem_cons.mp hc with rfl | hc
          · exact .inr (.inr List.mem_cons_self)
          · exact (ih hc).imp_right (Or.imp_right (List.mem_cons_of_mem _))
  rcases List.mem_cons.mp h with h | h
  · exact .inl h
  · rcases List.mem_append.mp h with h | h
    · exact hescaped v h
    · exact .inl (List.mem_singleton.mp h)

/-- The last value may leave a backslash over when the pattern for bare values reads it. -/
theorem rawValue_of_trails {v : List Char} (h : trails v = true)
    (hspace : ∀ c ∈ v, Text.isSpace c = false) : rawValue (quoted v) = some (quoted v, []) := by
  have hall : ∀ c ∈ quoted v, (!Text.isSpace c) = true := by
    intro c hc
    rcases mem_quoted hc with rfl | rfl | hc
    · decide
    · decide
    · simp [hspace c hc]
  have hbare : bareValue (quoted v) = some (quoted v, []) := by
    simp only [bareValue, List.takeWhile_eq_self_iff.mpr hall, List.drop_length]
    rfl
  have hnone := quotedRest_of_trails h
  change rawValue ('"' :: (escapeQuotes v ++ ['"'])) = _
  rw [rawValue, hnone]
  exact hbare

/-- A value is read back only when it closes, or when a backslash is left over that the rest of
the text does not close either. -/
theorem closes_of_rawValue {v tail w rest : List Char}
    (hread : rawValue (quoted v ++ tail) = some (w, rest)) (hv : paramValue w = v) :
    closes v = true ∨
      trails v = true ∧ (∀ c ∈ v, Text.isSpace c = false) ∧ quotedRest tail = none := by
  by_cases hcloses : closes v = true
  · exact .inl hcloses
  have hcloses : closes v = false := by simpa using hcloses
  rw [quoted_append, rawValue] at hread
  cases hrest : quotedRest (escapeQuotes v ++ '"' :: tail) with
  | some capture =>
      obtain ⟨value, rest'⟩ := capture
      rw [hrest] at hread
      obtain ⟨rfl, rfl⟩ := Prod.mk.inj (Option.some.inj hread)
      obtain ⟨-, inner, rfl⟩ := quotedRest_spec hrest
      rw [paramValue_quotes] at hv
      exact absurd hv (unescape_ne hcloses hrest)
  | none =>
      rw [hrest] at hread
      have hspace : ∀ c ∈ v, Text.isSpace c = false := fun c hc =>
        (bareValue_eq hread).2 c (mem_of_mem_paramValue (hv ▸ hc))
      have hnewline : '\n' ∉ v := fun hmem => absurd (hspace _ hmem) (by decide)
      obtain ⟨htrails, htail⟩ := trails_of_none hnewline hcloses hrest
      exact .inr ⟨htrails, hspace, htail⟩

/-! ### The matches of a text -/

/-- `\w+`. -/
def IsKey (unicode : Unicode) (key : List Char) : Prop :=
  key ≠ [] ∧ ∀ c ∈ key, unicode.isWord c = true

/-- What the commands rely on of the class `\w`. -/
structure WordChars (unicode : Unicode) : Prop where
  space : ∀ c, unicode.isWord c = true → Text.isSpace c = false
  equals : unicode.isWord '=' = false
  backslash : unicode.isWord '\\' = false
  quote : unicode.isWord '"' = false

variable {unicode : Unicode}

theorem keyValue_key (hunicode : WordChars unicode) {key : List Char} (hkey : IsKey unicode key)
    (s : List Char) : keyValue unicode (key ++ '=' :: s) =
      (rawValue s).map fun (value, rest) => ((key, value), rest) := by
  have htake : (key ++ '=' :: s).takeWhile unicode.isWord = key := by
    rw [List.takeWhile_append_of_pos hkey.2, List.takeWhile_cons_of_neg (by simp [hunicode.equals]),
      List.append_nil]
  simp [keyValue, htake, hkey.1]

theorem keyValue_space (hunicode : WordChars unicode) (s : List Char) :
    keyValue unicode (' ' :: s) = none := by
  have hword : unicode.isWord ' ' = false := by
    by_contra hword
    have hspace := hunicode.space ' ' (by simpa using hword)
    revert hspace
    decide
  simp [keyValue, hword]

theorem keyValue_eq {s key value rest : List Char}
    (h : keyValue unicode s = some ((key, value), rest)) : s = key ++ '=' :: (value ++ rest) := by
  simp only [keyValue] at h
  split_ifs at h
  split at h
  next found hdrop =>
    obtain ⟨⟨value', rest'⟩, hread, heq⟩ := Option.map_eq_some_iff.mp h
    obtain ⟨hpair, rfl⟩ := Prod.mk.inj heq
    obtain ⟨rfl, rfl⟩ := Prod.mk.inj hpair
    rw [← rawValue_eq hread, ← hdrop]
    exact (List.prefix_append_drop (List.takeWhile_prefix _))
  · cases h

/-- `_KV_RE.findall`. -/
def matchesOf (unicode : Unicode) (s : List Char) : List (List Char × List Char) :=
  findKeyValues unicode s.length s

/-- More fuel than the text is long finds nothing more. -/
theorem findKeyValues_eq (fuel : ℕ) {s : List Char} (h : s.length ≤ fuel) :
    findKeyValues unicode fuel s = matchesOf unicode s := by
  suffices hfuel : ∀ fuel fuel' : ℕ, ∀ s : List Char, s.length ≤ fuel → s.length ≤ fuel' →
      findKeyValues unicode fuel s = findKeyValues unicode fuel' s from hfuel _ _ s h le_rfl
  clear h s fuel
  intro fuel
  induction fuel with
  | zero =>
      intro fuel' s h _
      obtain rfl := List.length_eq_zero_iff.mp (Nat.le_zero.mp h)
      cases fuel' <;> rfl
  | succ fuel ih =>
      intro fuel' s h h'
      cases s with
      | nil => cases fuel' <;> rfl
      | cons c s =>
          obtain ⟨fuel', rfl⟩ : ∃ n, fuel' = n + 1 := ⟨fuel' - 1, by simp at h'; omega⟩
          simp only [List.length_cons] at h h'
          rw [findKeyValues, findKeyValues]
          cases hread : keyValue unicode (c :: s) with
          | none => exact ih fuel' s (by omega) (by omega)
          | some found =>
              obtain ⟨⟨key, value⟩, rest⟩ := found
              have hlength := congrArg List.length (keyValue_eq hread)
              simp only [List.length_cons, List.length_append] at hlength
              dsimp only
              rw [ih fuel' rest (by omega) (by omega)]

theorem matchesOf_none {c : Char} {s : List Char} (h : keyValue unicode (c :: s) = none) :
    matchesOf unicode (c :: s) = matchesOf unicode s := by
  rw [matchesOf, List.length_cons, findKeyValues, h]
  rfl

theorem matchesOf_some {s rest : List Char} {found : List Char × List Char}
    (h : keyValue unicode s = some (found, rest)) :
    matchesOf unicode s = found :: matchesOf unicode rest := by
  have hlength := congrArg List.length (keyValue_eq h)
  simp only [List.length_cons, List.length_append] at hlength
  cases s with
  | nil => simp at hlength
  | cons c s =>
      rw [matchesOf, List.length_cons, findKeyValues, h]
      dsimp only
      rw [findKeyValues_eq s.length (by simp at hlength; omega)]

/-! ### A list of parameters -/

/-- ` key="value"`. -/
def renderParam (param : String × String) : List Char :=
  ' ' :: (param.1.toList ++ '=' :: quoted param.2.toList)

def render (params : List (String × String)) : List Char := params.flatMap renderParam

/-- The keys and values of the matches in a text. -/
def readBack (unicode : Unicode) (s : List Char) : List (String × String) :=
  (matchesOf unicode s).map fun e => (String.ofList e.1, String.ofList (paramValue e.2))

/-- Each value closes; the last one may leave a backslash over when it has no white space. -/
def readable : List (String × String) → Bool
  | [] => true
  | [(_, value)] =>
      closes value.toList || (trails value.toList && value.toList.all fun c => !Text.isSpace c)
  | (_, value) :: params => closes value.toList && readable params

theorem readable_of_closes {param : String × String} {params : List (String × String)}
    (h : closes param.2.toList = true) : readable (param :: params) = readable params := by
  cases params <;> simp [readable, h]

theorem render_cons (param : String × String) (params : List (String × String)) :
    render (param :: params) =
      ' ' :: (param.1.toList ++ '=' :: (quoted param.2.toList ++ render params)) := by
  simp [render, renderParam]

section Params

variable {param : String × String} {params : List (String × String)}
  (hunicode : WordChars unicode)
include hunicode

theorem matchesOf_render_cons :
    matchesOf unicode (render (param :: params)) = matchesOf unicode
      (param.1.toList ++ '=' :: (quoted param.2.toList ++ render params)) := by
  rw [render_cons, matchesOf_none (keyValue_space hunicode _)]

theorem readBack_render_cons (hkey : IsKey unicode param.1.toList) {value rest : List Char}
    (hread : rawValue (quoted param.2.toList ++ render params) = some (value, rest)) :
    readBack unicode (render (param :: params)) =
      (param.1, String.ofList (paramValue value)) :: readBack unicode rest := by
  have hfound : keyValue unicode
      (param.1.toList ++ '=' :: (quoted param.2.toList ++ render params)) =
        some ((param.1.toList, value), rest) := by
    rw [keyValue_key hunicode hkey, hread]
    rfl
  rw [readBack, matchesOf_render_cons hunicode, matchesOf_some hfound, List.map_cons,
    String.ofList_toList]
  rfl

/-- A list of parameters that is readable is read back. -/
theorem readBack_of_readable (hkeys : ∀ p ∈ params, IsKey unicode p.1.toList)
    (h : readable params = true) : readBack unicode (render params) = params := by
  induction params with
  | nil => rfl
  | cons param params ih =>
      have hkey := hkeys param List.mem_cons_self
      by_cases hcloses : closes param.2.toList = true
      · rw [readBack_render_cons hunicode hkey (rawValue_of_closes hcloses _), paramValue_quoted,
          String.ofList_toList, ih (fun p hp => hkeys p (List.mem_cons_of_mem _ hp))
            ((readable_of_closes hcloses).symm.trans h)]
      · cases params with
        | nil =>
            -- only the last value may leave a backslash over
            have hlast : trails param.2.toList = true ∧
                ∀ c ∈ param.2.toList, Text.isSpace c = false := by
              simpa [readable, hcloses] using h
            have hraw : rawValue (quoted param.2.toList ++ render []) =
                some (quoted param.2.toList, []) := by
              simpa [render] using rawValue_of_trails hlast.1 hlast.2
            rw [readBack_render_cons hunicode hkey hraw, paramValue_quoted, String.ofList_toList]
            rfl
        | cons q params => simp [readable, hcloses] at h

/-- The quotes of the next parameter close what a backslash left open. -/
theorem quotedRest_render (hkey : IsKey unicode param.1.toList) :
    quotedRest (render (param :: params)) ≠ none := by
  have hplain : ∀ s tail : List Char, (∀ c ∈ s, c ≠ '"' ∧ c ≠ '\\') →
      quotedRest (s ++ '"' :: tail) ≠ none := by
    intro s tail hs
    induction s with
    | nil => simp [quotedRest_quote]
    | cons c s ih =>
        have hc := hs c List.mem_cons_self
        rw [List.cons_append, quotedRest_cons hc.1 hc.2]
        simpa using ih fun d hd => hs d (List.mem_cons_of_mem _ hd)
  have hword : ∀ c ∈ param.1.toList, c ≠ '"' ∧ c ≠ '\\' := by
    intro c hc
    have hc := hkey.2 c hc
    constructor
    · rintro rfl
      simp [hunicode.quote] at hc
    · rintro rfl
      simp [hunicode.backslash] at hc
  have hrender : render (param :: params) = (' ' :: (param.1.toList ++ ['='])) ++
      '"' :: (escapeQuotes param.2.toList ++ '"' :: render params) := by
    rw [render_cons, quoted_append]
    simp
  rw [hrender]
  apply hplain
  intro c hc
  simp only [List.mem_cons, List.mem_append, List.not_mem_nil, or_false] at hc
  rcases hc with rfl | hc | rfl
  · decide
  · exact hword c hc
  · decide

/-- Only a readable list without repeated keys is read back. -/
theorem readable_of_perm (hkeys : ∀ p ∈ params, IsKey unicode p.1.toList)
    (hnodup : (OrderedDict.keys params).Nodup)
    (h : (readBack unicode (render params)).Perm params) : readable params = true := by
  induction params with
  | nil => rfl
  | cons param params ih =>
      have hkey := hkeys param List.mem_cons_self
      have hread : ∃ value rest,
          rawValue (quoted param.2.toList ++ render params) = some (value, rest) := by
        rw [quoted_append, rawValue]
        cases quotedRest (escapeQuotes param.2.toList ++ '"' :: render params) with
        | some capture => exact ⟨_, _, rfl⟩
        | none =>
            have hquote : Text.isSpace '"' = false := by decide
            simp [bareValue, hquote]
      obtain ⟨value, rest, hread⟩ := hread
      rw [readBack_render_cons hunicode hkey hread] at h
      have hmem : (param.1, String.ofList (paramValue value)) ∈ param :: params :=
        h.subset List.mem_cons_self
      have hvalue : paramValue value = param.2.toList := by
        rw [OrderedDict.eq_of_mem hnodup List.mem_cons_self hmem, String.toList_ofList]
      rcases closes_of_rawValue hread hvalue with hcloses | ⟨htrails, hspace, hopen⟩
      · rw [rawValue_of_closes hcloses] at hread
        obtain ⟨rfl, rfl⟩ := Prod.mk.inj (Option.some.inj hread)
        rw [paramValue_quoted, String.ofList_toList] at h
        rw [readable_of_closes hcloses]
        exact ih (fun p hp => hkeys p (List.mem_cons_of_mem _ hp))
          (List.nodup_cons.mp hnodup).2 h.cons_inv
      · cases params with
        | nil => simpa [readable, htrails] using .inr hspace
        | cons q params =>
            exact absurd hopen (quotedRest_render hunicode
              (hkeys q (List.mem_cons_of_mem _ List.mem_cons_self)))

end Params

/-! ### Equal signs -/

theorem count_unescape {c : Char} (hc : c ≠ '\\') (s : List Char) :
    (unescape s).count c = s.count c := by
  induction s using unescape.induct with
  | case1 s ih =>
      rw [unescape, List.count_cons, List.count_cons_of_ne (Ne.symm hc), List.count_cons, ih]
  | case2 d s hd ih =>
      rw [unescape]
      · rw [List.count_cons, List.count_cons, ih]
      · exact hd
  | case3 => rfl

theorem count_paramValue_le {c : Char} (hc : c ≠ '\\') (w : List Char) :
    (paramValue w).count c ≤ w.count c := by
  rw [paramValue]
  split_ifs
  · rw [count_unescape hc]
    exact ((List.dropLast_sublist _).trans (List.drop_sublist 1 w)).count_le c
  · exact le_rfl

theorem count_escapeQuotes {c : Char} (hquote : c ≠ '"') (hback : c ≠ '\\') (v : List Char) :
    (escapeQuotes v).count c = v.count c := by
  induction v with
  | nil => rfl
  | cons d v ih =>
      by_cases hd : d = '"'
      · rw [hd, escapeQuotes_quote, List.count_cons_of_ne (Ne.symm hback),
          List.count_cons_of_ne (Ne.symm hquote), List.count_cons_of_ne (Ne.symm hquote), ih]
      · rw [escapeQuotes_cons hd, List.count_cons, List.count_cons, ih]

/-- The equal signs that a parameter takes. -/
def equalSigns (param : String × String) : ℕ := 1 + param.2.toList.count '='

/-- What is read of a text takes no more equal signs than the text has. -/
theorem equalSigns_readBack_le (s : List Char) :
    ((readBack unicode s).map equalSigns).sum ≤ s.count '=' := by
  induction hlength : s.length using Nat.strong_induction_on generalizing s with
  | _ n ih =>
      cases s with
      | nil => exact Nat.zero_le _
      | cons c s =>
          cases hread : keyValue unicode (c :: s) with
          | none =>
              rw [readBack, matchesOf_none hread]
              have hs := ih s.length (by simp at hlength; omega) s rfl
              have hcount : s.count '=' ≤ (c :: s).count '=' := List.count_le_count_cons
              exact hs.trans hcount
          | some found =>
              obtain ⟨⟨key, value⟩, rest⟩ := found
              have heq := keyValue_eq hread
              have hlengths := congrArg List.length heq
              simp only [List.length_cons, List.length_append] at hlengths hlength
              have hrest := ih rest.length (by omega) rest rfl
              have hvalue := count_paramValue_le (c := '=') (by decide) value
              rw [readBack] at hrest
              rw [readBack, matchesOf_some hread, heq, List.map_cons, List.map_cons, List.sum_cons,
                equalSigns, String.toList_ofList, List.count_append, List.count_cons_self,
                List.count_append]
              dsimp only
              omega

theorem count_render (hunicode : WordChars unicode) {params : List (String × String)}
    (hkeys : ∀ p ∈ params, IsKey unicode p.1.toList) :
    (render params).count '=' = (params.map equalSigns).sum := by
  induction params with
  | nil => rfl
  | cons param params ih =>
      have hkey : param.1.toList.count '=' = 0 := by
        apply List.count_eq_zero.mpr
        intro hmem
        have hword := (hkeys param List.mem_cons_self).2 '=' hmem
        rw [hunicode.equals] at hword
        cases hword
      have hvalue : (quoted param.2.toList).count '=' = param.2.toList.count '=' := by
        rw [quoted, List.count_cons_of_ne (by decide), List.count_append,
          count_escapeQuotes (by decide) (by decide)]
        rfl
      rw [render_cons, List.count_cons_of_ne (by decide), List.count_append, List.count_cons_self,
        List.count_append, hkey, hvalue, ih fun p hp => hkeys p (List.mem_cons_of_mem _ hp),
        List.map_cons, List.sum_cons, equalSigns]
      omega

/-- Where the dictionary of what was read has the lookups of the parameters, they were read. -/
theorem perm_readBack (hunicode : WordChars unicode) {params : List (String × String)}
    (hkeys : ∀ p ∈ params, IsKey unicode p.1.toList) (hnodup : (OrderedDict.keys params).Nodup)
    (h : ∀ k, (OrderedDict.setAll (readBack unicode (render params))).get? k =
      OrderedDict.get? k params) : (readBack unicode (render params)).Perm params := by
  have hperm := OrderedDict.perm_of_get? (OrderedDict.nodup_keys_setAll _) hnodup h
  have hsum := (hperm.map equalSigns).sum_eq
  have hle : ((readBack unicode (render params)).map equalSigns).sum ≤ (render params).count '=' :=
    equalSigns_readBack_le _
  rw [count_render hunicode hkeys] at hle
  -- a shadowed match would have taken equal signs that the text does not have
  have hpos : ∀ param, 0 < equalSigns param := fun param => by simp [equalSigns]
  rcases OrderedDict.setAll_eq_or_lt hpos (readBack unicode (render params)) with heq | hlt
  · rwa [heq] at hperm
  · omega

/-! ### The command -/

/-- A tool or an action in lower case. -/
structure LowerName (name : String) : Prop where
  first : ∃ c rest, name.toList = c :: rest ∧ isIdentStart c = true
  ident : ∀ c ∈ name.toList, isIdentChar c = true
  lower : name.toList.any Char.isUpper = false

theorem LowerName.map_toLower {name : String} (h : LowerName name) :
    String.ofList (name.toList.map Char.toLower) = name := by
  have hmap : name.toList.map Char.toLower = name.toList.map id := by
    apply List.map_congr_left
    intro c hc
    have hupper : c.isUpper = false := by simpa using List.any_eq_false.mp h.lower c hc
    exact dif_neg (of_decide_eq_false hupper)
  rw [hmap, List.map_id, String.ofList_toList]

theorem LowerName.identifier_append {name : String} (h : LowerName name) {tail : List Char}
    (htail : ∀ c ∈ tail.head?, isIdentChar c = false) :
    identifier (name.toList ++ tail) = some (name.toList, tail) := by
  obtain ⟨c, rest, hname, hc⟩ := h.first
  have htake : (name.toList ++ tail).takeWhile isIdentChar = name.toList := by
    rw [List.takeWhile_append_of_pos h.ident]
    cases tail with
    | nil => simp
    | cons d tail => simpa using htail d rfl
  have hdrop : (name.toList ++ tail).dropWhile isIdentChar = tail := by
    rw [List.dropWhile_append_of_pos h.ident]
    cases tail with
    | nil => rfl
    | cons d tail =>
        exact List.dropWhile_cons_of_neg (by simpa using htail d rfl)
  rw [hname, List.cons_append] at htake hdrop ⊢
  simp only [identifier]
  rw [if_pos hc, htake, hdrop]

theorem isSpace_of_isIdentChar {c : Char} (h : isIdentChar c = true) : Text.isSpace c = false := by
  have hcode : c.isAlphanum = true ∨ c = '_' := by simpa [isIdentChar] using h
  rcases hcode with halnum | rfl
  · have hrange := Text.isAlphanum_iff.mp halnum
    simp only [Text.isSpace, Bool.or_eq_false_iff, Bool.and_eq_false_iff, decide_eq_false_iff_not]
    omega
  · decide

theorem assign_eq_set {β : Type} (d : List (String × β)) (k : String) (v : β) :
    assign d k v = OrderedDict.set k v d := by
  have hkeys : (d.any fun e => decide (e.1 = k)) = true ↔ k ∈ OrderedDict.keys d := by
    simp [OrderedDict.keys]
  rw [assign, OrderedDict.set]
  by_cases h : k ∈ OrderedDict.keys d
  · rw [if_pos h, if_pos (hkeys.mpr h)]
    apply List.map_congr_left
    intro e he
    by_cases heq : e.1 = k <;> simp [heq]
  · rw [if_neg h, if_neg (mt hkeys.mp h)]

/-- The assignments to the parameters are those of a dictionary. -/
theorem foldl_assign {step : List (String × String) → List Char × List Char → List (String × String)}
    (hstep : ∀ d e, step d e = assign d (String.ofList e.1) (String.ofList (paramValue e.2)))
    (found : List (List Char × List Char)) : found.foldl step [] = OrderedDict.setAll
      (found.map fun e => (String.ofList e.1, String.ofList (paramValue e.2))) := by
  rw [OrderedDict.setAll, List.foldl_map]
  congr 1
  funext d e
  rw [hstep, assign_eq_set]

/-- `/tool.action key="value" …`. -/
def commandText (tool action : String) (params : List (String × String)) : String :=
  String.ofList ('/' :: (tool.toList ++ '.' :: (action.toList ++ render params)))

theorem render_eq_nil_or (params : List (String × String)) :
    render params = [] ∨ ∃ front, render params = ' ' :: (front ++ ['"']) := by
  induction params with
  | nil => exact .inl rfl
  | cons param params ih =>
      right
      rw [render_cons, quoted]
      rcases ih with hnil | ⟨front, hfront⟩
      · rw [hnil]
        exact ⟨param.1.toList ++ '=' :: '"' :: escapeQuotes param.2.toList, by simp⟩
      · rw [hfront]
        exact ⟨param.1.toList ++ '=' :: '"' ::
          (escapeQuotes param.2.toList ++ '"' :: ' ' :: front), by simp⟩

section Parse

variable {tool action : String}

/-- Nothing is stripped of the command. -/
theorem strip_commandText (haction : LowerName action) (params : List (String × String)) :
    Text.strip (commandText tool action params).toList =
      '/' :: (tool.toList ++ '.' :: (action.toList ++ render params)) := by
  rw [commandText, String.toList_ofList]
  apply Text.Trimmed.strip
  have hslash : Text.isSpace '/' = false := by decide
  refine ⟨⟨'/', _, rfl, hslash⟩, ?_⟩
  rcases render_eq_nil_or params with hnil | ⟨front, hfront⟩
  · -- the command ends in the last character of the action
    have hne : action.toList ≠ [] := by
      obtain ⟨c, rest, hname, -⟩ := haction.first
      simp [hname]
    have hident := haction.ident _ (List.getLast_mem hne)
    refine ⟨'/' :: (tool.toList ++ '.' :: action.toList.dropLast), action.toList.getLast hne, ?_,
      isSpace_of_isIdentChar hident⟩
    rw [hnil, List.append_nil]
    conv_lhs => rw [← List.dropLast_append_getLast hne]
    simp
  · have hquote : Text.isSpace '"' = false := by decide
    refine ⟨'/' :: (tool.toList ++ '.' :: (action.toList ++ ' ' :: front)), '"', ?_, hquote⟩
    rw [hfront]
    simp

/-- The command is parsed to its tool, its action and what the pattern reads of the rest. -/
theorem parseCommand_commandText (htool : LowerName tool) (haction : LowerName action)
    (hunicode : WordChars unicode) {params : List (String × String)} (hkeys : ∀ p ∈ params, IsKey unicode p.1.toList) :
    parseCommand unicode (commandText tool action params) = some
      { toolName := tool
        action := action
        params := OrderedDict.setAll (readBack unicode (render params)) } := by
  have htail : ∀ c ∈ (render params).head?, isIdentChar c = false := by
    intro c hc
    rcases render_eq_nil_or params with hnil | ⟨front, hfront⟩
    · simp [hnil] at hc
    · obtain rfl : ' ' = c := by simpa [hfront] using hc
      decide
  have hrest : matchesOf unicode ((render params).dropWhile Text.isSpace) =
      matchesOf unicode (render params) := by
    cases params with
    | nil => rfl
    | cons param params =>
        have hkey := hkeys param List.mem_cons_self
        obtain ⟨c, key, hc⟩ := List.exists_cons_of_ne_nil hkey.1
        have hspace : Text.isSpace c = false :=
          hunicode.space c (hkey.2 c (hc ▸ List.mem_cons_self))
        rw [matchesOf_render_cons hunicode, render_cons, hc,
          List.dropWhile_cons_of_pos (by decide), List.cons_append,
          List.dropWhile_cons_of_neg (by simp [hspace])]
  have hparts : commandParts (Text.strip (commandText tool action params).toList) =
      some (tool.toList, action.toList, (render params).dropWhile Text.isSpace) := by
    have hdot : ∀ c ∈ ('.' :: (action.toList ++ render params)).head?, isIdentChar c = false := by
      intro c hc
      obtain rfl : '.' = c := by simpa using hc
      decide
    rw [strip_commandText haction]
    simp only [commandParts, htool.identifier_append hdot, haction.identifier_append htail,
      Option.map_some]
  rw [parseCommand, hparts, Option.map_some]
  dsimp only
  rw [htool.map_toLower, haction.map_toLower, foldl_assign fun d e => rfl, ← matchesOf, hrest,
    readBack]

end Parse

/-- The command is parsed to its tool, its action and the value that each key was given last. -/
def Parses (unicode : Unicode) (tool action : String) (params : List (String × String)) : Prop :=
  ∃ found, parseCommand unicode (commandText tool action params) = some ⟨tool, action, found⟩ ∧
    ∀ key, OrderedDict.get? key found = params.reverse.lookup key

/-- A readable list of parameters is parsed, and without repeated keys no other one is. -/
theorem parses_when_readable (hunicode : WordChars unicode) {tool action : String}
    (htool : LowerName tool) (haction : LowerName action) {params : List (String × String)}
    (hkeys : ∀ p ∈ params, IsKey unicode p.1.toList) :
    (readable params = true → Parses unicode tool action params) ∧
      ((OrderedDict.keys params).Nodup →
        (Parses unicode tool action params ↔ readable params = true)) := by
  have hparsed := parseCommand_commandText htool haction hunicode hkeys
  have hreads : readable params = true → Parses unicode tool action params := by
    intro h
    refine ⟨_, hparsed, fun key => ?_⟩
    rw [readBack_of_readable hunicode hkeys h]
    exact OrderedDict.get?_setAll params key
  refine ⟨hreads, fun hnodup => ⟨?_, hreads⟩⟩
  rintro ⟨found, hfound, hlookup⟩
  rw [hparsed] at hfound
  obtain rfl : OrderedDict.setAll (readBack unicode (render params)) = found :=
    congrArg ParsedCommand.params (Option.some.inj hfound)
  apply readable_of_perm hunicode hkeys hnodup
  apply perm_readBack hunicode hkeys hnodup
  intro key
  rw [hlookup key, ← OrderedDict.get?_setAll, OrderedDict.setAll_eq_of_nodup hnodup]

/-- A table of the word characters among the ASCII ones. -/
def asciiWords : Unicode where
  isWord := isIdentChar
  casefold := List.map Char.toLower

theorem wordChars_asciiWords : WordChars asciiWords where
  space _ hc := isSpace_of_isIdentChar hc
  equals := by decide
  backslash := by decide
  quote := by decide

theorem isKey_folder : IsKey asciiWords "folder".toList :=
  ⟨List.cons_ne_nil _ _, List.all_eq_true.mp (by decide)⟩

theorem isKey_name : IsKey asciiWords "name".toList :=
  ⟨List.cons_ne_nil _ _, List.all_eq_true.mp (by decide)⟩

theorem lowerName_localPc : LowerName "local_pc" where
  first := ⟨'l', _, rfl, by decide⟩
  ident := List.all_eq_true.mp (by decide)
  lower := by decide

theorem lowerName_findFile : LowerName "find_file" where
  first := ⟨'f', _, rfl, by decide⟩
  ident := List.all_eq_true.mp (by decide)
  lower := by decide

/-- A folder and a name with a quote in it. -/
def quotedName : List (String × String) := [("folder", "C:\\docs\\2026"), ("name", "a \"b\"=c")]

theorem parses_when_readable_quotedName :
    Parses asciiWords "local_pc" "find_file" quotedName :=
  (parses_when_readable wordChars_asciiWords lowerName_localPc lowerName_findFile
    (List.forall_mem_cons.mpr ⟨isKey_folder, List.forall_mem_singleton.mpr isKey_name⟩)).1
    (by decide +kernel)

/-- The backslash at the end of the folder takes the closing quote with it. -/
def trailingBackslash : List (String × String) := [("folder", "C:\\"), ("name", "x")]

theorem trailingBackslash_misread :
    parseCommand asciiWords (commandText "local_pc" "find_file" trailingBackslash) =
        some ⟨"local_pc", "find_file", [("folder", "C:\" name=")]⟩ ∧
      ¬ Parses asciiWords "local_pc" "find_file" trailingBackslash := by
  have hparsed : parseCommand asciiWords (commandText "local_pc" "find_file" trailingBackslash) =
      some ⟨"local_pc", "find_file", [("folder", "C:\" name=")]⟩ := by
    have hkeys : ∀ p ∈ trailingBackslash, IsKey asciiWords p.1.toList :=
      List.forall_mem_cons.mpr ⟨isKey_folder, List.forall_mem_singleton.mpr isKey_name⟩
    have hread : readBack asciiWords (render trailingBackslash) = [("folder", "C:\" name=")] := by
      decide
    rw [parseCommand_commandText lowerName_localPc lowerName_findFile wordChars_asciiWords hkeys,
      hread]
    rfl
  refine ⟨hparsed, ?_⟩
  rintro ⟨found, hfound, hlookup⟩
  rw [hparsed] at hfound
  obtain rfl : [("folder", "C:\" name=")] = found :=
    congrArg ParsedCommand.params (Option.some.inj hfound)
  exact absurd (hlookup "name") (by decide)

end Ally.Commands
