import Ally.OrderedDict
import Mathlib.Data.Bool.AllAny

/-!
# JSON

`json.dump` with `ensure_ascii=False` and `json.loads`, on lists of code points.
-/

namespace Json

inductive NonFinite
  | nan | infinity | negInfinity
  deriving DecidableEq, Repr

/-- A value of the `json` module; `F` has the finite floats. -/
inductive Value (F : Type)
  | null
  | bool (value : Bool)
  | int (value : ℤ)
  | float (value : F)
  | nonFinite (value : NonFinite)
  | string (value : List Char)
  | list (items : List (Value F))
  | dict (entries : List (List Char × Value F))

/-! ### The text of a number -/

/-- The integer part of a number: no zero in front. -/
def IsInteger (s : List Char) : Prop :=
  s ≠ [] ∧ (∀ c ∈ s, c.isDigit = true) ∧ (s.head? = some '0' → s = ['0'])

/-- The part after the decimal point, with the point. -/
def IsFraction (s : List Char) : Prop :=
  ∃ digits, s = '.' :: digits ∧ digits ≠ [] ∧ ∀ c ∈ digits, c.isDigit = true

def IsExponent (s : List Char) : Prop :=
  ∃ e sign digits, s = e :: (sign ++ digits) ∧ e ∈ ['e', 'E'] ∧ sign ∈ [[], ['+'], ['-']] ∧
    digits ≠ [] ∧ ∀ c ∈ digits, c.isDigit = true

/-- A number with a fraction or an exponent. -/
structure FloatText (s : List Char) : Prop where
  parts : ∃ sign integer fraction exponent, s = sign ++ integer ++ fraction ++ exponent ∧
    sign ∈ [[], ['-']] ∧ IsInteger integer ∧ (fraction = [] ∨ IsFraction fraction) ∧
    (exponent = [] ∨ IsExponent exponent) ∧ (fraction ≠ [] ∨ exponent ≠ [])

/-- `float.__repr__` and `float` on the finite floats: `repr` writes a fraction or an exponent,
and its text is that of no other float. -/
structure Floats (F : Type) where
  repr : F → List Char
  /-- `float(s)`, which for a large number is infinite. -/
  parse : List Char → Option F
  text : ∀ x, FloatText (repr x)
  parse_repr : ∀ x, parse (repr x) = some x

/-- Two floats. -/
example : Nonempty (Floats Bool) := by
  refine ⟨fun x => if x then "1e-07".toList else "0.5".toList,
    fun s => if s = "1e-07".toList then some true else if s = "0.5".toList then some false else none,
    fun x => ?_, by decide⟩
  cases x with
  | false =>
      exact ⟨[], ['0'], ['.', '5'], [], rfl, by decide,
        ⟨by decide, List.all_eq_true.mp (by decide), by decide⟩,
        .inr ⟨['5'], rfl, by decide, List.all_eq_true.mp (by decide)⟩, .inl rfl, by decide⟩
  | true =>
      exact ⟨[], ['1'], [], "e-07".toList, rfl, by decide,
        ⟨by decide, List.all_eq_true.mp (by decide), by decide⟩, .inl rfl,
        .inr ⟨'e', ['-'], ['0', '7'], rfl, by decide, by decide, by decide,
          List.all_eq_true.mp (by decide)⟩, by decide⟩

/-- The default of `sys.set_int_max_str_digits`. -/
def maxStrDigits : ℕ := 4300

/-! ### Dumping -/

/-- What `_iterencode` yields next, or its `ValueError`. -/
abbrev Chunk := Option (List Char)

/-- `int.__repr__`. -/
def intRepr (n : ℤ) : Chunk :=
  let digits := Nat.toDigits 10 n.natAbs
  if digits.length ≤ maxStrDigits then some (if n < 0 then '-' :: digits else digits) else none

def NonFinite.text : NonFinite → List Char
  | .nan => "NaN".toList
  | .infinity => "Infinity".toList
  | .negInfinity => "-Infinity".toList

def hexDigit (n : ℕ) : Char := "0123456789abcdef".toList.getD n '0'

/-- One character inside of a string. -/
def escape (c : Char) : List Char :=
  if c = '"' then ['\\', '"']
  else if c = '\\' then ['\\', '\\']
  else if c = '\x08' then ['\\', 'b']
  else if c = '\x0c' then ['\\', 'f']
  else if c = '\n' then ['\\', 'n']
  else if c = '\r' then ['\\', 'r']
  else if c = '\t' then ['\\', 't']
  else if c.toNat ≤ 0x1f then
    ['\\', 'u', '0', '0', hexDigit (c.toNat / 16), hexDigit (c.toNat % 16)]
  else [c]

/-- `encode_basestring`. -/
def encodeString (s : List Char) : List Char := '"' :: (s.flatMap escape ++ ['"'])

variable {F : Type} (fl : Floats F)

/-- The text of a value that is neither a list nor a dictionary. -/
def scalar : Value F → Chunk
  | .null => some "null".toList
  | .bool true => some "true".toList
  | .bool false => some "false".toList
  | .int n => intRepr n
  | .float x => some (fl.repr x)
  | .nonFinite x => some x.text
  | .string s => some (encodeString s)
  | .list _ => none
  | .dict _ => none

def Value.isContainer : Value F → Bool
  | .list _ => true
  | .dict _ => true
  | _ => false

/-- What `_iterencode_list` yields for an item after `buf`, from the chunks of a container. -/
def itemChunks (buf : List Char) (v : Value F) (inner : List Chunk) : List Chunk :=
  if v.isContainer then some buf :: inner else [(scalar fl v).map (buf ++ ·)]

mutual
/-- `_iterencode`. -/
def chunks : Value F → List Chunk
  | .list [] => [some "[]".toList]
  | .list (v :: vs) => itemChunks fl ['['] v (chunks v) ++ chunksOfItems vs ++ [some [']']]
  | .dict [] => [some "{}".toList]
  | .dict ((key, v) :: es) =>
      some ['{'] :: some (encodeString key) :: some ": ".toList :: (chunks v ++ chunksOfEntries es ++
        [some ['}']])
  | .null => [scalar fl .null]
  | .bool b => [scalar fl (.bool b)]
  | .int n => [scalar fl (.int n)]
  | .float x => [scalar fl (.float x)]
  | .nonFinite x => [scalar fl (.nonFinite x)]
  | .string s => [scalar fl (.string s)]

/-- The items after the first one. -/
def chunksOfItems : List (Value F) → List Chunk
  | [] => []
  | v :: vs => itemChunks fl ", ".toList v (chunks v) ++ chunksOfItems vs

def chunksOfEntries : List (List Char × Value F) → List Chunk
  | [] => []
  | (key, v) :: es =>
      some ", ".toList :: some (encodeString key) :: some ": ".toList ::
        (chunks v ++ chunksOfEntries es)
end

/-- All that is written, when no chunk raises. -/
def joinChunks : List Chunk → Option (List Char)
  | [] => some []
  | none :: _ => none
  | some chunk :: rest => (joinChunks rest).map (chunk ++ ·)

/-! ### Loading -/

def isWhitespace (c : Char) : Bool := c ∈ [' ', '\t', '\n', '\r']

def skipSpace (s : List Char) : List Char := s.dropWhile isWhitespace

def hexValue (c : Char) : Option ℕ :=
  if c.isDigit then some (c.toNat - '0'.toNat)
  else if 'a' ≤ c ∧ c ≤ 'f' then some (c.toNat - 'a'.toNat + 10)
  else if 'A' ≤ c ∧ c ≤ 'F' then some (c.toNat - 'A'.toNat + 10)
  else none

/-- Four hexadecimal digits. -/
def scanHex (s : List Char) : Option (ℕ × List Char) :=
  match s with
  | a :: b :: c :: d :: rest => do
      let a ← hexValue a
      let b ← hexValue b
      let c ← hexValue c
      let d ← hexValue d
      return (4096 * a + 256 * b + 16 * c + d, rest)
  | _ => none

/-- After `\u`. A lone surrogate, which is no character, is refused. -/
def scanUnicode (s : List Char) : Option (Char × List Char) :=
  match scanHex s with
  | none => none
  | some (n, rest) =>
      if 0xD800 ≤ n ∧ n ≤ 0xDBFF then
        match rest with
        | '\\' :: 'u' :: rest =>
            match scanHex rest with
            | some (m, rest) =>
                if 0xDC00 ≤ m ∧ m ≤ 0xDFFF then
                  some (Char.ofNat (0x10000 + (n - 0xD800) * 0x400 + (m - 0xDC00)), rest)
                else none
            | none => none
        | _ => none
      else if 0xDC00 ≤ n ∧ n ≤ 0xDFFF then none
      else some (Char.ofNat n, rest)

def simpleEscapes : List (Char × Char) :=
  [('"', '"'), ('\\', '\\'), ('/', '/'), ('b', '\x08'), ('f', '\x0c'), ('n', '\n'), ('r', '\r'),
    ('t', '\t')]

/-- After a backslash. -/
def unescape : List Char → Option (Char × List Char)
  | [] => none
  | c :: s => if c = 'u' then scanUnicode s else (simpleEscapes.lookup c).map (·, s)

/-- `scanstring`, after the opening quote. -/
def scanString : ℕ → List Char → Option (List Char × List Char)
  | 0, _ => none
  | _ + 1, [] => none
  | fuel + 1, c :: s =>
      if c = '"' then some ([], s)
      else if c = '\\' then
        (unescape s).bind fun (d, s) => (scanString fuel s).map fun (t, s) => (d :: t, s)
      else if c.toNat ≤ 0x1f then none
      else (scanString fuel s).map fun (t, s) => (c :: t, s)

def scanSign (s : List Char) : List Char × List Char :=
  match s with
  | [] => ([], [])
  | c :: t => if c = '-' then (['-'], t) else ([], s)

def scanInteger (s : List Char) : Option (List Char × List Char) :=
  match s with
  | [] => none
  | c :: t =>
      if c = '0' then some (['0'], t)
      else if c.isDigit then some (s.takeWhile Char.isDigit, s.dropWhile Char.isDigit)
      else none

def scanFraction (s : List Char) : List Char × List Char :=
  match s with
  | c :: d :: t =>
      if c = '.' ∧ d.isDigit = true then
        ('.' :: (d :: t).takeWhile Char.isDigit, (d :: t).dropWhile Char.isDigit)
      else ([], s)
  | _ => ([], s)

/-- The sign of an exponent. -/
def scanPlusMinus (s : List Char) : List Char × List Char :=
  match s with
  | [] => ([], [])
  | c :: t => if c = '+' ∨ c = '-' then ([c], t) else ([], s)

def scanExponent (s : List Char) : List Char × List Char :=
  match s with
  | [] => ([], [])
  | c :: t =>
      let (sign, u) := scanPlusMinus t
      if (c = 'e' ∨ c = 'E') ∧ u.takeWhile Char.isDigit ≠ [] then
        (c :: (sign ++ u.takeWhile Char.isDigit), u.dropWhile Char.isDigit)
      else ([], s)

/-- `int(s)`. -/
def parseInt (sign digits : List Char) : Option ℤ :=
  if digits.length ≤ maxStrDigits then
    some (if sign = [] then (Nat.ofDigitChars 10 digits 0 : ℤ) else -(Nat.ofDigitChars 10 digits 0 : ℤ))
  else none

/-- `_match_number`. -/
def scanNumber (s : List Char) : Option (Value F × List Char) :=
  let (sign, s) := scanSign s
  (scanInteger s).bind fun (integer, s) =>
    let (fraction, s) := scanFraction s
    let (exponent, s) := scanExponent s
    if fraction = [] ∧ exponent = [] then (parseInt sign integer).map (.int ·, s)
    else
      match fl.parse (sign ++ integer ++ fraction ++ exponent) with
      | some x => some (.float x, s)
      | none => some (.nonFinite (if sign = [] then .infinity else .negInfinity), s)

def literals : List (List Char × Value F) :=
  [("null".toList, .null), ("true".toList, .bool true), ("false".toList, .bool false),
    ("NaN".toList, .nonFinite .nan), ("Infinity".toList, .nonFinite .infinity),
    ("-Infinity".toList, .nonFinite .negInfinity)]

/-- A literal or a number. -/
def scanScalar (s : List Char) : Option (Value F × List Char) :=
  (literals.findSome? fun e => (s.dropPrefix? e.1).map fun rest => (e.2, rest)).orElse fun _ =>
    scanNumber fl s

/-- The dictionary of the pairs that were read. -/
def toDict (entries : List (List Char × Value F)) : List (List Char × Value F) :=
  entries.foldl (fun (d : OrderedDict _ _) e => d.set e.1 e.2) []

mutual
/-- `scan_once`. -/
def scanValue : ℕ → List Char → Option (Value F × List Char)
  | 0, _ => none
  | _ + 1, [] => none
  | fuel + 1, c :: s =>
      if c = '"' then (scanString (s.length + 1) s).map fun (t, s) => (.string t, s)
      else if c = '{' then
        match skipSpace s with
        | '}' :: s => some (.dict [], s)
        | s => (scanEntries fuel s).map fun (es, s) => (.dict (toDict es), s)
      else if c = '[' then
        match skipSpace s with
        | ']' :: s => some (.list [], s)
        | s => (scanItems fuel s).map fun (vs, s) => (.list vs, s)
      else scanScalar fl (c :: s)

def scanItems : ℕ → List Char → Option (List (Value F) × List Char)
  | 0, _ => none
  | fuel + 1, s =>
      (scanValue fuel s).bind fun (v, s) =>
        match skipSpace s with
        | ']' :: s => some ([v], s)
        | ',' :: s => (scanItems fuel (skipSpace s)).map fun (vs, s) => (v :: vs, s)
        | _ => none

def scanEntries : ℕ → List Char → Option (List (List Char × Value F) × List Char)
  | 0, _ => none
  | fuel + 1, '"' :: s =>
      (scanString (s.length + 1) s).bind fun (key, s) =>
        match skipSpace s with
        | ':' :: s =>
            (scanValue fuel (skipSpace s)).bind fun (v, s) =>
              match skipSpace s with
              | '}' :: s => some ([(key, v)], s)
              | ',' :: s => (scanEntries fuel (skipSpace s)).map fun (es, s) => ((key, v) :: es, s)
              | _ => none
        | _ => none
  | _ + 1, _ => none
end

/-- `json.loads`. -/
def loads (s : List Char) : Option (Value F) :=
  if s.head? = some '\uFEFF' then none
  else
    (scanValue fl (s.length + 1) (skipSpace s)).bind fun (v, s) =>
      if skipSpace s = [] then some v else none

/-! ### Strings come back -/

theorem hexValue_hexDigit : ∀ n < 16, hexValue (hexDigit n) = some n := by decide

/-- The control characters: an escape of six characters. -/
theorem unescape_control {c : Char} (hc : c.toNat ≤ 0x1f) (s : List Char) :
    unescape ('u' :: '0' :: '0' :: hexDigit (c.toNat / 16) :: hexDigit (c.toNat % 16) :: s) =
      some (c, s) := by
  have hhigh : hexValue (hexDigit (c.toNat / 16)) = some (c.toNat / 16) :=
    hexValue_hexDigit _ (by omega)
  have hlow : hexValue (hexDigit (c.toNat % 16)) = some (c.toNat % 16) :=
    hexValue_hexDigit _ (by omega)
  have hzero : hexValue '0' = some 0 := by decide
  have hhex : scanHex ('0' :: '0' :: hexDigit (c.toNat / 16) :: hexDigit (c.toNat % 16) :: s) =
      some (c.toNat, s) := by
    simp only [scanHex, hzero, hhigh, hlow, Option.bind_eq_bind, Option.bind_some,
      Option.pure_def, Option.some.injEq, Prod.mk.injEq, and_true]
    omega
  rw [unescape, if_pos rfl, scanUnicode, hhex]
  dsimp only
  rw [if_neg (by omega), if_neg (by omega), Char.ofNat_toNat]

theorem scanString_escape (c : Char) (fuel : ℕ) (s : List Char) :
    scanString (fuel + 1) (escape c ++ s) =
      (scanString fuel s).map fun (t, s) => (c :: t, s) := by
  have hescaped : ∀ d, d ≠ 'u' → simpleEscapes.lookup d = some c →
      scanString (fuel + 1) ('\\' :: d :: s) =
        (scanString fuel s).map fun (t, s) => (c :: t, s) := by
    intro d hd hlookup
    rw [scanString, if_neg (by decide), if_pos rfl, unescape, if_neg hd, hlookup]
    rfl
  unfold escape
  by_cases hquote : c = '"'
  · rw [if_pos hquote]
    exact hescaped '"' (by decide) (by rw [hquote]; rfl)
  rw [if_neg hquote]
  by_cases hslash : c = '\\'
  · rw [if_pos hslash]
    exact hescaped '\\' (by decide) (by rw [hslash]; rfl)
  rw [if_neg hslash]
  by_cases hb : c = '\x08'
  · rw [if_pos hb]
    exact hescaped 'b' (by decide) (by rw [hb]; rfl)
  rw [if_neg hb]
  by_cases hf : c = '\x0c'
  · rw [if_pos hf]
    exact hescaped 'f' (by decide) (by rw [hf]; rfl)
  rw [if_neg hf]
  by_cases hn : c = '\n'
  · rw [if_pos hn]
    exact hescaped 'n' (by decide) (by rw [hn]; rfl)
  rw [if_neg hn]
  by_cases hr : c = '\r'
  · rw [if_pos hr]
    exact hescaped 'r' (by decide) (by rw [hr]; rfl)
  rw [if_neg hr]
  by_cases ht : c = '\t'
  · rw [if_pos ht]
    exact hescaped 't' (by decide) (by rw [ht]; rfl)
  rw [if_neg ht]
  by_cases hcontrol : c.toNat ≤ 0x1f
  · rw [if_pos hcontrol]
    simp only [List.cons_append, List.nil_append]
    rw [scanString, if_neg (by decide), if_pos rfl, unescape_control hcontrol]
    rfl
  · rw [if_neg hcontrol, List.singleton_append, scanString, if_neg hquote, if_neg hslash,
      if_neg hcontrol]

theorem scanString_encoded (s : List Char) (fuel : ℕ) (hfuel : s.length < fuel) (r : List Char) :
    scanString fuel (s.flatMap escape ++ '"' :: r) = some (s, r) := by
  induction s generalizing fuel with
  | nil =>
      obtain ⟨fuel, rfl⟩ : ∃ n, fuel = n + 1 := ⟨fuel - 1, by omega⟩
      rfl
  | cons c s ih =>
      obtain ⟨fuel, rfl⟩ : ∃ n, fuel = n + 1 := ⟨fuel - 1, by omega⟩
      rw [List.flatMap_cons, List.append_assoc, scanString_escape,
        ih fuel (by simpa using hfuel)]
      rfl

theorem escape_ne_nil (c : Char) : escape c ≠ [] := by
  unfold escape
  split_ifs <;> simp

theorem length_le_escaped (s : List Char) : s.length ≤ (s.flatMap escape).length := by
  induction s with
  | nil => simp
  | cons c s ih =>
      have hpos := List.length_pos_iff.mpr (escape_ne_nil c)
      rw [List.flatMap_cons, List.length_append, List.length_cons]
      omega

/-- A dumped string comes back from any text that starts with it. -/
theorem scanString_encodeString (s r : List Char) :
    ∃ u, encodeString s ++ r = '"' :: u ∧ scanString (u.length + 1) u = some (s, r) := by
  refine ⟨s.flatMap escape ++ '"' :: r, by simp [encodeString], scanString_encoded s _ ?_ r⟩
  have hlen := length_le_escaped s
  rw [List.length_append]
  omega

/-! ### Numbers come back -/

/-- The text does not go on with a digit. -/
def NoDigit (s : List Char) : Prop := ∀ c, s.head? = some c → c.isDigit = false

/-- The text does not go on with a character of a number. -/
def Stops (s : List Char) : Prop :=
  ∀ c, s.head? = some c → c.isDigit = false ∧ c ∉ ['.', 'e', 'E']

theorem Stops.noDigit {s : List Char} (h : Stops s) : NoDigit s := fun c hc => (h c hc).1

theorem stops_nil : Stops [] := nofun

theorem stops_cons {c : Char} (h : c.isDigit = false ∧ c ∉ ['.', 'e', 'E']) (s : List Char) :
    Stops (c :: s) := by
  intro d hd
  obtain rfl : c = d := Option.some.inj hd
  exact h

theorem spanDigits {digits s : List Char} (hd : ∀ c ∈ digits, c.isDigit = true) (hs : NoDigit s) :
    (digits ++ s).takeWhile Char.isDigit = digits ∧ (digits ++ s).dropWhile Char.isDigit = s := by
  rw [List.takeWhile_append_of_pos hd, List.dropWhile_append_of_pos hd]
  cases s with
  | nil => simp
  | cons c s =>
      have hc := hs c rfl
      simp [hc]

theorem scanInteger_append {integer s : List Char} (h : IsInteger integer) (hs : NoDigit s) :
    scanInteger (integer ++ s) = some (integer, s) := by
  obtain ⟨hne, hdigits, hzero⟩ := h
  obtain ⟨c, t, rfl⟩ := List.exists_cons_of_ne_nil hne
  have hspan := spanDigits hdigits hs
  rw [List.cons_append] at hspan ⊢
  unfold scanInteger
  dsimp only
  by_cases hc : c = '0'
  · have ht : t = [] := (List.cons.inj (hzero (by rw [hc]; rfl))).2
    rw [if_pos hc, hc, ht, List.nil_append]
  · rw [if_neg hc, if_pos (hdigits c List.mem_cons_self), hspan.1, hspan.2]

theorem scanFraction_append {fraction s : List Char} (h : fraction = [] ∨ IsFraction fraction)
    (hs : NoDigit s) (hdot : s.head? ≠ some '.') :
    scanFraction (fraction ++ s) = (fraction, s) := by
  rcases h with rfl | ⟨digits, rfl, hne, hdigits⟩
  · rw [List.nil_append]
    match s with
    | [] => rfl
    | [c] => rfl
    | c :: d :: t =>
        have hc : c ≠ '.' := fun heq => hdot (by rw [heq]; rfl)
        rw [scanFraction, if_neg fun h => hc h.1]
  · obtain ⟨d, t, rfl⟩ := List.exists_cons_of_ne_nil hne
    have hspan := spanDigits hdigits hs
    rw [List.cons_append] at hspan
    rw [List.cons_append, List.cons_append, scanFraction,
      if_pos ⟨rfl, hdigits d List.mem_cons_self⟩, hspan.1, hspan.2]

theorem scanPlusMinus_append {sign s : List Char} (h : sign ∈ [[], ['+'], ['-']])
    (hs : s.head? ≠ some '+' ∧ s.head? ≠ some '-') : scanPlusMinus (sign ++ s) = (sign, s) := by
  simp only [List.mem_cons, List.not_mem_nil, or_false] at h
  rcases h with rfl | rfl | rfl
  · cases s with
    | nil => rfl
    | cons c s =>
        have hc : ¬(c = '+' ∨ c = '-') := by
          rintro (rfl | rfl)
          · exact hs.1 rfl
          · exact hs.2 rfl
        rw [List.nil_append, scanPlusMinus, if_neg hc]
  · rfl
  · rfl

theorem scanExponent_append {exponent s : List Char} (h : exponent = [] ∨ IsExponent exponent)
    (hs : Stops s) : scanExponent (exponent ++ s) = (exponent, s) := by
  rcases h with rfl | ⟨e, sign, digits, rfl, he, hsign, hne, hdigits⟩
  · cases s with
    | nil => rfl
    | cons c s =>
        have hc := (hs c rfl).2
        simp only [List.mem_cons, List.not_mem_nil, or_false, not_or] at hc
        rw [List.nil_append, scanExponent]
        dsimp only
        rw [if_neg]
        rintro ⟨rfl | rfl, -⟩
        · exact hc.2.1 rfl
        · exact hc.2.2 rfl
  · have hspan := spanDigits hdigits hs.noDigit
    have hhead : ∀ c ∈ ['+', '-'], (digits ++ s).head? ≠ some c := by
      intro c hc heq
      obtain ⟨d, t, rfl⟩ := List.exists_cons_of_ne_nil hne
      obtain rfl : d = c := Option.some.inj heq
      have hd := hdigits d List.mem_cons_self
      simp only [List.mem_cons, List.not_mem_nil, or_false] at hc
      rcases hc with rfl | rfl <;> exact absurd hd (by decide)
    have hplus := scanPlusMinus_append hsign ⟨hhead '+' (by simp), hhead '-' (by simp)⟩
    have he : e = 'e' ∨ e = 'E' := by simpa using he
    rw [List.cons_append, List.append_assoc, scanExponent, hplus]
    dsimp only
    rw [hspan.1, hspan.2, if_pos ⟨he, hne⟩]

theorem scanSign_append {sign s : List Char} (h : sign ∈ [[], ['-']]) (hs : s.head? ≠ some '-') :
    scanSign (sign ++ s) = (sign, s) := by
  simp only [List.mem_cons, List.not_mem_nil, or_false] at h
  rcases h with rfl | rfl
  · cases s with
    | nil => rfl
    | cons c s =>
        have hc : c ≠ '-' := fun heq => hs (by rw [heq]; rfl)
        rw [List.nil_append, scanSign, if_neg hc]
  · rfl

/-- The number at the front of a text, part by part. -/
theorem scanNumber_append {sign integer fraction exponent s : List Char}
    (hsign : sign ∈ [[], ['-']]) (hinteger : IsInteger integer)
    (hfraction : fraction = [] ∨ IsFraction fraction)
    (hexponent : exponent = [] ∨ IsExponent exponent) (hs : Stops s) :
    scanNumber fl (sign ++ (integer ++ (fraction ++ (exponent ++ s)))) =
      if fraction = [] ∧ exponent = [] then (parseInt sign integer).map (.int ·, s)
      else
        match fl.parse (sign ++ integer ++ fraction ++ exponent) with
        | some x => some (.float x, s)
        | none => some (.nonFinite (if sign = [] then .infinity else .negInfinity), s) := by
  have hexp : NoDigit (exponent ++ s) ∧ (exponent ++ s).head? ≠ some '.' := by
    rcases hexponent with rfl | ⟨e, sign, digits, rfl, he, -⟩
    · refine ⟨hs.noDigit, fun h => ?_⟩
      exact absurd (hs '.' h).2 (by decide)
    · simp only [List.mem_cons, List.not_mem_nil, or_false] at he
      refine ⟨fun c hc => ?_, fun h => ?_⟩
      · obtain rfl : e = c := Option.some.inj hc
        rcases he with rfl | rfl <;> rfl
      · obtain rfl : e = '.' := Option.some.inj h
        exact absurd he (by decide)
  have hfrac : NoDigit (fraction ++ (exponent ++ s)) := by
    rcases hfraction with rfl | ⟨digits, rfl, -⟩
    · exact hexp.1
    · intro c hc
      obtain rfl : '.' = c := Option.some.inj hc
      rfl
  have hint : (integer ++ (fraction ++ (exponent ++ s))).head? ≠ some '-' := by
    obtain ⟨c, t, rfl⟩ := List.exists_cons_of_ne_nil hinteger.1
    intro h
    obtain rfl : c = '-' := Option.some.inj h
    exact absurd (hinteger.2.1 '-' List.mem_cons_self) (by decide)
  rw [scanNumber, scanSign_append hsign hint]
  dsimp only
  rw [scanInteger_append hinteger hfrac, Option.bind_some]
  dsimp only
  rw [scanFraction_append hfraction hexp.1 hexp.2]
  dsimp only
  rw [scanExponent_append hexponent hs]

/-- A number starts with a digit, or with a sign and a digit. -/
def StartsNumber (s : List Char) : Prop :=
  ∃ sign c t, s = sign ++ c :: t ∧ sign ∈ [[], ['-']] ∧ c.isDigit = true

theorem digit_ne {c d : Char} (hc : c.isDigit = true) (hd : d.isDigit = false) : c ≠ d := by
  rintro rfl
  rw [hc] at hd
  cases hd

theorem scanScalar_number {s : List Char} (h : StartsNumber s) :
    scanScalar fl s = scanNumber fl s := by
  obtain ⟨sign, c, t, rfl, hsign, hc⟩ := h
  have hne := fun d hd => digit_ne (d := d) hc hd
  have hnone : (literals (F := F)).findSome? (fun e =>
      ((sign ++ c :: t).dropPrefix? e.1).map fun rest => (e.2, rest)) = none := by
    simp only [List.mem_cons, List.not_mem_nil, or_false] at hsign
    rcases hsign with rfl | rfl
    · simp [literals, List.dropPrefix?, hne 'n' rfl, hne 't' rfl, hne 'f' rfl, hne 'N' rfl,
        hne 'I' rfl, hne '-' rfl]
    · simp [literals, List.dropPrefix?, hne 'I' rfl]
  rw [scanScalar, hnone]
  rfl

theorem startsNumber_append {sign integer : List Char} (hsign : sign ∈ [[], ['-']])
    (hinteger : IsInteger integer) (s : List Char) : StartsNumber (sign ++ (integer ++ s)) := by
  obtain ⟨c, t, rfl⟩ := List.exists_cons_of_ne_nil hinteger.1
  exact ⟨sign, c, t ++ s, rfl, hsign, hinteger.2.1 c List.mem_cons_self⟩

/-- The digits of a number start with a zero only for zero. -/
theorem toDigits_head (n : ℕ) (h : (Nat.toDigits 10 n).head? = some '0') : n = 0 := by
  induction n using Nat.strong_induction_on with
  | _ n ih =>
      by_cases hn : n < 10
      · rw [Nat.toDigits_of_lt_base hn] at h
        have hall : ∀ m < 10, [Nat.digitChar m].head? = some '0' → m = 0 := by decide
        exact hall n hn h
      · rw [Nat.toDigits_of_base_le (by omega) (by omega), List.head?_append_of_ne_nil _
          Nat.toDigits_ne_nil] at h
        have hzero := ih (n / 10) (by omega) h
        omega

theorem isInteger_toDigits (n : ℕ) : IsInteger (Nat.toDigits 10 n) := by
  refine ⟨Nat.toDigits_ne_nil, fun c hc => Nat.isDigit_of_mem_toDigits (by omega) le_rfl hc,
    fun h => ?_⟩
  rw [toDigits_head n h]
  rfl

theorem scanScalar_intRepr {n : ℤ} {t s : List Char} (h : intRepr n = some t) (hs : Stops s) :
    StartsNumber t ∧ scanScalar fl (t ++ s) = some (.int n, s) := by
  simp only [intRepr, Option.ite_none_right_eq_some, Option.some.injEq] at h
  obtain ⟨hlen, rfl⟩ := h
  have hinteger := isInteger_toDigits n.natAbs
  obtain ⟨sign, hsign, hneg, htext⟩ : ∃ sign : List Char, sign ∈ [[], ['-']] ∧
      (sign = [] ↔ 0 ≤ n) ∧
      (if n < 0 then '-' :: Nat.toDigits 10 n.natAbs else Nat.toDigits 10 n.natAbs) =
        sign ++ Nat.toDigits 10 n.natAbs := by
    by_cases hn : n < 0
    · exact ⟨['-'], by simp, by simpa using hn, by rw [if_pos hn]; rfl⟩
    · exact ⟨[], by simp, by simpa using hn, by rw [if_neg hn]; rfl⟩
  rw [htext]
  have hstart := startsNumber_append hsign hinteger
  refine ⟨by simpa using hstart [], ?_⟩
  rw [List.append_assoc, scanScalar_number fl (hstart s)]
  have hscan := scanNumber_append fl hsign hinteger (.inl rfl) (.inl rfl) hs
  rw [List.nil_append, List.nil_append, if_pos ⟨rfl, rfl⟩] at hscan
  rw [hscan, parseInt, if_pos hlen, Nat.ofDigitChars_ten_toDigits]
  by_cases hn : 0 ≤ n
  · rw [if_pos (hneg.mpr hn), Int.natAbs_of_nonneg hn]
    rfl
  · have habs : -(n.natAbs : ℤ) = n := by omega
    rw [if_neg (mt hneg.mp hn), habs]
    rfl

theorem scanScalar_floatRepr (x : F) {s : List Char} (hs : Stops s) :
    StartsNumber (fl.repr x) ∧ scanScalar fl (fl.repr x ++ s) = some (.float x, s) := by
  obtain ⟨sign, integer, fraction, exponent, htext, hsign, hinteger, hfraction, hexponent, hne⟩ :=
    (fl.text x).parts
  have hassoc : fl.repr x = sign ++ (integer ++ (fraction ++ exponent)) := by
    rw [htext, List.append_assoc, List.append_assoc]
  refine ⟨hassoc ▸ startsNumber_append hsign hinteger _, ?_⟩
  have hassoc' : fl.repr x ++ s = sign ++ (integer ++ (fraction ++ (exponent ++ s))) := by
    rw [hassoc]
    simp only [List.append_assoc]
  rw [hassoc', scanScalar_number fl (startsNumber_append hsign hinteger _),
    scanNumber_append fl hsign hinteger hfraction hexponent hs, if_neg (by tauto), ← htext,
    fl.parse_repr]

/-! ### Values come back -/

mutual
/-- No number is infinite or `nan`, and the keys of a dictionary are distinct. -/
def Value.Regular : Value F → Prop
  | .nonFinite _ => False
  | .list vs => regularItems vs
  | .dict es => (es.map Prod.fst).Nodup ∧ regularEntries es
  | _ => True

def regularItems : List (Value F) → Prop
  | [] => True
  | v :: vs => v.Regular ∧ regularItems vs

def regularEntries : List (List Char × Value F) → Prop
  | [] => True
  | (_, v) :: es => v.Regular ∧ regularEntries es
end

mutual
/-- The fuel that the scan of a dumped value takes. -/
def Value.depth : Value F → ℕ
  | .list vs => depthOfItems vs + 1
  | .dict es => depthOfEntries es + 1
  | _ => 1

def depthOfItems : List (Value F) → ℕ
  | [] => 0
  | v :: vs => max v.depth (depthOfItems vs) + 1

def depthOfEntries : List (List Char × Value F) → ℕ
  | [] => 0
  | (_, v) :: es => max v.depth (depthOfEntries es) + 1
end

theorem joinChunks_append {a b : List Chunk} {t : List Char} :
    joinChunks (a ++ b) = some t ↔
      ∃ x y, joinChunks a = some x ∧ joinChunks b = some y ∧ t = x ++ y := by
  induction a generalizing t with
  | nil => simp [joinChunks]
  | cons c a ih =>
      cases c with
      | none => simp [joinChunks]
      | some c =>
          simp only [List.cons_append, joinChunks, Option.map_eq_some_iff, ih]
          constructor
          · rintro ⟨u, ⟨x, y, hx, hy, rfl⟩, rfl⟩
            exact ⟨c ++ x, y, ⟨x, hx, rfl⟩, hy, (List.append_assoc ..).symm⟩
          · rintro ⟨_, y, ⟨x, hx, rfl⟩, hy, rfl⟩
            exact ⟨x ++ y, ⟨x, y, hx, hy, rfl⟩, (List.append_assoc ..).symm⟩

theorem joinChunks_cons {c : List Char} {cs : List Chunk} {t : List Char} :
    joinChunks (some c :: cs) = some t ↔ ∃ x, joinChunks cs = some x ∧ t = c ++ x := by
  simp only [joinChunks, Option.map_eq_some_iff, eq_comm (a := t)]

theorem joinChunks_singleton {c : Chunk} {t : List Char} :
    joinChunks [c] = some t ↔ c = some t := by
  cases c <;> simp [joinChunks]

theorem chunks_scalar {v : Value F} (h : v.isContainer = false) : chunks fl v = [scalar fl v] := by
  cases v with
  | list _ => cases h
  | dict _ => cases h
  | _ => rfl

theorem joinChunks_itemChunks {buf t : List Char} {v : Value F} :
    joinChunks (itemChunks fl buf v (chunks fl v)) = some t ↔
      ∃ x, joinChunks (chunks fl v) = some x ∧ t = buf ++ x := by
  unfold itemChunks
  cases h : v.isContainer with
  | true => exact joinChunks_cons
  | false =>
      rw [chunks_scalar fl h]
      simp only [Bool.false_eq_true, if_false, joinChunks_singleton, Option.map_eq_some_iff,
        eq_comm (a := t)]

/-- The characters that a dumped value starts with. -/
def IsStart (c : Char) : Prop :=
  c.isDigit = true ∨ c ∈ ['-', '"', '[', '{', 'n', 't', 'f', 'N', 'I']

theorem StartsNumber.isStart {t : List Char} (h : StartsNumber t) :
    ∃ c u, t = c :: u ∧ IsStart c := by
  obtain ⟨sign, c, u, rfl, hsign, hc⟩ := h
  simp only [List.mem_cons, List.not_mem_nil, or_false] at hsign
  rcases hsign with rfl | rfl
  · exact ⟨c, u, rfl, .inl hc⟩
  · exact ⟨'-', c :: u, rfl, .inr (by simp)⟩

theorem isStart_scalar {v : Value F} {t : List Char} (h : scalar fl v = some t) :
    ∃ c u, t = c :: u ∧ IsStart c := by
  cases v with
  | null =>
      obtain rfl := Option.some.inj h
      exact ⟨'n', _, rfl, .inr (by simp)⟩
  | bool b =>
      cases b with
      | true =>
          obtain rfl := Option.some.inj h
          exact ⟨'t', _, rfl, .inr (by simp)⟩
      | false =>
          obtain rfl := Option.some.inj h
          exact ⟨'f', _, rfl, .inr (by simp)⟩
  | int n => exact (scanScalar_intRepr fl h stops_nil).1.isStart
  | float x =>
      obtain rfl := Option.some.inj h
      exact (scanScalar_floatRepr fl x stops_nil).1.isStart
  | nonFinite x =>
      obtain rfl := Option.some.inj h
      cases x with
      | nan => exact ⟨'N', _, rfl, .inr (by simp)⟩
      | infinity => exact ⟨'I', _, rfl, .inr (by simp)⟩
      | negInfinity => exact ⟨'-', _, rfl, .inr (by simp)⟩
  | string s =>
      obtain rfl := Option.some.inj h
      exact ⟨'"', _, rfl, .inr (by simp)⟩
  | list _ => cases h
  | dict _ => cases h

theorem isStart_chunks {v : Value F} {t : List Char} (h : joinChunks (chunks fl v) = some t) :
    ∃ c u, t = c :: u ∧ IsStart c := by
  cases hc : v.isContainer with
  | false =>
      rw [chunks_scalar fl hc, joinChunks_singleton] at h
      exact isStart_scalar fl h
  | true =>
      cases v with
      | list vs =>
          cases vs with
          | nil =>
              obtain rfl := joinChunks_singleton.mp h |> Option.some.inj
              exact ⟨'[', _, rfl, .inr (by simp)⟩
          | cons v vs =>
              rw [chunks, List.append_assoc, joinChunks_append] at h
              obtain ⟨x, y, hx, -, rfl⟩ := h
              obtain ⟨u, -, rfl⟩ := (joinChunks_itemChunks fl).mp hx
              exact ⟨'[', _, rfl, .inr (by simp)⟩
      | dict es =>
          cases es with
          | nil =>
              obtain rfl := joinChunks_singleton.mp h |> Option.some.inj
              exact ⟨'{', _, rfl, .inr (by simp)⟩
          | cons e es =>
              obtain ⟨key, v⟩ := e
              rw [chunks, joinChunks_cons] at h
              obtain ⟨x, -, rfl⟩ := h
              exact ⟨'{', _, rfl, .inr (by simp)⟩
      | _ => cases hc

theorem IsStart.ne {c : Char} (h : IsStart c) :
    isWhitespace c = false ∧ c ∉ [']', '}', '\uFEFF'] := by
  rcases h with h | h
  · have hne := fun d hd => digit_ne (d := d) h hd
    refine ⟨?_, ?_⟩
    · simp [isWhitespace, hne ' ' rfl, hne '\t' rfl, hne '\n' rfl, hne '\r' rfl]
    · simp [hne ']' rfl, hne '}' rfl, hne '\uFEFF' (by decide)]
  · have hall : ∀ c ∈ ['-', '"', '[', '{', 'n', 't', 'f', 'N', 'I'],
        isWhitespace c = false ∧ c ∉ [']', '}', '\uFEFF'] :=
      List.all_iff_forall_prop.mp (by decide)
    exact hall c h

theorem skipSpace_of_isStart {c : Char} (h : IsStart c) (s : List Char) :
    skipSpace (c :: s) = c :: s :=
  List.dropWhile_cons_of_neg (by simp [h.ne.1])

variable {fuel : ℕ}

theorem scanValue_of_scalar (c : Char) (hc : c ∉ ['"', '{', '[']) (s : List Char) :
    scanValue fl (fuel + 1) (c :: s) = scanScalar fl (c :: s) := by
  simp only [List.mem_cons, List.not_mem_nil, or_false, not_or] at hc
  rw [scanValue, if_neg hc.1, if_neg hc.2.1, if_neg hc.2.2]

theorem scanScalar_null (s : List Char) :
    scanScalar fl ("null".toList ++ s) = some (.null, s) := by
  simp [scanScalar, literals, List.dropPrefix?]

theorem scanScalar_true (s : List Char) :
    scanScalar fl ("true".toList ++ s) = some (.bool true, s) := by
  simp [scanScalar, literals, List.dropPrefix?]

theorem scanScalar_false (s : List Char) :
    scanScalar fl ("false".toList ++ s) = some (.bool false, s) := by
  simp [scanScalar, literals, List.dropPrefix?]

theorem scanValue_number {t s : List Char} {v : Value F} (h : StartsNumber t)
    (hscan : scanScalar fl (t ++ s) = some (v, s)) :
    scanValue fl (fuel + 1) (t ++ s) = some (v, s) := by
  obtain ⟨sign, c, u, rfl, hsign, hc⟩ := h
  have hne := fun d hd => digit_ne (d := d) hc hd
  simp only [List.mem_cons, List.not_mem_nil, or_false] at hsign
  rcases hsign with rfl | rfl
  · simp only [List.nil_append, List.cons_append] at hscan ⊢
    rwa [scanValue_of_scalar fl c (by simp [hne '"' rfl, hne '{' rfl, hne '[' rfl])]
  · simp only [List.cons_append, List.nil_append] at hscan ⊢
    rwa [scanValue_of_scalar fl '-' (by decide)]

/-- A value that is neither a list nor a dictionary comes back. -/
theorem scanValue_scalar {v : Value F} {t r : List Char} (hr : v.Regular)
    (h : scalar fl v = some t) (hs : Stops r) : scanValue fl (fuel + 1) (t ++ r) = some (v, r) := by
  cases v with
  | null =>
      obtain rfl := Option.some.inj h
      exact (scanValue_of_scalar fl 'n' (by decide) _).trans (scanScalar_null fl r)
  | bool b =>
      cases b with
      | true =>
          obtain rfl := Option.some.inj h
          exact (scanValue_of_scalar fl 't' (by decide) _).trans (scanScalar_true fl r)
      | false =>
          obtain rfl := Option.some.inj h
          exact (scanValue_of_scalar fl 'f' (by decide) _).trans (scanScalar_false fl r)
  | int n =>
      obtain ⟨hstart, hscan⟩ := scanScalar_intRepr fl h hs
      exact scanValue_number fl hstart hscan
  | float x =>
      obtain rfl := Option.some.inj h
      obtain ⟨hstart, hscan⟩ := scanScalar_floatRepr fl x hs
      exact scanValue_number fl hstart hscan
  | nonFinite x => exact absurd hr id
  | string s =>
      obtain rfl := Option.some.inj h
      obtain ⟨u, htext, hscan⟩ := scanString_encodeString s r
      rw [htext, scanValue, if_pos rfl, hscan]
      rfl
  | list _ => cases h
  | dict _ => cases h

theorem scanValue_list {s u : List Char} {c : Char} (hs : skipSpace s = c :: u) (hc : c ≠ ']') :
    scanValue fl (fuel + 1) ('[' :: s) =
      (scanItems fl fuel (c :: u)).map fun (vs, s) => (.list vs, s) := by
  rw [scanValue, if_neg (by decide), if_neg (by decide), if_pos rfl, hs]
  split
  next heq => exact absurd (List.cons.inj heq).1 hc
  next => rfl

theorem scanValue_dict {s u : List Char} {c : Char} (hs : skipSpace s = c :: u) (hc : c ≠ '}') :
    scanValue fl (fuel + 1) ('{' :: s) =
      (scanEntries fl fuel (c :: u)).map fun (es, s) => (.dict (toDict es), s) := by
  rw [scanValue, if_neg (by decide), if_pos rfl, hs]
  split
  next heq => exact absurd (List.cons.inj heq).1 hc
  next => rfl

theorem toDict_of_nodup {es : List (List Char × Value F)} (h : (es.map Prod.fst).Nodup) :
    toDict es = es := by
  induction es using List.reverseRecOn with
  | nil => rfl
  | append_singleton es e ih =>
      rw [List.map_append, List.nodup_append] at h
      have hfold : toDict (es ++ [e]) = OrderedDict.set e.1 e.2 (toDict es) := by
        rw [toDict, List.foldl_append]
        rfl
      have hnot : e.1 ∉ OrderedDict.keys es := fun hmem =>
        h.2.2 e.1 hmem e.1 (by simp) rfl
      rw [hfold, ih h.1, OrderedDict.set_of_notMem hnot]

theorem stops_delimiter {c : Char} (h : c ∈ [',', ']', '}']) (s : List Char) : Stops (c :: s) := by
  refine stops_cons ?_ s
  have hall : ∀ c ∈ [',', ']', '}'], c.isDigit = false ∧ c ∉ ['.', 'e', 'E'] :=
    List.all_iff_forall_prop.mp (by decide)
  exact hall c h

theorem Value.depth_pos (v : Value F) : 0 < v.depth := by
  cases v <;> simp [Value.depth]

theorem scanValue_leaf {v : Value F} {t r : List Char} (hleaf : v.isContainer = false)
    (hr : v.Regular) (hfuel : v.depth ≤ fuel) (hs : Stops r)
    (ht : joinChunks (chunks fl v) = some t) : scanValue fl fuel (t ++ r) = some (v, r) := by
  have hpos := v.depth_pos
  obtain ⟨fuel, rfl⟩ : ∃ n, fuel = n + 1 := ⟨fuel - 1, by omega⟩
  rw [chunks_scalar fl hleaf, joinChunks_singleton] at ht
  exact scanValue_scalar fl hr ht hs

/-- The value comes back from every text that starts with `t` and goes on with none of a
number's characters. -/
def Scans (v : Value F) (t : List Char) : Prop :=
  ∀ fuel r, v.depth ≤ fuel → Stops r → scanValue fl fuel (t ++ r) = some (v, r)

theorem skipSpace_delimiter {c : Char} (h : isWhitespace c = false) (s : List Char) :
    skipSpace (c :: s) = c :: s :=
  List.dropWhile_cons_of_neg (by simp [h])

theorem scanItems_last {v : Value F} {x : List Char} (hv : Scans fl v x) (hfuel : v.depth ≤ fuel)
    (r : List Char) : scanItems fl (fuel + 1) (x ++ ']' :: r) = some ([v], r) := by
  rw [scanItems, hv fuel _ hfuel (stops_delimiter (by decide) r), Option.bind_some]
  dsimp only
  rw [skipSpace_delimiter (by decide)]
  rfl

theorem scanItems_next {v : Value F} {x : List Char} (hv : Scans fl v x) (hfuel : v.depth ≤ fuel)
    {c : Char} (hc : IsStart c) (u : List Char) :
    scanItems fl (fuel + 1) (x ++ (", ".toList ++ c :: u)) =
      (scanItems fl fuel (c :: u)).map fun (vs, s) => (v :: vs, s) := by
  have hspace : skipSpace (' ' :: c :: u) = c :: u := skipSpace_of_isStart hc u
  have htext : ", ".toList ++ c :: u = ',' :: ' ' :: c :: u := rfl
  rw [htext, scanItems, hv fuel _ hfuel (stops_delimiter (by decide) _), Option.bind_some]
  dsimp only
  rw [skipSpace_delimiter (by decide)]
  change (scanItems fl fuel (skipSpace (' ' :: c :: u))).map _ = _
  rw [hspace]

/-- The front of an entry is read up to its value. -/
theorem scanEntries_key (key : List Char) {v : Value F} {x r : List Char} (hv : Scans fl v x)
    (hstart : ∃ c u, x = c :: u ∧ IsStart c) (hfuel : v.depth ≤ fuel) (hr : Stops r) :
    scanEntries fl (fuel + 1) (encodeString key ++ (": ".toList ++ (x ++ r))) =
      match skipSpace r with
      | '}' :: s => some ([(key, v)], s)
      | ',' :: s => (scanEntries fl fuel (skipSpace s)).map fun (es, s) => ((key, v) :: es, s)
      | _ => none := by
  obtain ⟨u, htext, hkey⟩ := scanString_encodeString key (": ".toList ++ (x ++ r))
  obtain ⟨c, w, hx, hc⟩ := hstart
  have hspace : skipSpace (' ' :: (x ++ r)) = x ++ r := by
    rw [hx, List.cons_append]
    exact skipSpace_of_isStart hc _
  have hcolon : skipSpace (": ".toList ++ (x ++ r)) = ':' :: ' ' :: (x ++ r) :=
    skipSpace_delimiter (by decide) _
  rw [htext, scanEntries, hkey, Option.bind_some]
  dsimp only
  rw [hcolon]
  change (scanValue fl fuel (skipSpace (' ' :: (x ++ r)))).bind _ = _
  rw [hspace, hv fuel r hfuel hr, Option.bind_some]

mutual
theorem scans_chunks : ∀ (v : Value F) (t : List Char), v.Regular →
    joinChunks (chunks fl v) = some t → Scans fl v t
  | .list [], t, _, ht, fuel, r, hfuel, _ => by
      obtain ⟨fuel, rfl⟩ : ∃ n, fuel = n + 1 := ⟨fuel - 1, by simp [Value.depth] at hfuel; omega⟩
      obtain rfl := joinChunks_singleton.mp ht |> Option.some.inj
      rfl
  | .list (v :: vs), t, hr, ht, fuel, r, hfuel, _ => by
      simp only [Value.depth] at hfuel
      obtain ⟨fuel, rfl⟩ : ∃ n, fuel = n + 1 := ⟨fuel - 1, by omega⟩
      rw [chunks, joinChunks_append] at ht
      obtain ⟨xy, z, hxy, hz, rfl⟩ := ht
      obtain ⟨bx, y, hbx, hy, rfl⟩ := joinChunks_append.mp hxy
      obtain ⟨x, hx, rfl⟩ := (joinChunks_itemChunks fl).mp hbx
      obtain rfl := joinChunks_singleton.mp hz |> Option.some.inj
      obtain ⟨c, u, rfl, hc⟩ := isStart_chunks fl hx
      have hitems := scanItems_chunks vs v (c :: u) y r fuel (scans_chunks v _ hr.1 hx) hr.2 hy
        (by omega)
      have htext : ['['] ++ c :: u ++ y ++ [']'] ++ r = '[' :: c :: (u ++ (y ++ ']' :: r)) := by
        simp
      rw [htext, scanValue_list fl (skipSpace_of_isStart hc _) fun h => hc.ne.2 (by simp [h])]
      rw [List.cons_append] at hitems
      rw [hitems]
      rfl
  | .dict [], t, _, ht, fuel, r, hfuel, _ => by
      obtain ⟨fuel, rfl⟩ : ∃ n, fuel = n + 1 := ⟨fuel - 1, by simp [Value.depth] at hfuel; omega⟩
      obtain rfl := joinChunks_singleton.mp ht |> Option.some.inj
      rfl
  | .dict ((key, v) :: es), t, hr, ht, fuel, r, hfuel, _ => by
      simp only [Value.depth] at hfuel
      obtain ⟨fuel, rfl⟩ : ∃ n, fuel = n + 1 := ⟨fuel - 1, by omega⟩
      rw [chunks] at ht
      obtain ⟨t₁, ht₁, rfl⟩ := joinChunks_cons.mp ht
      obtain ⟨t₂, ht₂, rfl⟩ := joinChunks_cons.mp ht₁
      obtain ⟨t₃, ht₃, rfl⟩ := joinChunks_cons.mp ht₂
      obtain ⟨xy, z, hxy, hz, rfl⟩ := joinChunks_append.mp ht₃
      obtain ⟨x, y, hx, hy, rfl⟩ := joinChunks_append.mp hxy
      obtain rfl := joinChunks_singleton.mp hz |> Option.some.inj
      have hentries := scanEntries_chunks es key v x y r fuel (scans_chunks v _ hr.2.1 hx)
        (isStart_chunks fl hx) hr.2.2 hy (by omega)
      have hquote : ∃ u, encodeString key ++ (": ".toList ++ (x ++ (y ++ '}' :: r))) = '"' :: u :=
        ⟨_, rfl⟩
      obtain ⟨u, hu⟩ := hquote
      have htext : ['{'] ++ (encodeString key ++ (": ".toList ++ (x ++ y ++ ['}']))) ++ r =
          '{' :: (encodeString key ++ (": ".toList ++ (x ++ (y ++ '}' :: r)))) := by simp
      rw [hu] at hentries
      rw [htext, hu, scanValue_dict fl (skipSpace_delimiter (by decide) u) (by decide), hentries]
      exact congrArg (fun es => some (Value.dict es, r)) (toDict_of_nodup hr.1)
  | .null, _, hr, ht, _, _, hfuel, hs => scanValue_leaf fl rfl hr hfuel hs ht
  | .bool _, _, hr, ht, _, _, hfuel, hs => scanValue_leaf fl rfl hr hfuel hs ht
  | .int _, _, hr, ht, _, _, hfuel, hs => scanValue_leaf fl rfl hr hfuel hs ht
  | .float _, _, hr, ht, _, _, hfuel, hs => scanValue_leaf fl rfl hr hfuel hs ht
  | .nonFinite _, _, hr, ht, _, _, hfuel, hs => scanValue_leaf fl rfl hr hfuel hs ht
  | .string _, _, hr, ht, _, _, hfuel, hs => scanValue_leaf fl rfl hr hfuel hs ht

theorem scanItems_chunks : ∀ (vs : List (Value F)) (v : Value F) (x y r : List Char) (fuel : ℕ),
    Scans fl v x → regularItems vs → joinChunks (chunksOfItems fl vs) = some y →
    depthOfItems (v :: vs) ≤ fuel → scanItems fl fuel (x ++ (y ++ ']' :: r)) = some (v :: vs, r)
  | [], v, x, y, r, fuel, hv, _, hy, hfuel => by
      simp only [depthOfItems] at hfuel
      obtain ⟨fuel, rfl⟩ : ∃ n, fuel = n + 1 := ⟨fuel - 1, by omega⟩
      obtain rfl : [] = y := Option.some.inj hy
      exact scanItems_last fl hv (by omega) r
  | v' :: vs, v, x, y, r, fuel, hv, hr, hy, hfuel => by
      rw [depthOfItems] at hfuel
      obtain ⟨fuel, rfl⟩ : ∃ n, fuel = n + 1 := ⟨fuel - 1, by omega⟩
      rw [chunksOfItems, joinChunks_append] at hy
      obtain ⟨bx, y', hbx, hy', rfl⟩ := hy
      obtain ⟨x', hx', rfl⟩ := (joinChunks_itemChunks fl).mp hbx
      obtain ⟨c, u, rfl, hc⟩ := isStart_chunks fl hx'
      have hitems := scanItems_chunks vs v' (c :: u) y' r fuel (scans_chunks v' _ hr.1 hx') hr.2 hy'
        (by omega)
      have htext : ", ".toList ++ c :: u ++ y' ++ ']' :: r =
          ", ".toList ++ c :: (u ++ (y' ++ ']' :: r)) := by simp
      rw [htext, scanItems_next fl hv (by omega) hc]
      rw [List.cons_append] at hitems
      rw [hitems]
      rfl

theorem scanEntries_chunks : ∀ (es : List (List Char × Value F)) (key : List Char) (v : Value F)
    (x y r : List Char) (fuel : ℕ), Scans fl v x → (∃ c u, x = c :: u ∧ IsStart c) →
    regularEntries es → joinChunks (chunksOfEntries fl es) = some y →
    depthOfEntries ((key, v) :: es) ≤ fuel →
    scanEntries fl fuel (encodeString key ++ (": ".toList ++ (x ++ (y ++ '}' :: r)))) =
      some ((key, v) :: es, r)
  | [], key, v, x, y, r, fuel, hv, hstart, _, hy, hfuel => by
      simp only [depthOfEntries] at hfuel
      obtain ⟨fuel, rfl⟩ : ∃ n, fuel = n + 1 := ⟨fuel - 1, by omega⟩
      obtain rfl : [] = y := Option.some.inj hy
      rw [List.nil_append, scanEntries_key fl key hv hstart (by omega)
        (stops_delimiter (by decide) r), skipSpace_delimiter (by decide)]
      rfl
  | (key', v') :: es, key, v, x, y, r, fuel, hv, hstart, hr, hy, hfuel => by
      rw [depthOfEntries] at hfuel
      obtain ⟨fuel, rfl⟩ : ∃ n, fuel = n + 1 := ⟨fuel - 1, by omega⟩
      rw [chunksOfEntries] at hy
      obtain ⟨t₁, ht₁, rfl⟩ := joinChunks_cons.mp hy
      obtain ⟨t₂, ht₂, rfl⟩ := joinChunks_cons.mp ht₁
      obtain ⟨t₃, ht₃, rfl⟩ := joinChunks_cons.mp ht₂
      obtain ⟨x', y', hx', hy', rfl⟩ := joinChunks_append.mp ht₃
      have hentries := scanEntries_chunks es key' v' x' y' r fuel (scans_chunks v' _ hr.1 hx')
        (isStart_chunks fl hx') hr.2 hy' (by omega)
      have htext : ", ".toList ++ (encodeString key' ++ (": ".toList ++ (x' ++ y'))) ++ '}' :: r =
          ',' :: ' ' :: (encodeString key' ++ (": ".toList ++ (x' ++ (y' ++ '}' :: r)))) := by
        simp
      have hspace : skipSpace (' ' :: (encodeString key' ++ (": ".toList ++
          (x' ++ (y' ++ '}' :: r))))) = encodeString key' ++ (": ".toList ++
          (x' ++ (y' ++ '}' :: r))) := rfl
      rw [htext, scanEntries_key fl key hv hstart (by omega) (stops_delimiter (by decide) _),
        skipSpace_delimiter (by decide)]
      change (scanEntries fl fuel (skipSpace (' ' :: _))).map _ = _
      rw [hspace, hentries]
      rfl
end

/-! ### The whole text -/

theorem length_pos_of_chunks {v : Value F} {t : List Char}
    (ht : joinChunks (chunks fl v) = some t) : 1 ≤ t.length := by
  obtain ⟨c, u, rfl, -⟩ := isStart_chunks fl ht
  simp

mutual
theorem depth_le_length : ∀ (v : Value F) (t : List Char), joinChunks (chunks fl v) = some t →
    v.depth ≤ t.length
  | .list [], t, ht => by
      obtain rfl := joinChunks_singleton.mp ht |> Option.some.inj
      simp [Value.depth, depthOfItems]
  | .list (v :: vs), t, ht => by
      rw [chunks, joinChunks_append] at ht
      obtain ⟨xy, z, hxy, hz, rfl⟩ := ht
      obtain ⟨bx, y, hbx, hy, rfl⟩ := joinChunks_append.mp hxy
      obtain ⟨x, hx, rfl⟩ := (joinChunks_itemChunks fl).mp hbx
      obtain rfl := joinChunks_singleton.mp hz |> Option.some.inj
      have hv := depth_le_length v x hx
      have hvs := depthOfItems_le_length vs y hy
      simp only [Value.depth, depthOfItems, List.length_append, List.length_singleton]
      omega
  | .dict [], t, ht => by
      obtain rfl := joinChunks_singleton.mp ht |> Option.some.inj
      simp [Value.depth, depthOfEntries]
  | .dict ((key, v) :: es), t, ht => by
      rw [chunks] at ht
      obtain ⟨t₁, ht₁, rfl⟩ := joinChunks_cons.mp ht
      obtain ⟨t₂, ht₂, rfl⟩ := joinChunks_cons.mp ht₁
      obtain ⟨t₃, ht₃, rfl⟩ := joinChunks_cons.mp ht₂
      obtain ⟨xy, z, hxy, hz, rfl⟩ := joinChunks_append.mp ht₃
      obtain ⟨x, y, hx, hy, rfl⟩ := joinChunks_append.mp hxy
      obtain rfl := joinChunks_singleton.mp hz |> Option.some.inj
      have hv := depth_le_length v x hx
      have hes := depthOfEntries_le_length es y hy
      simp only [Value.depth, depthOfEntries, List.length_append, List.length_singleton]
      omega
  | .null, _, ht => length_pos_of_chunks fl ht
  | .bool _, _, ht => length_pos_of_chunks fl ht
  | .int _, _, ht => length_pos_of_chunks fl ht
  | .float _, _, ht => length_pos_of_chunks fl ht
  | .nonFinite _, _, ht => length_pos_of_chunks fl ht
  | .string _, _, ht => length_pos_of_chunks fl ht

theorem depthOfItems_le_length : ∀ (vs : List (Value F)) (t : List Char),
    joinChunks (chunksOfItems fl vs) = some t → depthOfItems vs ≤ t.length
  | [], _, _ => Nat.zero_le _
  | v :: vs, t, ht => by
      rw [chunksOfItems, joinChunks_append] at ht
      obtain ⟨bx, y, hbx, hy, rfl⟩ := ht
      obtain ⟨x, hx, rfl⟩ := (joinChunks_itemChunks fl).mp hbx
      have hv := depth_le_length v x hx
      have hvs := depthOfItems_le_length vs y hy
      have hlen : ", ".toList.length = 2 := rfl
      simp only [depthOfItems, List.length_append, hlen]
      omega

theorem depthOfEntries_le_length : ∀ (es : List (List Char × Value F)) (t : List Char),
    joinChunks (chunksOfEntries fl es) = some t → depthOfEntries es ≤ t.length
  | [], _, _ => Nat.zero_le _
  | (key, v) :: es, t, ht => by
      rw [chunksOfEntries] at ht
      obtain ⟨t₁, ht₁, rfl⟩ := joinChunks_cons.mp ht
      obtain ⟨t₂, ht₂, rfl⟩ := joinChunks_cons.mp ht₁
      obtain ⟨t₃, ht₃, rfl⟩ := joinChunks_cons.mp ht₂
      obtain ⟨x, y, hx, hy, rfl⟩ := joinChunks_append.mp ht₃
      have hv := depth_le_length v x hx
      have hes := depthOfEntries_le_length es y hy
      have hlen : ", ".toList.length = 2 := rfl
      simp only [depthOfEntries, List.length_append, hlen]
      omega
end

/-- `json.loads` of a dump gives back the value. -/
theorem loads_dump {v : Value F} {t : List Char} (hr : v.Regular)
    (ht : joinChunks (chunks fl v) = some t) : loads fl t = some v := by
  obtain ⟨c, u, htext, hc⟩ := isStart_chunks fl ht
  have hscan := scans_chunks fl v t hr ht (t.length + 1) []
    ((depth_le_length fl v t ht).trans (Nat.le_succ _)) stops_nil
  rw [List.append_nil] at hscan
  have hbom : t.head? ≠ some '\uFEFF' := by
    rw [htext]
    intro h
    exact hc.ne.2 (by rw [Option.some.inj h]; simp)
  have hspace : skipSpace t = t := by
    rw [htext]
    exact skipSpace_of_isStart hc u
  rw [loads, if_neg hbom, hspace, hscan]
  rfl

/-! ### No carriage return -/

theorem notMem_joinChunks {x : Char} {cs : List Chunk} {t : List Char}
    (h : ∀ c, some c ∈ cs → x ∉ c) (ht : joinChunks cs = some t) : x ∉ t := by
  induction cs generalizing t with
  | nil =>
      obtain rfl := Option.some.inj ht
      exact List.not_mem_nil
  | cons c cs ih =>
      cases c with
      | none => cases ht
      | some c =>
          obtain ⟨u, hu, rfl⟩ := joinChunks_cons.mp ht
          rw [List.mem_append, not_or]
          exact ⟨h c List.mem_cons_self, ih (fun d hd => h d (List.mem_cons_of_mem _ hd)) hu⟩

theorem notMem_escape (c : Char) : '\r' ∉ escape c := by
  have hhex : ∀ n < 16, '\r' ≠ hexDigit n := by decide
  unfold escape
  split_ifs with h₁ h₂ h₃ h₄ h₅ h₆ h₇ h₈
  iterate 7 decide
  · have hhigh := hhex (c.toNat / 16) (by omega)
    have hlow := hhex (c.toNat % 16) (by omega)
    simp [hhigh, hlow]
  · simpa using Ne.symm h₆

theorem notMem_encodeString (s : List Char) : '\r' ∉ encodeString s := by
  simp only [encodeString, List.mem_cons, List.mem_append, List.mem_flatMap, List.not_mem_nil,
    or_false, not_or, not_exists, not_and]
  exact ⟨by decide, fun c _ => notMem_escape c, by decide⟩

theorem FloatText.notMem {s : List Char} (h : FloatText s) : '\r' ∉ s := by
  obtain ⟨sign, integer, fraction, exponent, rfl, hsign, hinteger, hfraction, hexponent, -⟩ :=
    h.parts
  have hdigits : ∀ digits : List Char, (∀ c ∈ digits, c.isDigit = true) → '\r' ∉ digits :=
    fun digits hd hmem => absurd (hd _ hmem) (by decide)
  have hsigns : ∀ sign ∈ [[], ['+'], ['-']], '\r' ∉ sign := by decide
  have hsign' : '\r' ∉ sign := hsigns sign (by
    simp only [List.mem_cons, List.not_mem_nil, or_false] at hsign ⊢
    tauto)
  have hfraction' : '\r' ∉ fraction := by
    rcases hfraction with rfl | ⟨digits, rfl, -, hd⟩
    · exact List.not_mem_nil
    · exact List.not_mem_cons_of_ne_of_not_mem (by decide) (hdigits digits hd)
  have hexponent' : '\r' ∉ exponent := by
    rcases hexponent with rfl | ⟨e, sign, digits, rfl, he, hs, -, hd⟩
    · exact List.not_mem_nil
    · have hne : '\r' ≠ e := by
        rintro rfl
        exact absurd he (by decide)
      exact List.not_mem_cons_of_ne_of_not_mem hne
        (by simp [hsigns sign hs, hdigits digits hd])
  simp [hsign', hdigits integer hinteger.2.1, hfraction', hexponent']

theorem notMem_scalar {v : Value F} {c : List Char} (h : scalar fl v = some c) : '\r' ∉ c := by
  cases v with
  | null =>
      obtain rfl := Option.some.inj h
      decide
  | bool b =>
      cases b <;>
      · obtain rfl := Option.some.inj h
        decide
  | int n =>
      simp only [scalar, intRepr, Option.ite_none_right_eq_some, Option.some.injEq] at h
      obtain ⟨-, rfl⟩ := h
      have hdigits : '\r' ∉ Nat.toDigits 10 n.natAbs := fun hmem =>
        absurd (Nat.isDigit_of_mem_toDigits (by omega) le_rfl hmem) (by decide)
      split_ifs
      · exact List.not_mem_cons_of_ne_of_not_mem (by decide) hdigits
      · exact hdigits
  | float x =>
      obtain rfl := Option.some.inj h
      exact (fl.text x).notMem
  | nonFinite x =>
      obtain rfl := Option.some.inj h
      cases x <;> decide
  | string s =>
      obtain rfl := Option.some.inj h
      exact notMem_encodeString s
  | list _ => cases h
  | dict _ => cases h

theorem notMem_itemChunks {buf : List Char} (hbuf : '\r' ∉ buf) {v : Value F}
    (hv : ∀ c, some c ∈ chunks fl v → '\r' ∉ c) :
    ∀ c, some c ∈ itemChunks fl buf v (chunks fl v) → '\r' ∉ c := by
  intro c hc
  unfold itemChunks at hc
  cases h : v.isContainer with
  | true =>
      rw [h, if_pos rfl, List.mem_cons] at hc
      rcases hc with heq | hc
      · rwa [Option.some.inj heq]
      · exact hv c hc
  | false =>
      rw [h, if_neg (by decide), List.mem_singleton] at hc
      obtain ⟨d, hd, rfl⟩ := Option.map_eq_some_iff.mp hc.symm
      rw [List.mem_append, not_or]
      exact ⟨hbuf, notMem_scalar fl hd⟩

mutual
theorem notMem_chunks : ∀ (v : Value F) (c : List Char), some c ∈ chunks fl v → '\r' ∉ c
  | .list [], c, hc => by
      rw [chunks, List.mem_singleton] at hc
      rw [Option.some.inj hc]
      decide
  | .list (v :: vs), c, hc => by
      rw [chunks, List.mem_append, List.mem_append, List.mem_singleton] at hc
      rcases hc with (hc | hc) | hc
      · exact notMem_itemChunks fl (by decide) (notMem_chunks v) c hc
      · exact notMem_chunksOfItems vs c hc
      · rw [Option.some.inj hc]
        decide
  | .dict [], c, hc => by
      rw [chunks, List.mem_singleton] at hc
      rw [Option.some.inj hc]
      decide
  | .dict ((key, v) :: es), c, hc => by
      simp only [chunks, List.mem_cons, List.mem_append, List.not_mem_nil, or_false,
        Option.some.injEq] at hc
      rcases hc with rfl | rfl | rfl | (hc | hc) | rfl
      · decide
      · exact notMem_encodeString key
      · decide
      · exact notMem_chunks v c hc
      · exact notMem_chunksOfEntries es c hc
      · decide
  | .null, _, hc => notMem_scalar fl (List.mem_singleton.mp hc).symm
  | .bool _, _, hc => notMem_scalar fl (List.mem_singleton.mp hc).symm
  | .int _, _, hc => notMem_scalar fl (List.mem_singleton.mp hc).symm
  | .float _, _, hc => notMem_scalar fl (List.mem_singleton.mp hc).symm
  | .nonFinite _, _, hc => notMem_scalar fl (List.mem_singleton.mp hc).symm
  | .string _, _, hc => notMem_scalar fl (List.mem_singleton.mp hc).symm

theorem notMem_chunksOfItems : ∀ (vs : List (Value F)) (c : List Char),
    some c ∈ chunksOfItems fl vs → '\r' ∉ c
  | [], _, hc => by cases hc
  | v :: vs, c, hc => by
      rw [chunksOfItems, List.mem_append] at hc
      rcases hc with hc | hc
      · exact notMem_itemChunks fl (by decide) (notMem_chunks v) c hc
      · exact notMem_chunksOfItems vs c hc

theorem notMem_chunksOfEntries : ∀ (es : List (List Char × Value F)) (c : List Char),
    some c ∈ chunksOfEntries fl es → '\r' ∉ c
  | [], _, hc => by cases hc
  | (key, v) :: es, c, hc => by
      simp only [chunksOfEntries, List.mem_cons, List.mem_append, Option.some.injEq] at hc
      rcases hc with rfl | rfl | rfl | hc | hc
      · decide
      · exact notMem_encodeString key
      · decide
      · exact notMem_chunks v c hc
      · exact notMem_chunksOfEntries es c hc
end

/-- A dump has no carriage return, so reading it with any newline mode gives it back. -/
theorem notMem_dump {v : Value F} {t : List Char} (ht : joinChunks (chunks fl v) = some t) :
    '\r' ∉ t :=
  notMem_joinChunks (notMem_chunks fl v) ht

/-- A value with finite numbers whose dictionaries have each key once. -/
structure Payload (F : Type) where
  value : Value F
  regular : value.Regular

end Json
