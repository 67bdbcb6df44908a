import Ally.Json

/-!
# JSON texts in ASCII

`json.dumps` with its default `ensure_ascii`: it is the other text with the characters that are not
printable escaped, from which the value can be told.
-/

namespace Json

def isPrintable (c : Char) : Bool := ' ' ≤ c && c ≤ '~'

def hexDigits (n : ℕ) : List Char :=
  [hexDigit (n / 4096), hexDigit (n / 256 % 16), hexDigit (n / 16 % 16), hexDigit (n % 16)]

/-- `'\\u{0:04x}'.format(n)`. -/
def unicodeUnit (n : ℕ) : List Char := '\\' :: 'u' :: hexDigits n

/-- A character outside of the first plane is a pair of surrogates. -/
def unicodeEscape (c : Char) : List Char :=
  if c.toNat < 0x10000 then unicodeUnit c.toNat
  else
    unicodeUnit (0xD800 + (c.toNat - 0x10000) / 0x400) ++
      unicodeUnit (0xDC00 + (c.toNat - 0x10000) % 0x400)

def escapeAscii (c : Char) : List Char :=
  if c = '"' then ['\\', '"']
  else if c = '\\' then ['\\', '\\']
  else if c = '\x08' then ['\\', 'b']
  else if c = '\x0c' then ['\\', 'f']
  else if c = '\n' then ['\\', 'n']
  else if c = '\r' then ['\\', 'r']
  else if c = '\t' then ['\\', 't']
  else if isPrintable c then [c]
  else unicodeEscape c

/-- `encode_basestring_ascii`. -/
def encodeAscii (s : List Char) : List Char := '"' :: (s.flatMap escapeAscii ++ ['"'])

variable {F : Type} (fl : Floats F)

def scalarAscii : Value F → Chunk
  | .string s => some (encodeAscii s)
  | v => scalar fl v

def itemChunksAscii (buf : List Char) (v : Value F) (inner : List Chunk) : List Chunk :=
  if v.isContainer then some buf :: inner else [(scalarAscii fl v).map (buf ++ ·)]

mutual
def chunksAscii : Value F → List Chunk
  | .list [] => [some "[]".toList]
  | .list (v :: vs) => itemChunksAscii fl ['['] v (chunksAscii v) ++ asciiOfItems vs ++ [some [']']]
  | .dict [] => [some "{}".toList]
  | .dict ((key, v) :: es) =>
      some ['{'] :: some (encodeAscii key) :: some ": ".toList :: (chunksAscii v ++ asciiOfEntries es ++
        [some ['}']])
  | .null => [scalarAscii fl .null]
  | .bool b => [scalarAscii fl (.bool b)]
  | .int n => [scalarAscii fl (.int n)]
  | .float x => [scalarAscii fl (.float x)]
  | .nonFinite x => [scalarAscii fl (.nonFinite x)]
  | .string s => [scalarAscii fl (.string s)]

def asciiOfItems : List (Value F) → List Chunk
  | [] => []
  | v :: vs => itemChunksAscii fl ", ".toList v (chunksAscii v) ++ asciiOfItems vs

def asciiOfEntries : List (List Char × Value F) → List Chunk
  | [] => []
  | (key, v) :: es =>
      some ", ".toList :: some (encodeAscii key) :: some ": ".toList ::
        (chunksAscii v ++ asciiOfEntries es)
end

/-- `json.dumps(v)`, or its `ValueError`. -/
def dumpAscii (v : Value F) : Option (List Char) := joinChunks (chunksAscii fl v)

/-! ### Only strings are escaped -/

def asciiChar (c : Char) : List Char := if isPrintable c then [c] else unicodeEscape c

def asciiText (t : List Char) : List Char := t.flatMap asciiChar

theorem asciiText_append (s t : List Char) : asciiText (s ++ t) = asciiText s ++ asciiText t :=
  List.flatMap_append

theorem asciiText_of_printable {t : List Char} (h : t.all isPrintable = true) : asciiText t = t := by
  unfold asciiText
  induction t with
  | nil => rfl
  | cons c t ih =>
      rw [List.all_cons, Bool.and_eq_true] at h
      rw [List.flatMap_cons, ih h.2, asciiChar, if_pos h.1]
      rfl

theorem isPrintable_hexDigit : ∀ n < 16, isPrintable (hexDigit n) = true := by decide

/-- The escapes of the control characters are those of their code points. -/
theorem unicodeUnit_control {n : ℕ} (hn : n ≤ 0x1f) :
    unicodeUnit n = ['\\', 'u', '0', '0', hexDigit (n / 16), hexDigit (n % 16)] := by
  have hhigh : n / 4096 = 0 := by omega
  have hmiddle : n / 256 % 16 = 0 := by omega
  have hlow : n / 16 % 16 = n / 16 := by omega
  have hzero : hexDigit 0 = '0' := rfl
  rw [unicodeUnit, hexDigits, hhigh, hmiddle, hlow, hzero]

theorem toNat_of_not_printable {c : Char} (h : isPrintable c = false) :
    c.toNat ≤ 0x1f ∨ 0x7f ≤ c.toNat := by
  by_contra hc
  rw [not_or, not_le, not_le] at hc
  have hprint : isPrintable c = true := by
    rw [isPrintable, Bool.and_eq_true, decide_eq_true_eq, decide_eq_true_eq, Char.le_def, Char.le_def,
      UInt32.le_iff_toNat_le, UInt32.le_iff_toNat_le]
    change 32 ≤ c.toNat ∧ c.toNat ≤ 126
    omega
  rw [h] at hprint
  cases hprint

theorem escapeAscii_eq (c : Char) : escapeAscii c = asciiText (escape c) := by
  have hself : asciiText [c] = asciiChar c := List.append_nil _
  unfold escapeAscii escape
  split_ifs with h₁ h₂ h₃ h₄ h₅ h₆ h₇ hprint hcontrol hcontrol
  · rfl
  · rfl
  · rfl
  · rfl
  · rfl
  · rfl
  · rfl
  · -- a printable character is no control character
    have hle : 32 ≤ c.toNat := by
      rw [isPrintable, Bool.and_eq_true, decide_eq_true_eq] at hprint
      exact UInt32.le_iff_toNat_le.mp hprint.1
    omega
  · rw [hself, asciiChar, if_pos hprint]
  · have hunit : unicodeEscape c = unicodeUnit c.toNat := if_pos (by omega)
    rw [hunit, unicodeUnit_control hcontrol, asciiText_of_printable]
    simp only [List.all_cons, List.all_nil, isPrintable_hexDigit _ (show c.toNat / 16 < 16 by omega),
      isPrintable_hexDigit _ (show c.toNat % 16 < 16 by omega)]
    rfl
  · rw [hself, asciiChar, if_neg hprint]

theorem encodeAscii_eq (s : List Char) : encodeAscii s = asciiText (encodeString s) := by
  have hflat : s.flatMap escapeAscii = asciiText (s.flatMap escape) := by
    induction s with
    | nil => rfl
    | cons c s ih =>
        rw [List.flatMap_cons, List.flatMap_cons, asciiText_append, escapeAscii_eq, ih]
  have hquote : asciiText ('"' :: (s.flatMap escape ++ ['"'])) =
      '"' :: asciiText (s.flatMap escape ++ ['"']) := rfl
  rw [encodeAscii, encodeString, hflat, hquote, asciiText_append]
  rfl

/-- Written as it is, and no part of an escape. -/
def isBare (c : Char) : Bool := isPrintable c && c ≠ '\\'

theorem printable_of_bare {t : List Char} (h : t.all isBare = true) : t.all isPrintable = true := by
  refine List.all_eq_true.mpr fun c hc => ?_
  have hbare := List.all_eq_true.mp h c hc
  rw [isBare, Bool.and_eq_true] at hbare
  exact hbare.1

theorem isBare_of_isDigit {c : Char} (h : c.isDigit = true) : isBare c = true := by
  have hslash : c ≠ '\\' := by
    rintro rfl
    cases h
  rw [Char.isDigit, Bool.and_eq_true, decide_eq_true_eq, decide_eq_true_eq] at h
  rw [isBare, isPrintable, Bool.and_eq_true, Bool.and_eq_true, decide_eq_true_eq, decide_eq_true_eq]
  refine ⟨?_, decide_eq_true hslash⟩
  rw [ge_iff_le, UInt32.le_iff_toNat_le, UInt32.le_iff_toNat_le] at h
  rw [Char.le_def, Char.le_def, UInt32.le_iff_toNat_le, UInt32.le_iff_toNat_le]
  change 48 ≤ c.val.toNat ∧ c.val.toNat ≤ 57 at h
  change 32 ≤ c.val.toNat ∧ c.val.toNat ≤ 126
  omega

theorem FloatText.bare {s : List Char} (h : FloatText s) : s.all isBare = true := by
  obtain ⟨sign, integer, fraction, exponent, rfl, hsign, hinteger, hfraction, hexponent, -⟩ :=
    h.parts
  have hdigits : ∀ digits : List Char, (∀ c ∈ digits, c.isDigit = true) →
      digits.all isBare = true :=
    fun digits hd => List.all_eq_true.mpr fun c hc => isBare_of_isDigit (hd c hc)
  have hsigns : ∀ sign : List Char, sign ∈ [[], ['+'], ['-']] → sign.all isBare = true := by
    intro sign hs
    simp only [List.mem_cons, List.not_mem_nil, or_false] at hs
    rcases hs with rfl | rfl | rfl <;> rfl
  have hsign' : sign.all isBare = true := hsigns sign (by
    simp only [List.mem_cons, List.not_mem_nil, or_false] at hsign ⊢
    tauto)
  have hfraction' : fraction.all isBare = true := by
    rcases hfraction with rfl | ⟨digits, rfl, -, hd⟩
    · rfl
    · rw [List.all_cons, hdigits digits hd]
      rfl
  have hexponent' : exponent.all isBare = true := by
    rcases hexponent with rfl | ⟨e, sign, digits, rfl, he, hs, -, hd⟩
    · rfl
    · have he' : isBare e = true := by
        simp only [List.mem_cons, List.not_mem_nil, or_false] at he
        rcases he with rfl | rfl <;> rfl
      rw [List.all_cons, List.all_append, he', hsigns sign hs, hdigits digits hd]
      rfl
  rw [List.all_append, List.all_append, List.all_append, hsign', hdigits integer hinteger.2.1,
    hfraction', hexponent']
  rfl

/-- What is neither a string nor a container is written without escapes. -/
theorem scalar_bare {v : Value F} {t : List Char} (h : scalar fl v = some t) :
    t.all isBare = true ∨ ∃ s, v = .string s := by
  cases v with
  | null =>
      obtain rfl := Option.some.inj h
      exact .inl rfl
  | bool b =>
      cases b <;>
      · obtain rfl := Option.some.inj h
        exact .inl rfl
  | int n =>
      simp only [scalar, intRepr, Option.ite_none_right_eq_some, Option.some.injEq] at h
      obtain ⟨-, rfl⟩ := h
      have hdigits : (Nat.toDigits 10 n.natAbs).all isBare = true :=
        List.all_eq_true.mpr fun c hc =>
          isBare_of_isDigit (Nat.isDigit_of_mem_toDigits (by omega) le_rfl hc)
      left
      split_ifs
      · rw [List.all_cons, hdigits]
        rfl
      · exact hdigits
  | float x =>
      obtain rfl := Option.some.inj h
      exact .inl (fl.text x).bare
  | nonFinite x =>
      obtain rfl := Option.some.inj h
      cases x <;> exact .inl rfl
  | string s => exact .inr ⟨s, rfl⟩
  | list _ => cases h
  | dict _ => cases h

theorem scalarAscii_eq (v : Value F) : scalarAscii fl v = (scalar fl v).map asciiText := by
  by_cases hstring : ∃ s, v = .string s
  · obtain ⟨s, rfl⟩ := hstring
    exact congrArg some (encodeAscii_eq s)
  · have hv : scalarAscii fl v = scalar fl v := by
      cases v with
      | string s => exact absurd ⟨s, rfl⟩ hstring
      | _ => rfl
    rw [hv]
    cases h : scalar fl v with
    | none => rfl
    | some t =>
        have hbare := (scalar_bare fl h).resolve_right hstring
        rw [Option.map_some, asciiText_of_printable (printable_of_bare hbare)]

theorem itemChunksAscii_eq {buf : List Char} (hbuf : buf.all isPrintable = true) (v : Value F)
    {inner inner' : List Chunk} (h : inner' = inner.map (Option.map asciiText)) :
    itemChunksAscii fl buf v inner' = (itemChunks fl buf v inner).map (Option.map asciiText) := by
  unfold itemChunksAscii itemChunks
  split_ifs
  · rw [h, List.map_cons, Option.map_some, asciiText_of_printable hbuf]
  · rw [scalarAscii_eq, List.map_singleton, Option.map_map, Option.map_map]
    refine congrArg (fun f => [Option.map f (scalar fl v)]) (funext fun t => ?_)
    change buf ++ asciiText t = asciiText (buf ++ t)
    rw [asciiText_append, asciiText_of_printable hbuf]

mutual
theorem chunksAscii_eq : ∀ v : Value F,
    chunksAscii fl v = (chunks fl v).map (Option.map asciiText)
  | .list [] => rfl
  | .list (v :: vs) => by
      rw [chunksAscii, chunks, List.map_append, List.map_append, asciiOfItems_eq vs,
        itemChunksAscii_eq fl rfl v (chunksAscii_eq v)]
      rfl
  | .dict [] => rfl
  | .dict ((key, v) :: es) => by
      rw [chunksAscii, chunks, List.map_cons, List.map_cons, List.map_cons, List.map_append,
        List.map_append, chunksAscii_eq v, asciiOfEntries_eq es, encodeAscii_eq]
      rfl
  | .null => congrArg ([·]) (scalarAscii_eq fl .null)
  | .bool b => congrArg ([·]) (scalarAscii_eq fl (.bool b))
  | .int n => congrArg ([·]) (scalarAscii_eq fl (.int n))
  | .float x => congrArg ([·]) (scalarAscii_eq fl (.float x))
  | .nonFinite x => congrArg ([·]) (scalarAscii_eq fl (.nonFinite x))
  | .string s => congrArg ([·]) (scalarAscii_eq fl (.string s))

theorem asciiOfItems_eq : ∀ vs : List (Value F),
    asciiOfItems fl vs = (chunksOfItems fl vs).map (Option.map asciiText)
  | [] => rfl
  | v :: vs => by
      rw [asciiOfItems, chunksOfItems, List.map_append, asciiOfItems_eq vs,
        itemChunksAscii_eq fl rfl v (chunksAscii_eq v)]

theorem asciiOfEntries_eq : ∀ es : List (List Char × Value F),
    asciiOfEntries fl es = (chunksOfEntries fl es).map (Option.map asciiText)
  | [] => rfl
  | (key, v) :: es => by
      rw [asciiOfEntries, chunksOfEntries, List.map_cons, List.map_cons, List.map_cons,
        List.map_append, chunksAscii_eq v, asciiOfEntries_eq es, encodeAscii_eq]
      rfl
end

/-- The text in ASCII is the other one, with what is not printable escaped. -/
theorem dumpAscii_eq (v : Value F) :
    dumpAscii fl v = (joinChunks (chunks fl v)).map asciiText := by
  rw [dumpAscii, chunksAscii_eq]
  induction chunks fl v with
  | nil => rfl
  | cons c cs ih =>
      cases c with
      | none => rfl
      | some c =>
          rw [List.map_cons, Option.map_some, joinChunks, joinChunks, ih, Option.map_map,
            Option.map_map]
          refine congrArg (fun f => Option.map f (joinChunks cs)) (funext fun t => ?_)
          exact (asciiText_append c t).symm

/-! ### Printable -/

theorem isPrintable_unicodeUnit {n : ℕ} (hn : n < 65536) {d : Char} (hd : d ∈ unicodeUnit n) :
    isPrintable d = true := by
  simp only [unicodeUnit, hexDigits, List.mem_cons, List.not_mem_nil, or_false] at hd
  rcases hd with rfl | rfl | rfl | rfl | rfl | rfl
  · decide
  · decide
  · exact isPrintable_hexDigit _ (by omega)
  · exact isPrintable_hexDigit _ (by omega)
  · exact isPrintable_hexDigit _ (by omega)
  · exact isPrintable_hexDigit _ (by omega)

theorem toNat_lt (c : Char) : c.toNat < 0xD800 ∨ 0xDFFF < c.toNat ∧ c.toNat < 0x110000 := c.valid

theorem isPrintable_asciiChar {c d : Char} (hd : d ∈ asciiChar c) : isPrintable d = true := by
  have hvalid := toNat_lt c
  unfold asciiChar unicodeEscape at hd
  split_ifs at hd with hprint hplane
  · obtain rfl := List.mem_singleton.mp hd
    exact hprint
  · exact isPrintable_unicodeUnit (by omega) hd
  · rcases List.mem_append.mp hd with hd | hd
    · exact isPrintable_unicodeUnit (by omega) hd
    · exact isPrintable_unicodeUnit (by omega) hd

/-- Whatever is dumped, what is written is printable ASCII. -/
theorem isPrintable_dumpAscii {v : Value F} {t : List Char} (h : dumpAscii fl v = some t) {c : Char}
    (hc : c ∈ t) : isPrintable c = true := by
  rw [dumpAscii_eq] at h
  obtain ⟨s, -, rfl⟩ := Option.map_eq_some_iff.mp h
  obtain ⟨d, -, hd⟩ := List.mem_flatMap.mp hc
  exact isPrintable_asciiChar hd

/-! ### The escapes of a text -/

theorem scanHex_hexDigits {n : ℕ} (hn : n < 65536) (s : List Char) :
    scanHex (hexDigits n ++ s) = some (n, s) := by
  simp only [hexDigits, List.cons_append, List.nil_append, scanHex,
    hexValue_hexDigit (n / 4096) (by omega), hexValue_hexDigit (n / 256 % 16) (by omega),
    hexValue_hexDigit (n / 16 % 16) (by omega), hexValue_hexDigit (n % 16) (by omega),
    Option.bind_eq_bind, Option.bind_some, Option.pure_def, Option.some.injEq, Prod.mk.injEq,
    and_true]
  omega

/-- What `\u` was written for. -/
theorem scanUnicode_unicodeEscape (c : Char) (s : List Char) :
    ∃ u, unicodeEscape c ++ s = '\\' :: 'u' :: u ∧ scanUnicode u = some (c, s) := by
  have hvalid := toNat_lt c
  unfold unicodeEscape
  split_ifs with hplane
  · refine ⟨hexDigits c.toNat ++ s, rfl, ?_⟩
    rw [scanUnicode, scanHex_hexDigits (by omega)]
    dsimp only
    rw [if_neg (by omega), if_neg (by omega), Char.ofNat_toNat]
  · obtain ⟨n, hn⟩ : ∃ n, n = c.toNat - 0x10000 := ⟨_, rfl⟩
    rw [← hn]
    refine ⟨hexDigits (0xD800 + n / 0x400) ++ '\\' :: 'u' :: (hexDigits (0xDC00 + n % 0x400) ++ s),
      ?_, ?_⟩
    · simp [unicodeUnit]
    · have hc : 0x10000 + (0xD800 + n / 0x400 - 0xD800) * 0x400 + (0xDC00 + n % 0x400 - 0xDC00) =
          c.toNat := by omega
      rw [scanUnicode, scanHex_hexDigits (by omega)]
      dsimp only
      have hlow : 0xDC00 + n % 0x400 < 65536 := by omega
      rw [if_pos (by omega)]
      simp only [scanHex_hexDigits hlow]
      rw [if_pos (by omega), hc, Char.ofNat_toNat]

/-! ### A text is told from its escapes -/

/-- A text whose backslashes belong to escapes, and in which only these stand for control
characters. -/
inductive Escaped : List Char → Prop
  | nil : Escaped []
  | plain {c : Char} {s : List Char} (hc : c ≠ '\\') (hcontrol : 0x1f < c.toNat) (hs : Escaped s) :
      Escaped (c :: s)
  | short {c : Char} {s : List Char} (hc : isPrintable c = true) (hu : c ≠ 'u') (hs : Escaped s) :
      Escaped ('\\' :: c :: s)
  | control {n : ℕ} {s : List Char} (hn : n ≤ 0x1f) (hs : Escaped s) : Escaped (unicodeUnit n ++ s)

theorem Escaped.append {s t : List Char} (hs : Escaped s) (ht : Escaped t) : Escaped (s ++ t) := by
  induction hs with
  | nil => exact ht
  | plain hc hcontrol _ ih => exact .plain hc hcontrol ih
  | short hc hu _ ih => exact .short hc hu ih
  | control hn _ ih =>
      rw [List.append_assoc]
      exact .control hn ih

theorem Escaped.of_bare {s : List Char} (h : s.all isBare = true) : Escaped s := by
  induction s with
  | nil => exact .nil
  | cons c s ih =>
      rw [List.all_cons, Bool.and_eq_true, isBare, Bool.and_eq_true, decide_eq_true_eq] at h
      obtain ⟨⟨hprint, hslash⟩, hs⟩ := h
      rw [isPrintable, Bool.and_eq_true, decide_eq_true_eq] at hprint
      have hle : 32 ≤ c.toNat := UInt32.le_iff_toNat_le.mp hprint.1
      exact .plain hslash (by omega) (ih hs)

theorem escaped_escape (c : Char) : Escaped (escape c) := by
  unfold escape
  split_ifs with h₁ h₂ h₃ h₄ h₅ h₆ h₇ hcontrol
  · exact .short rfl (by decide) .nil
  · exact .short rfl (by decide) .nil
  · exact .short rfl (by decide) .nil
  · exact .short rfl (by decide) .nil
  · exact .short rfl (by decide) .nil
  · exact .short rfl (by decide) .nil
  · exact .short rfl (by decide) .nil
  · rw [← unicodeUnit_control hcontrol, ← List.append_nil (unicodeUnit c.toNat)]
    exact .control hcontrol .nil
  · exact .plain h₂ (by omega) .nil

theorem escaped_encodeString (s : List Char) : Escaped (encodeString s) := by
  refine .plain (by decide) (by decide) (Escaped.append ?_ (.plain (by decide) (by decide) .nil))
  induction s with
  | nil => exact .nil
  | cons c s ih =>
      rw [List.flatMap_cons]
      exact (escaped_escape c).append ih

/-- What stands first in a text in ASCII, as it was before, and what follows. -/
def readUnit : List Char → Option (List Char × List Char)
  | [] => none
  | c :: r =>
      if c = '\\' then
        match r with
        | [] => none
        | d :: r =>
            if d = 'u' then
              (scanUnicode r).map fun (e, r) =>
                (if e.toNat ≤ 0x1f then unicodeUnit e.toNat else [e], r)
            else some ([c, d], r)
      else some ([c], r)

theorem readUnit_plain {c : Char} (hc : c ≠ '\\') (r : List Char) :
    readUnit (c :: r) = some ([c], r) :=
  if_neg hc

theorem readUnit_escape {u r : List Char} {c : Char} (h : scanUnicode u = some (c, r)) :
    readUnit ('\\' :: 'u' :: u) =
      some (if c.toNat ≤ 0x1f then unicodeUnit c.toNat else [c], r) := by
  rw [readUnit, if_pos rfl]
  dsimp only
  rw [if_pos rfl, h]
  rfl

theorem toNat_control : ∀ n < 32, (Char.ofNat n).toNat = n := by decide

theorem readUnit_asciiText {s : List Char} (h : Escaped s) (hne : s ≠ []) :
    ∃ front rest, s = front ++ rest ∧ front ≠ [] ∧ Escaped rest ∧
      readUnit (asciiText s) = some (front, asciiText rest) := by
  cases h with
  | nil => exact absurd rfl hne
  | plain hc hcontrol hs =>
      rename_i c s
      refine ⟨[c], s, rfl, List.cons_ne_nil _ _, hs, ?_⟩
      have htext : asciiText (c :: s) = asciiChar c ++ asciiText s := List.flatMap_cons
      rw [htext, asciiChar]
      split_ifs with hprint
      · exact readUnit_plain hc _
      · obtain ⟨u, hu, hscan⟩ := scanUnicode_unicodeEscape c (asciiText s)
        rw [hu, readUnit_escape hscan, if_neg (by omega)]
  | short hc hu hs =>
      rename_i c s
      refine ⟨['\\', c], s, rfl, List.cons_ne_nil _ _, hs, ?_⟩
      have htext : asciiText ('\\' :: c :: s) = '\\' :: (asciiChar c ++ asciiText s) := by
        rw [asciiText, List.flatMap_cons, List.flatMap_cons]
        rfl
      rw [htext, asciiChar, if_pos hc, List.singleton_append, readUnit, if_pos rfl]
      exact if_neg hu
  | control hn hs =>
      rename_i n s
      refine ⟨unicodeUnit n, s, rfl, List.cons_ne_nil _ _, hs, ?_⟩
      have hunit : (unicodeUnit n).all isPrintable = true :=
        List.all_eq_true.mpr fun d hd => isPrintable_unicodeUnit (by omega) hd
      have hscan : scanUnicode (hexDigits n ++ asciiText s) = some (Char.ofNat n, asciiText s) := by
        rw [scanUnicode, scanHex_hexDigits (by omega)]
        dsimp only
        rw [if_neg (by omega), if_neg (by omega)]
      have hchar : (Char.ofNat n).toNat = n := toNat_control n (by omega)
      have htext : asciiText (unicodeUnit n ++ s) = '\\' :: 'u' :: (hexDigits n ++ asciiText s) := by
        rw [asciiText_append, asciiText_of_printable hunit]
        rfl
      rw [htext, readUnit_escape hscan, hchar, if_pos hn]

theorem asciiChar_ne_nil (c : Char) : asciiChar c ≠ [] := by
  unfold asciiChar unicodeEscape unicodeUnit
  split_ifs
  all_goals exact List.cons_ne_nil _ _

theorem asciiText_eq_nil {s : List Char} : asciiText s = [] ↔ s = [] := by
  constructor
  · intro h
    cases s with
    | nil => rfl
    | cons c s => exact absurd (List.append_eq_nil_iff.mp h).1 (asciiChar_ne_nil c)
  · rintro rfl
    rfl

theorem asciiText_injective {s s' : List Char} (hs : Escaped s) (hs' : Escaped s')
    (h : asciiText s = asciiText s') : s = s' := by
  induction hn : s.length using Nat.strong_induction_on generalizing s s' with
  | _ n ih =>
      by_cases hne : s = []
      · rw [hne] at h ⊢
        exact (asciiText_eq_nil.mp h.symm).symm
      have hne' : s' ≠ [] := by
        rintro rfl
        exact hne (asciiText_eq_nil.mp h)
      obtain ⟨front, rest, rfl, hfront, hrest, hread⟩ := readUnit_asciiText hs hne
      obtain ⟨front', rest', rfl, -, hrest', hread'⟩ := readUnit_asciiText hs' hne'
      rw [h, hread', Option.some.injEq, Prod.mk.injEq] at hread
      have hlt : rest.length < n := by
        have hpos := List.length_pos_iff.mpr hfront
        rw [List.length_append] at hn
        omega
      rw [hread.1, ih rest.length hlt hrest hrest' hread.2.symm rfl]

theorem escaped_joinChunks {cs : List Chunk} {t : List Char} (h : ∀ c, some c ∈ cs → Escaped c)
    (ht : joinChunks cs = some t) : Escaped t := by
  induction cs generalizing t with
  | nil =>
      obtain rfl := Option.some.inj ht
      exact .nil
  | cons c cs ih =>
      cases c with
      | none => cases ht
      | some c =>
          obtain ⟨u, hu, rfl⟩ := joinChunks_cons.mp ht
          exact (h c List.mem_cons_self).append
            (ih (fun d hd => h d (List.mem_cons_of_mem _ hd)) hu)

theorem escaped_scalar {v : Value F} {c : List Char} (h : scalar fl v = some c) : Escaped c := by
  rcases scalar_bare fl h with hbare | ⟨s, rfl⟩
  · exact .of_bare hbare
  · obtain rfl := Option.some.inj h
    exact escaped_encodeString s

theorem escaped_itemChunks {buf : List Char} (hbuf : Escaped buf) {v : Value F}
    {inner : List Chunk} (hinner : ∀ c, some c ∈ inner → Escaped c) :
    ∀ c, some c ∈ itemChunks fl buf v inner → Escaped c := by
  intro c hc
  unfold itemChunks at hc
  split_ifs at hc
  · rcases List.mem_cons.mp hc with heq | hc
    · rwa [Option.some.inj heq]
    · exact hinner c hc
  · obtain ⟨d, hd, rfl⟩ := Option.map_eq_some_iff.mp (List.mem_singleton.mp hc).symm
    exact hbuf.append (escaped_scalar fl hd)

mutual
theorem escaped_chunks : ∀ (v : Value F) (c : List Char), some c ∈ chunks fl v → Escaped c
  | .list [], c, hc => by
      rw [Option.some.inj (List.mem_singleton.mp hc)]
      exact .of_bare rfl
  | .list (v :: vs), c, hc => by
      rw [chunks, List.mem_append, List.mem_append, List.mem_singleton] at hc
      rcases hc with (hc | hc) | hc
      · exact escaped_itemChunks fl (.of_bare rfl) (escaped_chunks v) c hc
      · exact escaped_chunksOfItems vs c hc
      · rw [Option.some.inj hc]
        exact .of_bare rfl
  | .dict [], c, hc => by
      rw [Option.some.inj (List.mem_singleton.mp hc)]
      exact .of_bare rfl
  | .dict ((key, v) :: es), c, hc => by
      simp only [chunks, List.mem_cons, List.mem_append, List.not_mem_nil, or_false,
        Option.some.injEq] at hc
      rcases hc with rfl | rfl | rfl | (hc | hc) | rfl
      · exact .of_bare rfl
      · exact escaped_encodeString key
      · exact .of_bare rfl
      · exact escaped_chunks v c hc
      · exact escaped_chunksOfEntries es c hc
      · exact .of_bare rfl
  | .null, _, hc => escaped_scalar fl (List.mem_singleton.mp hc).symm
  | .bool _, _, hc => escaped_scalar fl (List.mem_singleton.mp hc).symm
  | .int _, _, hc => escaped_scalar fl (List.mem_singleton.mp hc).symm
  | .float _, _, hc => escaped_scalar fl (List.mem_singleton.mp hc).symm
  | .nonFinite _, _, hc => escaped_scalar fl (List.mem_singleton.mp hc).symm
  | .string _, _, hc => escaped_scalar fl (List.mem_singleton.mp hc).symm

theorem escaped_chunksOfItems : ∀ (vs : List (Value F)) (c : List Char),
    some c ∈ chunksOfItems fl vs → Escaped c
  | [], _, hc => by cases hc
  | v :: vs, c, hc => by
      rw [chunksOfItems, List.mem_append] at hc
      rcases hc with hc | hc
      · exact escaped_itemChunks fl (.of_bare rfl) (escaped_chunks v) c hc
      · exact escaped_chunksOfItems vs c hc

theorem escaped_chunksOfEntries : ∀ (es : List (List Char × Value F)) (c : List Char),
    some c ∈ chunksOfEntries fl es → Escaped c
  | [], _, hc => by cases hc
  | (key, v) :: es, c, hc => by
      simp only [chunksOfEntries, List.mem_cons, List.mem_append, Option.some.injEq] at hc
      rcases hc with rfl | rfl | rfl | hc | hc
      · exact .of_bare rfl
      · exact escaped_encodeString key
      · exact .of_bare rfl
      · exact escaped_chunks v c hc
      · exact escaped_chunksOfEntries es c hc
end

/-- Two values with the same text are the same value. -/
theorem dumpAscii_injective {v v' : Value F} {t : List Char} (hv : v.Regular) (hv' : v'.Regular)
    (h : dumpAscii fl v = some t) (h' : dumpAscii fl v' = some t) : v = v' := by
  rw [dumpAscii_eq, Option.map_eq_some_iff] at h h'
  obtain ⟨s, hs, rfl⟩ := h
  obtain ⟨s', hs', heq⟩ := h'
  have hsame : s' = s := asciiText_injective (escaped_joinChunks (escaped_chunks fl v') hs')
    (escaped_joinChunks (escaped_chunks fl v) hs) heq
  rw [hsame] at hs'
  have hread := loads_dump fl hv hs
  rw [loads_dump fl hv' hs'] at hread
  exact (Option.some.inj hread).symm

end Json
