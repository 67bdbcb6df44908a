import Ally.Text
import Mathlib.Data.Bool.AllAny
import Mathlib.Data.List.DropRight
import Mathlib.Data.List.SplitBy
import Mathlib.Data.List.TakeWhile
import Mathlib.Tactic

/-!
# URLs

UTF-8, and `quote`, `unquote` and `urlsplit` of `urllib.parse`, on lists of code points.
-/

namespace Urls

/-! ### UTF-8 -/

/-- `s.encode("utf-8")`. -/
def encode (s : List Char) : List UInt8 := s.flatMap String.utf8EncodeChar

def isTail (b : UInt8) : Bool := 0x80 ≤ b && b ≤ 0xBF

/-- The bytes that follow this first byte, and the bounds on the second byte. -/
def lead (b : UInt8) : Option (ℕ × UInt8 × UInt8) :=
  if 0xC2 ≤ b ∧ b ≤ 0xDF then some (1, 0x80, 0xBF)
  else if b = 0xE0 then some (2, 0xA0, 0xBF)
  else if b = 0xED then some (2, 0x80, 0x9F)
  else if 0xE1 ≤ b ∧ b ≤ 0xEF then some (2, 0x80, 0xBF)
  else if b = 0xF0 then some (3, 0x90, 0xBF)
  else if 0xF1 ≤ b ∧ b ≤ 0xF3 then some (3, 0x80, 0xBF)
  else if b = 0xF4 then some (3, 0x80, 0x8F)
  else none

/-- How many bytes one replacement character stands for: a maximal start of a character. -/
def malformed : List UInt8 → ℕ
  | b :: c :: rest =>
      match lead b with
      | some (tails, low, high) =>
          if low ≤ c ∧ c ≤ high then 2 + ((rest.take (tails - 2)).takeWhile isTail).length else 1
      | none => 1
  | _ => 1

def decodeLoop : ℕ → List UInt8 → List Char
  | 0, _ => []
  | _ + 1, [] => []
  | fuel + 1, bytes =>
      match bytes.toByteArray.utf8DecodeChar? 0 with
      | some c => c :: decodeLoop fuel (bytes.drop c.utf8Size)
      | none => '\uFFFD' :: decodeLoop fuel (bytes.drop (malformed bytes))

/-- `b.decode("utf-8", "replace")`. -/
def decode (bytes : List UInt8) : List Char := decodeLoop bytes.length bytes

theorem encode_append (s t : List Char) : encode (s ++ t) = encode s ++ encode t :=
  List.flatMap_append

theorem decodeLoop_encode (s : List Char) (fuel : ℕ) (hfuel : (encode s).length ≤ fuel) :
    decodeLoop fuel (encode s) = s := by
  induction s generalizing fuel with
  | nil => cases fuel <;> rfl
  | cons c s ih =>
      have hcons : encode (c :: s) = String.utf8EncodeChar c ++ encode s := rfl
      rw [hcons] at hfuel ⊢
      have hlen : (String.utf8EncodeChar c).length = c.utf8Size := String.length_utf8EncodeChar c
      have hpos := c.utf8Size_pos
      rw [List.length_append, hlen] at hfuel
      obtain ⟨fuel, rfl⟩ : ∃ n, fuel = n + 1 := ⟨fuel - 1, by omega⟩
      have hne : String.utf8EncodeChar c ++ encode s ≠ [] := by
        simp [String.utf8EncodeChar_ne_nil]
      have hdecode : (String.utf8EncodeChar c ++ encode s).toByteArray.utf8DecodeChar? 0 =
          some c := by
        rw [List.toByteArray_append]
        exact ByteArray.utf8DecodeChar?_utf8EncodeChar_append
      have hdrop : (String.utf8EncodeChar c ++ encode s).drop c.utf8Size = encode s := by
        rw [← hlen, List.drop_left]
      obtain ⟨b, bytes, hbytes⟩ := List.exists_cons_of_ne_nil hne
      rw [hbytes] at hdecode hdrop ⊢
      rw [decodeLoop, hdecode]
      dsimp only
      rw [hdrop, ih fuel (by omega)]
      simp

theorem decode_encode (s : List Char) : decode (encode s) = s :=
  decodeLoop_encode s _ le_rfl

/-! ### Percent encoding -/

/-- The bytes that `quote` keeps, with `safe="/"`. -/
def isSafe (b : UInt8) : Bool :=
  let c := Char.ofUInt8 b
  c.isAlphanum || c ∈ ['_', '.', '-', '~', '/']

def hexDigits : List Char := "0123456789ABCDEF".toList

def quoteByte (b : UInt8) : List Char :=
  if isSafe b then [Char.ofUInt8 b]
  else ['%', hexDigits.getD (b.toNat / 16) '0', hexDigits.getD (b.toNat % 16) '0']

/-- `quote_from_bytes(bs)`. -/
def quoteFromBytes (bytes : List UInt8) : List Char := bytes.flatMap quoteByte

/-- `quote(s, safe="/")`. -/
def quote (s : List Char) : List Char := quoteFromBytes (encode s)

def hexValue (c : Char) : Option ℕ :=
  if c.isDigit then some (c.toNat - '0'.toNat)
  else if 'A' ≤ c ∧ c ≤ 'F' then some (c.toNat - 'A'.toNat + 10)
  else if 'a' ≤ c ∧ c ≤ 'f' then some (c.toNat - 'a'.toNat + 10)
  else none

/-- `_hextobyte`. -/
def hexToByte (a b : Char) : Option UInt8 :=
  (hexValue a).bind fun high => (hexValue b).map fun low => UInt8.ofNat (16 * high + low)

/-- `unquote_to_bytes`. -/
def unquoteToBytes : List Char → List UInt8
  | [] => []
  | c :: s =>
      if c = '%' then
        match s with
        | a :: b :: t =>
            match hexToByte a b with
            | some byte => byte :: unquoteToBytes t
            | none => 37 :: unquoteToBytes (a :: b :: t)
        | t => 37 :: unquoteToBytes t
      else String.utf8EncodeChar c ++ unquoteToBytes s

def isAscii (c : Char) : Bool := c.toNat < 128

/-- A maximal run of ASCII characters, or of others. -/
def unquoteRun (run : List Char) : List Char :=
  if run.all isAscii then decode (unquoteToBytes run) else run

def unquote (s : List Char) : List Char :=
  if '%' ∈ s then (s.splitBy fun a b => isAscii a == isAscii b).flatMap unquoteRun else s

/-- A character that `urlsplit` finds no delimiter in, `/` apart. -/
def isPlain (c : Char) : Bool := isAscii c && ' ' < c && c ∉ ['?', '#', ':', '[', ']']

theorem forall_byte {P : UInt8 → Prop} (h : ∀ n : Fin 256, P (UInt8.ofFin n)) (b : UInt8) : P b :=
  h b.toFin

theorem isPlain_quoteByte : ∀ b : UInt8, (quoteByte b).all isPlain = true :=
  forall_byte (by decide +kernel)

/-- A safe byte stands for itself. -/
theorem safe_byte : ∀ b : UInt8, isSafe b = true →
    Char.ofUInt8 b ≠ '%' ∧ String.utf8EncodeChar (Char.ofUInt8 b) = [b] :=
  forall_byte (by decide +kernel)

theorem hexToByte_digits : ∀ b : UInt8,
    hexToByte (hexDigits.getD (b.toNat / 16) '0') (hexDigits.getD (b.toNat % 16) '0') = some b :=
  forall_byte (by decide +kernel)

theorem unquoteToBytes_cons {c : Char} (hc : c ≠ '%') (s : List Char) :
    unquoteToBytes (c :: s) = String.utf8EncodeChar c ++ unquoteToBytes s := by
  rw [unquoteToBytes.eq_def]
  exact if_neg hc

theorem unquoteToBytes_quoteByte (b : UInt8) (s : List Char) :
    unquoteToBytes (quoteByte b ++ s) = b :: unquoteToBytes s := by
  unfold quoteByte
  by_cases hsafe : isSafe b = true
  · obtain ⟨hne, hencode⟩ := safe_byte b hsafe
    rw [if_pos hsafe, List.singleton_append, unquoteToBytes_cons hne, hencode,
      List.singleton_append]
  · rw [if_neg hsafe, unquoteToBytes.eq_def]
    simp only [List.cons_append, List.nil_append, if_true, hexToByte_digits]

theorem unquoteToBytes_quoteFromBytes (bytes : List UInt8) :
    unquoteToBytes (quoteFromBytes bytes) = bytes := by
  induction bytes with
  | nil => rfl
  | cons b bytes ih =>
      have hcons : quoteFromBytes (b :: bytes) = quoteByte b ++ quoteFromBytes bytes := rfl
      rw [hcons, unquoteToBytes_quoteByte, ih]

/-- A text without percent signs gives its own bytes. -/
theorem unquoteToBytes_of_notMem {s : List Char} (h : '%' ∉ s) : unquoteToBytes s = encode s := by
  induction s with
  | nil => rfl
  | cons c s ih =>
      obtain ⟨hc, hs⟩ := not_or.mp (mt List.mem_cons.mpr h)
      rw [unquoteToBytes_cons (Ne.symm hc), ih hs]
      rfl

theorem isPlain_quote {s : List Char} : ∀ c ∈ quote s, isPlain c = true := by
  intro c hc
  obtain ⟨b, -, hb⟩ := List.mem_flatMap.mp hc
  exact List.all_eq_true.mp (isPlain_quoteByte b) c hb

theorem isAscii_of_isPlain {c : Char} (h : isPlain c = true) : isAscii c = true := by
  simp only [isPlain, Bool.and_eq_true] at h
  exact h.1.1

theorem quote_append (s t : List Char) : quote (s ++ t) = quote s ++ quote t := by
  rw [quote, encode_append, quoteFromBytes, List.flatMap_append]
  rfl

theorem unquote_quote (s : List Char) : unquote (quote s) = s := by
  have hbytes : decode (unquoteToBytes (quote s)) = s := by
    rw [quote, unquoteToBytes_quoteFromBytes, decode_encode]
  unfold unquote
  by_cases hpercent : '%' ∈ quote s
  · have hascii : ∀ c ∈ quote s, isAscii c = true := fun c hc => isAscii_of_isPlain (isPlain_quote c hc)
    have hrun : (quote s).splitBy (fun a b => isAscii a == isAscii b) = [quote s] := by
      refine List.splitBy_of_isChain (List.ne_nil_of_mem hpercent) ?_
      refine List.Pairwise.isChain (List.pairwise_of_forall_mem_list fun a ha b hb => ?_)
      rw [hascii a ha, hascii b hb]
      rfl
    rw [if_pos hpercent, hrun, List.flatMap_singleton, unquoteRun,
      if_pos (List.all_eq_true.mpr hascii), hbytes]
  · rw [if_neg hpercent]
    rw [unquoteToBytes_of_notMem hpercent, decode_encode] at hbytes
    exact hbytes

theorem quote_injective : Function.Injective quote :=
  Function.LeftInverse.injective unquote_quote

theorem quote_slash (s : List Char) : quote ('/' :: s) = '/' :: quote s := by
  have hslash : quote ['/'] = ['/'] := by decide +kernel
  rw [← List.singleton_append, quote_append, hslash, List.singleton_append]

/-- Two texts with bytes that start with the same character start with that character. -/
theorem head_of_encode {c : Char} {s : List Char} {bytes : List UInt8}
    (h : encode s = String.utf8EncodeChar c ++ bytes) : s.head? = some c := by
  cases s with
  | nil => exact absurd (List.append_eq_nil_iff.mp h.symm).1 String.utf8EncodeChar_ne_nil
  | cons d s =>
      have hbytes : (String.utf8EncodeChar d ++ encode s).toByteArray =
          (String.utf8EncodeChar c ++ bytes).toByteArray := congrArg List.toByteArray h
      rw [List.toByteArray_append, List.toByteArray_append] at hbytes
      have hd : (some d : Option Char) = some c := by
        rw [← ByteArray.utf8DecodeChar?_utf8EncodeChar_append (b := (encode s).toByteArray), hbytes,
          ByteArray.utf8DecodeChar?_utf8EncodeChar_append]
      exact hd

/-- Only a slash is quoted to a slash in front. -/
theorem head_of_quote {s t : List Char} (h : quote s = '/' :: t) : s.head? = some '/' := by
  have hfront : encode s = String.utf8EncodeChar '/' ++ unquoteToBytes t := by
    rw [← unquoteToBytes_cons (by decide), ← h, quote, unquoteToBytes_quoteFromBytes]
  exact head_of_encode hfront

/-- Stripping the slashes in front of a quoted path leaves the rest. -/
theorem unquote_lstrip {s : List Char} (h : s.head? ≠ some '/') :
    unquote (('/' :: quote s).dropWhile (· = '/')) = s := by
  have hdrop : ('/' :: quote s).dropWhile (· = '/') = quote s := by
    rw [List.dropWhile_cons_of_pos (by decide)]
    cases hq : quote s with
    | nil => rfl
    | cons c t =>
        refine List.dropWhile_cons_of_neg ?_
        simp only [decide_eq_true_eq]
        rintro rfl
        exact h (head_of_quote hq)
  rw [hdrop, unquote_quote]

theorem isPlain_of_alphanum {c : Char} (h : c.isAlphanum = true) : isPlain c = true ∧ c ≠ '/' := by
  have hlt : c.toNat < 128 := by
    have hrange := Text.isAlphanum_iff.mp h
    omega
  have hall : ∀ n < 128, (Char.ofNat n).isAlphanum = true →
      isPlain (Char.ofNat n) = true ∧ Char.ofNat n ≠ '/' := by decide +kernel
  have hc := hall c.toNat hlt
  rw [Char.ofNat_toNat] at hc
  exact hc h

/-! ### Splitting -/

structure SplitResult where
  scheme : List Char
  netloc : List Char
  path : List Char
  query : List Char
  fragment : List Char
  deriving DecidableEq, Repr

/-- The strip of control characters and spaces on the left, and the removal of
`_UNSAFE_URL_BYTES_TO_REMOVE`. -/
def sanitize (url : List Char) : List Char :=
  (url.dropWhile (· ≤ ' ')).filter (· ∉ ['\t', '\r', '\n'])

def isSchemeChar (c : Char) : Bool := c.isAlphanum || c ∈ ['+', '-', '.']

/-- The scheme in lower case, and the rest. -/
def splitScheme (url : List Char) : List Char × List Char :=
  let front := url.takeWhile (· ≠ ':')
  match url.dropWhile (· ≠ ':') with
  | _ :: rest =>
      if front.head?.any Char.isAlpha && front.all isSchemeChar then (front.map Char.toLower, rest)
      else ([], url)
  | [] => ([], url)

/-- `_splitnetloc`, after `//`. -/
def splitNetloc (url : List Char) : List Char × List Char :=
  match url with
  | '/' :: '/' :: rest =>
      (rest.takeWhile (· ∉ ['/', '?', '#']), rest.dropWhile (· ∉ ['/', '?', '#']))
  | _ => ([], url)

/-- `url.split(c, 1)`, without `c`. -/
def cut (c : Char) (url : List Char) : List Char × List Char :=
  (url.takeWhile (· ≠ c), (url.dropWhile (· ≠ c)).drop 1)

/-- The checks of the netloc. `special` stands for those of the text in brackets and of
characters that are not ASCII. -/
def netlocOk (special : List Char → Bool) (netloc : List Char) : Bool :=
  (decide ('[' ∈ netloc) == decide (']' ∈ netloc)) &&
    (('[' ∉ netloc && netloc.all isAscii) || special netloc)

/-- `urlsplit(url)`, or its `ValueError`. -/
def urlsplit (special : List Char → Bool) (url : List Char) : Option SplitResult :=
  let (scheme, url) := splitScheme (sanitize url)
  let (netloc, url) := splitNetloc url
  let (url, fragment) := cut '#' url
  let (path, query) := cut '?' url
  if netlocOk special netloc then some ⟨scheme, netloc, path, query, fragment⟩ else none

/-- `netloc.rpartition("@")`: the user information, if there is any, and the host. -/
def splitUserinfo (netloc : List Char) : Option (List Char) × List Char :=
  if '@' ∈ netloc then
    (some (netloc.rdropWhile (· ≠ '@')).dropLast, netloc.rtakeWhile (· ≠ '@'))
  else (none, netloc)

def username (netloc : List Char) : Option (List Char) :=
  (splitUserinfo netloc).1.map fun info => (cut ':' info).1

def password (netloc : List Char) : Option (List Char) :=
  (splitUserinfo netloc).1.bind fun info => if ':' ∈ info then some (cut ':' info).2 else none

/-- `hostname`, with the port left out and the name, but no zone, in lower case. -/
def hostname (lower : List Char → List Char) (netloc : List Char) : Option (List Char) :=
  let host := (splitUserinfo netloc).2
  let name := if '[' ∈ host then (cut ']' (cut '[' host).2).1 else (cut ':' host).1
  if name.isEmpty then none
  else some (lower (name.takeWhile (· ≠ '%')) ++ name.dropWhile (· ≠ '%'))

def unquotePlus (s : List Char) : List Char := unquote (s.map fun c => if c = '+' then ' ' else c)

/-- `parse_qsl(query)`. -/
def parseQsl (query : List Char) : List (List Char × List Char) :=
  (query.splitOn '&').filterMap fun field =>
    let (name, value) := cut '=' field
    if value.isEmpty then none else some (unquotePlus name, unquotePlus value)

/-- A text that starts with a slash has no scheme. -/
theorem urlsplit_scheme_of_slash (special : List Char → Bool) {url : List Char}
    {parts : SplitResult} (h : urlsplit special ('/' :: url) = some parts) : parts.scheme = [] := by
  have hclean : sanitize ('/' :: url) =
      '/' :: url.filter fun c => decide (c ∉ ['\t', '\r', '\n']) := by
    unfold sanitize
    rw [List.dropWhile_cons_of_neg (by decide), List.filter_cons_of_pos (by decide)]
  have hscheme : (splitScheme (sanitize ('/' :: url))).1 = [] := by
    rw [hclean]
    unfold splitScheme
    rw [List.takeWhile_cons_of_pos (by decide)]
    dsimp only
    split
    · rfl
    · rfl
  unfold urlsplit at h
  dsimp only at h
  split_ifs at h
  rw [← Option.some.inj h]
  exact hscheme

theorem isPlain_ne {c : Char} (h : isPlain c = true) :
    ' ' < c ∧ c ≠ '?' ∧ c ≠ '#' ∧ c ≠ ':' ∧ c ≠ '[' ∧ c ≠ ']' := by
  simp only [isPlain, Bool.and_eq_true, decide_eq_true_eq, List.mem_cons, List.not_mem_nil,
    or_false, not_or] at h
  exact ⟨h.1.2, h.2.1, h.2.2.1, h.2.2.2.1, h.2.2.2.2.1, h.2.2.2.2.2⟩

theorem cut_of_notMem {c : Char} {url : List Char} (h : c ∉ url) : cut c url = (url, []) := by
  have hall : ∀ x ∈ url, decide (x ≠ c) = true := fun x hx => by
    have hne : x ≠ c := fun heq => h (heq ▸ hx)
    simpa using hne
  rw [cut, List.takeWhile_eq_self_iff.mpr hall, List.dropWhile_eq_nil_iff.mpr hall]
  rfl

theorem sanitize_of_plain {url : List Char} (h : ∀ c ∈ url, ' ' < c) : sanitize url = url := by
  have hdrop : url.dropWhile (· ≤ ' ') = url := by
    cases url with
    | nil => rfl
    | cons c url =>
        refine List.dropWhile_cons_of_neg ?_
        simpa using h c List.mem_cons_self
  rw [sanitize, hdrop, List.filter_eq_self]
  intro c hc
  have hlt := h c hc
  simp only [List.mem_cons, List.not_mem_nil, or_false, not_or, decide_eq_true_eq]
  refine ⟨?_, ?_, ?_⟩ <;> rintro rfl <;> exact absurd hlt (by decide)

/-- `scheme://netloc/path` comes apart where it was put together. -/
theorem urlsplit_reference (special : List Char → Bool) {scheme netloc path : List Char}
    (hfirst : scheme.head?.any Char.isAlpha = true)
    (hscheme : ∀ c ∈ scheme, isSchemeChar c = true ∧ c.toLower = c ∧ ' ' < c ∧ c ≠ ':')
    (hnetloc : ∀ c ∈ netloc, isPlain c = true ∧ c ≠ '/') (hpath : ∀ c ∈ path, isPlain c = true) :
    urlsplit special (scheme ++ "://".toList ++ netloc ++ '/' :: path) =
      some ⟨scheme, netloc, '/' :: path, [], []⟩ := by
  have hslash : isPlain '/' = true := by decide
  have htext : ∀ c ∈ netloc ++ '/' :: path, isPlain c = true := by
    intro c hc
    rcases List.mem_append.mp hc with hc | hc
    · exact (hnetloc c hc).1
    · rcases List.mem_cons.mp hc with rfl | hc
      · exact hslash
      · exact hpath c hc
  have hurl : scheme ++ "://".toList ++ netloc ++ '/' :: path =
      scheme ++ ':' :: ("//".toList ++ (netloc ++ '/' :: path)) := by simp
  have hclean : sanitize (scheme ++ ':' :: ("//".toList ++ (netloc ++ '/' :: path))) =
      scheme ++ ':' :: ("//".toList ++ (netloc ++ '/' :: path)) := by
    refine sanitize_of_plain fun c hc => ?_
    rcases List.mem_append.mp hc with hc | hc
    · exact (hscheme c hc).2.2.1
    · rcases List.mem_cons.mp hc with rfl | hc
      · decide
      · rcases List.mem_append.mp hc with hc | hc
        · have hall : ∀ c ∈ "//".toList, ' ' < c := List.all_iff_forall_prop.mp (by decide)
          exact hall c hc
        · exact (isPlain_ne (htext c hc)).1
  have hsplit : splitScheme (scheme ++ ':' :: ("//".toList ++ (netloc ++ '/' :: path))) =
      (scheme, "//".toList ++ (netloc ++ '/' :: path)) := by
    have hcolon : ∀ c ∈ scheme, decide (c ≠ ':') = true := fun c hc => by
      simpa using (hscheme c hc).2.2.2
    have hchars : scheme.all isSchemeChar = true :=
      List.all_eq_true.mpr fun c hc => (hscheme c hc).1
    have hlower : scheme.map Char.toLower = scheme := by
      rw [List.map_congr_left fun c hc => (hscheme c hc).2.1, List.map_id']
    have hfront : (scheme ++ ':' :: ("//".toList ++ (netloc ++ '/' :: path))).takeWhile (· ≠ ':') =
        scheme := by
      rw [List.takeWhile_append_of_pos hcolon, List.takeWhile_cons_of_neg (by simp),
        List.append_nil]
    rw [splitScheme, hfront, List.dropWhile_append_of_pos hcolon,
      List.dropWhile_cons_of_neg (by simp)]
    dsimp only
    rw [hfirst, hchars, hlower]
    rfl
  have hnet : splitNetloc ("//".toList ++ (netloc ++ '/' :: path)) = (netloc, '/' :: path) := by
    have hall : ∀ c ∈ netloc, decide (c ∉ ['/', '?', '#']) = true := fun c hc => by
      obtain ⟨hplain, hne⟩ := hnetloc c hc
      obtain ⟨-, hquery, hfragment, -⟩ := isPlain_ne hplain
      simp [hne, hquery, hfragment]
    have hunfold : splitNetloc ("//".toList ++ (netloc ++ '/' :: path)) =
        ((netloc ++ '/' :: path).takeWhile (· ∉ ['/', '?', '#']),
          (netloc ++ '/' :: path).dropWhile (· ∉ ['/', '?', '#'])) := rfl
    rw [hunfold, List.takeWhile_append_of_pos hall, List.dropWhile_append_of_pos hall]
    simp
  have hok : netlocOk special netloc = true := by
    have hopen : '[' ∉ netloc := fun h => (isPlain_ne (hnetloc _ h).1).2.2.2.2.1 rfl
    have hclose : ']' ∉ netloc := fun h => (isPlain_ne (hnetloc _ h).1).2.2.2.2.2 rfl
    have hascii : netloc.all isAscii = true :=
      List.all_eq_true.mpr fun c hc => isAscii_of_isPlain (hnetloc c hc).1
    simp [netlocOk, hopen, hclose, hascii]
  have hfragment : '#' ∉ '/' :: path := fun h =>
    (isPlain_ne (htext _ (List.mem_append_right _ h))).2.2.1 rfl
  have hquery : '?' ∉ '/' :: path := fun h =>
    (isPlain_ne (htext _ (List.mem_append_right _ h))).2.1 rfl
  rw [urlsplit, hurl, hclean, hsplit]
  dsimp only
  rw [hnet]
  dsimp only
  rw [cut_of_notMem hfragment]
  dsimp only
  rw [cut_of_notMem hquery, if_pos hok]

/-- A text that has a slash before any colon, and does not start with one, has no scheme and
no netloc. -/
theorem urlsplit_path (special : List Char → Bool) {c : Char} {front rest : List Char}
    (hc : c ≠ '/') (hfront : ∀ d ∈ c :: front, ' ' < d ∧ d ≠ ':') :
    ∃ parsed, urlsplit special (c :: (front ++ '/' :: rest)) = some parsed ∧ parsed.scheme = [] := by
  have hkeep : ∀ d ∈ c :: front, decide (d ∉ ['\t', '\r', '\n']) = true := by
    intro d hd
    have hlt := (hfront d hd).1
    simp only [List.mem_cons, List.not_mem_nil, or_false, not_or, decide_eq_true_eq]
    refine ⟨?_, ?_, ?_⟩ <;> rintro rfl <;> exact absurd hlt (by decide)
  have hclean : sanitize (c :: (front ++ '/' :: rest)) =
      (c :: front) ++ '/' :: rest.filter (· ∉ ['\t', '\r', '\n']) := by
    have hdrop : (c :: (front ++ '/' :: rest)).dropWhile (· ≤ ' ') = (c :: front) ++ '/' :: rest :=
      List.dropWhile_cons_of_neg (by simpa using (hfront c List.mem_cons_self).1)
    rw [sanitize, hdrop, List.filter_append, List.filter_eq_self.mpr hkeep,
      List.filter_cons_of_pos (by decide)]
  generalize rest.filter (· ∉ ['\t', '\r', '\n']) = tail at hclean
  have hcolon : ∀ d ∈ c :: front, decide (d ≠ ':') = true := fun d hd => by
    simpa using (hfront d hd).2
  have hscheme : splitScheme ((c :: front) ++ '/' :: tail) = ([], (c :: front) ++ '/' :: tail) := by
    have hslash : ((c :: front) ++ '/' :: tail.takeWhile (· ≠ ':')).all isSchemeChar = false := by
      rw [List.all_eq_false]
      exact ⟨'/', by simp, by decide⟩
    rw [splitScheme, List.takeWhile_append_of_pos hcolon, List.takeWhile_cons_of_pos (by decide),
      hslash]
    split
    · simp
    · rfl
  have hnetloc : splitNetloc ((c :: front) ++ '/' :: tail) = ([], (c :: front) ++ '/' :: tail) := by
    rw [splitNetloc]
    intro rest' heq
    exact hc (List.cons.inj heq).1
  rw [urlsplit, hclean, hscheme]
  dsimp only
  rw [hnetloc]
  exact ⟨_, if_pos rfl, rfl⟩

end Urls
