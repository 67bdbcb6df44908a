import Ally.Json
import Mathlib.Tactic

/-!
# The size of a dump

How many bytes `json.dumps` may need for a value, from bounds on its parts.
-/

namespace Json

variable {F : Type} {fl : Floats F}

/-! ### Texts -/

/-- The length of a text in UTF-8. -/
def textBytes (s : List Char) : ℕ := (s.map Char.utf8Size).sum

@[simp] theorem textBytes_nil : textBytes [] = 0 := rfl

@[simp] theorem textBytes_cons (c : Char) (s : List Char) :
    textBytes (c :: s) = c.utf8Size + textBytes s := by
  simp [textBytes]

@[simp] theorem textBytes_append (s t : List Char) :
    textBytes (s ++ t) = textBytes s + textBytes t := by
  simp [textBytes]

theorem utf8ByteSize_ofList (s : List Char) : (String.ofList s).utf8ByteSize = textBytes s := by
  induction s using List.reverseRecOn with
  | nil => rfl
  | append_singleton s c ih =>
      have hpush : String.ofList (s ++ [c]) = (String.ofList s).push c := by
        simp
      rw [hpush, String.utf8ByteSize_push, ih]
      simp

theorem utf8Size_le (c : Char) : c.utf8Size ≤ 4 := c.utf8Size_le_four

theorem utf8Size_hexDigit (n : ℕ) (hn : n < 16) : (hexDigit n).utf8Size = 1 := by
  revert n
  decide

/-- A character takes six bytes at most, which it does where it is a control character. -/
theorem textBytes_escape (c : Char) : textBytes (escape c) ≤ 6 := by
  unfold escape
  split_ifs with _ _ _ _ _ _ _ hcontrol
  all_goals try decide
  · have hhigh := utf8Size_hexDigit (c.toNat / 16) (by omega)
    have hlow := utf8Size_hexDigit (c.toNat % 16) (by omega)
    have hescape : textBytes ['\\', 'u', '0', '0'] = 4 := by decide
    simp only [textBytes_cons, textBytes_nil] at hescape ⊢
    omega
  · have := utf8Size_le c
    simp only [textBytes_cons, textBytes_nil]
    omega

theorem textBytes_escaped (s : List Char) : textBytes (s.flatMap escape) ≤ 6 * s.length := by
  induction s with
  | nil => simp
  | cons c s ih =>
      have hc := textBytes_escape c
      rw [List.flatMap_cons, textBytes_append, List.length_cons]
      omega

theorem textBytes_encodeString (s : List Char) :
    textBytes (encodeString s) = textBytes (s.flatMap escape) + 2 := by
  have hquote : Char.utf8Size '"' = 1 := by decide
  simp only [encodeString, textBytes_cons, textBytes_append, textBytes_nil, hquote]
  omega

theorem textBytes_digits (n : ℕ) : textBytes (Nat.toDigits 10 n) = (Nat.toDigits 10 n).length := by
  have hone : ∀ c ∈ Nat.toDigits 10 n, c.utf8Size = 1 := by
    intro c hc
    have hdigit := Nat.isDigit_of_mem_toDigits (by omega) le_rfl hc
    simp only [Char.isDigit, Bool.and_eq_true, decide_eq_true_eq, ge_iff_le] at hdigit
    have hle : c.val ≤ 0x7f := UInt32.le_trans hdigit.2 (by decide)
    simp [Char.utf8Size, hle]
  unfold textBytes
  rw [List.map_eq_replicate_iff.mpr hone]
  simp

/-! ### Values -/

variable (fl) in
/-- The value is written, in `n` bytes or fewer. -/
def Within (v : Value F) (n : ℕ) : Prop :=
  ∃ t, joinChunks (chunks fl v) = some t ∧ textBytes t ≤ n

variable (fl) in
/-- The same for the entries after the first one. -/
def EntriesWithin (es : List (List Char × Value F)) (n : ℕ) : Prop :=
  ∃ t, joinChunks (chunksOfEntries fl es) = some t ∧ textBytes t ≤ n

variable (fl) in
/-- The same for the items after the first one. -/
def ItemsWithin (vs : List (Value F)) (n : ℕ) : Prop :=
  ∃ t, joinChunks (chunksOfItems fl vs) = some t ∧ textBytes t ≤ n

theorem Within.mono {v : Value F} {n m : ℕ} (h : Within fl v n) (hnm : n ≤ m) : Within fl v m := by
  obtain ⟨t, ht, hle⟩ := h
  exact ⟨t, ht, hle.trans hnm⟩

theorem within_null : Within fl .null 4 := ⟨"null".toList, rfl, by decide⟩

theorem within_bool (b : Bool) : Within fl (.bool b) 5 := by
  cases b with
  | true => exact ⟨"true".toList, rfl, by decide⟩
  | false => exact ⟨"false".toList, rfl, by decide⟩

theorem within_string {s : List Char} {n : ℕ} (h : textBytes (s.flatMap escape) ≤ n) :
    Within fl (.string s) (n + 2) :=
  ⟨encodeString s, by simp [chunks, scalar, joinChunks],
    by rw [textBytes_encodeString]; omega⟩

theorem within_int {n : ℤ} {d : ℕ} (h : (Nat.toDigits 10 n.natAbs).length ≤ d)
    (hd : d ≤ maxStrDigits) : Within fl (.int n) (d + 1) := by
  have hrepr : intRepr n =
      some (if n < 0 then '-' :: Nat.toDigits 10 n.natAbs else Nat.toDigits 10 n.natAbs) :=
    if_pos (h.trans hd)
  have hminus : Char.utf8Size '-' = 1 := by decide
  refine ⟨if n < 0 then '-' :: Nat.toDigits 10 n.natAbs else Nat.toDigits 10 n.natAbs,
    joinChunks_singleton.mpr hrepr, ?_⟩
  split_ifs
  · rw [textBytes_cons, textBytes_digits, hminus]
    omega
  · rw [textBytes_digits]
    omega

theorem entriesWithin_nil (fl : Floats F) : EntriesWithin fl [] 0 := ⟨[], rfl, le_rfl⟩

theorem entriesWithin_cons (key : List Char) {v : Value F} {es : List (List Char × Value F)}
    {k n m : ℕ} (hkey : textBytes (encodeString key) ≤ k) (hv : Within fl v n)
    (hes : EntriesWithin fl es m) : EntriesWithin fl ((key, v) :: es) (k + n + m + 4) := by
  obtain ⟨x, hx, hxn⟩ := hv
  obtain ⟨y, hy, hym⟩ := hes
  refine ⟨", ".toList ++ (encodeString key ++ (": ".toList ++ (x ++ y))), ?_, ?_⟩
  · rw [chunksOfEntries, joinChunks_cons]
    refine ⟨_, joinChunks_cons.mpr ⟨_, joinChunks_cons.mpr ⟨_, ?_, rfl⟩, rfl⟩, rfl⟩
    exact joinChunks_append.mpr ⟨x, y, hx, hy, rfl⟩
  · have hcomma : textBytes ", ".toList = 2 := by decide
    have hcolon : textBytes ": ".toList = 2 := by decide
    rw [textBytes_append, textBytes_append, textBytes_append, textBytes_append, hcomma, hcolon]
    omega

theorem within_dict (key : List Char) {v : Value F} {es : List (List Char × Value F)}
    {k n m : ℕ} (hkey : textBytes (encodeString key) ≤ k) (hv : Within fl v n)
    (hes : EntriesWithin fl es m) : Within fl (.dict ((key, v) :: es)) (k + n + m + 4) := by
  obtain ⟨x, hx, hxn⟩ := hv
  obtain ⟨y, hy, hym⟩ := hes
  refine ⟨['{'] ++ (encodeString key ++ (": ".toList ++ ((x ++ y) ++ ['}']))), ?_, ?_⟩
  · rw [chunks, joinChunks_cons]
    refine ⟨_, joinChunks_cons.mpr ⟨_, joinChunks_cons.mpr ⟨_, ?_, rfl⟩, rfl⟩, rfl⟩
    exact joinChunks_append.mpr ⟨_, _, joinChunks_append.mpr ⟨x, y, hx, hy, rfl⟩, rfl, rfl⟩
  · have hopen : textBytes ['{'] = 1 := by decide
    have hclose : textBytes ['}'] = 1 := by decide
    have hcolon : textBytes ": ".toList = 2 := by decide
    simp only [textBytes_append, hopen, hclose, hcolon]
    omega

theorem itemsWithin_nil : ItemsWithin fl [] 0 := ⟨[], rfl, le_rfl⟩

theorem itemsWithin_cons {v : Value F} {vs : List (Value F)} {n m : ℕ} (hv : Within fl v n)
    (hvs : ItemsWithin fl vs m) : ItemsWithin fl (v :: vs) (n + m + 2) := by
  obtain ⟨x, hx, hxn⟩ := hv
  obtain ⟨y, hy, hym⟩ := hvs
  refine ⟨(", ".toList ++ x) ++ y, ?_, ?_⟩
  · rw [chunksOfItems]
    exact joinChunks_append.mpr ⟨_, y, (joinChunks_itemChunks fl).mpr ⟨x, hx, rfl⟩, hy, rfl⟩
  · have hcomma : textBytes ", ".toList = 2 := by decide
    simp only [textBytes_append, hcomma]
    omega

theorem within_list {v : Value F} {vs : List (Value F)} {n m : ℕ} (hv : Within fl v n)
    (hvs : ItemsWithin fl vs m) : Within fl (.list (v :: vs)) (n + m + 2) := by
  obtain ⟨x, hx, hxn⟩ := hv
  obtain ⟨y, hy, hym⟩ := hvs
  refine ⟨(['['] ++ x ++ y) ++ [']'], ?_, ?_⟩
  · rw [chunks]
    refine joinChunks_append.mpr ⟨_, _, joinChunks_append.mpr ⟨_, y, ?_, hy, rfl⟩, rfl, rfl⟩
    exact (joinChunks_itemChunks fl).mpr ⟨x, hx, rfl⟩
  · have hopen : textBytes ['['] = 1 := by decide
    have hclose : textBytes [']'] = 1 := by decide
    simp only [textBytes_append, hopen, hclose]
    omega

/-- A list of texts: two quotes and a separator for each. -/
theorem within_strings (names : List (List Char)) :
    Within fl (.list (names.map .string)) (6 * (names.map List.length).sum + 4 * names.length + 2) := by
  have hitems : ∀ names : List (List Char), ItemsWithin fl (names.map .string)
      (6 * (names.map List.length).sum + 4 * names.length) := by
    intro names
    induction names with
    | nil => exact itemsWithin_nil
    | cons s names ih =>
        obtain ⟨t, ht, hle⟩ := itemsWithin_cons (within_string (textBytes_escaped s)) ih
        refine ⟨t, ht, hle.trans ?_⟩
        simp only [List.map_cons, List.sum_cons, List.length_cons]
        omega
  cases names with
  | nil => exact ⟨"[]".toList, rfl, by decide⟩
  | cons s names =>
      refine (within_list (within_string (textBytes_escaped s)) (hitems names)).mono ?_
      simp only [List.map_cons, List.sum_cons, List.length_cons]
      omega

end Json
