import Ally.Database

/-!
# The identity a chunk id is derived from

`make_chunk_id` hashes `tenant:filename:page:index`, with `:version` after it for a
versioned chunk. The filename may hold any text, colons included; the identity still
determines each of its parts, because the others hold no colon and are read from the
two ends.
-/

namespace Ally

/-! ### Text read from its ends -/

/-- The text after the last separator, and the text before it. -/
theorem append_separator_inj {α : Type*} {c : α} {a b s t : List α} (hs : c ∉ s) (ht : c ∉ t)
    (h : a ++ c :: s = b ++ c :: t) : a = b ∧ s = t := by
  rcases List.append_eq_append_iff.mp h with ⟨x, hb, hx⟩ | ⟨x, ha, hx⟩
  · cases x with
    | nil => exact ⟨by simpa using hb.symm, by simpa using hx⟩
    | cons y x =>
        have hmem : c ∈ s := by
          rw [List.cons_append, List.cons.injEq] at hx
          rw [hx.2]
          simp
        exact absurd hmem hs
  · cases x with
    | nil => exact ⟨by simpa using ha, by simpa using hx.symm⟩
    | cons y x =>
        have hmem : c ∈ t := by
          rw [List.cons_append, List.cons.injEq] at hx
          rw [hx.2]
          simp
        exact absurd hmem ht

/-- The text before the first separator, and the text after it. -/
theorem separator_append_inj {α : Type*} {c : α} {a b s t : List α} (ha : c ∉ a) (hb : c ∉ b)
    (h : a ++ c :: s = b ++ c :: t) : a = b ∧ s = t := by
  have hrev := congrArg List.reverse h
  simp only [List.reverse_append, List.reverse_cons, List.append_assoc, List.singleton_append] at hrev
  obtain ⟨hs, hab⟩ := append_separator_inj (by simpa using ha) (by simpa using hb) hrev
  exact ⟨List.reverse_injective hab, List.reverse_injective hs⟩

/-- Numbers below `b ^ k` with the same `k` digits are equal. -/
theorem eq_of_digits_eq {b : ℕ} (k : ℕ) {n m : ℕ} (hn : n < b ^ k) (hm : m < b ^ k)
    (h : ∀ i < k, n / b ^ i % b = m / b ^ i % b) : n = m := by
  induction k generalizing n m with
  | zero => simp_all
  | succ k ih =>
      have hlow : n % b = m % b := by simpa using h 0 (Nat.succ_pos k)
      have hhigh : n / b = m / b := by
        apply ih
        · exact Nat.div_lt_of_lt_mul (by rwa [← Nat.pow_succ'])
        · exact Nat.div_lt_of_lt_mul (by rwa [← Nat.pow_succ'])
        · intro i hi
          rw [Nat.div_div_eq_div_mul, Nat.div_div_eq_div_mul, ← Nat.pow_succ']
          exact h (i + 1) (Nat.succ_lt_succ hi)
      rw [← Nat.div_add_mod n b, ← Nat.div_add_mod m b, hlow, hhigh]

theorem digitChar_inj : ∀ n < 16, ∀ m < 16, Nat.digitChar n = Nat.digitChar m → n = m := by
  decide

theorem digitChar_mem : ∀ n < 16, Nat.digitChar n ∈ "0123456789abcdef".toList := by decide

theorem digitChar_ne : ∀ n < 16, Nat.digitChar n ≠ '-' ∧ Nat.digitChar n ≠ ':' := by decide

/-! ### `str` of a UUID -/

/-- The 32 hexadecimal digits, the highest first. -/
def Uuid.digits (u : Uuid) : List Char :=
  (List.range 32).map fun i => Nat.digitChar (u.toNat / 16 ^ (31 - i) % 16)

def Uuid.chars (u : Uuid) : List Char :=
  (Uuid.digits u).take 8 ++ '-' :: ((Uuid.digits u).drop 8).take 4 ++ '-' ::
    ((Uuid.digits u).drop 12).take 4 ++ '-' :: ((Uuid.digits u).drop 16).take 4 ++ '-' ::
    (Uuid.digits u).drop 20

/-- `str(uuid)`. -/
def Uuid.text (u : Uuid) : String := String.ofList (Uuid.chars u)

theorem Uuid.digits_length (u : Uuid) : (Uuid.digits u).length = 32 := by
  simp [Uuid.digits]

theorem Uuid.digits_inj {u v : Uuid} (h : Uuid.digits u = Uuid.digits v) : u = v := by
  apply BitVec.eq_of_toNat_eq
  refine eq_of_digits_eq (b := 16) 32 ?_ ?_ fun i hi => ?_
  · exact u.isLt
  · exact v.isLt
  · have hget : (Uuid.digits u)[31 - i]? = (Uuid.digits v)[31 - i]? := by rw [h]
    have hlt : 31 - i < 32 := by omega
    have hsub : 31 - (31 - i) = i := by omega
    simp only [Uuid.digits, List.getElem?_map, List.getElem?_range hlt, Option.map_some,
      Option.some.injEq, hsub] at hget
    exact digitChar_inj _ (Nat.mod_lt _ (by omega)) _ (Nat.mod_lt _ (by omega)) hget

theorem Uuid.not_mem_digits {u : Uuid} {c : Char} (hc : c = '-' ∨ c = ':') :
    c ∉ Uuid.digits u := by
  intro h
  obtain ⟨i, -, rfl⟩ := List.mem_map.mp h
  have hne := digitChar_ne (u.toNat / 16 ^ (31 - i) % 16) (Nat.mod_lt _ (by omega))
  rcases hc with hc | hc
  · exact hne.1 hc
  · exact hne.2 hc

theorem Uuid.chars_length (u : Uuid) : (Uuid.chars u).length = 36 := by
  simp [Uuid.chars, Uuid.digits_length]

theorem Uuid.mem_chars {u : Uuid} {c : Char} (h : c ∈ Uuid.chars u) :
    c = '-' ∨ c ∈ Uuid.digits u := by
  simp only [Uuid.chars, List.mem_append, List.mem_cons] at h
  grind [List.mem_of_mem_take, List.mem_of_mem_drop]

theorem Uuid.alphabet {u : Uuid} : ∀ c ∈ Uuid.chars u, c ∈ "-0123456789abcdef".toList := by
  intro c h
  rcases Uuid.mem_chars h with rfl | h
  · decide
  · obtain ⟨i, -, rfl⟩ := List.mem_map.mp h
    exact List.mem_cons_of_mem '-' (digitChar_mem _ (Nat.mod_lt _ (by omega)))

theorem Uuid.colon_notMem_chars (u : Uuid) : ':' ∉ Uuid.chars u := by
  intro h
  rcases Uuid.mem_chars h with h | h
  · exact absurd h (by decide)
  · exact Uuid.not_mem_digits (Or.inr rfl) h

theorem Uuid.dash_mem_chars (u : Uuid) : '-' ∈ Uuid.chars u := by simp [Uuid.chars]

/-- Without its dashes the text is the digits again. -/
theorem Uuid.filter_chars (u : Uuid) :
    (Uuid.chars u).filter (fun c => c ≠ '-') = Uuid.digits u := by
  have hdigits : ∀ l : List Char, (∀ c ∈ l, c ∈ Uuid.digits u) →
      l.filter (fun c => c ≠ '-') = l := by
    intro l hl
    refine List.filter_eq_self.mpr fun c hc => decide_eq_true fun he => ?_
    exact Uuid.not_mem_digits (Or.inl he) (hl c hc)
  have htake : ∀ n k, (((Uuid.digits u).drop n).take k).filter (fun c => c ≠ '-') =
      ((Uuid.digits u).drop n).take k :=
    fun n k => hdigits _ fun c hc => List.mem_of_mem_drop (List.mem_of_mem_take hc)
  have hjoin : ∀ n k, ((Uuid.digits u).drop n).take k ++ (Uuid.digits u).drop (n + k) =
      (Uuid.digits u).drop n := by
    intro n k
    rw [← List.drop_drop, List.take_append_drop]
  have hcons : ∀ l : List Char, ('-' :: l).filter (fun c => c ≠ '-') =
      l.filter (fun c => c ≠ '-') := fun l => by simp
  simp only [Uuid.chars, List.filter_append, hcons, htake, List.append_assoc]
  rw [hdigits _ fun c => List.mem_of_mem_take, hdigits _ fun c => List.mem_of_mem_drop,
    hjoin 16 4, hjoin 12 4, hjoin 8 4, List.take_append_drop]

theorem Uuid.chars_inj {u v : Uuid} (h : Uuid.chars u = Uuid.chars v) : u = v := by
  apply Uuid.digits_inj
  rw [← Uuid.filter_chars, ← Uuid.filter_chars, h]

theorem Uuid.text_inj {u v : Uuid} (h : Uuid.text u = Uuid.text v) : u = v := by
  have hchars := congrArg String.toList h
  rw [Uuid.text, Uuid.text, String.toList_ofList, String.toList_ofList] at hchars
  exact Uuid.chars_inj hchars

/-! ### Decimal numbers -/

theorem nat_toList (n : ℕ) : (toString n).toList = Nat.toDigits 10 n := Nat.toList_repr

theorem nat_text_digits {n : ℕ} {c : Char} (h : c ∈ (toString n).toList) : c.isDigit = true := by
  rw [nat_toList] at h
  exact Nat.isDigit_of_mem_toDigits (by omega) (by omega) h

theorem nat_text_inj {n m : ℕ} (h : (toString n).toList = (toString m).toList) : n = m := by
  rw [nat_toList, nat_toList] at h
  rw [← Nat.ofDigitChars_toDigits (b := 10) (n := n) (by omega) (by omega), h,
    Nat.ofDigitChars_toDigits (by omega) (by omega)]

theorem int_text_neg (n : ℕ) : (toString (Int.negSucc n)).toList = '-' :: (toString (n + 1)).toList :=
  String.toList_append

theorem int_text_colon (n : ℤ) : ':' ∉ (toString n).toList := by
  have hnat : ∀ m : ℕ, ':' ∉ (toString m).toList :=
    fun m h => absurd (nat_text_digits h) (by decide)
  cases n with
  | ofNat m => exact hnat m
  | negSucc m =>
      rw [int_text_neg, List.mem_cons]
      rintro (h | h)
      · cases h
      · exact hnat _ h

theorem int_text_inj {n m : ℤ} (h : (toString n).toList = (toString m).toList) : n = m := by
  have hneg : ∀ (a : ℕ) (l : List Char), (toString a).toList ≠ '-' :: l := by
    intro a l ha
    have hdash : '-' ∈ (toString a).toList := ha ▸ List.mem_cons_self
    exact absurd (nat_text_digits hdash) (by decide)
  cases n with
  | ofNat a =>
      cases m with
      | ofNat b => exact congrArg Int.ofNat (nat_text_inj h)
      | negSucc b => exact absurd (h.trans (int_text_neg b)) (hneg a _)
  | negSucc a =>
      cases m with
      | ofNat b => exact absurd (h.symm.trans (int_text_neg a)) (hneg b _)
      | negSucc b =>
          rw [int_text_neg, int_text_neg, List.cons.injEq] at h
          exact congrArg Int.negSucc (Nat.succ.inj (nat_text_inj h.2))

/-! ### `make_chunk_id` -/

def chunkIdentity (tenantId : Uuid) (filename : String) (pageNumber : ℤ) (chunkIndex : ℕ)
    (versionId : Option Uuid) : String :=
  let identity := s!"{Uuid.text tenantId}:{filename}:{pageNumber}:{chunkIndex}"
  match versionId with
  | none => identity
  | some versionId => s!"{identity}:{Uuid.text versionId}"

/-- `uuid5` stands for the hash under `NAMESPACE_URL`. -/
def makeChunkId {κ : Type} (uuid5 : String → κ) (tenantId : Uuid) (filename : String)
    (pageNumber : ℤ) (chunkIndex : ℕ) (versionId : Option Uuid) : κ :=
  uuid5 (chunkIdentity tenantId filename pageNumber chunkIndex versionId)

/-! ### Any tenant id -/

/-- The identity `make_chunk_id` hashes, for ids given as strings. -/
def chunkIdentityOf (tenantId filename : String) (pageNumber chunkIndex : ℤ)
    (versionId : Option String) : String :=
  let identity := s!"{tenantId}:{filename}:{pageNumber}:{chunkIndex}"
  match versionId with
  | none => identity
  | some versionId => s!"{identity}:{versionId}"

/-- `make_chunk_id`. -/
def makeChunkIdOf {κ : Type} (uuid5 : String → κ) (tenantId filename : String)
    (pageNumber chunkIndex : ℤ) (versionId : Option String) : κ :=
  uuid5 (chunkIdentityOf tenantId filename pageNumber chunkIndex versionId)

section TextIdentity
variable {t t' f f' : String} {p p' i i' : ℤ} {v v' : Option Uuid}

theorem unversionedIdentity_toList : (chunkIdentityOf t f p i none).toList =
    ((t.toList ++ ':' :: f.toList) ++ ':' :: (toString p).toList) ++ ':' :: (toString i).toList := by
  have hconcat : chunkIdentityOf t f p i none =
      t ++ ":" ++ f ++ ":" ++ toString p ++ ":" ++ toString i := rfl
  rw [hconcat]
  simp [String.toList_append]

theorem versionedIdentity_toList {w : Uuid} :
    (chunkIdentityOf t f p i (some (Uuid.text w))).toList =
      (chunkIdentityOf t f p i none).toList ++ ':' :: Uuid.chars w := by
  have hconcat : chunkIdentityOf t f p i (some (Uuid.text w)) =
      chunkIdentityOf t f p i none ++ ":" ++ Uuid.text w := rfl
  rw [hconcat]
  simp [Uuid.text, String.toList_append]

theorem unversionedIdentity_inj (ht : ':' ∉ t.toList) (ht' : ':' ∉ t'.toList)
    (h : (chunkIdentityOf t f p i none).toList = (chunkIdentityOf t' f' p' i' none).toList) :
    t = t' ∧ f = f' ∧ p = p' ∧ i = i' := by
  rw [unversionedIdentity_toList, unversionedIdentity_toList] at h
  obtain ⟨h, hi⟩ := append_separator_inj (int_text_colon i) (int_text_colon i') h
  obtain ⟨h, hp⟩ := append_separator_inj (int_text_colon p) (int_text_colon p') h
  obtain ⟨htenant, hf⟩ := separator_append_inj ht ht' h
  exact ⟨String.toList_inj.mp htenant, String.toList_inj.mp hf, int_text_inj hp, int_text_inj hi⟩

/-- A number has a dash in front only, a UUID after eight digits. -/
theorem int_text_ne_chars (n : ℤ) (w : Uuid) : (toString n).toList ≠ Uuid.chars w := by
  intro h
  have hdash : '-' ∈ (toString n).toList := h ▸ Uuid.dash_mem_chars w
  cases n with
  | ofNat m => exact absurd (nat_text_digits hdash) (by decide)
  | negSucc m =>
    rw [int_text_neg] at h
    have hhead := congrArg (fun l : List Char => l[0]?) h
    have hfirst : (Uuid.chars w)[0]? = (Uuid.digits w)[0]? := by
      have hlen := Uuid.digits_length w
      simp [Uuid.chars, hlen]
    rw [hfirst, List.getElem?_cons_zero] at hhead
    exact Uuid.not_mem_digits (Or.inl rfl) (List.mem_of_getElem? hhead.symm)

/-- The last part of an identity is an index or a version, and these differ. -/
theorem unversionedIdentity_ne {w : Uuid} :
    (chunkIdentityOf t f p i none).toList ≠
      (chunkIdentityOf t' f' p' i' (some (Uuid.text w))).toList := by
  intro h
  rw [unversionedIdentity_toList, versionedIdentity_toList] at h
  obtain ⟨-, hi⟩ := append_separator_inj (int_text_colon i) (Uuid.colon_notMem_chars w) h
  exact int_text_ne_chars i w hi

theorem chunkIdentityOf_inj (ht : ':' ∉ t.toList) (ht' : ':' ∉ t'.toList)
    (h : chunkIdentityOf t f p i (v.map Uuid.text) =
      chunkIdentityOf t' f' p' i' (v'.map Uuid.text)) :
    t = t' ∧ f = f' ∧ p = p' ∧ i = i' ∧ v = v' := by
  have hl := congrArg String.toList h
  cases v with
  | none =>
    cases v' with
    | none =>
      obtain ⟨htenant, hf, hp, hi⟩ := unversionedIdentity_inj ht ht' hl
      exact ⟨htenant, hf, hp, hi, rfl⟩
    | some w' => exact absurd hl unversionedIdentity_ne
  | some w =>
    cases v' with
    | none => exact absurd hl.symm unversionedIdentity_ne
    | some w' =>
      simp only [Option.map_some, versionedIdentity_toList] at hl
      obtain ⟨hl, hw⟩ :=
        append_separator_inj (Uuid.colon_notMem_chars w) (Uuid.colon_notMem_chars w') hl
      obtain ⟨htenant, hf, hp, hi⟩ := unversionedIdentity_inj ht ht' hl
      exact ⟨htenant, hf, hp, hi, congrArg some (Uuid.chars_inj hw)⟩

end TextIdentity

/-! ### Tenants and versions by their UUIDs -/

section Identity
variable {t t' : Uuid} {f f' : String} {p p' : ℤ} {i i' : ℕ} {v v' : Option Uuid}

theorem colon_notMem_text (u : Uuid) : ':' ∉ (Uuid.text u).toList := by
  rw [Uuid.text, String.toList_ofList]
  exact Uuid.colon_notMem_chars u

theorem chunkIdentity_eq (t : Uuid) (f : String) (p : ℤ) (i : ℕ) (v : Option Uuid) :
    chunkIdentity t f p i v = chunkIdentityOf (Uuid.text t) f p i (v.map Uuid.text) := by
  cases v <;> rfl

theorem makeChunkId_eq {κ : Type} (uuid5 : String → κ) (t : Uuid) (f : String) (p : ℤ) (i : ℕ)
    (v : Option Uuid) :
    makeChunkId uuid5 t f p i v = makeChunkIdOf uuid5 (Uuid.text t) f p i (v.map Uuid.text) :=
  congrArg uuid5 (chunkIdentity_eq t f p i v)

theorem chunkIdentity_inj (h : chunkIdentity t f p i v = chunkIdentity t' f' p' i' v') :
    t = t' ∧ f = f' ∧ p = p' ∧ i = i' ∧ v = v' := by
  rw [chunkIdentity_eq, chunkIdentity_eq] at h
  obtain ⟨ht, hf, hp, hi, hv⟩ := chunkIdentityOf_inj (colon_notMem_text t) (colon_notMem_text t') h
  exact ⟨Uuid.text_inj ht, hf, hp, Int.ofNat_inj.mp hi, hv⟩

/-- Ids that no two identities share determine the chunk and its version. -/
theorem makeChunkId_inj {κ : Type} {uuid5 : String → κ} (hu : Function.Injective uuid5)
    (h : makeChunkId uuid5 t f p i v = makeChunkId uuid5 t' f' p' i' v') :
    t = t' ∧ f = f' ∧ p = p' ∧ i = i' ∧ v = v' :=
  chunkIdentity_inj (hu h)

end Identity
end Ally
