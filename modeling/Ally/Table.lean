import Mathlib.Data.List.Nodup
import Mathlib.Data.List.Lattice
import Mathlib.Tactic

/-!
# Tables with a primary key

A table is a list of rows no two of which share a key. Statements act on the
rows a predicate selects, as the `WHERE` clause of an SQL statement does, and
`count` is the row count such a statement reports.
-/

namespace Relational

structure Table {α κ : Type*} (key : α → κ) where
  rows : List α
  nodupKeys : (rows.map key).Nodup

/-- A rewriting of rows that leaves the primary key alone. -/
structure Rewrite {α κ : Type*} (key : α → κ) where
  toFun : α → α
  keeps : ∀ r, key (toFun r) = key r

instance {α κ : Type*} {key : α → κ} : CoeFun (Rewrite key) fun _ => α → α := ⟨Rewrite.toFun⟩

namespace Table

variable {α κ : Type*} {key : α → κ}

theorem ext_rows {t t' : Table key} (h : t.rows = t'.rows) : t = t' := by
  obtain ⟨rows, hnd⟩ := t
  obtain ⟨rows', hnd'⟩ := t'
  obtain rfl : rows = rows' := h
  rfl

instance : Membership α (Table key) := ⟨fun t r => r ∈ t.rows⟩

def empty : Table key := ⟨[], List.nodup_nil⟩

@[simp] theorem notMem_empty (r : α) : r ∉ (empty : Table key) := List.not_mem_nil

theorem eq_of_key_eq {t : Table key} {r s : α} (hr : r ∈ t) (hs : s ∈ t)
    (h : key r = key s) : r = s :=
  List.inj_on_of_nodup_map t.nodupKeys hr hs h

/-! ### Reading -/

def select (t : Table key) (p : α → Bool) : Option α := t.rows.find? p

theorem select_some {t : Table key} {p : α → Bool} {r : α} (h : t.select p = some r) :
    r ∈ t ∧ p r = true :=
  ⟨List.mem_of_find?_eq_some h, List.find?_some h⟩

theorem select_none {t : Table key} {p : α → Bool} :
    t.select p = none ↔ ∀ r ∈ t, p r = false := by
  simp only [select, List.find?_eq_none, Bool.not_eq_true]
  rfl

/-- A predicate that fixes the key selects the one row that satisfies it. -/
theorem select_eq_some_iff {t : Table key} {p : α → Bool} {k : κ}
    (hp : ∀ r, p r = true → key r = k) {r : α} :
    t.select p = some r ↔ r ∈ t ∧ p r = true := by
  refine ⟨select_some, fun h => ?_⟩
  cases hs : t.select p with
  | none =>
      have hn := select_none.mp hs r h.1
      rw [h.2] at hn
      cases hn
  | some s =>
      obtain ⟨hm, hps⟩ := select_some hs
      rw [eq_of_key_eq hm h.1 ((hp s hps).trans (hp r h.2).symm)]

def count (t : Table key) (p : α → Bool) : ℕ := t.rows.countP p

theorem count_pos_iff {t : Table key} {p : α → Bool} :
    0 < t.count p ↔ ∃ r ∈ t, p r = true := List.countP_pos_iff

theorem count_le_one {t : Table key} {p : α → Bool} {k : κ}
    (hp : ∀ r, p r = true → key r = k) : t.count p ≤ 1 := by
  obtain ⟨rows, hnd⟩ := t
  change rows.countP p ≤ 1
  induction rows with
  | nil => simp
  | cons r rows ih =>
      rw [List.map_cons, List.nodup_cons] at hnd
      by_cases hr : p r = true
      · have hz : rows.countP p = 0 := by
          rw [List.countP_eq_zero]
          intro s hs hps
          apply hnd.1
          rw [hp r hr, ← hp s hps]
          exact List.mem_map_of_mem hs
        rw [List.countP_cons_of_pos hr, hz]
      · rw [List.countP_cons_of_neg hr]
        exact ih hnd.2

/-- The row count of a statement whose predicate fixes the key is one exactly
when some row satisfies the predicate. -/
theorem count_eq_one_iff {t : Table key} {p : α → Bool} {k : κ}
    (hp : ∀ r, p r = true → key r = k) : t.count p = 1 ↔ ∃ r ∈ t, p r = true := by
  rw [← count_pos_iff]
  have := count_le_one (t := t) hp
  omega

/-- `COALESCE(MAX(f), 0)` over the selected rows. -/
def maxOf (t : Table key) (p : α → Bool) (f : α → ℕ) : ℕ :=
  ((t.rows.filter p).map f).foldr max 0

theorem le_maxOf {t : Table key} {p : α → Bool} {f : α → ℕ} {r : α} (hr : r ∈ t)
    (hp : p r = true) : f r ≤ t.maxOf p f := by
  have hm : f r ∈ (t.rows.filter p).map f :=
    List.mem_map_of_mem (List.mem_filter.mpr ⟨hr, hp⟩)
  exact List.le_max_of_le hm le_rfl

/-! ### Writing -/

def insert [DecidableEq κ] (t : Table key) (r : α) : Option (Table key) :=
  if h : key r ∈ t.rows.map key then none
  else some ⟨t.rows ++ [r], by
    rw [List.map_append, List.nodup_append]
    refine ⟨t.nodupKeys, by simp, ?_⟩
    intro k hk k' hk' he
    rw [List.map_singleton, List.mem_singleton] at hk'
    exact h (hk' ▸ he ▸ hk)⟩

theorem insert_some [DecidableEq κ] {t t' : Table key} {r : α} (h : t.insert r = some t') :
    (∀ s ∈ t, key s ≠ key r) ∧ ∀ s, s ∈ t' ↔ s ∈ t ∨ s = r := by
  unfold insert at h
  split_ifs at h with hk
  obtain rfl := Option.some.inj h
  constructor
  · intro s hs he
    exact hk (he ▸ List.mem_map_of_mem hs)
  · intro s
    change s ∈ t.rows ++ [r] ↔ s ∈ t.rows ∨ s = r
    rw [List.mem_append, List.mem_singleton]

theorem insert_isSome [DecidableEq κ] {t : Table key} {r : α}
    (h : ∀ s ∈ t, key s ≠ key r) : ∃ t', t.insert r = some t' := by
  have hk : key r ∉ t.rows.map key := by
    rw [List.mem_map]
    rintro ⟨s, hs, he⟩
    exact h s hs he
  exact ⟨_, dif_neg hk⟩

theorem count_insert [DecidableEq κ] {t t' : Table key} {r : α} (h : t.insert r = some t')
    (p : α → Bool) : t'.count p = t.count p + if p r then 1 else 0 := by
  unfold insert at h
  split_ifs at h with hk
  obtain rfl := Option.some.inj h
  change (t.rows ++ [r]).countP p = _
  rw [List.countP_append, List.countP_singleton]
  rfl

def update (t : Table key) (p : α → Bool) (f : Rewrite key) : Table key :=
  ⟨t.rows.map (fun r => if p r then f r else r), by
    have hk : key ∘ (fun r => if p r = true then f r else r) = key := by
      funext r
      by_cases h : p r = true
      · simp only [Function.comp_apply, if_pos h, f.keeps]
      · simp only [Function.comp_apply, if_neg h]
    rw [List.map_map, hk]
    exact t.nodupKeys⟩

theorem mem_update {t : Table key} {p : α → Bool} {f : Rewrite key} {s : α} :
    s ∈ t.update p f ↔ ∃ r ∈ t, s = if p r then f r else r := by
  change s ∈ t.rows.map _ ↔ _
  rw [List.mem_map]
  exact exists_congr fun r => and_congr_right fun _ => eq_comm

/-- A row of the table before an update has its image in the table after it. -/
theorem update_mem {t : Table key} {p : α → Bool} {f : Rewrite key} {r : α} (hr : r ∈ t) :
    (if p r then f r else r) ∈ t.update p f :=
  mem_update.mpr ⟨r, hr, rfl⟩

/-- A statement that leaves every row it selects as it is changes nothing. -/
theorem update_eq_self {t : Table key} {p : α → Bool} {f : Rewrite key}
    (h : ∀ r ∈ t, p r = true → f r = r) : t.update p f = t := by
  apply ext_rows
  change t.rows.map _ = t.rows
  conv_rhs => rw [← List.map_id t.rows]
  refine List.map_congr_left fun r hr => ?_
  by_cases hp : p r = true
  · rw [if_pos hp]
    exact h r hr hp
  · rw [if_neg hp]
    rfl

/-- A statement does nothing a second time when it does not select the rows it has written,
or writes the same again. -/
theorem update_again {t : Table key} {p : α → Bool} {f : Rewrite key}
    (h : ∀ r, p r = true → p (f r) = true → f (f r) = f r) :
    (t.update p f).update p f = t.update p f := by
  refine update_eq_self fun r hr hp => ?_
  obtain ⟨s, -, rfl⟩ := mem_update.mp hr
  by_cases hs : p s = true
  · rw [if_pos hs] at hp ⊢
    exact h s hs hp
  · rw [if_neg hs] at hp
    exact absurd hp hs

def delete (t : Table key) (p : α → Bool) : Table key :=
  ⟨t.rows.filter (fun r => !p r), t.nodupKeys.sublist (List.filter_sublist.map key)⟩

theorem mem_delete {t : Table key} {p : α → Bool} {s : α} :
    s ∈ t.delete p ↔ s ∈ t ∧ p s = false := by
  change s ∈ t.rows.filter _ ↔ _
  rw [List.mem_filter, Bool.not_eq_true']
  rfl

theorem count_delete_le (t : Table key) (p q : α → Bool) : (t.delete p).count q ≤ t.count q :=
  List.filter_sublist.countP_le

/-- `INSERT … ON CONFLICT (key) DO UPDATE`: the row `r`, or `f` of the row that
already has its key. -/
def upsert [DecidableEq κ] (t : Table key) (r : α) (f : Rewrite key) : Table key :=
  (t.insert r).getD (t.update (fun s => key s = key r) f)

theorem mem_upsert [DecidableEq κ] {t : Table key} {r : α} {f : Rewrite key} {s : α} :
    s ∈ t.upsert r f ↔ (s ∈ t ∧ key s ≠ key r) ∨
      (∃ o ∈ t, key o = key r ∧ s = f o) ∨ ((∀ o ∈ t, key o ≠ key r) ∧ s = r) := by
  by_cases hfresh : ∀ o ∈ t, key o ≠ key r
  · obtain ⟨t', ht'⟩ := insert_isSome hfresh
    rw [upsert, ht', Option.getD_some, (insert_some ht').2]
    constructor
    · rintro (hs | rfl)
      · exact Or.inl ⟨hs, hfresh s hs⟩
      · exact Or.inr (Or.inr ⟨hfresh, rfl⟩)
    · rintro (⟨hs, -⟩ | ⟨o, ho, hk, -⟩ | ⟨-, rfl⟩)
      · exact Or.inl hs
      · exact absurd hk (hfresh o ho)
      · exact Or.inr rfl
  · have hn : t.insert r = none := by
      cases hi : t.insert r with
      | none => rfl
      | some t' => exact absurd (insert_some hi).1 hfresh
    rw [upsert, hn, Option.getD_none, mem_update]
    constructor
    · rintro ⟨o, ho, rfl⟩
      by_cases hk : key o = key r
      · exact Or.inr (Or.inl ⟨o, ho, hk, by simp [hk]⟩)
      · rw [if_neg (by simpa using hk)]
        exact Or.inl ⟨ho, hk⟩
    · rintro (⟨hs, hk⟩ | ⟨o, ho, hk, rfl⟩ | ⟨hf', -⟩)
      · exact ⟨s, hs, by simp [hk]⟩
      · exact ⟨o, ho, by simp [hk]⟩
      · exact absurd hf' hfresh

/-- One `upsert` after the other, as a loop of such statements performs them. -/
def upsertAll [DecidableEq κ] (t : Table key) (rs : List α) (f : α → Rewrite key) : Table key :=
  rs.foldl (fun t r => t.upsert r (f r)) t

/-- Upserts of rows with distinct keys, each of which overwrites every column of the
row it meets, leave these rows and the rows of other keys. -/
theorem mem_upsertAll [DecidableEq κ] {t : Table key} {rs : List α} {f : α → Rewrite key}
    (hnd : (rs.map key).Nodup) (hf : ∀ r ∈ rs, ∀ o ∈ t, key o = key r → f r o = r) {s : α} :
    s ∈ t.upsertAll rs f ↔ s ∈ rs ∨ (s ∈ t ∧ key s ∉ rs.map key) := by
  induction rs generalizing t with
  | nil => simp [upsertAll]
  | cons r rs ih =>
      rw [List.map_cons, List.nodup_cons] at hnd
      have hr : ∀ o, o ∈ t.upsert r (f r) ↔ o = r ∨ (o ∈ t ∧ key o ≠ key r) := by
        intro o
        rw [mem_upsert]
        constructor
        · rintro (⟨ho, hk⟩ | ⟨o', ho', hk, rfl⟩ | ⟨-, rfl⟩)
          · exact Or.inr ⟨ho, hk⟩
          · exact Or.inl (hf r List.mem_cons_self o' ho' hk)
          · exact Or.inl rfl
        · rintro (rfl | ⟨ho, hk⟩)
          · by_cases hfresh : ∀ o' ∈ t, key o' ≠ key o
            · exact Or.inr (Or.inr ⟨hfresh, rfl⟩)
            · push Not at hfresh
              obtain ⟨o', ho', hk⟩ := hfresh
              exact Or.inr (Or.inl ⟨o', ho', hk, (hf o List.mem_cons_self o' ho' hk).symm⟩)
          · exact Or.inl ⟨ho, hk⟩
      have hstep : ∀ r' ∈ rs, ∀ o ∈ t.upsert r (f r), key o = key r' → f r' o = r' := by
        intro r' hr' o ho hk
        rcases (hr o).mp ho with rfl | ⟨ho', -⟩
        · exact absurd (hk ▸ List.mem_map_of_mem hr') hnd.1
        · exact hf r' (List.mem_cons_of_mem r hr') o ho' hk
      rw [upsertAll, List.foldl_cons, ← upsertAll, ih hnd.2 hstep, hr]
      simp only [List.mem_cons, List.map_cons]
      constructor
      · rintro (hs | ⟨rfl | ⟨hs, hk⟩, hn⟩)
        · exact Or.inl (Or.inr hs)
        · exact Or.inl (Or.inl rfl)
        · exact Or.inr ⟨hs, by rintro (h | h); exacts [hk h, hn h]⟩
      · rintro ((rfl | hs) | ⟨hs, hn⟩)
        · exact Or.inr ⟨Or.inl rfl, hnd.1⟩
        · exact Or.inl hs
        · exact Or.inr ⟨Or.inr ⟨hs, fun h => hn (Or.inl h)⟩, fun h => hn (Or.inr h)⟩

/-- The row `r` in place of the row that has its key, if there is one. -/
def put [DecidableEq κ] (t : Table key) (r : α) : Table key :=
  ⟨t.rows.filter (fun s => key s ≠ key r) ++ [r], by
    rw [List.map_append, List.nodup_append]
    refine ⟨t.nodupKeys.sublist (List.filter_sublist.map key), by simp, ?_⟩
    intro k hk k' hk' he
    obtain ⟨s, hs, rfl⟩ := List.mem_map.mp hk
    rw [List.map_singleton, List.mem_singleton] at hk'
    exact of_decide_eq_true (List.mem_filter.mp hs).2 (he.trans hk')⟩

@[simp] theorem mem_put [DecidableEq κ] {t : Table key} {r s : α} :
    s ∈ t.put r ↔ s = r ∨ (s ∈ t ∧ key s ≠ key r) := by
  change s ∈ t.rows.filter _ ++ [r] ↔ _
  rw [List.mem_append, List.mem_filter, List.mem_singleton, decide_eq_true_eq, or_comm]
  rfl

def putAll [DecidableEq κ] (t : Table key) (rs : List α) : Table key := rs.foldl put t

theorem mem_putAll [DecidableEq κ] {t : Table key} {rs : List α} (hnd : (rs.map key).Nodup)
    {s : α} : s ∈ t.putAll rs ↔ s ∈ rs ∨ (s ∈ t ∧ key s ∉ rs.map key) := by
  induction rs generalizing t with
  | nil => simp [putAll]
  | cons r rs ih =>
      rw [List.map_cons, List.nodup_cons] at hnd
      rw [putAll, List.foldl_cons, ← putAll, ih hnd.2, mem_put]
      simp only [List.mem_cons, List.map_cons]
      constructor
      · rintro (hs | ⟨rfl | ⟨hs, hk⟩, hn⟩)
        · exact Or.inl (Or.inr hs)
        · exact Or.inl (Or.inl rfl)
        · exact Or.inr ⟨hs, by rintro (h | h); exacts [hk h, hn h]⟩
      · rintro ((rfl | hs) | ⟨hs, hn⟩)
        · exact Or.inr ⟨Or.inl rfl, hnd.1⟩
        · exact Or.inl hs
        · exact Or.inr ⟨Or.inr ⟨hs, fun h => hn (Or.inl h)⟩, fun h => hn (Or.inr h)⟩

/-- Without a condition on the rows: what is there afterwards was put or was kept. -/
theorem mem_of_putAll [DecidableEq κ] {t : Table key} {rs : List α} {s : α}
    (h : s ∈ t.putAll rs) : s ∈ rs ∨ (s ∈ t ∧ key s ∉ rs.map key) := by
  induction rs generalizing t with
  | nil => exact Or.inr ⟨h, List.not_mem_nil⟩
  | cons r rs ih =>
      rw [putAll, List.foldl_cons, ← putAll] at h
      rcases ih h with hs | ⟨hs, hn⟩
      · exact Or.inl (List.mem_cons_of_mem r hs)
      · rcases mem_put.mp hs with rfl | ⟨hs, hk⟩
        · exact Or.inl List.mem_cons_self
        · refine Or.inr ⟨hs, fun hm => ?_⟩
          rcases List.mem_cons.mp hm with he | hm
          · exact hk he
          · exact hn hm

/-! ### Numbers allocated by maximum -/

section Numbers

variable {ι : Type*} [DecidableEq ι] (owner : α → ι) (number : α → ℕ)

/-- The numbers of the rows of one owner, in the order of the rows. -/
def numbersOf (rows : List α) (i : ι) : List ℕ := (rows.filter fun r => owner r = i).map number

/-- Every owner has its rows numbered from one without a gap. -/
def Dense (rows : List α) : Prop :=
  ∀ i, numbersOf owner number rows i = List.range' 1 (numbersOf owner number rows i).length

variable {owner number}

theorem numbersOf_append (rows : List α) (r : α) (i : ι) :
    numbersOf owner number (rows ++ [r]) i =
      numbersOf owner number rows i ++ if owner r = i then [number r] else [] := by
  unfold numbersOf
  rw [List.filter_append, List.map_append, List.filter_singleton]
  by_cases h : owner r = i
  · simp [h]
  · simp [h]

theorem max_range' (n : ℕ) : (List.range' 1 n).foldr max 0 = n := by
  apply le_antisymm
  · refine List.max_le_of_forall_le _ n fun m hm => ?_
    rw [List.mem_range'_1] at hm
    omega
  · cases n with
    | zero => exact Nat.zero_le _
    | succ n => exact List.le_max_of_le (List.mem_range'_1.mpr (by omega)) le_rfl

/-- A row numbered one above the maximum of its owner keeps the numbering dense. -/
theorem Dense.append {rows : List α} (h : Dense owner number rows) {r : α}
    (hr : number r = (numbersOf owner number rows (owner r)).foldr max 0 + 1) :
    Dense owner number (rows ++ [r]) := by
  intro i
  rw [numbersOf_append]
  by_cases hi : owner r = i
  · subst hi
    have hmax : (numbersOf owner number rows (owner r)).foldr max 0 =
        (numbersOf owner number rows (owner r)).length := by
      rw [h (owner r), max_range', List.length_range']
    rw [if_pos rfl, hr, hmax, List.length_append, List.length_singleton, List.range'_1_concat,
      ← h (owner r), Nat.add_comm 1]
  · rw [if_neg hi, List.append_nil]
    exact h i

end Numbers

/-- A function that every written row agrees on with the row it replaces has the same
values on the table after an update. -/
theorem map_update {β : Type*} {t : Table key} {p : α → Bool} {f : Rewrite key} {g : α → β}
    (h : ∀ r, g (f r) = g r) : (t.update p f).rows.map g = t.rows.map g := by
  change (t.rows.map _).map g = _
  rw [List.map_map]
  refine List.map_congr_left fun r _ => ?_
  rw [Function.comp_apply]
  split_ifs
  · exact h r
  · rfl

theorem rows_insert [DecidableEq κ] {t t' : Table key} {r : α} (h : t.insert r = some t') :
    t'.rows = t.rows ++ [r] := by
  unfold insert at h
  split_ifs at h with hk
  obtain rfl := Option.some.inj h
  rfl

/-! ### Statements that are executed again -/

section Again

variable [DecidableEq κ]

theorem rows_upsert (t : Table key) (r : α) (f : Rewrite key) :
    (t.upsert r f).rows =
      if key r ∈ t.rows.map key then t.rows.map fun s => if key s = key r then f s else s
      else t.rows ++ [r] := by
  by_cases h : key r ∈ t.rows.map key
  · simp [upsert, insert, h, update]
  · simp [upsert, insert, h]

/-- The row after the upserts of `rs`, where it was there before them. -/
def overwritten (rs : List α) (f : α → Rewrite key) (s : α) : α :=
  ((rs.find? fun r => key r = key s).map fun r => f r s).getD s

theorem overwritten_cons (r : α) (rs : List α) (f : α → Rewrite key) (s : α) :
    overwritten (r :: rs) f s = if key r = key s then f r s else overwritten rs f s := by
  by_cases h : key r = key s <;> simp [overwritten, h]

theorem key_overwritten (rs : List α) (f : α → Rewrite key) (s : α) :
    key (overwritten rs f s) = key s := by
  induction rs with
  | nil => rfl
  | cons r rs ih =>
      rw [overwritten_cons]
      split_ifs
      · exact (f r).keeps s
      · exact ih

theorem overwritten_of_notMem {rs : List α} {f : α → Rewrite key} {s : α}
    (h : key s ∉ rs.map key) : overwritten rs f s = s := by
  induction rs with
  | nil => rfl
  | cons r rs ih =>
      rw [List.map_cons, List.mem_cons, not_or] at h
      rw [overwritten_cons, if_neg (Ne.symm h.1), ih h.2]

/-- Upserts of rows with distinct keys overwrite the rows in place and append the others. -/
theorem rows_upsertAll (t : Table key) {rs : List α} (f : α → Rewrite key)
    (hnd : (rs.map key).Nodup) : (t.upsertAll rs f).rows =
      t.rows.map (overwritten rs f) ++ rs.filter fun r => key r ∉ t.rows.map key := by
  induction rs generalizing t with
  | nil =>
      have hid : overwritten [] f = id := rfl
      rw [hid, List.map_id, List.filter_nil, List.append_nil]
      rfl
  | cons r rs ih =>
      rw [List.map_cons, List.nodup_cons] at hnd
      have hstep := ih (t.upsert r (f r)) hnd.2
      rw [upsertAll, List.foldl_cons, ← upsertAll, hstep, rows_upsert]
      by_cases hmem : key r ∈ t.rows.map key
      · have hkeys : (t.rows.map fun s => if key s = key r then f r s else s).map key =
            t.rows.map key := by
          rw [List.map_map]
          apply List.map_congr_left
          intro s hs
          rw [Function.comp_apply]
          split_ifs
          · exact (f r).keeps s
          · rfl
        have hrow : ∀ s, overwritten rs f (if key s = key r then f r s else s) =
            overwritten (r :: rs) f s := by
          intro s
          rw [overwritten_cons]
          by_cases hs : key s = key r
          · have hnot : key (f r s) ∉ rs.map key := by
              rw [(f r).keeps, hs]
              exact hnd.1
            rw [if_pos hs, if_pos hs.symm, overwritten_of_notMem hnot]
          · rw [if_neg hs, if_neg (Ne.symm hs)]
        rw [if_pos hmem, hkeys, List.map_map, List.filter_cons_of_neg (by simpa using hmem)]
        congr 1
        apply List.map_congr_left
        intro s hs
        exact hrow s
      · have hold : t.rows.map (overwritten rs f) = t.rows.map (overwritten (r :: rs) f) := by
          apply List.map_congr_left
          intro s hs
          have hne : key r ≠ key s := fun heq => hmem (heq ▸ List.mem_map_of_mem hs)
          rw [overwritten_cons, if_neg hne]
        have hfresh : (rs.filter fun r' => key r' ∉ (t.rows ++ [r]).map key) =
            rs.filter fun r' => key r' ∉ t.rows.map key := by
          apply List.filter_congr
          intro r' hr'
          have hne : key r' ≠ key r := fun heq => hnd.1 (heq ▸ List.mem_map_of_mem hr')
          simp [hne]
        rw [if_neg hmem, hfresh, List.map_append, List.map_singleton,
          overwritten_of_notMem hnd.1, hold, List.filter_cons_of_pos (by simpa using hmem),
          List.append_assoc, List.singleton_append]

/-- Deleting what upserts wrote and upserting it again changes nothing. -/
theorem upsertAll_again (t : Table key) {rs : List α} {f : α → Rewrite key} {p : α → Bool}
    (hnd : (rs.map key).Nodup) (hp : ∀ r ∈ rs, p r = true) (hkeep : ∀ r s, p (f r s) = p s)
    (hagain : ∀ r s, f r (f r s) = f r s) :
    (((t.delete p).upsertAll rs f).delete p).upsertAll rs f = (t.delete p).upsertAll rs f := by
  have hclean : ∀ s ∈ (t.delete p).rows, p s = false := fun s hs => (mem_delete.mp hs).2
  have hpo : ∀ s, p (overwritten rs f s) = p s := by
    intro s
    unfold overwritten
    cases rs.find? fun r => key r = key s with
    | none => rfl
    | some r => exact hkeep r s
  have hoo : ∀ s, overwritten rs f (overwritten rs f s) = overwritten rs f s := by
    intro s
    conv_lhs => rw [overwritten, key_overwritten rs f s]
    unfold overwritten
    cases rs.find? fun r => key r = key s with
    | none => rfl
    | some r => exact hagain r s
  have hrows := rows_upsertAll (t.delete p) f hnd
  have hdeleted : (((t.delete p).upsertAll rs f).delete p).rows =
      (t.delete p).rows.map (overwritten rs f) := by
    change ((t.delete p).upsertAll rs f).rows.filter _ = _
    rw [hrows, List.filter_append, List.filter_eq_self.mpr, List.filter_eq_nil_iff.mpr,
      List.append_nil]
    · intro r hr
      simp [hp r (List.mem_of_mem_filter hr)]
    · intro s hs
      obtain ⟨o, ho, rfl⟩ := List.mem_map.mp hs
      simp [hpo, hclean o ho]
  have hkeys : ((t.delete p).rows.map (overwritten rs f)).map key = (t.delete p).rows.map key := by
    rw [List.map_map]
    apply List.map_congr_left
    intro s hs
    exact key_overwritten rs f s
  apply ext_rows
  rw [rows_upsertAll _ f hnd, hdeleted, hkeys, hrows, List.map_map]
  congr 1
  apply List.map_congr_left
  intro s hs
  exact hoo s

theorem upsert_again (t : Table key) {r : α} {f : Rewrite key} (hr : f r = r)
    (hagain : ∀ s, f (f s) = f s) : (t.upsert r f).upsert r f = t.upsert r f := by
  have hmem : key r ∈ (t.upsert r f).rows.map key := by
    rw [rows_upsert]
    split_ifs with h
    · obtain ⟨s, hs, hk⟩ := List.mem_map.mp h
      rw [List.map_map]
      apply List.mem_map.mpr
      refine ⟨s, hs, ?_⟩
      rw [Function.comp_apply, if_pos hk, f.keeps, hk]
    · simp
  apply ext_rows
  rw [rows_upsert, if_pos hmem]
  conv_rhs => rw [← List.map_id (t.upsert r f).rows]
  apply List.map_congr_left
  intro s hs
  by_cases hk : key s = key r
  · rw [if_pos hk, id_eq]
    rcases mem_upsert.mp hs with ⟨-, hne⟩ | ⟨o, -, -, rfl⟩ | ⟨-, rfl⟩
    · exact absurd hk hne
    · exact hagain o
    · exact hr
  · rw [if_neg hk, id_eq]

omit [DecidableEq κ] in
theorem delete_again (t : Table key) (p : α → Bool) : (t.delete p).delete p = t.delete p := by
  apply ext_rows
  change (t.rows.filter _).filter _ = t.rows.filter _
  rw [List.filter_filter]
  simp

theorem rows_putAll (t : Table key) (rs : List α) : (t.putAll rs).rows =
    (t.rows.filter fun s => key s ∉ rs.map key) ++ ((empty : Table key).putAll rs).rows := by
  induction rs using List.reverseRecOn with
  | nil => simp [putAll, empty]
  | append_singleton rs r ih =>
      have hput : ∀ t : Table key, (t.putAll (rs ++ [r])).rows =
          ((t.putAll rs).rows.filter fun s => key s ≠ key r) ++ [r] := by
        intro t
        rw [putAll, List.foldl_append]
        rfl
      rw [hput, hput, ih, List.filter_append, List.filter_filter, List.append_assoc]
      congr 1
      apply List.filter_congr
      intro s hs
      have hmem : key s ∈ (rs ++ [r]).map key ↔ key s ∈ rs.map key ∨ key s = key r := by
        rw [List.map_append, List.mem_append, List.map_singleton, List.mem_singleton]
      rw [Bool.eq_iff_iff, Bool.and_eq_true, decide_eq_true_eq, decide_eq_true_eq,
        decide_eq_true_eq, hmem, not_or, and_comm]

/-- Putting rows a second time changes nothing. -/
theorem putAll_again (t : Table key) (rs : List α) : (t.putAll rs).putAll rs = t.putAll rs := by
  apply ext_rows
  rw [rows_putAll (t.putAll rs)]
  conv_rhs => rw [rows_putAll]
  congr 1
  have hput : ((empty : Table key).putAll rs).rows.filter (fun s => key s ∉ rs.map key) = [] := by
    apply List.filter_eq_nil_iff.mpr
    intro s hs
    rcases mem_of_putAll hs with hmem | ⟨hmem, -⟩
    · simpa using ⟨s, hmem, rfl⟩
    · exact absurd hmem (notMem_empty s)
  rw [rows_putAll, List.filter_append, List.filter_filter, hput, List.append_nil]
  simp

end Again
end Table
end Relational
