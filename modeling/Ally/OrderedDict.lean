import Mathlib.Data.List.Nodup
import Mathlib.Data.List.TakeWhile
import Mathlib.Tactic

/-!
# Ordered dictionaries

A dictionary that remembers the order of its keys, as the list of its entries with the
oldest one first.
-/

abbrev OrderedDict (α β : Type*) := List (α × β)

namespace OrderedDict

variable {α β : Type*}

def keys (d : OrderedDict α β) : List α := d.map Prod.fst

variable {d : OrderedDict α β} {key : α}

theorem mem_keys : key ∈ d.keys ↔ ∃ value, (key, value) ∈ d := by
  simp [keys]

theorem mem_keys_of_mem {e : α × β} (h : e ∈ d) : e.1 ∈ d.keys :=
  List.mem_map_of_mem h

@[simp] theorem keys_append (d d' : OrderedDict α β) : keys (d ++ d') = d.keys ++ keys d' :=
  List.map_append

@[simp] theorem keys_singleton (key : α) (value : β) : keys [(key, value)] = [key] := rfl

theorem nodup_keys_filter (h : d.keys.Nodup) (p : α × β → Bool) : (keys (d.filter p)).Nodup :=
  h.sublist (List.filter_sublist.map Prod.fst)

variable [DecidableEq α]

/-- `d.get(key)`. -/
def get? (key : α) (d : OrderedDict α β) : Option β := d.lookup key

/-- The value of `key` is changed in place. -/
def modify (key : α) (f : β → β) (d : OrderedDict α β) : OrderedDict α β :=
  d.map fun e => if e.1 = key then (e.1, f e.2) else e

/-- `del d[key]`. -/
def delete (key : α) (d : OrderedDict α β) : OrderedDict α β :=
  d.filter fun e => e.1 ≠ key

/-- `d[key] = value`. -/
def set (key : α) (value : β) (d : OrderedDict α β) : OrderedDict α β :=
  if key ∈ d.keys then d.modify key fun _ => value else d ++ [(key, value)]

/-- `d.move_to_end(key)`. -/
def moveToEnd (key : α) (d : OrderedDict α β) : OrderedDict α β :=
  d.delete key ++ d.filter fun e => e.1 = key

variable {value : β} {f : β → β}

@[simp] theorem keys_modify : (d.modify key f).keys = d.keys := by
  simp only [keys, modify, List.map_map]
  apply List.map_congr_left
  intro e he
  by_cases h : e.1 = key <;> simp [h]

@[simp] theorem length_modify : (d.modify key f).length = d.length := by
  simp [modify]

@[simp] theorem mem_keys_delete {k : α} : k ∈ (d.delete key).keys ↔ k ∈ d.keys ∧ k ≠ key := by
  simp only [mem_keys, delete, List.mem_filter, decide_eq_true_eq]
  constructor
  · rintro ⟨value, hmem, hne⟩
    exact ⟨⟨value, hmem⟩, hne⟩
  · rintro ⟨⟨value, hmem⟩, hne⟩
    exact ⟨value, hmem, hne⟩

theorem delete_of_notMem (h : key ∉ d.keys) : d.delete key = d := by
  apply List.filter_eq_self.mpr
  intro e he
  have hne : e.1 ≠ key := fun heq => h (heq ▸ mem_keys_of_mem he)
  simp [hne]

theorem set_of_notMem (h : key ∉ d.keys) : d.set key value = d ++ [(key, value)] :=
  if_neg h

theorem nodup_keys_set (hd : d.keys.Nodup) : (d.set key value).keys.Nodup := by
  unfold set
  split
  · simpa using hd
  next h =>
    rw [keys_append, keys_singleton, List.nodup_append]
    refine ⟨hd, List.nodup_singleton key, fun a ha b hb heq => ?_⟩
    rw [List.mem_singleton.mp hb] at heq
    exact h (heq ▸ ha)

theorem modify_of_notMem (h : key ∉ d.keys) : d.modify key f = d := by
  have hid : d.modify key f = d.map id := by
    apply List.map_congr_left
    intro e he
    have hne : e.1 ≠ key := fun heq => h (heq ▸ mem_keys_of_mem he)
    simp [hne]
  rw [hid, List.map_id]

theorem get?_of_notMem (h : key ∉ d.keys) : d.get? key = none := by
  rw [get?, List.lookup_eq_none_iff]
  intro e he
  have hne : key ≠ e.1 := fun heq => h (heq ▸ mem_keys_of_mem he)
  simpa using hne

theorem get?_of_mem (hd : d.keys.Nodup) (h : (key, value) ∈ d) : d.get? key = some value := by
  induction d with
  | nil => cases h
  | cons e d ih =>
      obtain ⟨k, v⟩ := e
      obtain ⟨hk, hd⟩ := List.nodup_cons.mp hd
      rw [get?, List.lookup_cons]
      rcases List.mem_cons.mp h with heq | hmem
      · obtain ⟨rfl, rfl⟩ := Prod.mk.inj heq
        simp
      · have hne : (key == k) = false :=
          beq_false_of_ne fun heq => hk (mem_keys.mpr ⟨value, heq ▸ hmem⟩)
        rw [hne]
        exact ih hd hmem

theorem mem_of_get? (h : d.get? key = some value) : (key, value) ∈ d := by
  obtain ⟨l, r, rfl, -⟩ := List.lookup_eq_some_iff.mp h
  simp

theorem eq_of_mem {value' : β} (hd : d.keys.Nodup) (h : (key, value) ∈ d)
    (h' : (key, value') ∈ d) : value = value' := by
  have hsome := get?_of_mem hd h
  rw [get?_of_mem hd h'] at hsome
  exact (Option.some.inj hsome).symm

theorem mem_modify {e : α × β} : e ∈ d.modify key f ↔
    (e ∈ d ∧ e.1 ≠ key) ∨ ∃ value, (key, value) ∈ d ∧ e = (key, f value) := by
  simp only [modify, List.mem_map]
  constructor
  · rintro ⟨⟨k, v⟩, hmem, rfl⟩
    by_cases h : k = key
    · subst h
      exact .inr ⟨v, hmem, by simp⟩
    · exact .inl (by simpa [h] using hmem)
  · rintro (⟨hmem, hne⟩ | ⟨value, hmem, rfl⟩)
    · exact ⟨e, hmem, if_neg hne⟩
    · exact ⟨(key, value), hmem, if_pos rfl⟩

theorem get?_modify (hd : d.keys.Nodup) (h : (key, value) ∈ d) :
    (d.modify key f).get? key = some (f value) :=
  get?_of_mem (by simpa using hd) (mem_modify.mpr (.inr ⟨value, h, rfl⟩))

theorem get?_modify_of_ne {k : α} (h : k ≠ key) : (d.modify key f).get? k = d.get? k := by
  induction d with
  | nil => rfl
  | cons e d ih =>
      obtain ⟨k', value⟩ := e
      by_cases hk' : k' = key
      · have hne : (k == key) = false := beq_false_of_ne h
        simpa [get?, modify, hk', List.lookup_cons, hne] using ih
      · simp only [get?, modify, List.map_cons, if_neg hk', List.lookup_cons]
        cases k == k' with
        | true => rfl
        | false => exact ih

theorem get?_append_of_notMem {k : α} (h : k ∉ d.keys) (d' : OrderedDict α β) :
    get? k (d ++ d') = d'.get? k := by
  rw [get?, List.lookup_append, show d.lookup k = none from get?_of_notMem h]
  rfl

/-- The last value that was set wins. -/
theorem get?_set (hd : d.keys.Nodup) (k : α) :
    (d.set key value).get? k = if k = key then some value else d.get? k := by
  unfold set
  by_cases hmem : key ∈ d.keys
  · rw [if_pos hmem]
    by_cases hk : k = key
    · obtain ⟨old, hold⟩ := mem_keys.mp hmem
      rw [if_pos hk, hk, get?_modify hd hold]
    · rw [if_neg hk, get?_modify_of_ne hk]
  · rw [if_neg hmem]
    by_cases hk : k = key
    · rw [if_pos hk, hk, get?_append_of_notMem hmem]
      simp [get?]
    · rw [if_neg hk, get?, List.lookup_append]
      have hk' : (k == key) = false := beq_false_of_ne hk
      simp [get?, List.lookup_cons, hk']

theorem modify_modify (g : β → β) : (d.modify key f).modify key g = d.modify key (g ∘ f) := by
  simp only [modify, List.map_map]
  apply List.map_congr_left
  intro e he
  by_cases h : e.1 = key <;> simp [h]

theorem delete_modify : (d.modify key f).delete key = d.delete key := by
  induction d with
  | nil => rfl
  | cons e d ih =>
      by_cases h : e.1 = key
      · simpa [modify, delete, h] using ih
      · simpa [modify, delete, h] using ih

theorem filter_eq_singleton (hd : d.keys.Nodup) (h : (key, value) ∈ d) :
    (d.filter fun e => e.1 = key) = [(key, value)] := by
  induction d with
  | nil => cases h
  | cons e d ih =>
      obtain ⟨k, v⟩ := e
      obtain ⟨hk, hd⟩ := List.nodup_cons.mp hd
      rcases List.mem_cons.mp h with heq | hmem
      · obtain ⟨rfl, rfl⟩ := Prod.mk.inj heq
        have hrest : (d.filter fun e => e.1 = key) = [] := by
          apply List.filter_eq_nil_iff.mpr
          intro e he
          have hne : e.1 ≠ key := fun heq => hk (mem_keys.mpr ⟨e.2, heq ▸ he⟩)
          simpa using hne
        simpa using hrest
      · have hne : k ≠ key := fun heq => hk (mem_keys.mpr ⟨value, heq ▸ hmem⟩)
        simpa [hne] using ih hd hmem

/-- Changing the value of a key and moving it to the end. -/
theorem moveToEnd_modify (hd : d.keys.Nodup) (h : (key, value) ∈ d) :
    (d.modify key f).moveToEnd key = d.delete key ++ [(key, f value)] := by
  rw [moveToEnd, delete_modify,
    filter_eq_singleton (by simpa using hd) (mem_modify.mpr (.inr ⟨value, h, rfl⟩))]

theorem perm_delete (hd : d.keys.Nodup) (h : (key, value) ∈ d) :
    d.Perm (d.delete key ++ [(key, value)]) := by
  have hsplit := List.filter_append_perm (fun e => decide (e.1 ≠ key)) d
  have hkey : (d.filter fun e => !decide (e.1 ≠ key)) = [(key, value)] := by
    rw [← filter_eq_singleton hd h]
    apply List.filter_congr
    intro e he
    simp
  rw [hkey] at hsplit
  exact hsplit.symm

theorem perm_modify (hd : d.keys.Nodup) (h : (key, value) ∈ d) :
    (d.modify key f).Perm (d.delete key ++ [(key, f value)]) := by
  have hmem : (key, f value) ∈ d.modify key f := mem_modify.mpr (.inr ⟨value, h, rfl⟩)
  have hperm := perm_delete (by simpa using hd) hmem
  rwa [delete_modify] at hperm

/-! ### A dictionary built from a list -/

/-- `d[key] = value` for each of `l`, from the left. -/
def setAll (l : List (α × β)) : OrderedDict α β := l.foldl (fun d e => d.set e.1 e.2) []

theorem setAll_concat (l : List (α × β)) (e : α × β) :
    setAll (l ++ [e]) = (setAll l).set e.1 e.2 := by
  simp [setAll]

theorem nodup_keys_setAll (l : List (α × β)) : (setAll l).keys.Nodup := by
  induction l using List.reverseRecOn with
  | nil => exact List.nodup_nil
  | append_singleton l e ih =>
      rw [setAll_concat]
      exact nodup_keys_set ih

/-- The last occurrence of a key wins. -/
theorem get?_setAll (l : List (α × β)) (k : α) : (setAll l).get? k = l.reverse.lookup k := by
  induction l using List.reverseRecOn with
  | nil => rfl
  | append_singleton l e ih =>
      rw [setAll_concat, get?_set (nodup_keys_setAll l), List.reverse_concat, List.lookup_cons]
      by_cases hk : k = e.1
      · simp [hk]
      · have hne : (k == e.1) = false := beq_false_of_ne hk
        rw [if_neg hk, hne]
        exact ih

theorem setAll_eq_of_nodup {l : OrderedDict α β} (h : l.keys.Nodup) : setAll l = l := by
  induction l using List.reverseRecOn with
  | nil => rfl
  | append_singleton l e ih =>
      rw [keys_append] at h
      have hnotMem : e.1 ∉ keys l := fun hmem =>
        List.disjoint_of_nodup_append h hmem (List.mem_singleton_self e.1)
      have hl := ih (List.Nodup.of_append_left h)
      rw [setAll_concat, hl, set_of_notMem hnotMem]

/-- Where each entry has a weight, the dictionary weighs less than a list with a repeated key. -/
theorem setAll_eq_or_lt {weight : α × β → ℕ} (hweight : ∀ e, 0 < weight e) (l : List (α × β)) :
    setAll l = l ∨ ((setAll l).map weight).sum < (l.map weight).sum := by
  induction l using List.reverseRecOn with
  | nil => exact .inl rfl
  | append_singleton l e ih =>
      obtain ⟨key, value⟩ := e
      rw [setAll_concat]
      by_cases hmem : key ∈ (setAll l).keys
      · right
        obtain ⟨old, hold⟩ := mem_keys.mp hmem
        have hd := nodup_keys_setAll l
        have hset : (setAll l).set key value = (setAll l).modify key fun _ => value := if_pos hmem
        have hnew := ((perm_modify (f := fun _ => value) hd hold).map weight).sum_eq
        have hprev := ((perm_delete hd hold).map weight).sum_eq
        simp only [List.map_append, List.map_cons, List.map_nil, List.sum_append,
          List.sum_singleton] at hnew hprev
        have hle : ((setAll l).map weight).sum ≤ (l.map weight).sum := by
          rcases ih with heq | hlt
          · rw [heq]
          · exact hlt.le
        have hpos := hweight (key, old)
        rw [hset, hnew, List.map_append, List.sum_append]
        simp only [List.map_cons, List.map_nil, List.sum_singleton]
        omega
      · rw [set_of_notMem hmem]
        rcases ih with heq | hlt
        · exact .inl (by rw [heq])
        · right
          simp only [List.map_append, List.sum_append]
          omega

/-- Two dictionaries with the same lookups have the same entries. -/
theorem perm_of_get? {d' : OrderedDict α β} (hd : d.keys.Nodup) (hd' : d'.keys.Nodup)
    (h : ∀ k, d.get? k = d'.get? k) : d.Perm d' := by
  apply (List.perm_ext_iff_of_nodup hd.of_map hd'.of_map).mpr
  rintro ⟨k, v⟩
  constructor
  · intro hmem
    exact mem_of_get? ((h k).symm.trans (get?_of_mem hd hmem))
  · intro hmem
    exact mem_of_get? ((h k).trans (get?_of_mem hd' hmem))

/-- In a list whose front meets `p` wherever a later element does, dropping from the front
drops all that meet `p`. -/
theorem dropWhile_eq_filter {γ : Type*} {p : γ → Bool} {l : List γ}
    (h : l.Pairwise fun a b => p b = true → p a = true) :
    l.dropWhile p = l.filter fun a => !p a := by
  induction l with
  | nil => rfl
  | cons a l ih =>
      obtain ⟨ha, hl⟩ := List.pairwise_cons.mp h
      by_cases hp : p a = true
      · rw [List.dropWhile_cons_of_pos hp, List.filter_cons_of_neg (by simp [hp])]
        exact ih hl
      · rw [List.dropWhile_cons_of_neg hp]
        refine (List.filter_eq_self.mpr fun b hb => ?_).symm
        rcases List.mem_cons.mp hb with rfl | hb
        · simpa using hp
        · simpa using fun hpb => hp (ha b hb hpb)

end OrderedDict
