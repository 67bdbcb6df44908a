import Ally.OrderedDict
import Mathlib.Data.List.Sort

/-!
# Grouping by a key

Values collected under their keys in a dictionary of lists. However its entries are arranged
afterwards, the lists hold every value once and in the order in which it came.
-/

namespace Grouping

open OrderedDict
open scoped List

variable {κ α : Type*}

/-- The entries one by one. -/
def flatten (groups : List (κ × List α)) : List (κ × α) :=
  groups.flatMap fun e => e.2.map (e.1, ·)

@[simp] theorem flatten_nil : flatten ([] : List (κ × List α)) = [] := rfl

@[simp] theorem flatten_append (groups groups' : List (κ × List α)) :
    flatten (groups ++ groups') = flatten groups ++ flatten groups' :=
  List.flatMap_append

@[simp] theorem flatten_singleton (key : κ) (values : List α) :
    flatten [(key, values)] = values.map (key, ·) := by
  simp [flatten]

theorem mem_keys_of_mem_flatten {groups : List (κ × List α)} {e : κ × α}
    (h : e ∈ flatten groups) : e.1 ∈ keys groups := by
  obtain ⟨g, hg, he⟩ := List.mem_flatMap.mp h
  obtain ⟨value, -, rfl⟩ := List.mem_map.mp he
  exact mem_keys_of_mem hg

theorem filter_flatten (p : α → Bool) (groups : List (κ × List α)) :
    (flatten groups).filter (fun e => p e.2) =
      flatten (groups.map fun g => (g.1, g.2.filter p)) := by
  induction groups with
  | nil => rfl
  | cons g groups ih =>
      rw [List.map_cons, ← List.singleton_append, ← List.singleton_append (l := groups.map _),
        flatten_append, flatten_append, List.filter_append, ih]
      simp [flatten, List.filter_map, Function.comp_def]

variable [DecidableEq κ]

/-- `d.setdefault(key, []).append(value)`. -/
def push (key : κ) (value : α) (d : OrderedDict κ (List α)) : OrderedDict κ (List α) :=
  d.set key ((d.get? key).getD [] ++ [value])

/-- The values of a key in their order. -/
def valuesOf (key : κ) (entries : List (κ × α)) : List α :=
  (entries.filter (·.1 = key)).map Prod.snd

section Values

variable {key k : κ} {value : α} {entries : List (κ × α)}

theorem valuesOf_concat_self :
    valuesOf key (entries ++ [(key, value)]) = valuesOf key entries ++ [value] := by
  simp [valuesOf]

theorem valuesOf_concat_of_ne (h : k ≠ key) :
    valuesOf k (entries ++ [(key, value)]) = valuesOf k entries := by
  simp [valuesOf, h.symm]

theorem valuesOf_eq_nil (h : ∀ e ∈ entries, e.1 ≠ key) : valuesOf key entries = [] := by
  rw [valuesOf, List.filter_eq_nil_iff.mpr (by simpa using h), List.map_nil]

theorem filter_valuesOf (p : α → Bool) :
    (valuesOf key entries).filter p = valuesOf key (entries.filter fun e => p e.2) := by
  simp only [valuesOf, List.filter_map, List.filter_filter, Function.comp_def, Bool.and_comm]

end Values

/-- The dictionary holds the values of each key in their order, and every entry once. -/
structure Groups (entries : List (κ × α)) (d : List (κ × List α)) : Prop where
  nodup : (keys d).Nodup
  values : ∀ key values, (key, values) ∈ d → values ≠ [] ∧ values = valuesOf key entries
  perm : (flatten d).Perm entries

variable {entries : List (κ × α)} {d d' : OrderedDict κ (List α)}

theorem groups_nil : Groups ([] : List (κ × α)) [] where
  nodup := List.nodup_nil
  values _ _ h := nomatch h
  perm := .refl _

/-- The groups may be rearranged. -/
theorem Groups.of_perm (h : Groups entries d) (hd : d'.Perm d) : Groups entries d' where
  nodup := (hd.map Prod.fst).nodup_iff.mpr h.nodup
  values key values hmem := h.values key values (hd.subset hmem)
  perm := (hd.flatMap_right _).trans h.perm

theorem push_of_mem {key : κ} {value : α} {values : List α} (hd : d.keys.Nodup)
    (h : (key, values) ∈ d) : push key value d = d.modify key fun _ => values ++ [value] := by
  rw [push, get?_of_mem hd h]
  exact if_pos (mem_keys_of_mem h)

theorem push_of_notMem {key : κ} {value : α} (h : key ∉ d.keys) :
    push key value d = d ++ [(key, [value])] := by
  rw [push, get?_of_notMem h]
  exact set_of_notMem h

theorem Groups.push_mem (h : Groups entries d) {key : κ} {values : List α}
    (hmem : (key, values) ∈ d) (value : α) :
    Groups (entries ++ [(key, value)]) (d.modify key fun _ => values ++ [value]) := by
  refine ⟨by simpa using h.nodup, fun k vs hk => ?_, ?_⟩
  · rcases mem_modify.mp hk with ⟨hk, hne⟩ | ⟨_, _, heq⟩
    · rw [valuesOf_concat_of_ne hne]
      exact h.values k vs hk
    · obtain ⟨rfl, rfl⟩ := Prod.mk.inj heq
      rw [valuesOf_concat_self, ← (h.values _ values hmem).2]
      exact ⟨by simp, rfl⟩
  · have hnew := (perm_modify (f := fun _ => values ++ [value]) h.nodup hmem).flatMap_right
      fun e : κ × List α => e.2.map (e.1, ·)
    have hold := (perm_delete h.nodup hmem).flatMap_right fun e : κ × List α => e.2.map (e.1, ·)
    calc flatten (d.modify key fun _ => values ++ [value])
        _ ~ flatten (d.delete key ++ [(key, values ++ [value])]) := hnew
        _ = flatten (d.delete key ++ [(key, values)]) ++ [(key, value)] := by simp
        _ ~ flatten d ++ [(key, value)] := hold.symm.append_right _
        _ ~ entries ++ [(key, value)] := h.perm.append_right _

theorem Groups.push_new (h : Groups entries d) {key : κ} (hkey : key ∉ d.keys) (value : α) :
    Groups (entries ++ [(key, value)]) (d ++ [(key, [value])]) := by
  have hnone : valuesOf key entries = [] := by
    apply valuesOf_eq_nil
    rintro e he rfl
    exact hkey (mem_keys_of_mem_flatten (h.perm.symm.subset he))
  refine ⟨?_, fun k vs hk => ?_, ?_⟩
  · rw [← set_of_notMem hkey]
    exact nodup_keys_set h.nodup
  · rcases List.mem_append.mp hk with hk | hk
    · have hne : k ≠ key := fun heq => hkey (heq ▸ mem_keys_of_mem hk)
      rw [valuesOf_concat_of_ne hne]
      exact h.values k vs hk
    · obtain ⟨rfl, rfl⟩ := Prod.mk.inj (List.mem_singleton.mp hk)
      rw [valuesOf_concat_self, hnone]
      exact ⟨List.cons_ne_nil _ _, rfl⟩
  · rw [flatten_append, flatten_singleton]
    exact h.perm.append_right _

theorem Groups.push (h : Groups entries d) (key : κ) (value : α) :
    Groups (entries ++ [(key, value)]) (push key value d) := by
  by_cases hkey : key ∈ d.keys
  · obtain ⟨values, hmem⟩ := mem_keys.mp hkey
    rw [push_of_mem h.nodup hmem]
    exact h.push_mem hmem value
  · rw [push_of_notMem hkey]
    exact h.push_new hkey value

theorem Groups.foldl_push (h : Groups entries d) (new : List (κ × α)) :
    Groups (entries ++ new) (new.foldl (fun d e => Grouping.push e.1 e.2 d) d) := by
  induction new generalizing entries d with
  | nil => simpa using h
  | cons e new ih => simpa using ih (h.push e.1 e.2)

/-! ### Groups in the order of their keys -/

theorem ascending_sort {κ : Type*} [LinearOrder κ] {d : OrderedDict κ (List α)}
    (hd : d.keys.Nodup) :
    (keys (d.insertionSort fun a b => a.1 ≤ b.1)).Pairwise (· < ·) := by
  have : Std.Total fun a b : κ × List α => a.1 ≤ b.1 := ⟨fun a b => le_total a.1 b.1⟩
  have : IsTrans (κ × List α) fun a b => a.1 ≤ b.1 := ⟨fun _ _ _ h h' => h.trans h'⟩
  have hsorted := List.pairwise_insertionSort (fun a b : κ × List α => a.1 ≤ b.1) d
  have hperm := List.perm_insertionSort (fun a b : κ × List α => a.1 ≤ b.1) d
  have hnodup : (keys (d.insertionSort fun a b => a.1 ≤ b.1)).Nodup :=
    (hperm.map Prod.fst).nodup_iff.mpr hd
  exact List.pairwise_map.mpr (hsorted.imp₂ (fun _ _ hle hne => lt_of_le_of_ne hle hne)
    (List.pairwise_map.mp hnodup))

end Grouping
