import Ally.Qdrant

/-!
# Calls that edit each point by itself

A `set_payload` or a `delete` treats every point without regard to the others, so a list
of such calls is one function on points, and what it does to a collection is read off
from what it does to one point.
-/

open Relational

namespace Ally
namespace Qdrant

variable {κ : Type}

def Call.isEdit : Call κ → Bool
  | .setPayload _ _ | .delete _ => true
  | .createCollection | .upsert _ => false

/-- The point after an edit, or `none` where it is deleted. -/
def Call.onPoint : Call κ → Point κ → Option (Point κ)
  | .setPayload isActive f, p => some (if f.selects p then setActive isActive p else p)
  | .delete f, p => if f.selects p then none else some p
  | .createCollection, p | .upsert _, p => some p

def editPoint (cs : List (Call κ)) (p : Point κ) : Option (Point κ) :=
  cs.foldlM (fun p c => c.onPoint p) p

@[simp] theorem editPoint_nil (p : Point κ) : editPoint [] p = some p := rfl

theorem editPoint_cons (c : Call κ) (cs : List (Call κ)) (p : Point κ) :
    editPoint (c :: cs) p = (c.onPoint p).bind (editPoint cs) := rfl

theorem editPoint_append (cs ds : List (Call κ)) (p : Point κ) :
    editPoint (cs ++ ds) p = (editPoint cs p).bind (editPoint ds) :=
  List.foldlM_append ..

section Runs

variable [DecidableEq κ]

theorem rows_apply {c : Call κ} (hc : c.isEdit = true) (points : Points κ) :
    (c.apply points).rows = points.rows.filterMap c.onPoint := by
  cases c with
  | setPayload isActive f =>
    change points.rows.map _ = points.rows.filterMap (some ∘ _)
    rw [List.filterMap_eq_map]
  | delete f =>
    change points.rows.filter _ = points.rows.filterMap _
    rw [← List.filterMap_eq_filter]
    refine List.filterMap_congr fun p _ => ?_
    by_cases hp : f.selects p = true <;> simp [Call.onPoint, Option.guard, hp]
  | createCollection => cases hc
  | upsert ps => cases hc

/-- Run lemma for edits. -/
theorem runCalls_edits {cs : List (Call κ)} (hcs : ∀ c ∈ cs, c.isEdit = true)
    (points : Points κ) : ∃ points', runCalls cs (some points) = some points' ∧
      points'.rows = points.rows.filterMap (editPoint cs) := by
  induction cs generalizing points with
  | nil => exact ⟨points, rfl, by rw [funext editPoint_nil, List.filterMap_some]⟩
  | cons c cs ih =>
    have hc : c.isEdit = true := hcs c List.mem_cons_self
    obtain ⟨points', hrun, hrows⟩ := ih (fun d hd => hcs d (List.mem_cons_of_mem c hd))
      (c.apply points)
    have hfirst : c.run (some points) = some (c.apply points) := by
      cases c with
      | createCollection => cases hc
      | _ => rfl
    refine ⟨points', ?_, ?_⟩
    · rw [runCalls, List.foldl_cons, hfirst]
      exact hrun
    · rw [hrows, rows_apply hc, List.filterMap_filterMap]
      rfl

theorem runCalls_none {cs : List (Call κ)} (hcs : ∀ c ∈ cs, c.isEdit = true) :
    runCalls cs none = none := by
  induction cs with
  | nil => rfl
  | cons c cs ih =>
    have hc : c.isEdit = true := hcs c List.mem_cons_self
    have hfirst : c.run none = none := by
      cases c with
      | createCollection => cases hc
      | _ => rfl
    rw [runCalls, List.foldl_cons, hfirst]
    exact ih fun d hd => hcs d (List.mem_cons_of_mem c hd)

theorem runCalls_append (cs ds : List (Call κ)) (collection : Option (Points κ)) :
    runCalls (cs ++ ds) collection = runCalls ds (runCalls cs collection) :=
  List.foldl_append

/-- A point of the collection after edits is an edited point of the collection before. -/
theorem mem_runCalls_edits {cs : List (Call κ)} (hcs : ∀ c ∈ cs, c.isEdit = true)
    {collection : Option (Points κ)} {p' : Point κ} :
    (∃ points ∈ runCalls cs collection, p' ∈ points) ↔
      ∃ points ∈ collection, ∃ p ∈ points, editPoint cs p = some p' := by
  cases collection with
  | none => simp [runCalls_none hcs]
  | some points =>
    obtain ⟨points', hrun, hrows⟩ := runCalls_edits hcs points
    have hmem : p' ∈ points' ↔ ∃ p ∈ points, editPoint cs p = some p' := by
      change p' ∈ points'.rows ↔ ∃ p ∈ points.rows, _
      rw [hrows, List.mem_filterMap]
    rw [hrun]
    simpa using hmem

end Runs

/-! ### Frames -/

/-- A point that no filter of the edits selects stays as it is. -/
theorem editPoint_frame {cs : List (Call κ)} {p : Point κ}
    (h : ∀ c ∈ cs, c.onPoint p = some p) : editPoint cs p = some p := by
  induction cs with
  | nil => rfl
  | cons c cs ih =>
    rw [editPoint_cons, h c List.mem_cons_self]
    exact ih fun d hd => h d (List.mem_cons_of_mem c hd)

/-- Edits change at most the flag of a point. -/
theorem onPoint_flag {c : Call κ} {p p' : Point κ} (h : c.onPoint p = some p') :
    ∃ flag, p' = { p with isActive := flag } := by
  cases c with
  | setPayload isActive f =>
    obtain rfl := Option.some.inj h
    split_ifs
    · exact ⟨some isActive, rfl⟩
    · exact ⟨p.isActive, rfl⟩
  | delete f =>
    rw [Call.onPoint] at h
    split_ifs at h
    exact ⟨p.isActive, (Option.some.inj h).symm⟩
  | createCollection => exact ⟨p.isActive, (Option.some.inj h).symm⟩
  | upsert ps => exact ⟨p.isActive, (Option.some.inj h).symm⟩

theorem editPoint_flag {cs : List (Call κ)} {p p' : Point κ} (h : editPoint cs p = some p') :
    ∃ flag, p' = { p with isActive := flag } := by
  induction cs generalizing p with
  | nil => exact ⟨p.isActive, (Option.some.inj h).symm⟩
  | cons c cs ih =>
    rw [editPoint_cons, Option.bind_eq_some_iff] at h
    obtain ⟨q, hq, h⟩ := h
    obtain ⟨_, rfl⟩ := onPoint_flag hq
    obtain ⟨flag, rfl⟩ := ih h
    exact ⟨flag, rfl⟩

@[simp] theorem selects_flag (f : Filter) (p : Point κ) (flag : Option Bool) :
    f.selects { p with isActive := flag } = f.selects p := by
  have hc : Condition.holds { p with isActive := flag } = Condition.holds p := by
    funext c
    cases c <;> rfl
  rw [Filter.selects, Filter.selects, hc]

/-! ### Edits that are made again -/

/-- No two of the edits set a point to different flags. -/
def Consistent (cs : List (Call κ)) : Prop :=
  ∀ flag flag' f f', .setPayload flag f ∈ cs → .setPayload flag' f' ∈ cs →
    ∀ p : Point κ, f.selects p = true → f'.selects p = true → flag = flag'

theorem editPoint_keeps_flag {cs : List (Call κ)} {flag : Bool} {p p' : Point κ}
    (hcs : ∀ flag' f, .setPayload flag' f ∈ cs → f.selects p = true → flag' = flag)
    (hp : p.isActive = some flag) (h : editPoint cs p = some p') : p'.isActive = some flag := by
  induction cs generalizing p with
  | nil => rwa [← Option.some.inj h]
  | cons c cs ih =>
      rw [editPoint_cons, Option.bind_eq_some_iff] at h
      obtain ⟨q, hq, h⟩ := h
      have hflag : q.isActive = some flag := by
        cases c with
        | setPayload flag' f =>
            obtain rfl := Option.some.inj hq
            split_ifs with hs
            · rw [hcs flag' f List.mem_cons_self hs]
              rfl
            · exact hp
        | delete f =>
            rw [Call.onPoint] at hq
            split_ifs at hq
            rwa [← Option.some.inj hq]
        | createCollection => rwa [← Option.some.inj hq]
        | upsert ps => rwa [← Option.some.inj hq]
      obtain ⟨flag', rfl⟩ := onPoint_flag hq
      refine ih (fun flag' f hmem hs => ?_) hflag h
      rw [selects_flag] at hs
      exact hcs flag' f (List.mem_cons_of_mem c hmem) hs

/-- After consistent edits each of them leaves the points as they are. -/
theorem onPoint_editPoint {cs : List (Call κ)} (hcs : Consistent cs) {c : Call κ} (hc : c ∈ cs)
    {p p' : Point κ} (h : editPoint cs p = some p') : c.onPoint p' = some p' := by
  induction cs generalizing p with
  | nil => cases hc
  | cons d cs ih =>
      have hrest : Consistent cs := fun flag flag' f f' hf hf' =>
        hcs flag flag' f f' (List.mem_cons_of_mem d hf) (List.mem_cons_of_mem d hf')
      rw [editPoint_cons, Option.bind_eq_some_iff] at h
      obtain ⟨q, hq, h⟩ := h
      rcases List.mem_cons.mp hc with rfl | hc
      · cases c with
        | setPayload flag f =>
            obtain rfl := Option.some.inj hq
            obtain ⟨flag', hp'⟩ := editPoint_flag h
            by_cases hs : f.selects p = true
            · rw [if_pos hs] at h hp'
              have hflag : p'.isActive = some flag := by
                refine editPoint_keeps_flag (fun flag' f' hmem hs' => ?_) rfl h
                exact hcs flag' flag f' f (List.mem_cons_of_mem _ hmem) List.mem_cons_self p
                  ((selects_flag f' p (some flag)) ▸ hs') hs
              have hself : setActive flag p' = p' := by
                change { p' with isActive := some flag } = p'
                rw [← hflag]
              rw [Call.onPoint, hself, ite_self]
            · have hs' : ¬ f.selects p' = true := by
                rw [if_neg hs] at hp'
                rw [hp', selects_flag]
                exact hs
              rw [Call.onPoint, if_neg hs']
        | delete f =>
            rw [Call.onPoint] at hq
            split_ifs at hq with hs
            obtain rfl := Option.some.inj hq
            obtain ⟨flag, rfl⟩ := editPoint_flag h
            rw [Call.onPoint, selects_flag, if_neg hs]
        | createCollection => rfl
        | upsert ps => rfl
      · exact ih hrest hc h

/-- After consistent edits each of them leaves the collection as it is. -/
theorem run_runCalls [DecidableEq κ] {cs : List (Call κ)} (hedits : ∀ c ∈ cs, c.isEdit = true)
    (hcs : Consistent cs) {c : Call κ} (hc : c ∈ cs) (collection : Option (Points κ)) :
    c.run (runCalls cs collection) = runCalls cs collection := by
  have hedit := hedits c hc
  cases collection with
  | none =>
      rw [runCalls_none hedits]
      cases c with
      | createCollection => cases hedit
      | _ => rfl
  | some points =>
      obtain ⟨points', hrun, hrows⟩ := runCalls_edits hedits points
      have happly : c.apply points' = points' := by
        apply Table.ext_rows
        rw [rows_apply hedit]
        conv_rhs => rw [← List.filterMap_some (l := points'.rows)]
        apply List.filterMap_congr
        intro p' hp'
        rw [hrows] at hp'
        obtain ⟨p, -, hp⟩ := List.mem_filterMap.mp hp'
        exact onPoint_editPoint hcs hc hp
      have hfirst : c.run (some points') = some (c.apply points') := by
        cases c with
        | createCollection => cases hedit
        | _ => rfl
      rw [hrun, hfirst, happly]

end Qdrant
end Ally
