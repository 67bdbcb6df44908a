import Ally.DenseCalls
import Ally.IngestRuns

/-!
# Dense visibility follows the document's pointer

A call is stale when it reaches the server after the document has moved on: its attempt
committed or read another target, or it upserts points of the version that is active by
then. When each stale call is followed by the calls of an attempt that found the last
target, the visible points at the end are those of the version the document points to.
-/

open Relational

namespace Ally.Dense

variable {ι κ : Type} [DecidableEq ι] [DecidableEq κ] (tenantId documentId : Uuid)
  (uuid5 : String → κ)

/-- The calls that make the versioned points follow a target. -/
def calls (r : Target) : List (Qdrant.Call κ) :=
  Qdrant.visibilityCalls tenantId documentId r.pointer r.deleted

def upserted : Qdrant.Call κ → List (Point κ)
  | .upsert points => points
  | _ => []

def World.target (w : World ι κ) : Target := w.db.target tenantId documentId

/-- The call came too late for the target the document had when it arrived. -/
def Entry.Stale (e : Entry κ) : Prop :=
  (∃ r ∈ e.found, ∃ c ∈ e.call, c ∈ calls tenantId documentId r ∧ r ≠ e.target) ∨
  ∃ c ∈ e.call, ∃ p ∈ upserted c, p.versionId.isSome = true ∧ p.versionId = e.target.pointer

instance (e : Entry κ) : Decidable (e.Stale tenantId documentId) :=
  inferInstanceAs (Decidable (_ ∨ _))

/-- After each stale call an attempt that found the document's last target issues
every call that makes the points follow it. -/
def World.StaleRepaired (w : World ι κ) : Prop :=
  ∀ pre e post, w.log = pre ++ e :: post → e.Stale tenantId documentId →
    ∀ c ∈ calls tenantId documentId (w.target tenantId documentId), ∃ f ∈ post,
      f.call = some c ∧ f.found = some (w.target tenantId documentId)

/-- Every attempt has ended, and some attempt of each operation succeeded. -/
structure World.Finished (w : World ι κ) : Prop where
  ended : ∀ i, w.attempt i = .idle ∨ (∃ op, w.attempt i = .done op) ∨
    ∃ op, w.attempt i = .failed op
  succeeded : ∀ i op, w.attempt i = .failed op → ∃ j, w.attempt j = .done op

/-- The versioned points of the document that `dense_search` may return are those of
the version the document points to, and none when it is deleted. -/
def World.Converged (w : World ι κ) : Prop :=
  ∀ points ∈ w.collection, ∀ p ∈ points, p.tenantId = tenantId → p.documentId = some documentId →
    (Qdrant.visible p = true ↔
      (w.target tenantId documentId).deleted = false ∧ p.versionId.isSome = true ∧
        p.versionId = (w.target tenantId documentId).pointer)

/-! ### What the calls do to the points -/

/-- A legacy cleanup touches no versioned point. -/
def IsCleanup (c : Qdrant.Call κ) : Prop :=
  ∃ filename, c = .delete ⟨[.tenantId tenantId, .filename filename, .versionEmpty], []⟩

def IsIndexing (c : Qdrant.Call κ) : Prop :=
  c = .createCollection ∨ ∃ versionId filename chunks, c = .upsert
    ((Qdrant.versionChunks uuid5 tenantId documentId versionId filename chunks).map Qdrant.point)

structure Versioned (p : Point κ) : Prop where
  tenantId : p.tenantId = tenantId
  documentId : p.documentId = some documentId
  versionId : p.versionId.isSome = true

omit [DecidableEq κ] in
theorem Versioned.setActive {tenantId documentId : Uuid} {p : Point κ} (b : Bool)
    (h : Versioned tenantId documentId p) :
    Versioned tenantId documentId (Qdrant.setActive b p) :=
  ⟨h.tenantId, h.documentId, h.versionId⟩

def AllPoints (P : Point κ → Prop) (collection : Option (Qdrant.Points κ)) : Prop :=
  ∀ points ∈ collection, ∀ p ∈ points, P p

section Points
variable {tenantId documentId uuid5} {P : Point κ → Prop} {c : Qdrant.Call κ}
  {collection : Option (Qdrant.Points κ)}

theorem allPoints_create (h : AllPoints P collection) :
    AllPoints P (Qdrant.Call.run .createCollection collection) := by
  intro points hp p hm
  obtain rfl := Option.some.inj hp
  cases collection with
  | none => exact absurd hm (Table.notMem_empty p)
  | some points => exact h points rfl p hm

theorem allPoints_upsert {ps : List (Point κ)} (hps : ∀ p ∈ ps, P p) (h : AllPoints P collection) :
    AllPoints P (Qdrant.Call.run (.upsert ps) collection) := by
  intro points hp p hm
  obtain ⟨old, hold, rfl⟩ := Option.map_eq_some_iff.mp hp
  rcases Table.mem_of_putAll hm with hm | ⟨hm, -⟩
  · exact hps p hm
  · exact h old hold p hm

theorem allPoints_setPayload {b : Bool} {f : Qdrant.Filter}
    (hset : ∀ p, P p → f.selects p = true → P (Qdrant.setActive b p)) (h : AllPoints P collection) :
    AllPoints P (Qdrant.Call.run (.setPayload b f) collection) := by
  intro points hp p hm
  obtain ⟨old, hold, rfl⟩ := Option.map_eq_some_iff.mp hp
  obtain ⟨q, hq, rfl⟩ := Table.mem_update.mp hm
  by_cases hf : f.selects q = true
  · rw [if_pos hf]
    exact hset q (h old hold q hq) hf
  · rw [if_neg hf]
    exact h old hold q hq

theorem allPoints_delete {f : Qdrant.Filter} (h : AllPoints P collection) :
    AllPoints P (Qdrant.Call.run (.delete f) collection) := by
  intro points hp p hm
  obtain ⟨old, hold, rfl⟩ := Option.map_eq_some_iff.mp hp
  exact h old hold p (Table.mem_delete.mp hm).1

omit [DecidableEq κ] in
theorem versionChunk_point {versionId : Uuid} {filename : String} {chunks : List TextChunk}
    {p : Point κ} (hp : p ∈ (Qdrant.versionChunks uuid5 tenantId documentId versionId filename
      chunks).map Qdrant.point) :
    Versioned tenantId documentId p ∧ p.versionId = some versionId ∧ p.isActive = some false := by
  obtain ⟨c, hc, rfl⟩ := List.mem_map.mp hp
  obtain ⟨i, hi, rfl⟩ := List.mem_mapIdx.mp hc
  exact ⟨⟨rfl, rfl, rfl⟩, rfl, rfl⟩

theorem allPoints_versioned_indexing (hc : IsIndexing tenantId documentId uuid5 c)
    (h : AllPoints (Versioned tenantId documentId) collection) :
    AllPoints (Versioned tenantId documentId) (c.run collection) := by
  rcases hc with rfl | ⟨versionId, filename, chunks, rfl⟩
  · exact allPoints_create h
  · exact allPoints_upsert (fun p hp => (versionChunk_point hp).1) h

omit [DecidableEq κ] in
/-- The calls of a reconciliation, one by one. -/
theorem calls_cases {r : Target} (hc : c ∈ calls tenantId documentId r) :
    (r.deleted = true ∧
      c = .delete ⟨Qdrant.documentConditions tenantId documentId, []⟩) ∨
    (r.deleted = false ∧ ∃ v, r.pointer = some v ∧ c = .setPayload true
      ⟨Qdrant.documentConditions tenantId documentId ++ [.versionId v], []⟩) ∨
    (r.deleted = false ∧ c = .setPayload false
      ⟨Qdrant.documentConditions tenantId documentId, r.pointer.toList.map .versionId⟩) := by
  unfold calls Qdrant.visibilityCalls at hc
  cases hd : r.deleted with
  | true =>
      rw [hd, if_pos rfl, List.mem_singleton] at hc
      exact Or.inl ⟨rfl, hc⟩
  | false =>
      rw [hd, if_neg Bool.false_ne_true] at hc
      cases hp : r.pointer with
      | none =>
          rw [hp] at hc
          exact Or.inr (Or.inr ⟨rfl, List.mem_singleton.mp hc⟩)
      | some v =>
          rw [hp] at hc
          rcases List.mem_cons.mp hc with hc | hc
          · exact Or.inr (Or.inl ⟨rfl, v, rfl, hc⟩)
          · exact Or.inr (Or.inr ⟨rfl, List.mem_singleton.mp hc⟩)

theorem allPoints_versioned_calls {r : Target}
    (hc : c ∈ calls tenantId documentId r ∨ IsCleanup tenantId c)
    (h : AllPoints (Versioned tenantId documentId) collection) :
    AllPoints (Versioned tenantId documentId) (c.run collection) := by
  rcases hc with hc | ⟨filename, rfl⟩
  · rcases calls_cases hc with ⟨-, rfl⟩ | ⟨-, v, -, rfl⟩ | ⟨-, rfl⟩
    · exact allPoints_delete h
    · exact allPoints_setPayload (fun p hp _ => hp.setActive true) h
    · exact allPoints_setPayload (fun p hp _ => hp.setActive false) h
  · exact allPoints_delete h

omit [DecidableEq κ] in
theorem selects_document {conditions : List Qdrant.Condition} {p : Point κ}
    (hp : Versioned tenantId documentId p) :
    Qdrant.Filter.selects ⟨Qdrant.documentConditions tenantId documentId, conditions⟩ p =
      !conditions.any (Qdrant.Condition.holds p) := by
  simp [Qdrant.Filter.selects, Qdrant.documentConditions, Qdrant.Condition.holds, hp.tenantId,
    hp.documentId]

omit [DecidableEq κ] in
theorem selects_version {v : Uuid} {p : Point κ} (hp : Versioned tenantId documentId p) :
    Qdrant.Filter.selects
      ⟨Qdrant.documentConditions tenantId documentId ++ [.versionId v], []⟩ p =
        decide (p.versionId = some v) := by
  simp [Qdrant.Filter.selects, Qdrant.documentConditions, Qdrant.Condition.holds, hp.tenantId,
    hp.documentId]

end Points

/-! ### One entry of the log -/

/-- The entries an attempt can log. -/
inductive Entry.Shape (e : Entry κ) : Prop
  | indexing (c : Qdrant.Call κ) (call : e.call = some c) (found : e.found = none)
      (kind : IsIndexing tenantId documentId uuid5 c)
  | reconciling (r : Target) (found : e.found = some r)
      (kind : ∀ c, e.call = some c → c ∈ calls tenantId documentId r ∨ IsCleanup tenantId c)

def Entry.apply (collection : Option (Qdrant.Points κ)) (e : Entry κ) :
    Option (Qdrant.Points κ) :=
  match e.call with
  | some c => c.run collection
  | none => collection

def replay (log : List (Entry κ)) : Option (Qdrant.Points κ) := log.foldl Entry.apply none

/-- A versioned point that is visible if its version is the one pointed to. -/
structure Shown (r : Target) (p : Point κ) : Prop extends Versioned tenantId documentId p where
  shown : p.versionId = r.pointer → p.isActive = some true

/-- A versioned point that is hidden if its version is not the one pointed to. -/
structure Hidden (r : Target) (p : Point κ) : Prop extends Versioned tenantId documentId p where
  hidden : p.versionId ≠ r.pointer → p.isActive ≠ some true

section Entries
variable {tenantId documentId uuid5} {e : Entry κ} {r : Target}
  {collection : Option (Qdrant.Points κ)} {log : List (Entry κ)}

theorem replay_concat : replay (log ++ [e]) = e.apply (replay log) := by
  rw [replay, List.foldl_append]
  rfl

theorem replay_cons_append {pre post : List (Entry κ)} :
    replay (pre ++ e :: post) = post.foldl Entry.apply (e.apply (replay pre)) := by
  rw [replay, List.foldl_append, List.foldl_cons]
  rfl

theorem versioned_entry (hs : e.Shape tenantId documentId uuid5)
    (h : AllPoints (Versioned tenantId documentId) collection) :
    AllPoints (Versioned tenantId documentId) (e.apply collection) := by
  rw [Entry.apply]
  cases hs with
  | indexing c call found kind =>
      rw [call]
      exact allPoints_versioned_indexing kind h
  | reconciling r' found kind =>
      cases hc : e.call with
      | none => exact h
      | some c => exact allPoints_versioned_calls (kind c hc) h

theorem versioned_replay (hs : ∀ e ∈ log, e.Shape tenantId documentId uuid5) :
    AllPoints (Versioned tenantId documentId) (replay log) := by
  induction log using List.reverseRecOn with
  | nil => exact fun _ h => nomatch h
  | append_singleton log e ih =>
      rw [replay_concat]
      apply versioned_entry (hs e (by simp))
      exact ih fun f hf => hs f (List.mem_append_left _ hf)

omit [DecidableEq κ] in
/-- What a call that is not stale has in common with the target. -/
theorem fresh_call {r' : Target} {c : Qdrant.Call κ} (ht : e.target = r)
    (hn : ¬ e.Stale tenantId documentId) (hf : e.found = some r') (hc : e.call = some c)
    (hk : c ∈ calls tenantId documentId r' ∨ IsCleanup tenantId c) :
    c ∈ calls tenantId documentId r ∨ IsCleanup tenantId c := by
  rcases hk with hk | hk
  · have hr : r' = e.target := by
      by_contra hne
      exact hn (Or.inl ⟨r', hf, c, hc, hk, hne⟩)
    rw [hr, ht] at hk
    exact Or.inl hk
  · exact Or.inr hk

theorem hidden_entry (hs : e.Shape tenantId documentId uuid5) (ht : e.target = r)
    (hn : ¬ e.Stale tenantId documentId)
    (h : AllPoints (Hidden tenantId documentId r) collection) :
    AllPoints (Hidden tenantId documentId r) (e.apply collection) := by
  rw [Entry.apply]
  cases hs with
  | indexing c call found kind =>
      rw [call]
      rcases kind with rfl | ⟨v, filename, chunks, rfl⟩
      · exact allPoints_create h
      · refine allPoints_upsert (fun p hp => ?_) h
        obtain ⟨hv, -, hactive⟩ := versionChunk_point hp
        exact ⟨hv, fun _ => by rw [hactive]; decide⟩
  | reconciling r' found kind =>
      cases hc : e.call with
      | none => exact h
      | some c =>
          rcases fresh_call ht hn found hc (kind c hc) with hk | ⟨filename, rfl⟩
          · rcases calls_cases hk with ⟨-, rfl⟩ | ⟨-, v, hv, rfl⟩ | ⟨-, rfl⟩
            · exact allPoints_delete h
            · refine allPoints_setPayload (fun p hp hsel => ⟨hp.toVersioned.setActive true, fun hne => ?_⟩) h
              rw [selects_version hp.toVersioned, decide_eq_true_eq] at hsel
              exact absurd (hsel.trans hv.symm) hne
            · refine allPoints_setPayload (fun p hp _ => ⟨hp.toVersioned.setActive false, fun _ => ?_⟩) h
              simp [Qdrant.setActive]
          · exact allPoints_delete h

theorem shown_entry (hs : e.Shape tenantId documentId uuid5) (ht : e.target = r)
    (hn : ¬ e.Stale tenantId documentId)
    (h : AllPoints (Shown tenantId documentId r) collection) :
    AllPoints (Shown tenantId documentId r) (e.apply collection) := by
  rw [Entry.apply]
  cases hs with
  | indexing c call found kind =>
      rw [call]
      rcases kind with rfl | ⟨v, filename, chunks, rfl⟩
      · exact allPoints_create h
      · refine allPoints_upsert (fun p hp => ?_) h
        obtain ⟨hv, -, -⟩ := versionChunk_point hp
        refine ⟨hv, fun hp' => absurd (Or.inr ⟨_, call, p, hp, hv.versionId, ?_⟩) hn⟩
        rw [hp', ht]
  | reconciling r' found kind =>
      cases hc : e.call with
      | none => exact h
      | some c =>
          rcases fresh_call ht hn found hc (kind c hc) with hk | ⟨filename, rfl⟩
          · rcases calls_cases hk with ⟨-, rfl⟩ | ⟨-, v, hv, rfl⟩ | ⟨-, rfl⟩
            · exact allPoints_delete h
            · exact allPoints_setPayload (fun p hp _ => ⟨hp.toVersioned.setActive true, fun _ => rfl⟩) h
            · refine allPoints_setPayload (fun p hp hsel => ⟨hp.toVersioned.setActive false, fun hp' => ?_⟩) h
              -- only points of other versions are hidden
              obtain ⟨v, hv⟩ := Option.isSome_iff_exists.mp hp.versionId
              have hpointer : r.pointer = some v := hp'.symm.trans hv
              rw [selects_document hp.toVersioned, hpointer] at hsel
              simp [Qdrant.Condition.holds, hv] at hsel
          · exact allPoints_delete h

theorem shown_established {v : Uuid} (hv : r.pointer = some v)
    (h : AllPoints (Versioned tenantId documentId) collection) :
    AllPoints (Shown tenantId documentId r) (Qdrant.Call.run (.setPayload true
      ⟨Qdrant.documentConditions tenantId documentId ++ [.versionId v], []⟩) collection) := by
  intro points hp p hm
  obtain ⟨old, hold, rfl⟩ := Option.map_eq_some_iff.mp hp
  obtain ⟨q, hq, rfl⟩ := Table.mem_update.mp hm
  have hversioned := h old hold q hq
  rw [selects_version hversioned]
  by_cases hqv : q.versionId = some v
  · rw [if_pos (decide_eq_true hqv)]
    exact ⟨hversioned.setActive true, fun _ => rfl⟩
  · rw [if_neg (by rwa [decide_eq_true_eq])]
    exact ⟨hversioned, fun hp' => absurd (hp'.trans hv) hqv⟩

theorem hidden_established
    (h : AllPoints (Versioned tenantId documentId) collection) :
    AllPoints (Hidden tenantId documentId r) (Qdrant.Call.run (.setPayload false
      ⟨Qdrant.documentConditions tenantId documentId, r.pointer.toList.map .versionId⟩)
      collection) := by
  intro points hp p hm
  obtain ⟨old, hold, rfl⟩ := Option.map_eq_some_iff.mp hp
  obtain ⟨q, hq, rfl⟩ := Table.mem_update.mp hm
  have hversioned := h old hold q hq
  rw [selects_document hversioned]
  by_cases hqv : q.versionId = r.pointer
  · split_ifs
    · exact ⟨hversioned.setActive false, fun hne => absurd hqv hne⟩
    · exact ⟨hversioned, fun hne => absurd hqv hne⟩
  · have hsel : (r.pointer.toList.map Qdrant.Condition.versionId).any
        (Qdrant.Condition.holds q) = false := by
      cases hpointer : r.pointer with
      | none => rfl
      | some v => simpa [Qdrant.Condition.holds, hpointer] using hpointer ▸ hqv
    rw [hsel, if_pos (by rfl)]
    refine ⟨hversioned.setActive false, fun _ => ?_⟩
    simp [Qdrant.setActive]

/-- A tombstone's call leaves none of the document's points. -/
theorem deleted_established {P : Point κ → Prop}
    (h : AllPoints (Versioned tenantId documentId) collection) :
    AllPoints P (Qdrant.Call.run (.delete ⟨Qdrant.documentConditions tenantId documentId, []⟩)
      collection) := by
  intro points hp p hm
  obtain ⟨old, hold, rfl⟩ := Option.map_eq_some_iff.mp hp
  obtain ⟨hm, hsel⟩ := Table.mem_delete.mp hm
  rw [selects_document (h old hold p hm)] at hsel
  simp at hsel

end Entries

/-! ### The invariant of a run -/

/-- What an operation makes the document's target. -/
def Operation.expects : Operation → Option Target
  | .activate versionId => some ⟨some versionId, false⟩
  | .tombstone _ => some ⟨none, true⟩
  | _ => none

/-- The operation of an attempt whose transaction is behind it. -/
def Attempt.begun : Attempt κ → Option Operation
  | .idle | .ready _ => none
  | .opening op _ _ | .calling op _ _ | .done op | .failed op => some op

/-- The call reached the server for an attempt that found `r`, or did not need to. -/
def Logged (log : List (Entry κ)) (r : Target) (c : Qdrant.Call κ) : Prop :=
  ∃ e ∈ log, e.found = some r ∧ (e.call = some c ∨ e.call = none)

/-- An attempt with `cs` before it has logged the calls of its target it no longer has. -/
def CallingSound (db : Db) (log : List (Entry κ)) (op : Operation) (found : Option Target)
    (cs : List (Qdrant.Call κ)) : Prop :=
  match found with
  | some r => db.Past tenantId documentId r ∧ (∀ r' ∈ op.expects, r' = r) ∧
      (∀ c ∈ calls tenantId documentId r, c ∈ cs ∨ Logged log r c) ∧
      ∀ c ∈ cs, c ∈ calls tenantId documentId r ∨ IsCleanup tenantId c
  | none => op.expects = none ∧ ∀ c ∈ cs, IsIndexing tenantId documentId uuid5 c

def Attempt.Sound (db : Db) (log : List (Entry κ)) : Attempt κ → Prop
  | .opening op found cs => CallingSound tenantId documentId uuid5 db log op (some found) cs
  | .calling op found cs => CallingSound tenantId documentId uuid5 db log op found cs
  | .done op => ∀ r ∈ op.expects, ∀ c ∈ calls tenantId documentId r, Logged log r c
  | _ => True

/-- The entries since the target became what it is, and those before. -/
structure Recent (target : Target) (log pre post : List (Entry κ)) : Prop where
  split : log = pre ++ post
  since : ∀ e ∈ post, e.target = target
  before : ∀ e ∈ pre, e.found ≠ some target
  unset : target = ⟨none, false⟩ → pre = []

structure World.Inv (w : World ι κ) : Prop where
  coherent : w.db.Coherent
  collection : w.collection = replay w.log
  shape : ∀ e ∈ w.log, e.Shape tenantId documentId uuid5
  past : ∀ e ∈ w.log, ∀ r, e.found = some r → w.db.Past tenantId documentId r
  recent : ∃ pre post, Recent (w.target tenantId documentId) w.log pre post
  missing : ∀ pre f post, w.log = pre ++ f :: post → f.call = none → replay pre = none
  sound : ∀ i, (w.attempt i).Sound tenantId documentId uuid5 w.db w.log

/-- The document's target is the initial one, or an operation that makes it so has begun. -/
def World.Started (w : World ι κ) : Prop :=
  w.target tenantId documentId = ⟨none, false⟩ ∨ ∃ i op, (w.attempt i).begun = some op ∧
    op.expects = some (w.target tenantId documentId)

section Invariant
variable {tenantId documentId uuid5} {w w' : World ι κ} {log log' : List (Entry κ)}
  {db db' : Db} {op : Operation} {found : Option Target} {cs : List (Qdrant.Call κ)}
  {t : Transaction} {i : ι}

omit [DecidableEq κ] in
theorem Logged.mono {r : Target} {c : Qdrant.Call κ} (h : Logged log r c)
    (hl : ∀ e ∈ log, e ∈ log') : Logged log' r c := by
  obtain ⟨e, he, hf, hc⟩ := h
  exact ⟨e, hl e he, hf, hc⟩

omit [DecidableEq κ] in
theorem CallingSound.mono (h : CallingSound tenantId documentId uuid5 db log op found cs)
    (hp : ∀ r, db.Past tenantId documentId r → db'.Past tenantId documentId r)
    (hl : ∀ e ∈ log, e ∈ log') : CallingSound tenantId documentId uuid5 db' log' op found cs := by
  cases found with
  | none => exact h
  | some r =>
      obtain ⟨hpast, hexp, hcalls, hkind⟩ := h
      exact ⟨hp r hpast, hexp, fun c hc => (hcalls c hc).imp_right fun hlog => hlog.mono hl, hkind⟩

omit [DecidableEq κ] in
theorem Attempt.Sound.mono {a : Attempt κ} (h : a.Sound tenantId documentId uuid5 db log)
    (hp : ∀ r, db.Past tenantId documentId r → db'.Past tenantId documentId r)
    (hl : ∀ e ∈ log, e ∈ log') : a.Sound tenantId documentId uuid5 db' log' := by
  cases a with
  | opening op found cs =>
      have hc : CallingSound tenantId documentId uuid5 db log op (some found) cs := h
      exact hc.mono hp hl
  | calling op found cs =>
      have hc : CallingSound tenantId documentId uuid5 db log op found cs := h
      exact hc.mono hp hl
  | done op => exact fun r hr c hc => (h r hr c hc).mono hl
  | _ => trivial

omit [DecidableEq κ] in
theorem CallingSound.next (h : CallingSound tenantId documentId uuid5 db log op found cs) :
    (Attempt.next op found cs).Sound tenantId documentId uuid5 db log := by
  cases cs with
  | cons c cs => exact h
  | nil =>
      intro r hr c hc
      cases found with
      | none =>
          rw [h.1] at hr
          cases hr
      | some r' =>
          obtain ⟨-, hexp, hcalls, -⟩ := h
          obtain rfl := hexp r hr
          exact (hcalls c hc).resolve_left List.not_mem_nil

omit [DecidableEq κ] in
theorem begun_next : (Attempt.next op found cs).begun = some op := by
  cases cs <;> rfl

theorem World.Inv.setAttempt (hi : w.Inv tenantId documentId uuid5) {a : Attempt κ}
    (ha : a.Sound tenantId documentId uuid5 w.db w.log) :
    (w.setAttempt i a).Inv tenantId documentId uuid5 := by
  refine ⟨hi.coherent, hi.collection, hi.shape, hi.past, hi.recent, hi.missing, fun j => ?_⟩
  by_cases hj : j = i
  · subst hj
    simpa [World.setAttempt] using ha
  · simpa [World.setAttempt, hj] using hi.sound j

omit [DecidableEq ι] in
theorem World.Inv.commit (hi : w.Inv tenantId documentId uuid5) (h : t.apply w.db = .ok db) :
    ({ w with db } : World ι κ).Inv tenantId documentId uuid5 := by
  have hpast : ∀ r, w.db.Past tenantId documentId r → db.Past tenantId documentId r :=
    fun r hr => hr.step hi.coherent h
  refine ⟨hi.coherent.apply h, hi.collection, hi.shape,
    fun e he r hr => hpast r (hi.past e he r hr), ?_, hi.missing,
    fun j => (hi.sound j).mono hpast fun e he => he⟩
  change ∃ pre post, Recent (db.target tenantId documentId) w.log pre post
  rcases Db.target_step hi.coherent h with hsame | hnew
  · rw [hsame]
    exact hi.recent
  · refine ⟨w.log, [], ⟨(List.append_nil _).symm, fun e he => (nomatch he), ?_, ?_⟩⟩
    · intro e he hf
      exact hnew _ (hi.past e he _ hf) rfl
    · intro hunset
      -- the initial target is never new
      have hinitial : w.db.Past tenantId documentId ⟨none, false⟩ :=
        ⟨nofun, nofun⟩
      exact absurd hunset.symm (hnew _ hinitial)

omit [DecidableEq ι] in
theorem World.Inv.append (hi : w.Inv tenantId documentId uuid5) {e : Entry κ}
    (hs : e.Shape tenantId documentId uuid5)
    (hp : ∀ r, e.found = some r → w.db.Past tenantId documentId r)
    (ht : e.target = w.target tenantId documentId) (hm : e.call = none → w.collection = none) :
    ({ w with collection := e.apply w.collection, log := w.log ++ [e] } : World ι κ).Inv
      tenantId documentId uuid5 := by
  refine ⟨hi.coherent, ?_, ?_, ?_, ?_, ?_, ?_⟩
  · change e.apply w.collection = replay (w.log ++ [e])
    rw [replay_concat, hi.collection]
  · intro f hf
    rcases List.mem_append.mp hf with hf | hf
    · exact hi.shape f hf
    · exact List.mem_singleton.mp hf ▸ hs
  · intro f hf r hr
    rcases List.mem_append.mp hf with hf | hf
    · exact hi.past f hf r hr
    · obtain rfl := List.mem_singleton.mp hf
      exact hp r hr
  · obtain ⟨pre, post, hsplit, hsince, hbefore, hunset⟩ := hi.recent
    refine ⟨pre, post ++ [e], ⟨?_, fun f hf => ?_, hbefore, hunset⟩⟩
    · change w.log ++ [e] = _
      rw [hsplit, List.append_assoc]
    · rcases List.mem_append.mp hf with hf | hf
      · exact hsince f hf
      · exact List.mem_singleton.mp hf ▸ ht
  · intro pre f post hsplit hcall
    rcases List.eq_nil_or_concat post with rfl | ⟨post, g, rfl⟩
    · obtain ⟨rfl, hf⟩ := List.append_inj' hsplit rfl
      obtain rfl : e = f := (List.cons.inj hf).1
      rw [← hi.collection]
      exact hm hcall
    · have hsplit' : w.log ++ [e] = (pre ++ f :: post) ++ [g] := by simpa using hsplit
      exact hi.missing pre f post (List.append_inj' hsplit' rfl).1 hcall
  · intro j
    exact (hi.sound j).mono (fun _ h => h) fun f hf => List.mem_append_left _ hf

omit [DecidableEq κ] in
theorem reconcile_sound {r : Target} {filename : String} {deleteLegacy : Bool}
    (hp : db.Past tenantId documentId r) (he : ∀ r' ∈ op.expects, r' = r) :
    CallingSound tenantId documentId uuid5 db log op (some r)
      (Qdrant.reconcileDocumentVersion tenantId documentId r.pointer filename r.deleted
        deleteLegacy) := by
  refine ⟨hp, he, fun c hc => Or.inl (List.mem_append_left _ hc), fun c hc => ?_⟩
  rcases List.mem_append.mp hc with hc | hc
  · exact Or.inl hc
  · split_ifs at hc
    · exact Or.inr ⟨filename, List.mem_singleton.mp hc⟩
    · cases hc

omit [DecidableEq κ] in
theorem indexing_sound {versionId : Uuid} {filename : String} {chunks : List TextChunk}
    (he : op.expects = none) :
    CallingSound tenantId documentId uuid5 db log op none (Qdrant.indexChunks
      (Qdrant.versionChunks uuid5 tenantId documentId versionId filename chunks)) := by
  refine ⟨he, fun c hc => ?_⟩
  unfold Qdrant.indexChunks at hc
  split_ifs at hc
  · cases hc
  · rcases List.mem_cons.mp hc with hc | hc
    · exact Or.inl hc
    · exact Or.inr ⟨versionId, filename, chunks, List.mem_singleton.mp hc⟩

theorem World.Inv.setOpening {r : Target} (hi : w.Inv tenantId documentId uuid5)
    (hs : CallingSound tenantId documentId uuid5 w.db w.log op (some r) cs) :
    (w.setAttempt i (.opening op r cs)).Inv tenantId documentId uuid5 :=
  hi.setAttempt (a := .opening op r cs) hs

theorem World.Inv.transact (hi : w.Inv tenantId documentId uuid5) :
    (w.transact tenantId documentId uuid5 i op).Inv tenantId documentId uuid5 := by
  cases op with
  | embed versionId filename chunks => exact hi.setAttempt (indexing_sound rfl).next
  | activate versionId =>
      simp only [World.transact]
      cases h : activateIngestionVersion documentId versionId tenantId w.db with
      | error e => exact hi.setAttempt (a := .failed _) trivial
      | ok db =>
          have hcommit := hi.commit (t := .activate documentId versionId tenantId) h
          refine hcommit.setOpening (reconcile_sound (r := ⟨some versionId, false⟩) ?_ ?_)
          · exact Db.target_activate h ▸ hcommit.coherent.past_target
          · exact fun r hr => (Option.some.inj hr).symm
  | tombstone reason =>
      simp only [World.transact]
      cases h : tombstoneIngestionDocument documentId tenantId reason w.db with
      | error e => exact hi.setAttempt (a := .failed _) trivial
      | ok db =>
          have hcommit := hi.commit (t := .tombstone documentId tenantId reason) h
          refine hcommit.setOpening (reconcile_sound (r := ⟨none, true⟩) ?_ ?_)
          · exact Db.target_tombstone hi.coherent h ▸ hcommit.coherent.past_target
          · exact fun r hr => (Option.some.inj hr).symm
  | reconcile =>
      simp only [World.transact]
      cases h : w.db.documents.select (Document.isRow documentId tenantId) with
      | none => exact hi.setAttempt (a := .done .reconcile) nofun
      | some d =>
          obtain ⟨hd, hid, ht⟩ := select_document.mp h
          refine hi.setOpening
            (reconcile_sound (r := ⟨d.activeVersionId, d.status = .deleted⟩) ?_ nofun)
          exact Db.target_eq hd hid ht ▸ hi.coherent.past_target

theorem World.Inv.getCollections (hi : w.Inv tenantId documentId uuid5) {r : Target}
    (ha : w.attempt i = .opening op r cs) :
    (w.getCollections tenantId documentId i op r cs).Inv tenantId documentId uuid5 := by
  have hs : CallingSound tenantId documentId uuid5 w.db w.log op (some r) cs := by
    have hsound := hi.sound i
    rwa [ha] at hsound
  unfold World.getCollections
  cases hc : w.collection with
  | some points => exact hi.setAttempt hs.next
  | none =>
      have happend := hi.append (e := ⟨none, some r, w.target tenantId documentId⟩)
        (.reconciling r rfl nofun) (fun r' hr => Option.some.inj hr ▸ hs.1) rfl fun _ => hc
      rw [Entry.apply, hc] at happend
      rw [World.setAttempt]
      refine (World.Inv.setAttempt happend (i := i) (a := .done op) ?_ :)
      intro r' hr' c _
      obtain rfl := hs.2.1 r' hr'
      exact ⟨_, List.mem_append_right _ List.mem_cons_self, rfl, Or.inr rfl⟩

theorem World.Inv.call (hi : w.Inv tenantId documentId uuid5) {c : Qdrant.Call κ}
    (ha : w.attempt i = .calling op found (c :: cs)) :
    (w.call tenantId documentId i op found c cs).Inv tenantId documentId uuid5 := by
  have hs : CallingSound tenantId documentId uuid5 w.db w.log op found (c :: cs) := by
    have hsound := hi.sound i
    rwa [ha] at hsound
  have hlogged : ∀ e ∈ w.log, e ∈ w.log ++ [⟨some c, found, w.target tenantId documentId⟩] :=
    fun e he => List.mem_append_left _ he
  cases found with
  | none =>
      have happend := hi.append (e := ⟨some c, none, w.target tenantId documentId⟩)
        (.indexing c rfl rfl (hs.2 c List.mem_cons_self)) nofun rfl nofun
      refine happend.setAttempt (CallingSound.next ?_)
      exact ⟨hs.1, fun c' hc' => hs.2 c' (List.mem_cons_of_mem c hc')⟩
  | some r =>
      obtain ⟨hpast, hexp, hcalls, hkind⟩ := hs
      have happend := hi.append (e := ⟨some c, some r, w.target tenantId documentId⟩)
        (.reconciling r rfl fun c' hc' => Option.some.inj hc' ▸ hkind c List.mem_cons_self)
        (fun r' hr => Option.some.inj hr ▸ hpast) rfl nofun
      refine happend.setAttempt (CallingSound.next ⟨hpast, hexp, fun c' hc' => ?_, ?_⟩)
      · rcases hcalls c' hc' with hmem | hlog
        · rcases List.mem_cons.mp hmem with rfl | hmem
          · exact Or.inr ⟨_, List.mem_append_right _ List.mem_cons_self, rfl, Or.inl rfl⟩
          · exact Or.inl hmem
        · exact Or.inr (hlog.mono hlogged)
      · exact fun c' hc' => hkind c' (List.mem_cons_of_mem c hc')

theorem World.Inv.step {a : Action ι} (hi : w.Inv tenantId documentId uuid5)
    (h : World.step tenantId documentId uuid5 w a = some w') :
    w'.Inv tenantId documentId uuid5 := by
  cases a with
  | start i op =>
      simp only [World.step] at h
      split at h
      · obtain rfl := Option.some.inj h
        exact hi.setAttempt trivial
      · cases h
  | transact i =>
      simp only [World.step] at h
      split at h
      · obtain rfl := Option.some.inj h
        exact hi.transact
      · cases h
  | getCollections i =>
      simp only [World.step] at h
      split at h
      next ha =>
        obtain rfl := Option.some.inj h
        exact hi.getCollections ha
      · cases h
  | call i =>
      simp only [World.step] at h
      split at h
      next ha =>
        obtain rfl := Option.some.inj h
        exact hi.call ha
      · cases h
  | fail i =>
      simp only [World.step] at h
      split at h
      · obtain rfl := Option.some.inj h
        exact hi.setAttempt trivial
      · obtain rfl := Option.some.inj h
        exact hi.setAttempt trivial
      · obtain rfl := Option.some.inj h
        exact hi.setAttempt trivial
      · cases h
  | other t =>
      simp only [World.step, World.other] at h
      split_ifs at h
      cases ht : t.apply w.db with
      | ok db =>
          rw [ht] at h
          obtain rfl := Option.some.inj h
          exact hi.commit ht
      | error e =>
          rw [ht] at h
          obtain rfl := Option.some.inj h
          exact hi

omit [DecidableEq κ] in
theorem World.Started.setAttempt {a : Attempt κ} (hs : w.Started tenantId documentId)
    (ha : ∀ op, (w.attempt i).begun = some op → a.begun = some op) :
    (w.setAttempt i a).Started tenantId documentId := by
  rcases hs with hs | ⟨j, op, hj, he⟩
  · exact Or.inl hs
  · refine Or.inr ⟨j, op, ?_, he⟩
    by_cases hji : j = i
    · subst hji
      simpa [World.setAttempt] using ha op hj
    · simpa [World.setAttempt, hji] using hj

omit [DecidableEq κ] in
/-- An attempt that has just made the document's target what it expects. -/
theorem started_of_opening {a : Attempt κ} (ha : a.begun = some op)
    (he : op.expects = some (w.target tenantId documentId)) :
    (w.setAttempt i a).Started tenantId documentId :=
  Or.inr ⟨i, op, by simpa [World.setAttempt] using ha, he⟩

theorem World.Started.transact (hi : w.Inv tenantId documentId uuid5)
    (hs : w.Started tenantId documentId) (ha : w.attempt i = .ready op) :
    (w.transact tenantId documentId uuid5 i op).Started tenantId documentId := by
  have hready : ∀ (a : Attempt κ) (op' : Operation),
      (w.attempt i).begun = some op' → a.begun = some op' := by
    intro a op' h
    rw [ha] at h
    cases h
  cases op with
  | embed versionId filename chunks => exact hs.setAttempt (hready _)
  | activate versionId =>
      simp only [World.transact]
      cases h : activateIngestionVersion documentId versionId tenantId w.db with
      | error e => exact hs.setAttempt (hready _)
      | ok db => exact started_of_opening rfl (congrArg some (Db.target_activate h).symm)
  | tombstone reason =>
      simp only [World.transact]
      cases h : tombstoneIngestionDocument documentId tenantId reason w.db with
      | error e => exact hs.setAttempt (hready _)
      | ok db => exact started_of_opening rfl (congrArg some (Db.target_tombstone hi.coherent h).symm)
  | reconcile =>
      simp only [World.transact]
      cases h : w.db.documents.select (Document.isRow documentId tenantId) with
      | none => exact hs.setAttempt (hready _)
      | some d => exact hs.setAttempt (hready _)

theorem World.Started.step {a : Action ι} (hi : w.Inv tenantId documentId uuid5)
    (hs : w.Started tenantId documentId)
    (h : World.step tenantId documentId uuid5 w a = some w') :
    w'.Started tenantId documentId := by
  cases a with
  | start i op =>
      simp only [World.step] at h
      split at h
      next ha =>
        obtain rfl := Option.some.inj h
        exact hs.setAttempt (ha ▸ nofun)
      · cases h
  | transact i =>
      simp only [World.step] at h
      split at h
      next ha =>
        obtain rfl := Option.some.inj h
        exact World.Started.transact hi hs ha
      · cases h
  | getCollections i =>
      simp only [World.step] at h
      split at h
      next op r cs ha =>
        obtain rfl := Option.some.inj h
        unfold World.getCollections
        cases hc : w.collection with
        | some points => exact hs.setAttempt (ha ▸ fun op' hop => begun_next.trans hop)
        | none =>
            have hlog : ({ w with log := w.log ++
                [⟨none, some r, w.db.target tenantId documentId⟩] } : World ι κ).Started
                  tenantId documentId := hs
            exact hlog.setAttempt (a := .done op) (ha ▸ fun op' hop => hop)
      · cases h
  | call i =>
      simp only [World.step] at h
      split at h
      next op found c cs ha =>
        obtain rfl := Option.some.inj h
        have hlog : ({ w with
            collection := c.run w.collection
            log := w.log ++ [⟨some c, found, w.db.target tenantId documentId⟩] } :
              World ι κ).Started tenantId documentId := hs
        exact hlog.setAttempt (ha ▸ fun op' hop => begun_next.trans hop)
      · cases h
  | fail i =>
      simp only [World.step] at h
      split at h
      next ha =>
        obtain rfl := Option.some.inj h
        exact hs.setAttempt (ha ▸ nofun)
      next ha =>
        obtain rfl := Option.some.inj h
        exact hs.setAttempt (ha ▸ fun op' hop => hop)
      next ha =>
        obtain rfl := Option.some.inj h
        exact hs.setAttempt (ha ▸ fun op' hop => hop)
      · cases h
  | other t =>
      simp only [World.step, World.other] at h
      split_ifs at h with hother
      cases ht : t.apply w.db with
      | ok db =>
          rw [ht] at h
          obtain rfl := Option.some.inj h
          have hsame : db.target tenantId documentId = w.target tenantId documentId :=
            Db.target_other hi.coherent ht hother.1 hother.2
          rw [World.Started, World.target, hsame]
          exact hs
      | error e =>
          rw [ht] at h
          obtain rfl := Option.some.inj h
          exact hs

omit [DecidableEq ι] in
theorem inv_initial (tenants : List Uuid) :
    (World.initial tenants : World ι κ).Inv tenantId documentId uuid5 where
  coherent := Db.coherent_initial tenants
  collection := rfl
  shape _ he := nomatch he
  past _ he := nomatch he
  recent := ⟨[], [], rfl, fun _ he => (nomatch he), fun _ he => (nomatch he), fun _ => rfl⟩
  missing pre f post h := by
    have hlen := congrArg List.length h
    simp [World.initial] at hlen
  sound _ := trivial

end Invariant

/-! ### The end of a run -/

section End
variable {tenantId documentId uuid5} {w : World ι κ}

/-- The last element of a list with a property. -/
theorem exists_last {α : Type*} {p : α → Prop} {l : List α} (h : ∃ a ∈ l, p a) :
    ∃ pre a post, l = pre ++ a :: post ∧ p a ∧ ∀ b ∈ post, ¬ p b := by
  induction l using List.reverseRecOn with
  | nil => exact absurd h (by simp)
  | append_singleton l b ih =>
      by_cases hb : p b
      · exact ⟨l, b, [], rfl, hb, fun _ hm => nomatch hm⟩
      · have hl : ∃ a ∈ l, p a := by
          obtain ⟨a, ha, hpa⟩ := h
          rcases List.mem_append.mp ha with ha | ha
          · exact ⟨a, ha, hpa⟩
          · exact absurd (List.mem_singleton.mp ha ▸ hpa) hb
        obtain ⟨pre, a, post, rfl, hpa, hpost⟩ := ih hl
        refine ⟨pre, a, post ++ [b], by simp, hpa, fun c hc => ?_⟩
        rcases List.mem_append.mp hc with hc | hc
        · exact hpost c hc
        · exact List.mem_singleton.mp hc ▸ hb

theorem allPoints_foldl {P : Point κ → Prop} {log : List (Entry κ)}
    {collection : Option (Qdrant.Points κ)}
    (hkeep : ∀ e ∈ log, ∀ collection, AllPoints P collection → AllPoints P (e.apply collection))
    (h : AllPoints P collection) : AllPoints P (log.foldl Entry.apply collection) := by
  induction log generalizing collection with
  | nil => exact h
  | cons e log ih =>
      rw [List.foldl_cons]
      apply ih fun f hf => hkeep f (List.mem_cons_of_mem e hf)
      exact hkeep e List.mem_cons_self collection h

omit [DecidableEq κ] in
/-- What comes after an entry that found the target came since the target is what it is. -/
theorem Recent.after {r : Target} {log A B pre post : List (Entry κ)} {f : Entry κ}
    (h : Recent r log A B) (hsplit : log = pre ++ f :: post) (hf : f.found = some r) :
    ∀ e ∈ post, e.target = r := by
  intro e he
  rcases List.append_eq_append_iff.mp (hsplit.symm.trans h.split) with ⟨x, hA, hx⟩ | ⟨x, -, hx⟩
  · cases x with
    | nil => exact h.since e (by rw [← List.nil_append B, ← hx]; exact List.mem_cons_of_mem f he)
    | cons g x =>
        obtain rfl : f = g := (List.cons.inj hx).1
        exact absurd hf (h.before f (by simp [hA]))
  · apply h.since
    rw [hx]
    exact List.mem_append_right _ (List.mem_cons_of_mem f he)

omit [DecidableEq ι] in
/-- What one of the target's calls establishes and no fresh entry breaks holds at the end,
once that call was made for the target. -/
theorem holds_at_end {P : Point κ → Prop} {c : Qdrant.Call κ}
    (hi : w.Inv tenantId documentId uuid5) (hrepair : w.StaleRepaired tenantId documentId)
    (hc : c ∈ calls tenantId documentId (w.target tenantId documentId))
    (hlogged : w.target tenantId documentId = ⟨none, false⟩ ∨
      Logged w.log (w.target tenantId documentId) c)
    (hest : ∀ collection, AllPoints (Versioned tenantId documentId) collection →
      AllPoints P (c.run collection))
    (hkeep : ∀ (e : Entry κ) collection, e.Shape tenantId documentId uuid5 →
      e.target = w.target tenantId documentId → ¬ e.Stale tenantId documentId →
      AllPoints P collection → AllPoints P (e.apply collection)) :
    AllPoints P w.collection := by
  obtain ⟨A, B, hrecent⟩ := hi.recent
  rw [hi.collection]
  by_cases hex : Logged w.log (w.target tenantId documentId) c
  · obtain ⟨pre, f, post, hsplit, ⟨hfound, hcall⟩, hlast⟩ := exists_last hex
    rw [hsplit, replay_cons_append]
    have hmem : ∀ e ∈ pre ++ f :: post, e ∈ w.log := fun e he => hsplit ▸ he
    have hfresh : ∀ e ∈ post, ¬ e.Stale tenantId documentId := by
      intro e he hstale
      obtain ⟨post₁, post₂, rfl⟩ := List.append_of_mem he
      obtain ⟨g, hg, hgc, hgf⟩ := hrepair (pre ++ f :: post₁) e post₂ (by simp [hsplit]) hstale c hc
      exact hlast g (by simp [hg]) ⟨hgf, Or.inl hgc⟩
    refine allPoints_foldl (fun e he collection h => ?_) ?_
    · refine hkeep e collection (hi.shape e (hmem e (by simp [he]))) ?_ (hfresh e he) h
      exact hrecent.after hsplit hfound e he
    · rcases hcall with hcall | hcall
      · rw [Entry.apply, hcall]
        exact hest _ (versioned_replay fun e he => hi.shape e (hmem e (by simp [he])))
      · -- the collection was not there yet, so there were no points
        rw [Entry.apply, hcall, hi.missing pre f post hsplit hcall]
        exact fun _ h => nomatch h
  · have hunset := hlogged.resolve_right hex
    have hA : A = [] := hrecent.unset hunset
    rw [replay]
    refine allPoints_foldl (fun e he collection h => ?_) fun _ h => nomatch h
    refine hkeep e collection (hi.shape e he) (hrecent.since e ?_) ?_ h
    · rw [hrecent.split, hA] at he
      exact he
    · intro hstale
      obtain ⟨pre, post, hsplit⟩ := List.append_of_mem he
      obtain ⟨g, hg, hgc, hgf⟩ := hrepair pre e post hsplit hstale c hc
      exact hex ⟨g, by simp [hsplit, hg], hgf, Or.inl hgc⟩

omit [DecidableEq ι] in
/-- At the end an attempt that made the document's target what it is has made all of
that target's calls. -/
theorem logged_at_end (hi : w.Inv tenantId documentId uuid5) (hs : w.Started tenantId documentId)
    (hf : w.Finished) {c : Qdrant.Call κ}
    (hc : c ∈ calls tenantId documentId (w.target tenantId documentId)) :
    w.target tenantId documentId = ⟨none, false⟩ ∨
      Logged w.log (w.target tenantId documentId) c := by
  rcases hs with hs | ⟨i, op, hbegun, hexpects⟩
  · exact Or.inl hs
  · right
    have hdone : ∃ j, w.attempt j = .done op := by
      rcases hf.ended i with hidle | ⟨op', hop⟩ | ⟨op', hop⟩
      · rw [hidle] at hbegun
        cases hbegun
      · rw [hop] at hbegun
        exact ⟨i, Option.some.inj hbegun ▸ hop⟩
      · rw [hop] at hbegun
        exact hf.succeeded i op (Option.some.inj hbegun ▸ hop)
    obtain ⟨j, hj⟩ := hdone
    have hsound := hi.sound j
    rw [hj] at hsound
    exact hsound _ hexpects c hc

omit [DecidableEq κ] in
theorem mem_calls_hide {r : Target} (hd : r.deleted = false) :
    (.setPayload false ⟨Qdrant.documentConditions tenantId documentId,
      r.pointer.toList.map .versionId⟩ : Qdrant.Call κ) ∈ calls tenantId documentId r := by
  unfold calls Qdrant.visibilityCalls
  cases hp : r.pointer <;> simp [hd]

omit [DecidableEq κ] in
theorem mem_calls_show {r : Target} (hd : r.deleted = false) {v : Uuid} (hv : r.pointer = some v) :
    (.setPayload true ⟨Qdrant.documentConditions tenantId documentId ++ [.versionId v], []⟩ :
      Qdrant.Call κ) ∈ calls tenantId documentId r := by
  unfold calls Qdrant.visibilityCalls
  simp [hd, hv]

omit [DecidableEq κ] in
theorem mem_calls_delete {r : Target} (hd : r.deleted = true) :
    (.delete ⟨Qdrant.documentConditions tenantId documentId, []⟩ : Qdrant.Call κ) ∈
      calls tenantId documentId r := by
  unfold calls Qdrant.visibilityCalls
  simp [hd]

omit [DecidableEq ι] in
theorem hidden_at_end (hi : w.Inv tenantId documentId uuid5) (hs : w.Started tenantId documentId)
    (hf : w.Finished) (hrepair : w.StaleRepaired tenantId documentId) :
    AllPoints (Hidden tenantId documentId (w.target tenantId documentId)) w.collection := by
  have hkeep : ∀ (e : Entry κ) collection, e.Shape tenantId documentId uuid5 →
      e.target = w.target tenantId documentId → ¬ e.Stale tenantId documentId →
      AllPoints (Hidden tenantId documentId (w.target tenantId documentId)) collection →
      AllPoints (Hidden tenantId documentId (w.target tenantId documentId)) (e.apply collection) :=
    fun e collection hshape ht hn h => hidden_entry hshape ht hn h
  cases hd : (w.target tenantId documentId).deleted with
  | true =>
      have hc : (.delete ⟨Qdrant.documentConditions tenantId documentId, []⟩ : Qdrant.Call κ) ∈
          calls tenantId documentId (w.target tenantId documentId) := mem_calls_delete hd
      exact holds_at_end hi hrepair hc (logged_at_end hi hs hf hc)
        (fun _ h => deleted_established h) hkeep
  | false =>
      have hc : (.setPayload false ⟨Qdrant.documentConditions tenantId documentId,
          (w.target tenantId documentId).pointer.toList.map .versionId⟩ : Qdrant.Call κ) ∈
            calls tenantId documentId (w.target tenantId documentId) := mem_calls_hide hd
      exact holds_at_end hi hrepair hc (logged_at_end hi hs hf hc)
        (fun _ h => hidden_established h) hkeep

omit [DecidableEq ι] in
theorem shown_at_end (hi : w.Inv tenantId documentId uuid5) (hs : w.Started tenantId documentId)
    (hf : w.Finished) (hrepair : w.StaleRepaired tenantId documentId)
    (hd : (w.target tenantId documentId).deleted = false) {v : Uuid}
    (hv : (w.target tenantId documentId).pointer = some v) :
    AllPoints (Shown tenantId documentId (w.target tenantId documentId)) w.collection := by
  have hc : (.setPayload true ⟨Qdrant.documentConditions tenantId documentId ++
      [.versionId v], []⟩ : Qdrant.Call κ) ∈
        calls tenantId documentId (w.target tenantId documentId) := mem_calls_show hd hv
  exact holds_at_end hi hrepair hc (logged_at_end hi hs hf hc)
    (fun _ h => shown_established hv h)
    (fun e collection hshape ht hn h => shown_entry hshape ht hn h)

end End

section Main
variable {tenantId documentId uuid5}

/-- When the attempts have ended and each stale call was followed by the calls of an
attempt that found the document's last target, visibility has converged to it. -/
theorem converged_of_stale_repaired (tenants : List Uuid) (as : List (Action ι)) (w : World ι κ)
    (h : Machine.run (World.step tenantId documentId uuid5) (.initial tenants) as = some w)
    (hf : w.Finished) (hrepair : w.StaleRepaired tenantId documentId) :
    w.Converged tenantId documentId := by
  have hstep : ∀ (w : World ι κ) (a : Action ι) (w' : World ι κ),
      w.Inv tenantId documentId uuid5 ∧ w.Started tenantId documentId →
      World.step tenantId documentId uuid5 w a = some w' →
      w'.Inv tenantId documentId uuid5 ∧ w'.Started tenantId documentId :=
    fun w a w' hi h => ⟨hi.1.step h, hi.2.step hi.1 h⟩
  obtain ⟨hi, hs⟩ := Machine.run_invariant hstep ⟨inv_initial tenants, Or.inl rfl⟩ h
  intro points hpoints p hp _ _
  have hhidden := hidden_at_end hi hs hf hrepair points hpoints p hp
  have hsome : p.versionId.isSome = true := hhidden.versionId
  have hne : p.versionId ≠ none := Option.isSome_iff_ne_none.mp hsome
  have hvisible : Qdrant.visible p = true ↔ p.isActive = some true := by
    simp [Qdrant.visible, hne]
  rw [hvisible]
  constructor
  · intro hactive
    have hpointer : p.versionId = (w.target tenantId documentId).pointer := by
      by_contra hv
      exact hhidden.hidden hv hactive
    cases hd : (w.target tenantId documentId).deleted with
    | false => exact ⟨rfl, hsome, hpointer⟩
    | true => exact absurd (hpointer.trans (hi.coherent.deleted_pointer hd)) hne
  · rintro ⟨hd, -, hpointer⟩
    obtain ⟨v, hv⟩ := Option.isSome_iff_exists.mp hsome
    have hshown := shown_at_end hi hs hf hrepair hd (hpointer.symm.trans hv) points hpoints p hp
    exact hshown.shown hpointer

end Main

def Attempt.succeeded : Attempt κ → Bool
  | .done _ => true
  | _ => false

omit [DecidableEq ι] [DecidableEq κ] in
theorem finished_of_succeeded {w : World ι κ} (h : ∀ i, (w.attempt i).succeeded = true) :
    w.Finished := by
  have hdone : ∀ i, ∃ op, w.attempt i = .done op := by
    intro i
    have hi := h i
    cases ha : w.attempt i with
    | done op => exact ⟨op, rfl⟩
    | _ =>
        rw [ha] at hi
        cases hi
  refine ⟨fun i => Or.inr (Or.inl (hdone i)), fun i op hi => ?_⟩
  obtain ⟨op', hop⟩ := hdone i
  rw [hi] at hop
  cases hop

/-- One upload whose embedding is retried, and then its activation. -/
def embeddedUpload : List (Action (Fin 3)) :=
  [.other (.register (twoUploads.registerArgs false)),
    .start 0 (.embed 3 "a.pdf" [⟨1, "first"⟩]), .transact 0, .call 0, .call 0,
    .start 1 (.embed 3 "a.pdf" [⟨1, "first"⟩]), .transact 1, .call 1, .call 1,
    .start 2 (.activate 3), .transact 2, .getCollections 2, .call 2, .call 2, .call 2]

set_option maxRecDepth 8000 in
theorem embeddedUpload_ends :
    (Machine.run (World.step 7 1 (id : String → String)) (.initial [7]) embeddedUpload).map
      (fun w => decide ((∀ i, (w.attempt i).succeeded = true) ∧ ∀ e ∈ w.log, ¬ e.Stale 7 1)) =
        some true := by decide

theorem converged_of_stale_repaired_embeddedUpload :
    ∃ w, Machine.run (World.step 7 1 (id : String → String)) (.initial [7]) embeddedUpload =
      some w ∧ w.Converged 7 1 := by
  obtain ⟨w, hw, hend⟩ := Option.map_eq_some_iff.mp embeddedUpload_ends
  obtain ⟨hdone, hfresh⟩ : (∀ i, (w.attempt i).succeeded = true) ∧ ∀ e ∈ w.log, ¬ e.Stale 7 1 :=
    of_decide_eq_true hend
  refine ⟨w, hw, converged_of_stale_repaired [7] embeddedUpload w hw
    (finished_of_succeeded hdone) fun pre e post hsplit hstale => ?_⟩
  exact absurd hstale (hfresh e (by simp [hsplit]))

/-- The same, except that the first upsert arrives when the version is active: its
attempt was timed out and its thread went on. -/
def lateUpsert : List (Action (Fin 3)) :=
  [.other (.register (twoUploads.registerArgs false)),
    .start 0 (.embed 3 "a.pdf" [⟨1, "first"⟩]), .transact 0, .call 0,
    .start 1 (.embed 3 "a.pdf" [⟨1, "first"⟩]), .transact 1, .call 1, .call 1,
    .start 2 (.activate 3), .transact 2, .getCollections 2, .call 2, .call 2, .call 2,
    .call 0]

set_option maxRecDepth 8000 in
theorem lateUpsert_hides_active_version :
    ∃ w, Machine.run (World.step 7 1 (id : String → String)) (.initial [7]) lateUpsert = some w ∧
      w.Finished ∧ ¬ w.Converged 7 1 := by
  have hcheck : (Machine.run (World.step 7 1 (id : String → String)) (.initial [7])
      lateUpsert).map (fun w => decide ((∀ i, (w.attempt i).succeeded = true) ∧
        w.target 7 1 = ⟨some 3, false⟩ ∧ ∃ points ∈ w.collection, ∃ p ∈ points.rows,
          p.tenantId = 7 ∧ p.documentId = some 1 ∧ p.versionId = some 3 ∧
            Qdrant.visible p = false)) = some true := by decide
  obtain ⟨w, hw, hend⟩ := Option.map_eq_some_iff.mp hcheck
  obtain ⟨hdone, htarget, points, hpoints, p, hp, ht, hd, hv, hhidden⟩ := of_decide_eq_true hend
  refine ⟨w, hw, finished_of_succeeded hdone, fun hconverged => ?_⟩
  have hpointed : (w.target 7 1).deleted = false ∧ p.versionId.isSome = true ∧
      p.versionId = (w.target 7 1).pointer := by
    rw [htarget, hv]
    exact ⟨rfl, rfl, rfl⟩
  have hvisible := (hconverged points hpoints p hp ht hd).mpr hpointed
  rw [hhidden] at hvisible
  cases hvisible

end Ally.Dense
