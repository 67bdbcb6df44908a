import Ally.Machine
import Ally.OrderedDict

/-!
# Leases of the Qdrant client

`QdrantStore.connection` and `QdrantStore.close`, as the sections under the condition
variable and the call of `client.close()` after the last of them.
-/

namespace Ally.QdrantLease

open OrderedDict

structure QdrantStore where
  client : Option ℕ
  active : ℤ
  closed : Bool

/-- Where in `close` a caller is. -/
inductive Closer
  | idle
  /-- In `self._condition.wait()`. -/
  | waiting
  /-- Past the lock, with `client.close()` to call. -/
  | closing (client : ℕ)
  | returned
  | interrupted
  deriving DecidableEq

def Closer.busy : Closer → Bool
  | .waiting => true
  | .closing _ => true
  | _ => false

variable {ι κ : Type}

inductive Entry (ι : Type)
  | granted (i : ι) (client : ℕ)
  | closing
  /-- `close` of this client is called. -/
  | closed (client : ℕ)
  deriving DecidableEq

def Entry.isClosed : Entry ι → Bool
  | .closed _ => true
  | _ => false

structure World (ι κ : Type) where
  store : QdrantStore
  /-- The callers in the body of `connection`, with the client they borrow. -/
  leases : OrderedDict ι ℕ
  closer : κ → Closer
  /-- The number of clients that the factory has made. -/
  created : ℕ
  log : List (Entry ι)

inductive Event (ι κ : Type)
  /-- `made` is whether the factory returns, if it is called. -/
  | connect (i : ι) (made : Bool)
  /-- The body returns or raises. -/
  | release (i : ι)
  | close (k : κ)
  /-- A waiting caller of `close` has the lock again. -/
  | wake (k : κ)
  /-- The wait is left by an exception. -/
  | interrupt (k : κ)
  | callClose (k : κ)

namespace World

def initial : World ι κ := ⟨⟨none, 0, false⟩, [], fun _ => .idle, 0, []⟩

/-- `self._client = self._new_client()`. -/
def create (w : World ι κ) : World ι κ :=
  { w with store := { w.store with client := some w.created }, created := w.created + 1 }

variable [DecidableEq ι] [DecidableEq κ]

omit [DecidableEq κ] in
def grant (i : ι) (client : ℕ) (w : World ι κ) : World ι κ :=
  { w with
    store := { w.store with active := w.store.active + 1 }
    leases := w.leases.set i client
    log := w.log ++ [.granted i client] }

omit [DecidableEq κ] in
def connection (i : ι) (made : Bool) (w : World ι κ) : World ι κ :=
  if w.store.closed then w
  else match w.store.client with
    | some client => w.grant i client
    | none => if made then w.create.grant i w.created else w

omit [DecidableEq κ] in
def release (i : ι) (w : World ι κ) : World ι κ :=
  { w with
    store := { w.store with active := w.store.active - 1 }
    leases := w.leases.delete i }

omit [DecidableEq ι]

def setCloser (k : κ) (c : Closer) (w : World ι κ) : World ι κ :=
  { w with closer := Function.update w.closer k c }

/-- `client, self._client = self._client, None`. -/
def detach (k : κ) (w : World ι κ) : World ι κ :=
  match w.store.client with
  | some client => { w with store := { w.store with client := none } }.setCloser k (.closing client)
  | none => w.setCloser k .returned

/-- `while self._active: self._condition.wait()`, and what follows it. -/
def drain (k : κ) (w : World ι κ) : World ι κ :=
  if w.store.active ≠ 0 then w.setCloser k .waiting else w.detach k

def begin (w : World ι κ) : World ι κ :=
  { w with store := { w.store with closed := true }, log := w.log ++ [.closing] }

def close (k : κ) (w : World ι κ) : World ι κ :=
  if w.store.closed then w.setCloser k .returned else w.begin.drain k

/-- `client.close()`, which may raise. -/
def callClose (k : κ) (client : ℕ) (w : World ι κ) : World ι κ :=
  ({ w with log := w.log ++ [.closed client] } : World ι κ).setCloser k .returned

end World

variable [DecidableEq ι] [DecidableEq κ]

def step (w : World ι κ) : Event ι κ → Option (World ι κ)
  | .connect i made => if i ∈ w.leases.keys then none else some (w.connection i made)
  | .release i => if i ∈ w.leases.keys then some (w.release i) else none
  | .close k => if w.closer k = .idle then some (w.close k) else none
  | .wake k => if w.closer k = .waiting then some (w.drain k) else none
  | .interrupt k => if w.closer k = .waiting then some (w.setCloser k .interrupted) else none
  | .callClose k =>
      match w.closer k with
      | .closing client => some (w.callClose k client)
      | _ => none

/-! ### The invariant -/

variable {w w' : World ι κ}

/-- How often `close` of a client was called. -/
def World.closes (w : World ι κ) : ℕ := w.log.countP Entry.isClosed

structure World.Wf (w : World ι κ) : Prop where
  nodup : w.leases.keys.Nodup
  active_eq : w.store.active = w.leases.length
  created_le : w.created ≤ 1
  unmade : w.store.closed = false → w.store.client = none → w.created = 0
  /-- A lease keeps its client in the store. -/
  held : ∀ i client, (i, client) ∈ w.leases → w.store.client = some client
  opened : w.store.closed = true ↔ Entry.closing ∈ w.log
  quiet : w.store.closed = false → ∀ k, (w.closer k).busy = false
  single : ∀ k k', (w.closer k).busy = true → (w.closer k').busy = true → k = k'
  detached : ∀ k client, w.closer k = .closing client → w.store.client = none ∧ w.closes = 0
  kept : w.store.client ≠ none ∨ w.store.closed = false → w.closes = 0
  once : w.closes ≤ 1
  shut : ∀ pre post, w.log = pre ++ .closing :: post → ∀ i client, .granted i client ∉ post

namespace World.Wf

omit [DecidableEq ι] [DecidableEq κ] in
theorem initial : (World.initial : World ι κ).Wf where
  nodup := List.nodup_nil
  active_eq := rfl
  created_le := Nat.zero_le _
  unmade _ _ := rfl
  held _ _ h := by cases h
  opened := by simp [World.initial]
  quiet _ _ := rfl
  single _ _ h := by cases h
  detached _ _ h := by cases h
  kept _ := rfl
  once := Nat.zero_le _
  shut := by simp [World.initial]

omit [DecidableEq ι] [DecidableEq κ] in
theorem leases_eq_nil (h : w.Wf) (hclient : w.store.client = none) : w.leases = [] := by
  apply List.eq_nil_iff_forall_not_mem.mpr
  rintro ⟨i, client⟩ hmem
  rw [h.held i client hmem] at hclient
  cases hclient

omit [DecidableEq ι] [DecidableEq κ] in
theorem create (h : w.Wf) (hopen : w.store.closed = false) (hnone : w.store.client = none) :
    w.create.Wf where
  nodup := h.nodup
  active_eq := h.active_eq
  created_le := by
    have hzero := h.unmade hopen hnone
    simp only [World.create]
    omega
  unmade _ hclient := by cases hclient
  held i client hmem := by
    have hnil := h.leases_eq_nil hnone
    rw [show w.create.leases = w.leases from rfl, hnil] at hmem
    cases hmem
  opened := h.opened
  quiet := h.quiet
  single := h.single
  detached k client hk := by
    have hbusy := h.quiet hopen k
    rw [show w.closer k = .closing client from hk] at hbusy
    cases hbusy
  kept _ := h.kept (.inr hopen)
  once := h.once
  shut := h.shut

omit [DecidableEq κ] in
theorem grant (h : w.Wf) {i : ι} {client : ℕ} (hi : i ∉ w.leases.keys)
    (hopen : w.store.closed = false) (hclient : w.store.client = some client) :
    (w.grant i client).Wf where
  nodup := nodup_keys_set h.nodup
  active_eq := by
    simp only [World.grant, set_of_notMem hi, List.length_append, List.length_singleton]
    rw [h.active_eq]
    rfl
  created_le := h.created_le
  unmade := h.unmade
  held j c hmem := by
    simp only [World.grant, set_of_notMem hi] at hmem
    rcases List.mem_append.mp hmem with hmem | hmem
    · exact h.held j c hmem
    · obtain ⟨-, rfl⟩ := Prod.mk.inj (List.mem_singleton.mp hmem)
      exact hclient
  opened := by simpa [World.grant] using h.opened
  quiet := h.quiet
  single := h.single
  detached k c hk := by
    have hbusy := h.quiet hopen k
    rw [show w.closer k = .closing c from hk] at hbusy
    cases hbusy
  kept hor := by simpa [World.grant, World.closes, Entry.isClosed] using h.kept hor
  once := by simpa [World.grant, World.closes, Entry.isClosed] using h.once
  shut pre post heq j c hmem := by
    have hnot : Entry.closing ∉ w.log := fun hin => by
      rw [h.opened.mpr hin] at hopen
      cases hopen
    rcases Machine.concat_split heq with ⟨-, hent, -⟩ | ⟨post', -, hlog⟩
    · cases hent
    · exact hnot (hlog ▸ by simp)

omit [DecidableEq κ] in
theorem connection (h : w.Wf) {i : ι} (hi : i ∉ w.leases.keys) (made : Bool) :
    (w.connection i made).Wf := by
  unfold World.connection
  split
  · exact h
  next hopen =>
    have hopen : w.store.closed = false := by simpa using hopen
    split
    next client hclient => exact h.grant hi hopen hclient
    next hclient =>
      split
      · exact (h.create hopen hclient).grant hi hopen rfl
      · exact h

omit [DecidableEq κ] in
theorem release (h : w.Wf) {i : ι} (hi : i ∈ w.leases.keys) : (w.release i).Wf where
  nodup := nodup_keys_filter h.nodup _
  active_eq := by
    obtain ⟨client, hmem⟩ := mem_keys.mp hi
    have hlen := (perm_delete h.nodup hmem).length_eq
    have hactive := h.active_eq
    simp only [World.release, List.length_append, List.length_singleton] at hlen ⊢
    omega
  created_le := h.created_le
  unmade := h.unmade
  held j client hmem := h.held j client (List.mem_filter.mp hmem).1
  opened := h.opened
  quiet := h.quiet
  single := h.single
  detached := h.detached
  kept := h.kept
  once := h.once
  shut := h.shut

omit [DecidableEq ι] in
theorem setCloser (h : w.Wf) {k : κ} {c : Closer}
    (hbusy : c.busy = true → w.store.closed = true ∧ ∀ k' ≠ k, (w.closer k').busy = false)
    (hclosing : ∀ client, c = .closing client → w.store.client = none ∧ w.closes = 0) :
    (w.setCloser k c).Wf where
  nodup := h.nodup
  active_eq := h.active_eq
  created_le := h.created_le
  unmade := h.unmade
  held := h.held
  opened := h.opened
  quiet hopen k' := by
    by_cases hk : k' = k
    · subst hk
      simp only [World.setCloser, Function.update_self]
      by_contra hc
      have hclosed := (hbusy (by simpa using hc)).1
      rw [show w.store.closed = false from hopen] at hclosed
      cases hclosed
    · simp only [World.setCloser, Function.update_of_ne hk]
      exact h.quiet hopen k'
  single k₁ k₂ h₁ h₂ := by
    simp only [World.setCloser] at h₁ h₂
    by_cases hk₁ : k₁ = k
    · by_cases hk₂ : k₂ = k
      · rw [hk₁, hk₂]
      · rw [hk₁, Function.update_self] at h₁
        rw [Function.update_of_ne hk₂, (hbusy h₁).2 k₂ hk₂] at h₂
        cases h₂
    · rw [Function.update_of_ne hk₁] at h₁
      by_cases hk₂ : k₂ = k
      · rw [hk₂, Function.update_self] at h₂
        rw [(hbusy h₂).2 k₁ hk₁] at h₁
        cases h₁
      · rw [Function.update_of_ne hk₂] at h₂
        exact h.single k₁ k₂ h₁ h₂
  detached k' client hk' := by
    simp only [World.setCloser] at hk'
    by_cases hk : k' = k
    · rw [hk, Function.update_self] at hk'
      exact hclosing client hk'
    · rw [Function.update_of_ne hk] at hk'
      exact h.detached k' client hk'
  kept := h.kept
  once := h.once
  shut := h.shut

omit [DecidableEq ι] in
theorem detach (h : w.Wf) {k : κ} (hclosed : w.store.closed = true)
    (hothers : ∀ k' ≠ k, (w.closer k').busy = false) (hidle : w.store.active = 0) :
    (w.detach k).Wf := by
  unfold World.detach
  split
  next client hclient =>
    have hcloses : w.closes = 0 := h.kept (.inl (by rw [hclient]; exact Option.some_ne_none _))
    have hnil : w.leases = [] := by
      have hactive := h.active_eq
      exact List.length_eq_zero_iff.mp (by omega)
    refine World.Wf.setCloser (w := { w with store := { w.store with client := none } })
      ⟨h.nodup, h.active_eq, h.created_le, ?_, ?_, h.opened, h.quiet, h.single, ?_, ?_, h.once,
        h.shut⟩ (fun _ => ⟨hclosed, hothers⟩) fun _ _ => ⟨rfl, hcloses⟩
    · intro hopen
      rw [show w.store.closed = false from hopen] at hclosed
      cases hclosed
    · intro i c hmem
      dsimp only at hmem
      rw [hnil] at hmem
      cases hmem
    · exact fun _ _ _ => ⟨rfl, hcloses⟩
    · exact fun _ => hcloses
  · exact h.setCloser (fun hbusy => by cases hbusy) fun _ heq => by cases heq

omit [DecidableEq ι] in
theorem drain (h : w.Wf) {k : κ} (hclosed : w.store.closed = true)
    (hothers : ∀ k' ≠ k, (w.closer k').busy = false) : (w.drain k).Wf := by
  unfold World.drain
  split
  · exact h.setCloser (fun _ => ⟨hclosed, hothers⟩) fun _ heq => by cases heq
  next hidle => exact h.detach hclosed hothers (by simpa using hidle)

omit [DecidableEq ι] [DecidableEq κ] in
theorem begin (h : w.Wf) (hopen : w.store.closed = false) : w.begin.Wf where
  nodup := h.nodup
  active_eq := h.active_eq
  created_le := h.created_le
  unmade hno := by cases hno
  held := h.held
  opened := by simp [World.begin]
  quiet hno := by cases hno
  single := h.single
  detached k client hk := by
    have hbusy := h.quiet hopen k
    rw [show w.closer k = .closing client from hk] at hbusy
    cases hbusy
  kept _ := by simpa [World.begin, World.closes, Entry.isClosed] using h.kept (.inr hopen)
  once := by simpa [World.begin, World.closes, Entry.isClosed] using h.once
  shut pre post heq i client hmem := by
    rcases Machine.concat_split heq with ⟨-, -, rfl⟩ | ⟨post', rfl, hlog⟩
    · cases hmem
    · rcases List.mem_append.mp hmem with hmem | hmem
      · exact h.shut pre post' hlog i client hmem
      · cases List.mem_singleton.mp hmem

omit [DecidableEq ι] in
theorem close (h : w.Wf) (k : κ) : (w.close k).Wf := by
  unfold World.close
  split
  · exact h.setCloser (fun hbusy => by cases hbusy) fun _ heq => by cases heq
  next hopen =>
    have hopen : w.store.closed = false := by simpa using hopen
    exact (h.begin hopen).drain rfl fun k' _ => h.quiet hopen k'

omit [DecidableEq ι] in
theorem callClose (h : w.Wf) {k : κ} {client : ℕ} (hk : w.closer k = .closing client) :
    (w.callClose k client).Wf := by
  obtain ⟨hclient, hcloses⟩ := h.detached k client hk
  have hclosed : w.store.closed = true := by
    by_contra hopen
    have hbusy := h.quiet (by simpa using hopen) k
    rw [hk] at hbusy
    cases hbusy
  have hone : World.closes { w with log := w.log ++ [.closed client] } = 1 := by
    have hzero : w.log.countP Entry.isClosed = 0 := hcloses
    simp [World.closes, Entry.isClosed, List.countP_append, hzero]
  have hother : ∀ k' c, k' ≠ k → w.closer k' ≠ .closing c := by
    intro k' c hne hk'
    exact hne (h.single k' k (by rw [hk']; rfl) (by rw [hk]; rfl))
  exact {
    nodup := h.nodup
    active_eq := h.active_eq
    created_le := h.created_le
    unmade := h.unmade
    held := h.held
    opened := by simpa [World.callClose, World.setCloser] using h.opened
    quiet := fun hopen => by
      rw [show w.store.closed = false from hopen] at hclosed
      cases hclosed
    single := (h.setCloser (k := k) (c := .returned) (fun hbusy => by cases hbusy)
      fun _ heq => by cases heq).single
    detached := fun k' c hk' => by
      simp only [World.callClose, World.setCloser] at hk'
      by_cases hne : k' = k
      · rw [hne, Function.update_self] at hk'
        cases hk'
      · rw [Function.update_of_ne hne] at hk'
        exact absurd hk' (hother k' c hne)
    kept := fun hor => by
      rcases hor with hne | hopen
      · exact absurd hclient hne
      · rw [show w.store.closed = false from hopen] at hclosed
        cases hclosed
    once := hone.le
    shut := fun pre post heq i c hmem => by
      rcases Machine.concat_split heq with ⟨-, -, rfl⟩ | ⟨post', rfl, hlog⟩
      · cases hmem
      · rcases List.mem_append.mp hmem with hmem | hmem
        · exact h.shut pre post' hlog i c hmem
        · cases List.mem_singleton.mp hmem }

theorem step (h : w.Wf) {event : Event ι κ} (hs : QdrantLease.step w event = some w') :
    w'.Wf := by
  have hclosed : ∀ k, (w.closer k).busy = true → w.store.closed = true := by
    intro k hbusy
    by_contra hopen
    rw [h.quiet (by simpa using hopen) k] at hbusy
    cases hbusy
  cases event with
  | connect i made =>
      simp only [QdrantLease.step] at hs
      split at hs
      · cases hs
      next hi =>
        obtain rfl := Option.some.inj hs
        exact h.connection hi made
  | release i =>
      simp only [QdrantLease.step] at hs
      split at hs
      next hi =>
        obtain rfl := Option.some.inj hs
        exact h.release hi
      · cases hs
  | close k =>
      simp only [QdrantLease.step] at hs
      split at hs
      · obtain rfl := Option.some.inj hs
        exact h.close k
      · cases hs
  | wake k =>
      simp only [QdrantLease.step] at hs
      split at hs
      next hk =>
        obtain rfl := Option.some.inj hs
        have hbusy : (w.closer k).busy = true := by rw [hk]; rfl
        refine h.drain (hclosed k hbusy) fun k' hne => ?_
        by_contra hbusy'
        exact hne (h.single k' k (by simpa using hbusy') hbusy)
      · cases hs
  | interrupt k =>
      simp only [QdrantLease.step] at hs
      split at hs
      · obtain rfl := Option.some.inj hs
        exact h.setCloser (fun hbusy => by cases hbusy) fun _ heq => by cases heq
      · cases hs
  | callClose k =>
      simp only [QdrantLease.step] at hs
      split at hs
      next client hk =>
        obtain rfl := Option.some.inj hs
        exact h.callClose hk
      · cases hs

end World.Wf

theorem run_wf {events : List (Event ι κ)}
    (h : Machine.run step (.initial : World ι κ) events = some w) : w.Wf :=
  Machine.run_invariant (fun _ _ _ hw hs => hw.step hs) .initial h

end Ally.QdrantLease
