import Ally.Bridge

/-!
# The pending tables of the bridge

`Wf` relates the registry, the connections, their pending entries and the calls
in flight. Each small update of the state keeps it under the condition stated
beside it; the events are built from these updates.
-/

namespace Ally.PCAgentBridge

variable {cfg : Config} {b b' : Bridge}

/-! ### Dictionaries -/

theorem Dict.lookup_insert {β : Type} (d : Dict β) (a a' : String) (v : β) :
    (d.insert a v).lookup a' = if a' = a then some v else d.lookup a' := by
  by_cases h : a' = a
  · rw [if_pos h, h, AList.lookup_insert]
  · rw [if_neg h, AList.lookup_insert_ne h]

theorem Dict.lookup_erase {β : Type} (d : Dict β) (a a' : String) :
    (d.erase a).lookup a' = if a' = a then none else d.lookup a' := by
  by_cases h : a' = a
  · rw [if_pos h, h, AList.lookup_erase]
  · rw [if_neg h, AList.lookup_erase_ne h]

theorem Dict.mem_values {β : Type} {d : Dict β} {a : String} {v : β} (h : d.lookup a = some v) :
    v ∈ d.entries.map Sigma.snd :=
  List.mem_map_of_mem (AList.mem_lookup_iff.mp h)

theorem Dict.length_erase_le {β : Type} (d : Dict β) (a : String) :
    (d.erase a).entries.length ≤ d.entries.length :=
  (List.kerase_sublist a d.entries).length_le

theorem Dict.length_insert_le {β : Type} (d : Dict β) (a : String) (v : β) :
    (d.insert a v).entries.length ≤ d.entries.length + 1 := by
  rw [AList.entries_insert, List.length_cons]
  exact Nat.succ_le_succ (d.length_erase_le a)

/-! ### The invariant -/

/-- The reception belongs to the call it would resolve. -/
structure Reception.For (p : Reception) (k : Call) : Prop where
  tenantId : p.tenantId = k.command.tenantId
  requestId : p.requestId = k.requestId
  connection : p.connection = k.connection

structure Bridge.Wf (cfg : Config) (b : Bridge) : Prop where
  registered : ∀ tenantId c, b.registry.lookup tenantId = some c →
    ∃ conn, b.connections c = some conn
  injective : ∀ tenantId tenantId' c, b.registry.lookup tenantId = some c →
    b.registry.lookup tenantId' = some c → tenantId = tenantId'
  unregistered : ∀ r, b.registering r = .ended ∨ b.connections r = none
  bounded : ∀ c conn, b.connections c = some conn →
    conn.pending.entries.length ≤ cfg.maxPendingCommands
  owned : ∀ c conn requestId i, b.connections c = some conn →
    conn.pending.lookup requestId = some i →
    ∃ k, b.calls i = .inFlight k ∧ k.requestId = requestId ∧ k.connection = c
  entered : ∀ i k, b.calls i = .inFlight k → ∃ conn, b.connections k.connection = some conn ∧
    ((b.futures i).done = false → conn.pending.lookup k.requestId = some i)
  tenant : ∀ tenantId i k, b.calls i = .inFlight k →
    b.registry.lookup tenantId = some k.connection → k.command.tenantId = tenantId
  current : ∀ i k, b.calls i = .inFlight k →
    b.registry.lookup k.command.tenantId ≠ some k.connection → (b.futures i).done = true
  issued : ∀ i k, b.calls i = .inFlight k → k.requestId ∈ b.issued
  distinct : ∀ i j k l, b.calls i = .inFlight k → b.calls j = .inFlight l →
    k.requestId = l.requestId → i = j
  awaited : ∀ h p, b.handling h = .checking p →
    (∃ k, b.calls p.call = .inFlight k ∧ p.For k) ∨
      (b.calls p.call = .ended ∧ (b.futures p.call).done = true)
  closed : b.closing = true → ∀ tenantId, b.registry.lookup tenantId = none

theorem Bridge.wf_initial : Bridge.initial.Wf cfg where
  registered _ _ h := by cases h
  injective _ _ _ h := by cases h
  unregistered _ := Or.inr rfl
  bounded _ _ h := by cases h
  owned _ _ _ _ h := by cases h
  entered _ _ h := by cases h
  tenant _ _ _ h := by cases h
  current _ _ h := by cases h
  issued _ _ h := by cases h
  distinct _ _ _ _ h := by cases h
  awaited _ _ h := by cases h
  closed h := by cases h

namespace Bridge.Wf

/-! ### Updates of the futures -/

theorem record (h : b.Wf cfg) (entry : Entry) : (b.record entry).Wf cfg :=
  ⟨h.1, h.2, h.3, h.4, h.5, h.6, h.7, h.8, h.9, h.10, h.11, h.12⟩

/-- Completing futures keeps the invariant. -/
theorem complete (h : b.Wf cfg) (f : ℕ → Future)
    (hf : ∀ i, (b.futures i).done = true → (f i).done = true) :
    ({ b with futures := f } : Bridge).Wf cfg where
  registered := h.registered
  injective := h.injective
  unregistered := h.unregistered
  bounded := h.bounded
  owned := h.owned
  entered i k hk := by
    obtain ⟨conn, hc, he⟩ := h.entered i k hk
    refine ⟨conn, hc, fun hd => he ?_⟩
    by_contra hne
    have hdone := hf i (by simpa using hne)
    rw [hd] at hdone
    cases hdone
  tenant := h.tenant
  current i k hk hr := hf i (h.current i k hk hr)
  issued := h.issued
  distinct := h.distinct
  awaited g p hg := by
    rcases h.awaited g p hg with hk | ⟨he, hd⟩
    · exact Or.inl hk
    · exact Or.inr ⟨he, hf _ hd⟩
  closed := h.closed

theorem setFuture (h : b.Wf cfg) (i : ℕ) {future : Future} (hf : future.done = true) :
    (b.setFuture i future).Wf cfg := by
  apply h.complete
  intro j hj
  by_cases he : j = i
  · rw [he, Function.update_self, hf]
  · rw [Function.update_of_ne he, hj]

theorem failPending (h : b.Wf cfg) (error : BridgeError) (cs : List ℕ) :
    (b.failPending error cs).Wf cfg := by
  apply h.complete
  intro i hi
  split_ifs
  · rfl
  · exact hi

theorem failPending_done (h : b.Wf cfg) {error : BridgeError} {cs : List ℕ} {i : ℕ} {k : Call}
    (hk : b.calls i = .inFlight k) (hc : k.connection ∈ cs) :
    ((b.failPending error cs).futures i).done = true := by
  change Future.done (if _ then _ else _) = true
  split_ifs with hd
  · rfl
  · by_contra hne
    apply hd
    obtain ⟨conn, hconn, he⟩ := h.entered i k hk
    have hpending := he (by simpa using hne)
    refine ⟨by simpa using hne, k.connection, hc, ?_⟩
    rw [pendingOf, hconn]
    exact Dict.mem_values hpending

/-! ### Updates of the coroutines -/

theorem setRegistering (h : b.Wf cfg) {r : ℕ} {state : Registering}
    (hr : state = .ended ∨ b.connections r = none) : (b.setRegistering r state).Wf cfg where
  registered := h.registered
  injective := h.injective
  unregistered s := by
    change Function.update b.registering r state s = .ended ∨ _
    by_cases he : s = r
    · rw [he, Function.update_self]
      exact hr
    · rw [Function.update_of_ne he]
      exact h.unregistered s
  bounded := h.bounded
  owned := h.owned
  entered := h.entered
  tenant := h.tenant
  current := h.current
  issued := h.issued
  distinct := h.distinct
  awaited := h.awaited
  closed := h.closed

theorem setHandling (h : b.Wf cfg) {g : ℕ} {state : Handling}
    (hg : ∀ p, state = .checking p → ∃ k, b.calls p.call = .inFlight k ∧ p.For k) :
    (b.setHandling g state).Wf cfg where
  registered := h.registered
  injective := h.injective
  unregistered := h.unregistered
  bounded := h.bounded
  owned := h.owned
  entered := h.entered
  tenant := h.tenant
  current := h.current
  issued := h.issued
  distinct := h.distinct
  awaited g' p hp := by
    change Function.update b.handling g state g' = .checking p at hp
    by_cases he : g' = g
    · rw [he, Function.update_self] at hp
      exact Or.inl (hg p hp)
    · rw [Function.update_of_ne he] at hp
      exact h.awaited g' p hp
  closed := h.closed

theorem setHandling_ended (h : b.Wf cfg) (g : ℕ) : (b.setHandling g .ended).Wf cfg :=
  h.setHandling (by rintro p ⟨⟩)

/-- A call in flight moves to another await. -/
theorem setPhase (h : b.Wf cfg) {i : ℕ} {k : Call} (hk : b.calls i = .inFlight k)
    (phase : Phase) : (b.setPhase i k phase).Wf cfg := by
  have hcall : ∀ j l, (b.setPhase i k phase).calls j = .inFlight l →
      ∃ l', b.calls j = .inFlight l' ∧ l'.command = l.command ∧ l'.requestId = l.requestId ∧
        l'.connection = l.connection := by
    intro j l hl
    change Function.update b.calls i _ j = _ at hl
    by_cases he : j = i
    · rw [he, Function.update_self] at hl
      obtain rfl := CallState.inFlight.inj hl
      exact ⟨k, he ▸ hk, rfl, rfl, rfl⟩
    · rw [Function.update_of_ne he] at hl
      exact ⟨l, hl, rfl, rfl, rfl⟩
  have hcall' : ∀ j l, b.calls j = .inFlight l →
      ∃ l', (b.setPhase i k phase).calls j = .inFlight l' ∧ l'.command = l.command ∧
        l'.requestId = l.requestId ∧ l'.connection = l.connection := by
    intro j l hl
    by_cases he : j = i
    · subst he
      rw [hk] at hl
      obtain rfl := CallState.inFlight.inj hl
      exact ⟨_, Function.update_self .., rfl, rfl, rfl⟩
    · exact ⟨l, (Function.update_of_ne he ..).trans hl, rfl, rfl, rfl⟩
  constructor
  · exact h.registered
  · exact h.injective
  · exact h.unregistered
  · exact h.bounded
  · intro c conn requestId j hc hj
    obtain ⟨l, hl, hr, hcon⟩ := h.owned c conn requestId j hc hj
    obtain ⟨l', hl', -, hr', hcon'⟩ := hcall' j l hl
    exact ⟨l', hl', hr'.trans hr, hcon'.trans hcon⟩
  · intro j l hl
    obtain ⟨l', hl', -, hr, hcon⟩ := hcall j l hl
    obtain ⟨conn, hc, he⟩ := h.entered j l' hl'
    exact ⟨conn, hcon ▸ hc, hr ▸ he⟩
  · intro tenantId j l hl hr
    obtain ⟨l', hl', hcmd, -, hcon⟩ := hcall j l hl
    rw [← hcmd]
    exact h.tenant tenantId j l' hl' (hcon ▸ hr)
  · intro j l hl hne
    obtain ⟨l', hl', hcmd, -, hcon⟩ := hcall j l hl
    exact h.current j l' hl' (by rw [hcmd, hcon]; exact hne)
  · intro j l hl
    obtain ⟨l', hl', -, hr, -⟩ := hcall j l hl
    exact hr ▸ h.issued j l' hl'
  · intro i₁ i₂ l₁ l₂ h₁ h₂ he
    obtain ⟨m₁, hm₁, -, hr₁, -⟩ := hcall i₁ l₁ h₁
    obtain ⟨m₂, hm₂, -, hr₂, -⟩ := hcall i₂ l₂ h₂
    exact h.distinct i₁ i₂ m₁ m₂ hm₁ hm₂ (hr₁.trans (he.trans hr₂.symm))
  · intro g p hp
    rcases h.awaited g p hp with ⟨l, hl, hfor⟩ | ⟨he, hd⟩
    · obtain ⟨l', hl', hcmd, hr, hcon⟩ := hcall' p.call l hl
      exact Or.inl ⟨l', hl', by rw [hfor.tenantId, hcmd], by rw [hfor.requestId, hr],
        by rw [hfor.connection, hcon]⟩
    · refine Or.inr ⟨?_, hd⟩
      have hne : p.call ≠ i := by
        intro hpi
        rw [hpi, hk] at he
        cases he
      exact (Function.update_of_ne hne ..).trans he
  · exact h.closed

/-- A call may end once its future is completed and no entry names it. -/
theorem endCall (h : b.Wf cfg) {i : ℕ}
    (hi : b.calls i = .fresh ∨ (b.futures i).done = true)
    (hnone : ∀ c conn requestId, b.connections c = some conn →
      conn.pending.lookup requestId ≠ some i) : (b.setCall i .ended).Wf cfg := by
  have hcall : ∀ j l, (b.setCall i .ended).calls j = .inFlight l → b.calls j = .inFlight l := by
    intro j l hl
    change Function.update b.calls i _ j = _ at hl
    by_cases he : j = i
    · rw [he, Function.update_self] at hl
      cases hl
    · rwa [Function.update_of_ne he] at hl
  constructor
  · exact h.registered
  · exact h.injective
  · exact h.unregistered
  · exact h.bounded
  · intro c conn requestId j hc hj
    obtain ⟨l, hl, hr⟩ := h.owned c conn requestId j hc hj
    have hne : j ≠ i := fun he => hnone c conn requestId hc (he ▸ hj)
    exact ⟨l, (Function.update_of_ne hne ..).trans hl, hr⟩
  · exact fun j l hl => h.entered j l (hcall j l hl)
  · exact fun tenantId j l hl => h.tenant tenantId j l (hcall j l hl)
  · exact fun j l hl => h.current j l (hcall j l hl)
  · exact fun j l hl => h.issued j l (hcall j l hl)
  · exact fun i₁ i₂ l₁ l₂ h₁ h₂ => h.distinct i₁ i₂ l₁ l₂ (hcall i₁ l₁ h₁) (hcall i₂ l₂ h₂)
  · intro g p hp
    by_cases hpi : p.call = i
    · refine Or.inr ⟨by rw [hpi]; exact Function.update_self .., ?_⟩
      rcases h.awaited g p hp with ⟨l, hl, -⟩ | ⟨-, hd⟩
      · rcases hi with hi | hi
        · rw [hpi, hi] at hl
          cases hl
        · rw [hpi]
          exact hi
      · exact hd
    · have hsame : (b.setCall i .ended).calls p.call = b.calls p.call :=
        Function.update_of_ne hpi ..
      rw [hsame]
      exact h.awaited g p hp
  · exact h.closed

/-! ### Updates of one connection -/

/-- A connection may drop entries of completed futures. -/
theorem modifyConnection (h : b.Wf cfg) {c : ℕ} {f : Connection → Connection}
    (hlength : ∀ conn, (f conn).pending.entries.length ≤ conn.pending.entries.length)
    (hsub : ∀ conn requestId i, (f conn).pending.lookup requestId = some i →
      conn.pending.lookup requestId = some i)
    (hkeep : ∀ conn i k, b.calls i = .inFlight k → k.connection = c →
      (b.futures i).done = false → conn.pending.lookup k.requestId = some i →
      (f conn).pending.lookup k.requestId = some i) :
    (b.modifyConnection c f).Wf cfg := by
  have hself : (b.modifyConnection c f).connections c = (b.connections c).map f :=
    Function.update_self ..
  have hother : ∀ e, e ≠ c → (b.modifyConnection c f).connections e = b.connections e :=
    fun e he => Function.update_of_ne he ..
  have hto : ∀ e conn, b.connections e = some conn →
      ∃ conn', (b.modifyConnection c f).connections e = some conn' := by
    intro e conn he
    by_cases hec : e = c
    · exact ⟨f conn, by rw [hec, hself, ← hec, he]; rfl⟩
    · exact ⟨conn, (hother e hec).trans he⟩
  have hof : ∀ e conn', (b.modifyConnection c f).connections e = some conn' →
      ∃ conn, b.connections e = some conn ∧ (conn' = conn ∨ (e = c ∧ conn' = f conn)) := by
    intro e conn' he
    by_cases hec : e = c
    · rw [hec, hself, Option.map_eq_some_iff] at he
      obtain ⟨conn, hc, rfl⟩ := he
      exact ⟨conn, hec ▸ hc, Or.inr ⟨hec, rfl⟩⟩
    · exact ⟨conn', (hother e hec).symm.trans he, Or.inl rfl⟩
  constructor
  · intro tenantId e he
    obtain ⟨conn, hc⟩ := h.registered tenantId e he
    exact hto e conn hc
  · exact h.injective
  · intro r
    rcases h.unregistered r with hr | hr
    · exact Or.inl hr
    · refine Or.inr ?_
      by_cases hrc : r = c
      · rw [hrc, hself, ← hrc, hr]
        rfl
      · rw [hother r hrc, hr]
  · intro e conn' he
    obtain ⟨conn, hc, rfl | ⟨-, rfl⟩⟩ := hof e conn' he
    · exact h.bounded e conn' hc
    · exact (hlength conn).trans (h.bounded e conn hc)
  · intro e conn' requestId i he hi
    obtain ⟨conn, hc, rfl | ⟨-, rfl⟩⟩ := hof e conn' he
    · exact h.owned e conn' requestId i hc hi
    · exact h.owned e conn requestId i hc (hsub conn requestId i hi)
  · intro i k hk
    obtain ⟨conn, hc, he⟩ := h.entered i k hk
    by_cases hkc : k.connection = c
    · refine ⟨f conn, by rw [hkc, hself, ← hkc, hc]; rfl, fun hd => ?_⟩
      exact hkeep conn i k hk hkc hd (he hd)
    · exact ⟨conn, (hother _ hkc).trans hc, he⟩
  · exact h.tenant
  · exact h.current
  · exact h.issued
  · exact h.distinct
  · exact h.awaited
  · exact h.closed

/-- Operations on the lock of a connection. -/
theorem modifyLock (h : b.Wf cfg) {c : ℕ} {f : Connection → Connection}
    (hf : ∀ conn, (f conn).pending = conn.pending) : (b.modifyConnection c f).Wf cfg := by
  apply h.modifyConnection
  · exact fun conn => le_of_eq (by rw [hf])
  · exact fun conn requestId i hi => by rwa [hf] at hi
  · exact fun conn i k _ _ _ hi => by rwa [hf]

theorem popPending (h : b.Wf cfg) {c : ℕ} {requestId : String} {f : Connection → Connection}
    (hf : ∀ conn, (f conn).pending = conn.pending.erase requestId)
    (hdone : ∀ i k, b.calls i = .inFlight k → k.requestId = requestId → k.connection = c →
      (b.futures i).done = true) : (b.modifyConnection c f).Wf cfg := by
  apply h.modifyConnection
  · intro conn
    rw [hf]
    exact Dict.length_erase_le _ _
  · intro conn requestId' i hi
    rw [hf, Dict.lookup_erase] at hi
    split_ifs at hi
    exact hi
  · intro conn i k hk hkc hd hi
    rw [hf, Dict.lookup_erase, if_neg]
    · exact hi
    · intro hr
      have hdone' := hdone i k hk hr hkc
      rw [hd] at hdone'
      cases hdone'

end Bridge.Wf

end Ally.PCAgentBridge
