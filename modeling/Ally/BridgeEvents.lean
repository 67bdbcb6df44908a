import Ally.BridgePending

/-!
# Every event keeps the pending tables well formed

One lemma for each event, built from the updates of the state it performs.
-/

namespace Ally.PCAgentBridge

variable {cfg : Config} {b b' : Bridge}

/-! ### What the lookups return -/

theorem connection?_some {tenantId : String} {c : ℕ} {conn : Connection} :
    b.connection? tenantId = some (c, conn) ↔
      b.registry.lookup tenantId = some c ∧ b.connections c = some conn := by
  unfold Bridge.connection?
  cases hl : b.registry.lookup tenantId with
  | none => simp
  | some e =>
      cases hc : b.connections e with
      | none =>
          simp only [Option.bind_some, Option.some.injEq, hc, Option.map_none]
          constructor
          · rintro ⟨⟩
          · rintro ⟨rfl, he⟩
            rw [hc] at he
            cases he
      | some conn' =>
          simp only [Option.bind_some, Option.some.injEq, hc, Option.map_some, Prod.mk.injEq]
          constructor
          · rintro ⟨rfl, rfl⟩
            exact ⟨rfl, hc⟩
          · rintro ⟨rfl, he⟩
            rw [hc] at he
            exact ⟨rfl, Option.some.inj he⟩

theorem suspended?_some {i : ℕ} {phase : Phase} {k : Call} {conn : Connection} :
    b.suspended? i phase = some (k, conn) ↔
      b.calls i = .inFlight k ∧ k.phase = phase ∧ b.connections k.connection = some conn := by
  unfold Bridge.suspended?
  cases hk : b.calls i with
  | fresh => simp
  | ended => simp
  | inFlight l =>
      simp only [CallState.inFlight.injEq]
      by_cases hp : l.phase = phase
      · rw [if_pos hp, Option.map_eq_some_iff]
        constructor
        · rintro ⟨conn', hc, he⟩
          obtain ⟨rfl, rfl⟩ := Prod.mk.inj he
          exact ⟨rfl, hp, hc⟩
        · rintro ⟨rfl, -, hc⟩
          exact ⟨conn, hc, rfl⟩
      · rw [if_neg hp]
        constructor
        · rintro ⟨⟩
        · rintro ⟨rfl, hp', -⟩
          exact absurd hp' hp

/-- A reception is of the registered connection of the tenant, over its own
socket, and names a pending call that is not completed. -/
theorem reception?_some {tenantId : String} {message : Message} {websocket : ℕ} {p : Reception}
    {conn : Connection} (h : b.reception? tenantId message websocket = some (p, conn)) :
    p.tenantId = tenantId ∧ p.message = message ∧
    b.registry.lookup tenantId = some p.connection ∧ b.connections p.connection = some conn ∧
    conn.websocket = websocket ∧ message.lookup "request_id" = some (.string p.requestId) ∧
    conn.pending.lookup p.requestId = some p.call ∧ (b.futures p.call).done = false := by
  unfold Bridge.reception? at h
  split at h
  · rename_i c conn' requestId hc hr
    obtain ⟨hl, hcon⟩ := connection?_some.mp hc
    split_ifs at h with hw
    split at h
    · rename_i i hi
      split_ifs at h with hd
      obtain ⟨rfl, rfl⟩ := Prod.mk.inj (Option.some.inj h)
      exact ⟨rfl, rfl, hl, hcon, hw, hr, hi, by simpa using hd⟩
    · cases h
  · cases h

/-- The end of a call completes its future and leaves the other futures alone. -/
theorem Bridge.exit_eq (b : Bridge) (i : ℕ) (k : Call) (outcome : Except BridgeError Message) :
    ∃ futures : ℕ → Future, (futures i).done = true ∧
      (∀ j, futures j = b.futures j ∨ futures j = .cancelled) ∧
      b.exit i k outcome = ((({ b with futures } : Bridge).modifyConnection k.connection
        fun conn => (conn.popPending k.requestId).releaseLock i).setCall i .ended).record
          (.ended i outcome) := by
  by_cases hd : (b.futures i).done = true
  · exact ⟨b.futures, hd, fun _ => Or.inl rfl,
      congrArg (fun m : Bridge => (m.setCall i .ended).record (.ended i outcome)) (if_pos hd)⟩
  · refine ⟨Function.update b.futures i .cancelled, ?_, ?_,
      congrArg (fun m : Bridge => (m.setCall i .ended).record (.ended i outcome)) (if_neg hd)⟩
    · rw [Function.update_self]
      rfl
    · intro j
      by_cases he : j = i
      · exact Or.inr (by rw [he, Function.update_self])
      · exact Or.inl (Function.update_of_ne he ..)

/-! ### Every event keeps the invariant -/

namespace Bridge.Wf

theorem refuse (h : b.Wf cfg) (r : ℕ) (error : BridgeError) : (b.refuse r error).Wf cfg :=
  (h.setRegistering (Or.inl rfl)).record _

/-- A new connection replaces the registered one of its tenant, whose pending
futures have been failed. -/
theorem connect (h : b.Wf cfg) {r : ℕ} {tenantId : String} (session : Session)
    (hr : b.connections r = none) (hclosing : b.closing = false)
    (hended : b.registering r = .ended)
    (hdone : ∀ i k, b.calls i = .inFlight k → k.command.tenantId = tenantId →
      (b.futures i).done = true) : (b.connect r tenantId session).Wf cfg := by
  have hother : ∀ c conn, b.connections c = some conn → Function.update b.connections r
      (some ⟨session, ∅, none⟩) c = some conn := by
    intro c conn hc
    rw [Function.update_of_ne, hc]
    rintro rfl
    rw [hr] at hc
    cases hc
  have hnew : ∀ c conn, Function.update b.connections r
      (some ⟨session, ∅, none⟩) c = some conn →
      conn = ⟨session, ∅, none⟩ ∨ b.connections c = some conn := by
    intro c conn hc
    by_cases hcr : c = r
    · rw [hcr, Function.update_self] at hc
      exact Or.inl (Option.some.inj hc).symm
    · rw [Function.update_of_ne hcr] at hc
      exact Or.inr hc
  have hnever : ∀ t c, b.registry.lookup t = some c → c ≠ r := by
    rintro t c hc rfl
    obtain ⟨conn, hcon⟩ := h.registered t c hc
    rw [hr] at hcon
    cases hcon
  constructor
  · intro t c hc
    change (b.registry.insert tenantId r).lookup t = some c at hc
    rw [Dict.lookup_insert] at hc
    split_ifs at hc with ht
    · obtain rfl := Option.some.inj hc
      exact ⟨_, Function.update_self ..⟩
    · obtain ⟨conn, hcon⟩ := h.registered t c hc
      exact ⟨conn, hother c conn hcon⟩
  · intro t t' c hc hc'
    change (b.registry.insert tenantId r).lookup t = some c at hc
    change (b.registry.insert tenantId r).lookup t' = some c at hc'
    rw [Dict.lookup_insert] at hc hc'
    split_ifs at hc hc' with ht ht' ht'
    · exact ht.trans ht'.symm
    · exact absurd (Option.some.inj hc) (hnever t' c hc').symm
    · exact absurd (Option.some.inj hc') (hnever t c hc).symm
    · exact h.injective t t' c hc hc'
  · intro s
    by_cases hs : s = r
    · exact Or.inl (hs ▸ hended)
    · rcases h.unregistered s with he | he
      · exact Or.inl he
      · exact Or.inr ((Function.update_of_ne hs ..).trans he)
  · intro c conn hc
    rcases hnew c conn hc with rfl | hc
    · exact Nat.zero_le _
    · exact h.bounded c conn hc
  · intro c conn requestId i hc hi
    rcases hnew c conn hc with rfl | hc
    · cases hi
    · exact h.owned c conn requestId i hc hi
  · intro i k hk
    obtain ⟨conn, hc, he⟩ := h.entered i k hk
    exact ⟨conn, hother _ conn hc, he⟩
  · intro t i k hk hc
    change (b.registry.insert tenantId r).lookup t = _ at hc
    rw [Dict.lookup_insert] at hc
    split_ifs at hc
    · obtain ⟨conn, hcon, -⟩ := h.entered i k hk
      rw [← Option.some.inj hc, hr] at hcon
      cases hcon
    · exact h.tenant t i k hk hc
  · intro i k hk hne
    change (b.registry.insert tenantId r).lookup _ ≠ _ at hne
    by_cases ht : k.command.tenantId = tenantId
    · exact hdone i k hk ht
    · rw [Dict.lookup_insert, if_neg ht] at hne
      exact h.current i k hk hne
  · exact h.issued
  · exact h.distinct
  · exact h.awaited
  · intro hc
    change b.closing = true at hc
    rw [hclosing] at hc
    cases hc

theorem install (h : b.Wf cfg) {r : ℕ} (hr : b.registering r ≠ .ended) (a : Registration) :
    (b.install r a).Wf cfg := by
  have hnone : b.connections r = none := (h.unregistered r).resolve_left hr
  unfold Bridge.install
  split_ifs with hclosing
  · exact h.refuse r _
  · split
    · exact h.refuse r _
    · rename_i capabilities _
      let error := BridgeError.pcAgentError "Replaced by a new PC agent connection"
      let cs := (b.registry.lookup a.tenantId).toList
      have hfail := h.failPending error cs
      have hended : ((b.failPending error cs).setRegistering r .ended).Wf cfg :=
        hfail.setRegistering (Or.inl rfl)
      have hopen : b.closing = false := by simpa using hclosing
      refine (hended.connect _ hnone hopen (Function.update_self ..) ?_).record _
      intro i k hk ht
      by_cases hcur : b.registry.lookup k.command.tenantId = some k.connection
      · refine h.failPending_done hk ?_
        rw [ht] at hcur
        simp only [cs, hcur, Option.toList_some, List.mem_singleton]
      · exact hfail.current i k hk hcur

theorem register (h : b.Wf cfg) {r : ℕ} {a : Registration}
    (hs : PCAgentBridge.register cfg r a b = some b') : b'.Wf cfg := by
  unfold PCAgentBridge.register at hs
  split at hs
  · rename_i hr
    have hne : b.registering r ≠ .ended := by
      rw [hr]
      rintro ⟨⟩
    split_ifs at hs <;> obtain rfl := Option.some.inj hs
    · exact h.refuse r _
    · exact h.setRegistering (Or.inr ((h.unregistered r).resolve_left hne))
    · exact h.refuse r _
    · exact h.install hne a
  · cases hs

theorem registerChecked (h : b.Wf cfg) {r : ℕ} {outcome : CheckOutcome}
    (hs : PCAgentBridge.registerChecked r outcome b = some b') : b'.Wf cfg := by
  unfold PCAgentBridge.registerChecked at hs
  split at hs
  · rename_i a hr
    cases outcome <;> obtain rfl := Option.some.inj hs
    · exact h.install (by rw [hr]; rintro ⟨⟩) a
    · exact h.refuse r _
    · exact h.refuse r _
  · cases hs

/-- Leaving the registry keeps the invariant once the pending futures of the
connections that leave are completed. -/
theorem deregister (h : b.Wf cfg) {registry : Dict ℕ} {closing : Bool}
    (hsub : ∀ tenantId c, registry.lookup tenantId = some c →
      b.registry.lookup tenantId = some c)
    (hdone : ∀ i k, b.calls i = .inFlight k →
      b.registry.lookup k.command.tenantId = some k.connection →
      registry.lookup k.command.tenantId ≠ some k.connection → (b.futures i).done = true)
    (hclosed : closing = true → ∀ tenantId, registry.lookup tenantId = none) :
    ({ b with registry, closing } : Bridge).Wf cfg where
  registered tenantId c hc := h.registered tenantId c (hsub tenantId c hc)
  injective t t' c hc hc' := h.injective t t' c (hsub t c hc) (hsub t' c hc')
  unregistered := h.unregistered
  bounded := h.bounded
  owned := h.owned
  entered := h.entered
  tenant t i k hk hc := h.tenant t i k hk (hsub t _ hc)
  current i k hk hne := by
    by_cases hcur : b.registry.lookup k.command.tenantId = some k.connection
    · exact hdone i k hk hcur hne
    · exact h.current i k hk hcur
  issued := h.issued
  distinct := h.distinct
  awaited := h.awaited
  closed := hclosed

theorem unregister (h : b.Wf cfg) (tenantId : String) (websocket : ℕ) :
    (unregister tenantId websocket b).Wf cfg := by
  unfold PCAgentBridge.unregister
  split
  · exact h
  · rename_i c conn hc
    obtain ⟨hl, hcon⟩ := connection?_some.mp hc
    split_ifs
    · refine (h.failPending _ [c]).deregister ?_ ?_ ?_
      · intro t e he
        rw [Dict.lookup_erase] at he
        split_ifs at he
        exact he
      · intro i k hk hcur hne
        refine h.failPending_done hk (List.mem_singleton.mpr ?_)
        rw [Dict.lookup_erase] at hne
        split_ifs at hne with ht
        · change b.registry.lookup _ = _ at hcur
          rw [ht, hl] at hcur
          exact (Option.some.inj hcur).symm
        · exact absurd hcur hne
      · intro hclosing t
        rw [Dict.lookup_erase]
        split_ifs
        · rfl
        · exact h.closed hclosing t
    · exact h

theorem close (h : b.Wf cfg) : (close b).Wf cfg := by
  unfold PCAgentBridge.close
  split_ifs
  · exact h
  · refine (h.failPending _ _).deregister ?_ ?_ fun _ _ => rfl
    · rintro t e ⟨⟩
    · exact fun i k hk hcur _ => h.failPending_done hk (Dict.mem_values hcur)

theorem resolve (h : b.Wf cfg) (g : ℕ) {p : Reception}
    (hp : ∃ k, b.calls p.call = .inFlight k ∧ p.For k) : (b.resolve g p).Wf cfg := by
  obtain ⟨k, hk, hfor⟩ := hp
  have hf : (b.setFuture p.call (.result p.message)).Wf cfg := h.setFuture p.call rfl
  have hdone : ((b.setFuture p.call (.result p.message)).futures p.call).done = true := by
    change Future.done (Function.update b.futures p.call _ p.call) = true
    rw [Function.update_self]
    rfl
  refine (hf.popPending (fun _ => rfl) ?_).record (.resolved g p.call)
  intro i l hl hr _
  obtain rfl := h.distinct i p.call l k hl hk (hr.trans hfor.requestId)
  exact hdone

theorem handleResult (h : b.Wf cfg) {g : ℕ} {tenantId : String} {message : Message}
    {websocket : ℕ} (hs : handleResult cfg g tenantId message websocket b = some b') :
    b'.Wf cfg := by
  unfold PCAgentBridge.handleResult at hs
  split at hs
  · have hgiven := (h.setHandling_ended g).record
      (.given g tenantId message websocket (b.registry.lookup tenantId))
    split at hs
    · obtain rfl := Option.some.inj hs
      exact hgiven
    · rename_i p conn hp
      obtain ⟨htenant, -, hl, hcon, -, -, hpending, -⟩ := reception?_some hp
      obtain ⟨k, hk, hr, hc⟩ := h.owned _ conn _ p.call hcon hpending
      have htk : k.command.tenantId = tenantId := h.tenant tenantId p.call k hk (hc ▸ hl)
      have hfor : ∃ k, b.calls p.call = .inFlight k ∧ p.For k :=
        ⟨k, hk, htenant.trans htk.symm, hr.symm, hc.symm⟩
      split_ifs at hs <;> obtain rfl := Option.some.inj hs
      · refine hgiven.setHandling ?_
        rintro q ⟨⟩
        exact hfor
      · exact hgiven.resolve g hfor
  · cases hs

theorem acceptResult (h : b.Wf cfg) {g : ℕ} {p : Reception} (hp : b.handling g = .checking p) :
    (b.acceptResult g p).Wf cfg := by
  have hchecked := (h.setHandling_ended g).record (.checked g)
  dsimp only [Bridge.acceptResult]
  split_ifs with hd
  · exact hchecked
  · refine hchecked.resolve g ?_
    rcases h.awaited g p hp with hk | ⟨-, hdone⟩
    · exact hk
    · exact absurd hdone hd
  · exact hchecked.setFuture _ rfl

theorem resultChecked (h : b.Wf cfg) {g : ℕ} {outcome : CheckOutcome}
    (hs : resultChecked g outcome b = some b') : b'.Wf cfg := by
  unfold PCAgentBridge.resultChecked at hs
  split at hs
  · rename_i p hp
    cases outcome <;> obtain rfl := Option.some.inj hs
    · exact h.acceptResult hp
    · split_ifs
      · exact h.setHandling_ended g
      · exact (h.setHandling_ended g).setFuture _ rfl
    · exact h.setHandling_ended g
  · cases hs

/-- A call that never got into flight ends at once. -/
theorem reject (h : b.Wf cfg) {i : ℕ} (hi : b.calls i = .fresh) (entry : Entry) :
    ((b.setCall i .ended).record entry).Wf cfg := by
  refine (h.endCall (Or.inl hi) ?_).record entry
  intro c conn requestId hc hl
  obtain ⟨k, hk, -⟩ := h.owned c conn requestId i hc hl
  rw [hi] at hk
  cases hk

/-- A new call enters its future under a request id no earlier call was given. -/
theorem enter (h : b.Wf cfg) {i c : ℕ} {conn : Connection} {command : Command}
    {requestId : String} (hi : b.calls i = .fresh)
    (hl : b.registry.lookup command.tenantId = some c) (hc : b.connections c = some conn)
    (hroom : conn.pending.entries.length < cfg.maxPendingCommands)
    (hfresh : requestId ∉ b.issued) :
    (({ (b.modifyConnection c (Connection.addPending requestId i)).setFuture i .pending with
        issued := requestId :: b.issued } : Bridge).setCall i
      (.inFlight ⟨command, requestId, c, .locking⟩)).Wf cfg := by
  have hself : ((b.modifyConnection c (Connection.addPending requestId i)).connections c) =
      some (conn.addPending requestId i) := by
    change Function.update b.connections c _ c = _
    rw [Function.update_self, hc]
    rfl
  have hother : ∀ e, e ≠ c →
      (b.modifyConnection c (Connection.addPending requestId i)).connections e =
        b.connections e := fun e he => Function.update_of_ne he ..
  have hcall : ∀ j l, Function.update b.calls i
      (.inFlight ⟨command, requestId, c, .locking⟩) j = .inFlight l →
      (j = i ∧ l = ⟨command, requestId, c, .locking⟩) ∨ (j ≠ i ∧ b.calls j = .inFlight l) := by
    intro j l hl
    by_cases he : j = i
    · rw [he, Function.update_self] at hl
      exact Or.inl ⟨he, (CallState.inFlight.inj hl).symm⟩
    · rw [Function.update_of_ne he] at hl
      exact Or.inr ⟨he, hl⟩
  have hne : ∀ j l, b.calls j = .inFlight l → j ≠ i := by
    rintro j l hl rfl
    rw [hi] at hl
    cases hl
  have hold : ∀ j l, b.calls j = .inFlight l → Function.update b.calls i
      (.inFlight ⟨command, requestId, c, .locking⟩) j = .inFlight l :=
    fun j l hl => (Function.update_of_ne (hne j l hl) ..).trans hl
  have hnew : ∀ j l, b.calls j = .inFlight l → l.requestId ≠ requestId :=
    fun j l hl he => hfresh (he ▸ h.issued j l hl)
  constructor
  · intro t e he
    by_cases hec : e = c
    · exact ⟨_, by rw [hec]; exact hself⟩
    · obtain ⟨conn', hconn'⟩ := h.registered t e he
      exact ⟨conn', (hother e hec).trans hconn'⟩
  · exact h.injective
  · intro r
    rcases h.unregistered r with hr | hr
    · exact Or.inl hr
    · refine Or.inr ((hother r ?_).trans hr)
      rintro rfl
      rw [hc] at hr
      cases hr
  · intro e conn' he
    by_cases hec : e = c
    · subst hec
      obtain rfl := Option.some.inj (hself.symm.trans he)
      have hlen := Dict.length_insert_le conn.pending requestId i
      change (conn.pending.insert requestId i).entries.length ≤ _
      omega
    · exact h.bounded e conn' ((hother e hec).symm.trans he)
  · intro e conn' requestId' j he hj
    by_cases hec : e = c
    · subst hec
      obtain rfl := Option.some.inj (hself.symm.trans he)
      change (conn.pending.insert requestId i).lookup requestId' = some j at hj
      rw [Dict.lookup_insert] at hj
      split_ifs at hj with hr
      · obtain rfl := Option.some.inj hj
        exact ⟨_, Function.update_self .., hr.symm, rfl⟩
      · obtain ⟨l, hl, hlr⟩ := h.owned e conn requestId' j hc hj
        exact ⟨l, hold j l hl, hlr⟩
    · obtain ⟨l, hl, hlr⟩ := h.owned e conn' requestId' j ((hother e hec).symm.trans he) hj
      exact ⟨l, hold j l hl, hlr⟩
  · intro j l hl
    rcases hcall j l hl with ⟨rfl, rfl⟩ | ⟨hji, hl⟩
    · exact ⟨_, hself, fun _ => AList.lookup_insert conn.pending⟩
    · obtain ⟨conn', hconn', he⟩ := h.entered j l hl
      have hfut : Function.update b.futures i .pending j = b.futures j :=
        Function.update_of_ne hji ..
      by_cases hec : l.connection = c
      · rw [hec, hc] at hconn'
        obtain rfl := Option.some.inj hconn'
        refine ⟨_, by rw [hec]; exact hself, fun hd => ?_⟩
        change Future.done (Function.update b.futures i .pending j) = false at hd
        rw [hfut] at hd
        change (conn.pending.insert requestId i).lookup l.requestId = some j
        rw [Dict.lookup_insert, if_neg (hnew j l hl)]
        exact he hd
      · refine ⟨conn', (hother _ hec).trans hconn', fun hd => he ?_⟩
        change Future.done (Function.update b.futures i .pending j) = false at hd
        rwa [hfut] at hd
  · intro t j l hl hr
    rcases hcall j l hl with ⟨rfl, rfl⟩ | ⟨-, hl⟩
    · exact h.injective command.tenantId t c ‹_› hr
    · exact h.tenant t j l hl hr
  · intro j l hl hr
    rcases hcall j l hl with ⟨rfl, rfl⟩ | ⟨hji, hl⟩
    · exact absurd ‹b.registry.lookup command.tenantId = some c› hr
    · change Future.done (Function.update b.futures i .pending j) = true
      rw [Function.update_of_ne hji]
      exact h.current j l hl hr
  · intro j l hl
    rcases hcall j l hl with ⟨rfl, rfl⟩ | ⟨-, hl⟩
    · exact List.mem_cons_self
    · exact List.mem_cons_of_mem _ (h.issued j l hl)
  · intro j₁ j₂ l₁ l₂ h₁ h₂ he
    rcases hcall j₁ l₁ h₁ with ⟨hj₁, hl₁⟩ | ⟨-, h₁⟩
    · rcases hcall j₂ l₂ h₂ with ⟨hj₂, -⟩ | ⟨-, h₂⟩
      · exact hj₁.trans hj₂.symm
      · subst hl₁
        exact absurd he.symm (hnew j₂ l₂ h₂)
    · rcases hcall j₂ l₂ h₂ with ⟨-, hl₂⟩ | ⟨-, h₂⟩
      · subst hl₂
        exact absurd he (hnew j₁ l₁ h₁)
      · exact h.distinct j₁ j₂ l₁ l₂ h₁ h₂ he
  · intro g p hp
    rcases h.awaited g p hp with ⟨l, hl, hfor⟩ | ⟨he, hd⟩
    · exact Or.inl ⟨l, hold p.call l hl, hfor⟩
    · have hpi : p.call ≠ i := by
        intro hpi
        rw [hpi, hi] at he
        cases he
      refine Or.inr ⟨(Function.update_of_ne hpi ..).trans he, ?_⟩
      change Future.done (Function.update b.futures i .pending p.call) = true
      rwa [Function.update_of_ne hpi]
  · exact h.closed

theorem sendCommand (h : b.Wf cfg) {i : ℕ} {command : Command} {requestId : String}
    (hs : sendCommand cfg i command requestId b = some b') : b'.Wf cfg := by
  unfold PCAgentBridge.sendCommand at hs
  split at hs
  · rename_i hi
    split at hs
    · obtain rfl := Option.some.inj hs
      exact h.reject hi _
    split at hs
    · obtain rfl := Option.some.inj hs
      exact h.reject hi _
    split at hs
    · obtain rfl := Option.some.inj hs
      exact h.reject hi _
    · rename_i c conn hc
      obtain ⟨hl, hcon⟩ := connection?_some.mp hc
      split_ifs at hs with hcap hfull hissued <;> obtain rfl := Option.some.inj hs
      · exact h.reject hi _
      · exact h.reject hi _
      · exact (h.enter hi hl hcon (Nat.lt_of_not_le hfull) hissued).record _
  · cases hs

/-! ### The end of a call -/

theorem exit (h : b.Wf cfg) {i : ℕ} {k : Call} (hk : b.calls i = .inFlight k)
    (outcome : Except BridgeError Message) : (b.exit i k outcome).Wf cfg := by
  let f : Connection → Connection := fun conn => (conn.popPending k.requestId).releaseLock i
  obtain ⟨futures, hdone, hfutures, heq⟩ := b.exit_eq i k outcome
  have hmono : ∀ j, (b.futures j).done = true → (futures j).done = true := by
    intro j hj
    rcases hfutures j with he | he <;> rw [he]
    · exact hj
    · rfl
  rw [heq]
  have hcomplete := h.complete futures hmono
  have hpop : (({ b with futures } : Bridge).modifyConnection k.connection f).Wf cfg := by
    refine hcomplete.popPending (fun _ => rfl) ?_
    intro j l hl hr _
    obtain rfl := h.distinct j i l k hl hk hr
    exact hdone
  refine (hpop.endCall (Or.inr hdone) ?_).record _
  intro c conn requestId hc hl
  obtain ⟨l, hl', hr, hcon⟩ := hpop.owned c conn requestId i hc hl
  obtain rfl := CallState.inFlight.inj (hk.symm.trans hl')
  subst hr hcon
  change Function.update b.connections k.connection _ k.connection = some conn at hc
  rw [Function.update_self, Option.map_eq_some_iff] at hc
  obtain ⟨conn₀, -, rfl⟩ := hc
  change (conn₀.pending.erase k.requestId).lookup k.requestId = some i at hl
  rw [AList.lookup_erase] at hl
  cases hl

theorem deliver (h : b.Wf cfg) {i : ℕ} {k : Call} (hk : b.calls i = .inFlight k)
    (conn : Connection) : (b.deliver i k conn).Wf cfg := by
  unfold Bridge.deliver
  split_ifs
  · exact (h.setPhase hk .sending).record _
  · exact h.exit hk _

theorem acquire (h : b.Wf cfg) {i : ℕ} (hs : acquire cfg i b = some b') : b'.Wf cfg := by
  obtain ⟨⟨k, conn⟩, hk, hs⟩ := Option.bind_eq_some_iff.mp hs
  obtain ⟨hk, -, -⟩ := suspended?_some.mp hk
  have hlock : (b.modifyConnection k.connection (Connection.takeLock i)).Wf cfg :=
    h.modifyLock fun _ => rfl
  change (if _ then if _ then _ else _ else _) = _ at hs
  split_ifs at hs <;> obtain rfl := Option.some.inj hs
  · exact hlock.setPhase hk .checking
  · exact hlock.deliver hk conn

theorem wake (h : b.Wf cfg) {i : ℕ} (hs : wake i b = some b') : b'.Wf cfg := by
  obtain ⟨⟨k, conn⟩, hk, hs⟩ := Option.bind_eq_some_iff.mp hs
  have hcall := (suspended?_some.mp hk).1
  dsimp only at hs
  split at hs
  · cases hs
  all_goals
    obtain rfl := Option.some.inj hs
    exact h.exit hcall _

theorem fail (h : b.Wf cfg) {i : ℕ} {failure : Failure} (hs : fail i failure b = some b') :
    b'.Wf cfg := by
  unfold PCAgentBridge.fail at hs
  split at hs
  · rename_i k hk
    split_ifs at hs
    obtain rfl := Option.some.inj hs
    exact h.exit hk _
  · cases hs

theorem step (h : b.Wf cfg) {e : Event} (hs : step cfg b e = some b') : b'.Wf cfg := by
  cases e with
  | register r a => exact h.register hs
  | registerChecked r outcome => exact h.registerChecked hs
  | unregister tenantId websocket =>
      obtain rfl := Option.some.inj hs
      exact h.unregister tenantId websocket
  | close =>
      obtain rfl := Option.some.inj hs
      exact h.close
  | handleResult g tenantId message websocket => exact h.handleResult hs
  | resultChecked g outcome => exact h.resultChecked hs
  | sendCommand i command requestId => exact h.sendCommand hs
  | acquire i => exact h.acquire hs
  | deviceChecked i =>
      obtain ⟨⟨k, conn⟩, hk, rfl⟩ := Option.map_eq_some_iff.mp hs
      exact h.deliver (suspended?_some.mp hk).1 conn
  | sent i =>
      obtain ⟨⟨k, conn⟩, hk, rfl⟩ := Option.map_eq_some_iff.mp hs
      have hlock : (b.modifyConnection k.connection (Connection.releaseLock i)).Wf cfg :=
        h.modifyLock fun _ => rfl
      exact hlock.setPhase (suspended?_some.mp hk).1 .waiting
  | interrupt i =>
      obtain ⟨⟨k, conn⟩, -, hs⟩ := Option.bind_eq_some_iff.mp hs
      split_ifs at hs
      obtain rfl := Option.some.inj hs
      exact h.setFuture i rfl
  | wake i => exact h.wake hs
  | fail i failure => exact h.fail hs

end Bridge.Wf

end Ally.PCAgentBridge
