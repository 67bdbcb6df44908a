import Ally.BridgeEvents

/-!
# The pending tables and the shutdown of the bridge over whole runs

Once `close` has started the registry stays empty, so an installation is refused
and a currency check fails. What a closing bridge still adds to its trace
therefore neither registers a connection nor sends a frame.
-/

namespace Ally.PCAgentBridge

variable {cfg : Config} {b b' : Bridge}

theorem run_wf {es : List Event} (h : run cfg es = some b) : b.Wf cfg :=
  Machine.run_invariant (fun _ _ _ hw hs => hw.step hs) Bridge.wf_initial h

/-- The entry registers a connection or starts to send a command frame. -/
def Entry.opens : Entry → Bool
  | .registered .. => true
  | .frame .. => true
  | _ => false

/-- The bridge goes on closing, and its trace grows by entries that open nothing. -/
structure Bridge.Quiet (b b' : Bridge) : Prop where
  closing : b'.closing = b.closing
  log : ∃ added, b'.log = b.log ++ added ∧ ∀ e ∈ added, e.opens = false

namespace Bridge.Quiet

theorem of_eq (hc : b'.closing = b.closing) (hl : b'.log = b.log) : b.Quiet b' :=
  ⟨hc, [], by rw [hl, List.append_nil], by simp⟩

theorem trans {m : Bridge} (h : b.Quiet m) (h' : m.Quiet b') : b.Quiet b' := by
  obtain ⟨hc, added, hl, ha⟩ := h
  obtain ⟨hc', added', hl', ha'⟩ := h'
  refine ⟨hc'.trans hc, added ++ added', by rw [hl', hl, List.append_assoc], ?_⟩
  intro e he
  rcases List.mem_append.mp he with he | he
  · exact ha e he
  · exact ha' e he

theorem record (h : b.Quiet b') {entry : Entry} (he : entry.opens = false) :
    b.Quiet (b'.record entry) := by
  refine h.trans ⟨rfl, [entry], rfl, ?_⟩
  intro e hm
  rw [List.mem_singleton.mp hm, he]

theorem refuse (r : ℕ) (error : BridgeError) : b.Quiet (b.refuse r error) :=
  (of_eq rfl rfl : b.Quiet (b.setRegistering r .ended)).record rfl

theorem install {r : ℕ} {a : Registration} (hclosing : b.closing = true) :
    b.Quiet (b.install r a) := by
  rw [Bridge.install, if_pos hclosing]
  exact refuse r _

theorem exit (i : ℕ) (k : Call) (outcome : Except BridgeError Message) :
    b.Quiet (b.exit i k outcome) := by
  obtain ⟨futures, -, -, heq⟩ := b.exit_eq i k outcome
  rw [heq]
  refine (of_eq ?_ ?_ : b.Quiet _).record rfl
  · rfl
  · rfl

theorem deliver {i : ℕ} {k : Call} {conn : Connection}
    (hnone : b.registry.lookup k.command.tenantId = none) : b.Quiet (b.deliver i k conn) := by
  rw [Bridge.deliver, if_neg]
  · exact exit i k _
  · rw [hnone]
    rintro ⟨⟩

end Bridge.Quiet

/-- Step lemma for the shutdown. -/
theorem quiet_step (h : b.Wf cfg) (hclosing : b.closing = true) {e : Event}
    (hs : step cfg b e = some b') : b.Quiet b' := by
  have hnone := h.closed hclosing
  cases e with
  | register r a =>
      change register cfg r a b = _ at hs
      unfold register at hs
      split at hs
      · rw [if_pos hclosing] at hs
        obtain rfl := Option.some.inj hs
        exact .refuse r _
      · cases hs
  | registerChecked r outcome =>
      change registerChecked r outcome b = _ at hs
      unfold registerChecked at hs
      split at hs
      · cases outcome <;> obtain rfl := Option.some.inj hs
        · exact .install hclosing
        · exact .refuse r _
        · exact .refuse r _
      · cases hs
  | unregister tenantId websocket =>
      obtain rfl := Option.some.inj hs
      rw [unregister, Bridge.connection?, hnone tenantId]
      exact .of_eq rfl rfl
  | close =>
      obtain rfl := Option.some.inj hs
      rw [close, if_pos hclosing]
      exact .of_eq rfl rfl
  | handleResult g tenantId message websocket =>
      change handleResult cfg g tenantId message websocket b = _ at hs
      unfold handleResult at hs
      split at hs
      · have hrec : b.reception? tenantId message websocket = none := by
          cases hp : b.reception? tenantId message websocket with
          | none => rfl
          | some q =>
              obtain ⟨-, -, hl, -⟩ := reception?_some hp
              rw [hnone] at hl
              cases hl
        rw [hrec] at hs
        obtain rfl := Option.some.inj hs
        exact (.of_eq rfl rfl : b.Quiet (b.setHandling g .ended)).record rfl
      · cases hs
  | resultChecked g outcome =>
      change resultChecked g outcome b = _ at hs
      unfold resultChecked at hs
      split at hs
      · rename_i p hp
        cases outcome <;> obtain rfl := Option.some.inj hs
        · have hchecked : b.Quiet ((b.setHandling g .ended).record (.checked g)) :=
            (Bridge.Quiet.of_eq rfl rfl : b.Quiet (b.setHandling g .ended)).record rfl
          dsimp only [Bridge.acceptResult]
          split_ifs with hd hcur
          · exact hchecked
          · change b.registry.lookup p.tenantId = _ at hcur
            rw [hnone] at hcur
            cases hcur
          · exact hchecked.trans (.of_eq rfl rfl)
        · split_ifs <;> exact .of_eq rfl rfl
        · exact .of_eq rfl rfl
      · cases hs
  | sendCommand i command requestId =>
      change sendCommand cfg i command requestId b = _ at hs
      unfold sendCommand at hs
      split at hs
      · rw [if_pos hclosing] at hs
        obtain rfl := Option.some.inj hs
        exact (.of_eq rfl rfl : b.Quiet (b.setCall i .ended)).record rfl
      · cases hs
  | acquire i =>
      obtain ⟨⟨k, conn⟩, hk, hs⟩ := Option.bind_eq_some_iff.mp hs
      dsimp only at hs
      split_ifs at hs <;> obtain rfl := Option.some.inj hs
      · exact .of_eq rfl rfl
      · refine Bridge.Quiet.trans (m := b.modifyConnection k.connection (Connection.takeLock i))
          (.of_eq rfl rfl) (.deliver (hnone _))
  | deviceChecked i =>
      obtain ⟨⟨k, conn⟩, hk, rfl⟩ := Option.map_eq_some_iff.mp hs
      exact .deliver (hnone _)
  | sent i =>
      obtain ⟨⟨k, conn⟩, hk, rfl⟩ := Option.map_eq_some_iff.mp hs
      exact .of_eq rfl rfl
  | interrupt i =>
      obtain ⟨⟨k, conn⟩, -, hs⟩ := Option.bind_eq_some_iff.mp hs
      split_ifs at hs
      obtain rfl := Option.some.inj hs
      exact .of_eq rfl rfl
  | wake i =>
      obtain ⟨⟨k, conn⟩, hk, hs⟩ := Option.bind_eq_some_iff.mp hs
      dsimp only at hs
      split at hs
      · cases hs
      all_goals
        obtain rfl := Option.some.inj hs
        exact .exit i k _
  | fail i failure =>
      change fail i failure b = _ at hs
      unfold fail at hs
      split at hs
      · split_ifs at hs
        obtain rfl := Option.some.inj hs
        exact .exit i _ _
      · cases hs

/-- Run lemma for the shutdown. -/
theorem quiet_run {es : List Event} (h : b.Wf cfg) (hclosing : b.closing = true)
    (hr : Machine.run (step cfg) b es = some b') : b.Quiet b' := by
  induction es generalizing b with
  | nil =>
      obtain rfl := Option.some.inj hr
      exact .of_eq rfl rfl
  | cons e es ih =>
      obtain ⟨m, hm, hr⟩ := Machine.run_cons_some.mp hr
      have hq := quiet_step h hclosing hm
      exact hq.trans (ih (h.step hm) (hq.closing.trans hclosing) hr)

/-- A waiting call whose future is completed can resume. -/
theorem wake_enabled (h : b.Wf cfg) {i : ℕ} {k : Call} (hk : b.calls i = .inFlight k)
    (hp : k.phase = .waiting) (hd : (b.futures i).done = true) :
    ∃ b', step cfg b (.wake i) = some b' := by
  obtain ⟨conn, hc, -⟩ := h.entered i k hk
  have hs : b.suspended? i .waiting = some (k, conn) := suspended?_some.mpr ⟨hk, hp, hc⟩
  change ∃ b', wake i b = some b'
  rw [wake, hs]
  cases hf : b.futures i with
  | pending =>
      rw [hf] at hd
      cases hd
  | result message => exact ⟨_, rfl⟩
  | exception error => exact ⟨_, rfl⟩
  | cancelled => exact ⟨_, rfl⟩

/-- The pending tables and the shutdown: after every run, tables are bounded and
hold exactly the calls that still wait for a result, a call on a connection that
was replaced or disconnected is completed, and a closing bridge opens nothing. -/
theorem pending_table_and_shutdown (cfg : Config) (es : List Event) (b : Bridge)
    (h : run cfg es = some b) :
    (∀ c conn, b.connections c = some conn →
      conn.pending.entries.length ≤ cfg.maxPendingCommands) ∧
    (∀ c conn requestId i, b.connections c = some conn →
      conn.pending.lookup requestId = some i →
      ∃ k, b.calls i = .inFlight k ∧ k.requestId = requestId ∧ k.connection = c) ∧
    (∀ i k, b.calls i = .inFlight k → (b.futures i).done = false →
      ∃ conn, b.connections k.connection = some conn ∧
        conn.pending.lookup k.requestId = some i) ∧
    (∀ i k, b.calls i = .inFlight k →
      b.registry.lookup k.command.tenantId ≠ some k.connection →
      (b.futures i).done = true ∧
        (k.phase = .waiting → ∃ b', step cfg b (.wake i) = some b')) ∧
    (∀ tenantId c conn websocket b', b.registry.lookup tenantId = some c →
      b.connections c = some conn → conn.websocket ≠ websocket →
      step cfg b (.unregister tenantId websocket) = some b' →
      b'.registry.lookup tenantId = some c) ∧
    (b.closing = true → ∀ us b', Machine.run (step cfg) b us = some b' →
      (∀ tenantId, b'.registry.lookup tenantId = none) ∧
      ∃ added, b'.log = b.log ++ added ∧ ∀ e ∈ added, e.opens = false) := by
  have hw := run_wf h
  refine ⟨hw.bounded, hw.owned, ?_, ?_, ?_, ?_⟩
  · intro i k hk hd
    obtain ⟨conn, hc, he⟩ := hw.entered i k hk
    exact ⟨conn, hc, he hd⟩
  · intro i k hk hne
    have hd := hw.current i k hk hne
    exact ⟨hd, fun hp => wake_enabled hw hk hp hd⟩
  · intro tenantId c conn websocket b' hl hc hne hs
    obtain rfl := Option.some.inj hs
    rw [unregister, connection?_some.mpr ⟨hl, hc⟩]
    simp only [if_neg hne]
    exact hl
  · intro hclosing us b' hr
    have hq := quiet_run hw hclosing hr
    have hw' : b'.Wf cfg := Machine.run_invariant (fun _ _ _ hw hs => hw.step hs) hw hr
    exact ⟨hw'.closed (hq.closing.trans hclosing), hq.log⟩

/-- A shutdown while one command waits for the lock. -/
def shutdownDuringCommand : List Event :=
  [.register 0 ⟨"t", 10, .object [("open_apps", .bool true)], none⟩,
    .sendCommand 1 ⟨"t", "open_apps", "open", [], some 5⟩ "r1", .close]

def uncheckedConfig : Config := ⟨16, by decide, false⟩

set_option maxRecDepth 4000 in
theorem shutdownDuringCommand_closing :
    (run uncheckedConfig shutdownDuringCommand).map Bridge.closing = some true := by
  decide

theorem pending_table_and_shutdown_shutdownDuringCommand :
    ∃ b, run uncheckedConfig shutdownDuringCommand = some b ∧ b.closing = true ∧
      ∀ us b', Machine.run (step uncheckedConfig) b us = some b' →
        ∃ added, b'.log = b.log ++ added ∧ ∀ e ∈ added, e.opens = false := by
  obtain ⟨b, hb, hc⟩ := Option.map_eq_some_iff.mp shutdownDuringCommand_closing
  obtain ⟨-, -, -, -, -, hquiet⟩ :=
    pending_table_and_shutdown uncheckedConfig shutdownDuringCommand b hb
  exact ⟨b, hb, hc, fun us b' hr => (hquiet hc us b' hr).2⟩

end Ally.PCAgentBridge
