import Ally.BridgeShutdown

/-!
# The trace of the bridge and the calls in flight

`Traced` says which part of the trace stands behind a registered connection, a
call in flight, a message under its device check and a result in a future. Each
update of the state keeps it.
-/

namespace Ally.PCAgentBridge

variable {cfg : Config} {b b' : Bridge}

/-- The fields of the connection `c` that nothing changes. -/
def Bridge.session (c : ℕ) (b : Bridge) : Option Session :=
  (b.connections c).map Connection.toSession

/-- The device check behind a result, where one is made. -/
def checks (cfg : Config) (s : Session) (h : ℕ) : List Entry :=
  if cfg.checkDevice && s.device.isSome then [.checked h] else []

/-- The beginning of the trace of a call. -/
def Call.opening (i : ℕ) (k : Call) (s : Session) : List Entry :=
  [.registered k.connection k.command.tenantId s, .called i k.command k.requestId k.connection]

/-- The call is past its currency check. -/
def Phase.delivered : Phase → Bool
  | .sending => true
  | .waiting => true
  | _ => false

def Entry.isResolvedBy (h : ℕ) : Entry → Bool
  | .resolved h' _ => h' = h
  | _ => false

def Entry.isResolutionOf (i : ℕ) : Entry → Bool
  | .resolved _ i' => i' = i
  | _ => false

/-- A command frame went out on the connection `c`, which was the registered one
of the tenant and had reported the capability. -/
def Delivered (log : List Entry) (i websocket : ℕ) (frame : Frame) (c : ℕ) (current : Option ℕ) :
    Prop :=
  current = some c ∧ ∃ (s : Session) (k : Call), s.websocket = websocket ∧ k.connection = c ∧
    k.frame = frame ∧ s.capabilities.lookup k.command.capability = some true ∧
    (k.opening i s ++ [Entry.frame i websocket frame c current]).Sublist log

/-- A call got its details from a success message with its own request id, given
to `handle_result` over the socket of its command frame while that connection
was registered, and checked afterwards where a device check is made. -/
def Attributed (cfg : Config) (log : List Entry) (i : ℕ) (details : Message) : Prop :=
  ∃ (s : Session) (k : Call) (h : ℕ) (message : Message),
    message.lookup "request_id" = some (.string k.requestId) ∧
    message.lookup "success" = some (.bool true) ∧
    (message.lookup "details").getD (.object []) = .object details ∧
    (k.opening i s ++ [Entry.frame i s.websocket k.frame k.connection (some k.connection),
      Entry.ended i (.ok details)]).Sublist log ∧
    (k.opening i s ++ [Entry.given h k.command.tenantId message s.websocket (some k.connection)] ++
      checks cfg s h ++ [Entry.resolved h i, Entry.ended i (.ok details)]).Sublist log

structure Bridge.Traced (cfg : Config) (b : Bridge) : Prop where
  registered : ∀ tenantId c, b.registry.lookup tenantId = some c →
    ∃ s, b.session c = some s ∧ .registered c tenantId s ∈ b.log
  called : ∀ i k, b.calls i = .inFlight k → ∃ s, b.session k.connection = some s ∧
    s.capabilities.lookup k.command.capability = some true ∧ (k.opening i s).Sublist b.log ∧
    (k.phase.delivered = true → (k.opening i s ++
      [Entry.frame i s.websocket k.frame k.connection (some k.connection)]).Sublist b.log)
  received : ∀ h p, b.handling h = .checking p → ∃ s, b.session p.connection = some s ∧
    (cfg.checkDevice && s.device.isSome) = true ∧
    p.message.lookup "request_id" = some (.string p.requestId) ∧
    ∀ k, b.calls p.call = .inFlight k → (k.opening p.call s ++
      [Entry.given h p.tenantId p.message s.websocket (some p.connection)]).Sublist b.log
  result : ∀ i k message, b.calls i = .inFlight k → b.futures i = .result message →
    ∃ h s, b.session k.connection = some s ∧
      message.lookup "request_id" = some (.string k.requestId) ∧
      (k.opening i s ++ [Entry.given h k.command.tenantId message s.websocket (some k.connection)] ++
        checks cfg s h ++ [Entry.resolved h i]).Sublist b.log
  unresolved : ∀ h, b.handling h = .ended ∨ ∀ i, Entry.resolved h i ∉ b.log
  pending : ∀ i, b.calls i = .fresh ∨ (b.futures i).done = false →
    ∀ h, Entry.resolved h i ∉ b.log
  once : ∀ h, b.log.countP (Entry.isResolvedBy h) ≤ 1
  onceCall : ∀ i, b.log.countP (Entry.isResolutionOf i) ≤ 1
  issued : ∀ i command requestId c, .called i command requestId c ∈ b.log →
    b.calls i ≠ .fresh ∧ requestId ∈ b.issued
  unique : ∀ i j command command' requestId requestId' c c',
    .called i command requestId c ∈ b.log → .called j command' requestId' c' ∈ b.log →
    i = j ∨ requestId = requestId' →
    i = j ∧ command = command' ∧ requestId = requestId' ∧ c = c'
  frames : ∀ i websocket frame c current, .frame i websocket frame c current ∈ b.log →
    Delivered b.log i websocket frame c current
  returned : ∀ i details, .ended i (.ok details) ∈ b.log → Attributed cfg b.log i details

theorem Bridge.traced_initial : Bridge.initial.Traced cfg where
  registered _ _ h := by cases h
  called _ _ h := by cases h
  received _ _ h := by cases h
  result _ _ _ h := by cases h
  unresolved _ := Or.inr fun _ => List.not_mem_nil
  pending _ _ _ := List.not_mem_nil
  once _ := Nat.zero_le _
  onceCall _ := Nat.zero_le _
  issued _ _ _ _ h := by cases h
  unique _ _ _ _ _ _ _ _ h := by cases h
  frames _ _ _ _ _ h := by cases h
  returned _ _ h := by cases h

/-! ### The trace only grows -/

theorem Delivered.append {log : List Entry} {i websocket : ℕ} {frame : Frame} {c : ℕ}
    {current : Option ℕ} (h : Delivered log i websocket frame c current) (added : List Entry) :
    Delivered (log ++ added) i websocket frame c current := by
  obtain ⟨hc, s, k, hw, hk, hf, hcap, hsub⟩ := h
  exact ⟨hc, s, k, hw, hk, hf, hcap, hsub.trans (List.sublist_append_left ..)⟩

theorem Attributed.append {log : List Entry} {i : ℕ} {details : Message}
    (h : Attributed cfg log i details) (added : List Entry) :
    Attributed cfg (log ++ added) i details := by
  obtain ⟨s, k, g, message, hr, hs, hd, hframe, hgiven⟩ := h
  exact ⟨s, k, g, message, hr, hs, hd, hframe.trans (List.sublist_append_left ..),
    hgiven.trans (List.sublist_append_left ..)⟩

theorem sublist_record {l log : List Entry} (h : l.Sublist log) (e : Entry) :
    (l ++ [e]).Sublist (log ++ [e]) :=
  h.append (List.Sublist.refl [e])

theorem countP_record {log : List Entry} {p : Entry → Bool} {e : Entry} :
    (log ++ [e]).countP p = log.countP p + if p e then 1 else 0 := by
  rw [List.countP_append, List.countP_singleton]

namespace Bridge.Traced

/-- Recording an entry other than a call or a resolution. -/
theorem record (h : b.Traced cfg) {e : Entry}
    (hresolved : ∀ g i, e ≠ .resolved g i)
    (hcalled : ∀ i command requestId c, e ≠ .called i command requestId c)
    (hframe : ∀ i websocket frame c current, e = .frame i websocket frame c current →
      Delivered (b.log ++ [e]) i websocket frame c current)
    (hended : ∀ i details, e = .ended i (.ok details) → Attributed cfg (b.log ++ [e]) i details) :
    (b.record e).Traced cfg := by
  have hgrow : ∀ {l : List Entry}, l.Sublist b.log → l.Sublist (b.log ++ [e]) :=
    fun hl => hl.trans (List.sublist_append_left ..)
  have hmem : ∀ {e' : Entry}, e' ∈ b.log ++ [e] → e' ∈ b.log ∨ e' = e := by
    intro e' he
    rcases List.mem_append.mp he with he | he
    · exact Or.inl he
    · exact Or.inr (List.mem_singleton.mp he)
  have hnone : ∀ g i, Entry.resolved g i ∉ b.log → Entry.resolved g i ∉ b.log ++ [e] := by
    intro g i hn hm
    rcases hmem hm with hm | hm
    · exact hn hm
    · exact hresolved g i hm.symm
  constructor
  · intro t c hc
    obtain ⟨s, hs, hm⟩ := h.registered t c hc
    exact ⟨s, hs, List.mem_append_left _ hm⟩
  · intro i k hk
    obtain ⟨s, hs, hcap, hsub, hwait⟩ := h.called i k hk
    exact ⟨s, hs, hcap, hgrow hsub, fun hp => hgrow (hwait hp)⟩
  · intro g p hp
    obtain ⟨s, hs, hc, hr, hsub⟩ := h.received g p hp
    exact ⟨s, hs, hc, hr, fun k hk => hgrow (hsub k hk)⟩
  · intro i k message hk hf
    obtain ⟨g, s, hs, hr, hsub⟩ := h.result i k message hk hf
    exact ⟨g, s, hs, hr, hgrow hsub⟩
  · intro g
    rcases h.unresolved g with hg | hg
    · exact Or.inl hg
    · exact Or.inr fun i => hnone g i (hg i)
  · exact fun i hi g => hnone g i (h.pending i hi g)
  · intro g
    have hcount := h.once g
    have he : Entry.isResolvedBy g e = false := by
      cases e with
      | resolved g' i => exact absurd rfl (hresolved g' i)
      | _ => rfl
    change (b.log ++ [e]).countP _ ≤ 1
    rw [countP_record, he]
    simpa using hcount
  · intro i
    have hcount := h.onceCall i
    have he : Entry.isResolutionOf i e = false := by
      cases e with
      | resolved g i' => exact absurd rfl (hresolved g i')
      | _ => rfl
    change (b.log ++ [e]).countP _ ≤ 1
    rw [countP_record, he]
    simpa using hcount
  · intro i command requestId c hm
    rcases hmem hm with hm | hm
    · exact h.issued i command requestId c hm
    · exact absurd hm.symm (hcalled i command requestId c)
  · intro i j command command' requestId requestId' c c' hm hm' he
    rcases hmem hm with hm | hm
    · rcases hmem hm' with hm' | hm'
      · exact h.unique i j command command' requestId requestId' c c' hm hm' he
      · exact absurd hm'.symm (hcalled j command' requestId' c')
    · exact absurd hm.symm (hcalled i command requestId c)
  · intro i websocket frame c current hm
    rcases hmem hm with hm | hm
    · exact (h.frames i websocket frame c current hm).append [e]
    · exact hframe i websocket frame c current hm.symm
  · intro i details hm
    rcases hmem hm with hm | hm
    · exact (h.returned i details hm).append [e]
    · exact hended i details hm.symm

/-- Recording an entry that no claim about the trace starts from. -/
theorem note (h : b.Traced cfg) {e : Entry} (he : e.opens = false)
    (hresolved : ∀ g i, e ≠ .resolved g i)
    (hcalled : ∀ i command requestId c, e ≠ .called i command requestId c)
    (hended : ∀ i details, e ≠ .ended i (.ok details)) : (b.record e).Traced cfg := by
  refine h.record hresolved hcalled ?_ fun i details hd => absurd hd (hended i details)
  rintro i websocket frame c current rfl
  cases he

/-- Updates of the futures that complete some of them without a result. -/
theorem complete (h : b.Traced cfg) (f : ℕ → Future)
    (hf : ∀ i, (b.futures i).done = true → (f i).done = true)
    (hresult : ∀ i message, f i = .result message → b.futures i = .result message) :
    ({ b with futures := f } : Bridge).Traced cfg where
  registered := h.registered
  called := h.called
  received := h.received
  result i k message hk hi := h.result i k message hk (hresult i message hi)
  unresolved := h.unresolved
  pending i hi g := by
    refine h.pending i ?_ g
    rcases hi with hi | hi
    · exact Or.inl hi
    · refine Or.inr ?_
      by_contra hne
      have hd := hf i (by simpa using hne)
      change (f i).done = false at hi
      rw [hi] at hd
      cases hd
  once := h.once
  onceCall := h.onceCall
  issued := h.issued
  unique := h.unique
  frames := h.frames
  returned := h.returned

theorem setFuture (h : b.Traced cfg) (i : ℕ) {future : Future} (hf : future.done = true)
    (hresult : ∀ message, future ≠ .result message) : (b.setFuture i future).Traced cfg := by
  refine h.complete _ ?_ ?_
  · intro j hj
    by_cases he : j = i
    · rw [he, Function.update_self, hf]
    · rw [Function.update_of_ne he, hj]
  · intro j message hj
    by_cases he : j = i
    · rw [he, Function.update_self] at hj
      exact absurd hj (hresult message)
    · rwa [Function.update_of_ne he] at hj

theorem failPending (h : b.Traced cfg) (error : BridgeError) (cs : List ℕ) :
    (b.failPending error cs).Traced cfg := by
  refine h.complete _ ?_ ?_
  · intro i hi
    split_ifs
    · rfl
    · exact hi
  · intro i message hi
    split_ifs at hi
    exact hi

theorem setRegistering (h : b.Traced cfg) (r : ℕ) (state : Registering) :
    (b.setRegistering r state).Traced cfg :=
  ⟨h.1, h.2, h.3, h.4, h.5, h.6, h.7, h.8, h.9, h.10, h.11, h.12⟩

theorem setHandling_ended (h : b.Traced cfg) (g : ℕ) : (b.setHandling g .ended).Traced cfg where
  registered := h.registered
  called := h.called
  received g' p hp := by
    change Function.update b.handling g .ended g' = _ at hp
    by_cases he : g' = g
    · rw [he, Function.update_self] at hp
      cases hp
    · rw [Function.update_of_ne he] at hp
      exact h.received g' p hp
  result := h.result
  unresolved g' := by
    change Function.update b.handling g .ended g' = _ ∨ _
    by_cases he : g' = g
    · exact Or.inl (by rw [he, Function.update_self])
    · rw [Function.update_of_ne he]
      exact h.unresolved g'
  pending := h.pending
  once := h.once
  onceCall := h.onceCall
  issued := h.issued
  unique := h.unique
  frames := h.frames
  returned := h.returned

/-- A message starts its device check. -/
theorem setHandling_checking (h : b.Traced cfg) {g : ℕ} {p : Reception} {s : Session}
    (hg : ∀ i, Entry.resolved g i ∉ b.log) (hs : b.session p.connection = some s)
    (hc : (cfg.checkDevice && s.device.isSome) = true)
    (hr : p.message.lookup "request_id" = some (.string p.requestId))
    (hsub : ∀ k, b.calls p.call = .inFlight k → (k.opening p.call s ++
      [Entry.given g p.tenantId p.message s.websocket (some p.connection)]).Sublist b.log) :
    (b.setHandling g (.checking p)).Traced cfg where
  registered := h.registered
  called := h.called
  received g' q hq := by
    change Function.update b.handling g (.checking p) g' = _ at hq
    by_cases he : g' = g
    · rw [he, Function.update_self] at hq
      obtain rfl := Handling.checking.inj hq
      exact ⟨s, hs, hc, hr, he ▸ hsub⟩
    · rw [Function.update_of_ne he] at hq
      exact h.received g' q hq
  result := h.result
  unresolved g' := by
    change Function.update b.handling g (.checking p) g' = _ ∨ _
    by_cases he : g' = g
    · exact Or.inr (he ▸ hg)
    · rw [Function.update_of_ne he]
      exact h.unresolved g'
  pending := h.pending
  once := h.once
  onceCall := h.onceCall
  issued := h.issued
  unique := h.unique
  frames := h.frames
  returned := h.returned

/-! ### Calls and connections -/

theorem session_modifyConnection {c : ℕ} {f : Connection → Connection}
    (hf : ∀ conn, (f conn).toSession = conn.toSession) (e : ℕ) :
    (b.modifyConnection c f).session e = b.session e := by
  change (Function.update b.connections c ((b.connections c).map f) e).map _ = _
  by_cases he : e = c
  · rw [he, Function.update_self, Option.map_map]
    exact congrArg (fun g => (b.connections c).map g) (funext hf)
  · rw [Function.update_of_ne he]
    rfl

theorem modifyConnection (h : b.Traced cfg) {c : ℕ} {f : Connection → Connection}
    (hf : ∀ conn, (f conn).toSession = conn.toSession) : (b.modifyConnection c f).Traced cfg := by
  have hs := session_modifyConnection (b := b) (c := c) hf
  constructor
  · intro t e he
    obtain ⟨s, hse, hm⟩ := h.registered t e he
    exact ⟨s, (hs e).trans hse, hm⟩
  · intro i k hk
    obtain ⟨s, hse, hrest⟩ := h.called i k hk
    exact ⟨s, (hs _).trans hse, hrest⟩
  · intro g p hp
    obtain ⟨s, hse, hrest⟩ := h.received g p hp
    exact ⟨s, (hs _).trans hse, hrest⟩
  · intro i k message hk hi
    obtain ⟨g, s, hse, hrest⟩ := h.result i k message hk hi
    exact ⟨g, s, (hs _).trans hse, hrest⟩
  · exact h.unresolved
  · exact h.pending
  · exact h.once
  · exact h.onceCall
  · exact h.issued
  · exact h.unique
  · exact h.frames
  · exact h.returned

/-- Leaving the registry. -/
theorem deregister (h : b.Traced cfg) {registry : Dict ℕ} {closing : Bool}
    (hsub : ∀ tenantId c, registry.lookup tenantId = some c →
      b.registry.lookup tenantId = some c) :
    ({ b with registry, closing } : Bridge).Traced cfg where
  registered t c hc := h.registered t c (hsub t c hc)
  called := h.called
  received := h.received
  result := h.result
  unresolved := h.unresolved
  pending := h.pending
  once := h.once
  onceCall := h.onceCall
  issued := h.issued
  unique := h.unique
  frames := h.frames
  returned := h.returned

/-- A new connection, whose registration is on the trace. -/
theorem connect (h : b.Traced cfg) {r : ℕ} {tenantId : String} {session : Session}
    (hr : b.connections r = none) (hm : .registered r tenantId session ∈ b.log) :
    (b.connect r tenantId session).Traced cfg := by
  have hnew : (b.connect r tenantId session).session r = some session := by
    change (Function.update b.connections r _ r).map _ = _
    rw [Function.update_self]
    rfl
  have hold : ∀ c s, b.session c = some s → (b.connect r tenantId session).session c = some s := by
    intro c s hc
    change (Function.update b.connections r _ c).map _ = _
    rw [Function.update_of_ne]
    · exact hc
    · rintro rfl
      rw [Bridge.session, hr] at hc
      cases hc
  constructor
  · intro t c hc
    change (b.registry.insert tenantId r).lookup t = some c at hc
    rw [Dict.lookup_insert] at hc
    split_ifs at hc with ht
    · obtain rfl := Option.some.inj hc
      exact ⟨session, hnew, ht ▸ hm⟩
    · obtain ⟨s, hs, hms⟩ := h.registered t c hc
      exact ⟨s, hold c s hs, hms⟩
  · intro i k hk
    obtain ⟨s, hs, hrest⟩ := h.called i k hk
    exact ⟨s, hold _ s hs, hrest⟩
  · intro g p hp
    obtain ⟨s, hs, hrest⟩ := h.received g p hp
    exact ⟨s, hold _ s hs, hrest⟩
  · intro i k message hk hi
    obtain ⟨g, s, hs, hrest⟩ := h.result i k message hk hi
    exact ⟨g, s, hold _ s hs, hrest⟩
  · exact h.unresolved
  · exact h.pending
  · exact h.once
  · exact h.onceCall
  · exact h.issued
  · exact h.unique
  · exact h.frames
  · exact h.returned

/-- A call in flight moves to another await; once it is past its currency check
the frame is on the trace. -/
theorem setPhase (h : b.Traced cfg) {i : ℕ} {k : Call} {phase : Phase}
    (hk : b.calls i = .inFlight k)
    (hwait : phase.delivered = true → ∀ s, b.session k.connection = some s → (k.opening i s ++
      [Entry.frame i s.websocket k.frame k.connection (some k.connection)]).Sublist b.log) :
    (b.setPhase i k phase).Traced cfg := by
  have hcall : ∀ j l, (b.setPhase i k phase).calls j = .inFlight l →
      (j = i ∧ l = { k with phase }) ∨ b.calls j = .inFlight l := by
    intro j l hl
    change Function.update b.calls i _ j = _ at hl
    by_cases he : j = i
    · rw [he, Function.update_self] at hl
      exact Or.inl ⟨he, (CallState.inFlight.inj hl).symm⟩
    · rw [Function.update_of_ne he] at hl
      exact Or.inr hl
  have hfresh : ∀ j, (b.setPhase i k phase).calls j = .fresh ↔ b.calls j = .fresh := by
    intro j
    change Function.update b.calls i _ j = _ ↔ _
    by_cases he : j = i
    · rw [he, Function.update_self, hk]
      exact iff_of_false (by rintro ⟨⟩) (by rintro ⟨⟩)
    · rw [Function.update_of_ne he]
  constructor
  · exact h.registered
  · intro j l hl
    rcases hcall j l hl with ⟨rfl, rfl⟩ | hl
    · obtain ⟨s, hs, hcap, hsub, -⟩ := h.called j k hk
      exact ⟨s, hs, hcap, hsub, fun hp => hwait hp s hs⟩
    · exact h.called j l hl
  · intro g p hp
    obtain ⟨s, hs, hc, hr, hsub⟩ := h.received g p hp
    refine ⟨s, hs, hc, hr, fun l hl => ?_⟩
    rcases hcall p.call l hl with ⟨hpi, rfl⟩ | hl
    · exact hsub k (hpi ▸ hk)
    · exact hsub l hl
  · intro j l message hl hi
    rcases hcall j l hl with ⟨rfl, rfl⟩ | hl
    · exact h.result j k message hk hi
    · exact h.result j l message hl hi
  · exact h.unresolved
  · intro j hj
    rw [hfresh] at hj
    exact h.pending j hj
  · exact h.once
  · exact h.onceCall
  · intro j command requestId c hm
    obtain ⟨hj, hi⟩ := h.issued j command requestId c hm
    exact ⟨fun he => hj ((hfresh j).mp he), hi⟩
  · exact h.unique
  · exact h.frames
  · exact h.returned

theorem endCall (h : b.Traced cfg) (i : ℕ) : (b.setCall i .ended).Traced cfg := by
  have hcall : ∀ j l, (b.setCall i .ended).calls j = .inFlight l → b.calls j = .inFlight l := by
    intro j l hl
    change Function.update b.calls i _ j = _ at hl
    by_cases he : j = i
    · rw [he, Function.update_self] at hl
      cases hl
    · rwa [Function.update_of_ne he] at hl
  have hfresh : ∀ j, (b.setCall i .ended).calls j = .fresh → b.calls j = .fresh := by
    intro j hj
    change Function.update b.calls i _ j = _ at hj
    by_cases he : j = i
    · rw [he, Function.update_self] at hj
      cases hj
    · rwa [Function.update_of_ne he] at hj
  constructor
  · exact h.registered
  · exact fun j l hl => h.called j l (hcall j l hl)
  · intro g p hp
    obtain ⟨s, hs, hc, hr, hsub⟩ := h.received g p hp
    exact ⟨s, hs, hc, hr, fun l hl => hsub l (hcall p.call l hl)⟩
  · exact fun j l message hl hi => h.result j l message (hcall j l hl) hi
  · exact h.unresolved
  · intro j hj
    refine h.pending j ?_
    rcases hj with hj | hj
    · exact Or.inl (hfresh j hj)
    · exact Or.inr hj
  · exact h.once
  · exact h.onceCall
  · intro j command requestId c hm
    obtain ⟨hj, hi⟩ := h.issued j command requestId c hm
    exact ⟨fun he => hj (hfresh j he), hi⟩
  · exact h.unique
  · exact h.frames
  · exact h.returned

end Bridge.Traced

end Ally.PCAgentBridge
