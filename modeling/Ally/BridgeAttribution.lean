import Ally.BridgeTrace

/-!
# Results go to the right call

The events that write the trace: a new call, a command frame, a resolution and
the end of a call. From them every event keeps `Traced`, and the attribution of
results holds after every run.
-/

namespace Ally.PCAgentBridge

variable {cfg : Config} {b b' : Bridge}

theorem resultDetails_ok {result details : Message} (h : resultDetails result = .ok details) :
    result.lookup "success" = some (.bool true) ∧
      (result.lookup "details").getD (.object []) = .object details := by
  unfold resultDetails at h
  split at h
  · rename_i hs
    split at h
    · rename_i d hd
      obtain rfl := Except.ok.inj h
      exact ⟨hs, hd⟩
    · cases h
  · cases h

namespace Bridge.Traced

/-! ### The updates that write the trace -/

/-- A new call on the registered connection of its tenant. -/
theorem enter (h : b.Traced cfg) {i c : ℕ} {conn : Connection} {command : Command}
    {requestId : String} (hi : b.calls i = .fresh)
    (hl : b.registry.lookup command.tenantId = some c) (hc : b.connections c = some conn)
    (hcap : conn.capabilities.lookup command.capability = some true)
    (hfresh : requestId ∉ b.issued) (haw : ∀ g p, b.handling g = .checking p → p.call ≠ i) :
    ((({ (b.modifyConnection c (Connection.addPending requestId i)).setFuture i .pending with
        issued := requestId :: b.issued } : Bridge).setCall i
      (.inFlight ⟨command, requestId, c, .locking⟩)).record
        (.called i command requestId c)).Traced cfg := by
  have hses : ∀ e, (b.modifyConnection c (Connection.addPending requestId i)).session e =
      b.session e := session_modifyConnection fun _ => rfl
  have hgrow : ∀ {l : List Entry}, l.Sublist b.log →
      l.Sublist (b.log ++ [.called i command requestId c]) :=
    fun hl => hl.trans (List.sublist_append_left ..)
  have hmem : ∀ {e : Entry}, e ∈ b.log ++ [.called i command requestId c] →
      e ∈ b.log ∨ e = .called i command requestId c := by
    intro e he
    rcases List.mem_append.mp he with he | he
    · exact Or.inl he
    · exact Or.inr (List.mem_singleton.mp he)
  have hcall : ∀ j l, Function.update b.calls i
      (.inFlight ⟨command, requestId, c, .locking⟩) j = .inFlight l →
      (j = i ∧ l = ⟨command, requestId, c, .locking⟩) ∨ (j ≠ i ∧ b.calls j = .inFlight l) := by
    intro j l hl
    by_cases he : j = i
    · rw [he, Function.update_self] at hl
      exact Or.inl ⟨he, (CallState.inFlight.inj hl).symm⟩
    · rw [Function.update_of_ne he] at hl
      exact Or.inr ⟨he, hl⟩
  have hnone : ∀ g j, Entry.resolved g j ∉ b.log →
      Entry.resolved g j ∉ b.log ++ [.called i command requestId c] := by
    intro g j hn hm
    rcases hmem hm with hm | hm
    · exact hn hm
    · cases hm
  -- neither the call nor its request id is on the trace yet
  have hnew : ∀ j command' requestId' c', .called j command' requestId' c' ∈ b.log →
      i ≠ j ∧ requestId ≠ requestId' := by
    intro j command' requestId' c' hm
    obtain ⟨hj, hissued⟩ := h.issued j command' requestId' c' hm
    refine ⟨?_, ?_⟩
    · rintro rfl
      exact hj hi
    · rintro rfl
      exact hfresh hissued
  constructor
  · intro t e he
    obtain ⟨s, hs, hm⟩ := h.registered t e he
    exact ⟨s, (hses e).trans hs, List.mem_append_left _ hm⟩
  · intro j l hl'
    rcases hcall j l hl' with ⟨rfl, rfl⟩ | ⟨-, hl'⟩
    · obtain ⟨s, hs, hm⟩ := h.registered command.tenantId c hl
      have hconn : conn.toSession = s := by
        rw [Bridge.session, hc] at hs
        exact Option.some.inj hs
      refine ⟨s, (hses c).trans hs, ?_, ?_, ?_⟩
      · rw [← hconn]
        exact hcap
      · exact sublist_record (List.singleton_sublist.mpr hm) _
      · rintro ⟨⟩
    · obtain ⟨s, hs, hcap', hsub, hwait⟩ := h.called j l hl'
      exact ⟨s, (hses _).trans hs, hcap', hgrow hsub, fun hp => hgrow (hwait hp)⟩
  · intro g p hp
    obtain ⟨s, hs, hck, hr, hsub⟩ := h.received g p hp
    refine ⟨s, (hses _).trans hs, hck, hr, fun l hl' => ?_⟩
    rcases hcall p.call l hl' with ⟨hpi, -⟩ | ⟨-, hl'⟩
    · exact absurd hpi (haw g p hp)
    · exact hgrow (hsub l hl')
  · intro j l message hl' hj
    change Function.update b.futures i .pending j = _ at hj
    rcases hcall j l hl' with ⟨rfl, -⟩ | ⟨hji, hl'⟩
    · rw [Function.update_self] at hj
      cases hj
    · rw [Function.update_of_ne hji] at hj
      obtain ⟨g, s, hs, hr, hsub⟩ := h.result j l message hl' hj
      exact ⟨g, s, (hses _).trans hs, hr, hgrow hsub⟩
  · intro g
    rcases h.unresolved g with hg | hg
    · exact Or.inl hg
    · exact Or.inr fun j => hnone g j (hg j)
  · intro j hj g
    refine hnone g j (h.pending j ?_ g)
    change Function.update b.calls i _ j = _ ∨
      Future.done (Function.update b.futures i .pending j) = _ at hj
    by_cases he : j = i
    · exact Or.inl (he ▸ hi)
    · rwa [Function.update_of_ne he, Function.update_of_ne he] at hj
  · intro g
    have hcount := h.once g
    change (b.log ++ [Entry.called i command requestId c]).countP _ ≤ 1
    rw [countP_record]
    simpa [Entry.isResolvedBy] using hcount
  · intro j
    have hcount := h.onceCall j
    change (b.log ++ [Entry.called i command requestId c]).countP _ ≤ 1
    rw [countP_record]
    simpa [Entry.isResolutionOf] using hcount
  · intro j command' requestId' c' hm
    rcases hmem hm with hm | hm
    · obtain ⟨hj, hissued⟩ := h.issued j command' requestId' c' hm
      refine ⟨?_, List.mem_cons_of_mem _ hissued⟩
      change Function.update b.calls i _ j ≠ _
      rw [Function.update_of_ne (hnew j command' requestId' c' hm).1.symm]
      exact hj
    · cases hm
      refine ⟨?_, List.mem_cons_self⟩
      change Function.update b.calls i _ i ≠ _
      rw [Function.update_self]
      rintro ⟨⟩
  · intro j j' m m' r r' e e' hm hm' he
    rcases hmem hm with hm | hm
    · rcases hmem hm' with hm' | hm'
      · exact h.unique j j' m m' r r' e e' hm hm' he
      · cases hm'
        obtain ⟨hne, hne'⟩ := hnew j m r e hm
        rcases he with he | he
        · exact absurd he.symm hne
        · exact absurd he.symm hne'
    · cases hm
      rcases hmem hm' with hm' | hm'
      · obtain ⟨hne, hne'⟩ := hnew j' m' r' e' hm'
        rcases he with he | he
        · exact absurd he hne
        · exact absurd he hne'
      · cases hm'
        exact ⟨rfl, rfl, rfl, rfl⟩
  · intro j websocket frame e current hm
    rcases hmem hm with hm | hm
    · exact (h.frames j websocket frame e current hm).append _
    · cases hm
  · intro j details hm
    rcases hmem hm with hm | hm
    · exact (h.returned j details hm).append _
    · cases hm

/-- A message resolves the pending future it was received for. -/
theorem resolve (h : b.Traced cfg) {g : ℕ} {p : Reception} {k : Call} {s : Session}
    (hended : b.handling g = .ended) (hg : ∀ i, Entry.resolved g i ∉ b.log)
    (hd : (b.futures p.call).done = false) (hk : b.calls p.call = .inFlight k)
    (hinj : ∀ i l, b.calls i = .inFlight l → i = p.call → l = k)
    (hs : b.session k.connection = some s)
    (hr : p.message.lookup "request_id" = some (.string k.requestId))
    (hsub : (k.opening p.call s ++
      [Entry.given g k.command.tenantId p.message s.websocket (some k.connection)] ++
        checks cfg s g).Sublist b.log) : (b.resolve g p).Traced cfg := by
  have hses : ∀ e, (b.modifyConnection p.connection (Connection.popPending p.requestId)).session
      e = b.session e := session_modifyConnection fun _ => rfl
  have hgrow : ∀ {l : List Entry}, l.Sublist b.log →
      l.Sublist (b.log ++ [Entry.resolved g p.call]) :=
    fun hl => hl.trans (List.sublist_append_left ..)
  have hmem : ∀ {e : Entry}, e ∈ b.log ++ [Entry.resolved g p.call] →
      e ∈ b.log ∨ e = .resolved g p.call := by
    intro e he
    rcases List.mem_append.mp he with he | he
    · exact Or.inl he
    · exact Or.inr (List.mem_singleton.mp he)
  have hpending := h.pending p.call (Or.inr hd)
  constructor
  · intro t e he
    obtain ⟨s', hs', hm⟩ := h.registered t e he
    exact ⟨s', (hses e).trans hs', List.mem_append_left _ hm⟩
  · intro j l hl
    obtain ⟨s', hs', hcap, hsub', hwait⟩ := h.called j l hl
    exact ⟨s', (hses _).trans hs', hcap, hgrow hsub', fun hp => hgrow (hwait hp)⟩
  · intro g' q hq
    obtain ⟨s', hs', hck, hr', hsub'⟩ := h.received g' q hq
    exact ⟨s', (hses _).trans hs', hck, hr', fun l hl => hgrow (hsub' l hl)⟩
  · intro j l message hl hj
    change Function.update b.futures p.call _ j = _ at hj
    by_cases he : j = p.call
    · obtain rfl := hinj j l hl he
      subst he
      rw [Function.update_self] at hj
      obtain rfl := Future.result.inj hj
      exact ⟨g, s, (hses _).trans hs, hr, sublist_record hsub _⟩
    · rw [Function.update_of_ne he] at hj
      obtain ⟨g', s', hs', hr', hsub'⟩ := h.result j l message hl hj
      exact ⟨g', s', (hses _).trans hs', hr', hgrow hsub'⟩
  · intro g'
    by_cases he : g' = g
    · exact Or.inl (he ▸ hended)
    · rcases h.unresolved g' with hg' | hg'
      · exact Or.inl hg'
      · refine Or.inr fun j hm => ?_
        rcases hmem hm with hm | hm
        · exact hg' j hm
        · exact he (Entry.resolved.inj hm).1
  · intro j hj g' hm
    change b.calls j = _ ∨ Future.done (Function.update b.futures p.call _ j) = _ at hj
    have hne : j ≠ p.call := by
      rintro rfl
      rw [hk, Function.update_self] at hj
      rcases hj with hj | hj <;> cases hj
    rw [Function.update_of_ne hne] at hj
    rcases hmem hm with hm | hm
    · exact h.pending j hj g' hm
    · exact hne (Entry.resolved.inj hm).2
  · intro g'
    change (b.log ++ [Entry.resolved g p.call]).countP _ ≤ 1
    rw [countP_record]
    by_cases he : g = g'
    · have hzero : b.log.countP (Entry.isResolvedBy g') = 0 := by
        rw [List.countP_eq_zero]
        intro e hm hres
        cases e with
        | resolved g'' j =>
            have hgg : g'' = g' := by simpa [Entry.isResolvedBy] using hres
            exact hg j (by rw [he, ← hgg]; exact hm)
        | _ => cases hres
      rw [hzero]
      split_ifs <;> omega
    · have hcount := h.once g'
      simpa [Entry.isResolvedBy, he] using hcount
  · intro j
    change (b.log ++ [Entry.resolved g p.call]).countP _ ≤ 1
    rw [countP_record]
    by_cases he : p.call = j
    · have hzero : b.log.countP (Entry.isResolutionOf j) = 0 := by
        rw [List.countP_eq_zero]
        intro e hm hres
        cases e with
        | resolved g' j' =>
            have hjj : j' = j := by simpa [Entry.isResolutionOf] using hres
            exact hpending g' (by rw [he, ← hjj]; exact hm)
        | _ => cases hres
      rw [hzero]
      split_ifs <;> omega
    · have hcount := h.onceCall j
      simpa [Entry.isResolutionOf, he] using hcount
  · intro j command requestId c hm
    rcases hmem hm with hm | hm
    · exact h.issued j command requestId c hm
    · cases hm
  · intro j j' m m' r r' e e' hm hm' he
    rcases hmem hm with hm | hm
    · rcases hmem hm' with hm' | hm'
      · exact h.unique j j' m m' r r' e e' hm hm' he
      · cases hm'
    · cases hm
  · intro j websocket frame e current hm
    rcases hmem hm with hm | hm
    · exact (h.frames j websocket frame e current hm).append _
    · cases hm
  · intro j details hm
    rcases hmem hm with hm | hm
    · exact (h.returned j details hm).append _
    · cases hm

/-- A call ends; one that returns details has them from its future. -/
theorem exit (h : b.Traced cfg) {i : ℕ} {k : Call} {outcome : Except BridgeError Message}
    (hout : ∀ details, outcome = .ok details →
      Attributed cfg (b.log ++ [.ended i (.ok details)]) i details) :
    (b.exit i k outcome).Traced cfg := by
  obtain ⟨futures, hdone, hfutures, heq⟩ := b.exit_eq i k outcome
  rw [heq]
  have hcomplete : ({ b with futures } : Bridge).Traced cfg := by
    refine h.complete futures ?_ ?_
    · intro j hj
      rcases hfutures j with he | he <;> rw [he]
      · exact hj
      · rfl
    · intro j message hj
      rcases hfutures j with he | he <;> rw [he] at hj
      · exact hj
      · cases hj
  have hpop := hcomplete.modifyConnection (c := k.connection)
    (f := fun conn => (conn.popPending k.requestId).releaseLock i) fun _ => rfl
  refine (hpop.endCall i).record (by rintro g j ⟨⟩) (by rintro j m r c ⟨⟩)
    (by rintro j w f c u ⟨⟩) ?_
  rintro j details ⟨⟩
  exact hout details rfl

theorem exit_error (h : b.Traced cfg) (i : ℕ) (k : Call) (error : BridgeError) :
    (b.exit i k (.error error)).Traced cfg :=
  h.exit (by rintro details ⟨⟩)

theorem deliver (h : b.Traced cfg) {i : ℕ} {k : Call} {conn : Connection}
    (hk : b.calls i = .inFlight k) (hc : b.session k.connection = some conn.toSession) :
    (b.deliver i k conn).Traced cfg := by
  unfold Bridge.deliver
  split_ifs with hcur
  · obtain ⟨s, hs, hcap, hsub, -⟩ := h.called i k hk
    have hconn : conn.toSession = s := Option.some.inj (hc.symm.trans hs)
    have hsent := sublist_record hsub
      (.frame i conn.websocket k.frame k.connection (b.registry.lookup k.command.tenantId))
    rw [← hconn, hcur] at hsent
    have hframe : (b.record (.frame i conn.websocket k.frame k.connection
        (b.registry.lookup k.command.tenantId))).Traced cfg := by
      refine h.record (by rintro g j ⟨⟩) (by rintro j m r c ⟨⟩) ?_ (by rintro j d ⟨⟩)
      rintro j w f c u ⟨⟩
      rw [hcur]
      exact ⟨rfl, conn.toSession, k, rfl, rfl, rfl, hconn ▸ hcap, hsent⟩
    refine hframe.setPhase hk fun _ s' hs' => ?_
    obtain rfl := Option.some.inj (hs.symm.trans hs')
    rw [← hconn]
    change List.Sublist _ (b.log ++ [_])
    rw [hcur]
    exact hsent
  · exact h.exit_error i k _

/-! ### Every event keeps the trace -/

theorem refuse (h : b.Traced cfg) (r : ℕ) (error : BridgeError) : (b.refuse r error).Traced cfg :=
  (h.setRegistering r .ended).note rfl (by rintro g i ⟨⟩) (by rintro i m q c ⟨⟩)
    (by rintro i d ⟨⟩)

theorem install (h : b.Traced cfg) {r : ℕ} (hr : b.connections r = none) (a : Registration) :
    (b.install r a).Traced cfg := by
  unfold Bridge.install
  split_ifs
  · exact h.refuse r _
  · split
    · exact h.refuse r _
    · rename_i capabilities _
      let error := BridgeError.pcAgentError "Replaced by a new PC agent connection"
      let cs := (b.registry.lookup a.tenantId).toList
      let session : Session := ⟨a.websocket, capabilities, a.device⟩
      have hset := (h.failPending error cs).setRegistering r .ended
      have hrec : ((((b.failPending error cs).setRegistering r .ended).record
          (.registered r a.tenantId session))).Traced cfg :=
        hset.record (by rintro g i ⟨⟩) (by rintro i m q c ⟨⟩) (by rintro i w f c u ⟨⟩)
          (by rintro i d ⟨⟩)
      exact hrec.connect hr (List.mem_append_right _ (List.mem_singleton.mpr rfl))

theorem register (h : b.Traced cfg) (hw : b.Wf cfg) {r : ℕ} {a : Registration}
    (hs : PCAgentBridge.register cfg r a b = some b') : b'.Traced cfg := by
  unfold PCAgentBridge.register at hs
  split at hs
  · rename_i hr
    have hnone : b.connections r = none := by
      refine (hw.unregistered r).resolve_left ?_
      rw [hr]
      rintro ⟨⟩
    split_ifs at hs <;> obtain rfl := Option.some.inj hs
    · exact h.refuse r _
    · exact h.setRegistering r _
    · exact h.refuse r _
    · exact h.install hnone a
  · cases hs

theorem registerChecked (h : b.Traced cfg) (hw : b.Wf cfg) {r : ℕ} {outcome : CheckOutcome}
    (hs : PCAgentBridge.registerChecked r outcome b = some b') : b'.Traced cfg := by
  unfold PCAgentBridge.registerChecked at hs
  split at hs
  · rename_i a hr
    have hnone : b.connections r = none := by
      refine (hw.unregistered r).resolve_left ?_
      rw [hr]
      rintro ⟨⟩
    cases outcome <;> obtain rfl := Option.some.inj hs
    · exact h.install hnone a
    · exact h.refuse r _
    · exact h.refuse r _
  · cases hs

theorem unregister (h : b.Traced cfg) (tenantId : String) (websocket : ℕ) :
    (unregister tenantId websocket b).Traced cfg := by
  unfold PCAgentBridge.unregister
  split
  · exact h
  · split_ifs
    · refine (h.failPending _ _).deregister fun t c hc => ?_
      rw [Dict.lookup_erase] at hc
      split_ifs at hc
      exact hc
    · exact h

theorem close (h : b.Traced cfg) : (close b).Traced cfg := by
  unfold PCAgentBridge.close
  split_ifs
  · exact h
  · refine (h.failPending _ _).deregister ?_
    rintro t c ⟨⟩

theorem handleResult (h : b.Traced cfg) (hw : b.Wf cfg) {g : ℕ} {tenantId : String}
    {message : Message} {websocket : ℕ}
    (hs : handleResult cfg g tenantId message websocket b = some b') : b'.Traced cfg := by
  unfold PCAgentBridge.handleResult at hs
  split at hs
  · rename_i hfresh
    have hg : ∀ i, Entry.resolved g i ∉ b.log := by
      refine (h.unresolved g).resolve_left ?_
      rw [hfresh]
      rintro ⟨⟩
    have hgiven : ((b.setHandling g .ended).record
        (.given g tenantId message websocket (b.registry.lookup tenantId))).Traced cfg :=
      (h.setHandling_ended g).note rfl (by rintro g' i ⟨⟩) (by rintro i m r c ⟨⟩)
        (by rintro i d ⟨⟩)
    have hg' : ∀ i, Entry.resolved g i ∉
        b.log ++ [Entry.given g tenantId message websocket (b.registry.lookup tenantId)] := by
      intro i hm
      rcases List.mem_append.mp hm with hm | hm
      · exact hg i hm
      · cases List.mem_singleton.mp hm
    split at hs
    · obtain rfl := Option.some.inj hs
      exact hgiven
    · rename_i p conn hp
      obtain ⟨rfl, rfl, hl, hcon, rfl, hr, hpending, hd⟩ := reception?_some hp
      obtain ⟨k, hk, hkr, hkc⟩ := hw.owned _ conn _ p.call hcon hpending
      have htk : k.command.tenantId = p.tenantId := hw.tenant p.tenantId p.call k hk (hkc ▸ hl)
      obtain ⟨s, hses, -, hsub, -⟩ := h.called p.call k hk
      have hconn : conn.toSession = s := by
        rw [Bridge.session, hkc, hcon] at hses
        exact Option.some.inj hses
      have hchain := sublist_record hsub
        (.given g p.tenantId p.message conn.websocket (b.registry.lookup p.tenantId))
      split_ifs at hs with hck <;> obtain rfl := Option.some.inj hs
      · refine hgiven.setHandling_checking hg' (hkc ▸ hses) (hconn ▸ hck) hr fun l hl' => ?_
        obtain rfl := CallState.inFlight.inj (hk.symm.trans hl')
        rw [← hconn]
        change List.Sublist _ (b.log ++ [_])
        rw [← hl]
        exact hconn ▸ hchain
      · have hnocheck : checks cfg s g = [] := by
          rw [checks, if_neg]
          rw [← hconn]
          exact hck
        refine hgiven.resolve (k := k) (s := s) ?_ hg' hd hk ?_ hses (hkr ▸ hr) ?_
        · exact Function.update_self ..
        · rintro i l hl' rfl
          exact CallState.inFlight.inj (hl'.symm.trans hk)
        · rw [hnocheck, List.append_nil, htk, hkc, ← hconn]
          change List.Sublist _ (b.log ++ [_])
          rw [← hl]
          exact hconn ▸ hchain
  · cases hs

theorem acceptResult (h : b.Traced cfg) (hw : b.Wf cfg) {g : ℕ} {p : Reception}
    (hp : b.handling g = .checking p) : (b.acceptResult g p).Traced cfg := by
  have hchecked : ((b.setHandling g .ended).record (.checked g)).Traced cfg :=
    (h.setHandling_ended g).note rfl (by rintro g' i ⟨⟩) (by rintro i m r c ⟨⟩)
      (by rintro i d ⟨⟩)
  dsimp only [Bridge.acceptResult]
  split_ifs with hd hcur
  · exact hchecked
  · obtain ⟨s, hses, hck, hr, hsub⟩ := h.received g p hp
    obtain ⟨k, hk, hfor⟩ := (hw.awaited g p hp).resolve_right fun he => hd he.2
    have hg : ∀ i, Entry.resolved g i ∉ b.log := by
      refine (h.unresolved g).resolve_left ?_
      rw [hp]
      rintro ⟨⟩
    refine hchecked.resolve (k := k) (s := s) ?_ ?_ ?_ hk ?_ ?_ ?_ ?_
    · exact Function.update_self ..
    · intro i hm
      rcases List.mem_append.mp hm with hm | hm
      · exact hg i hm
      · cases List.mem_singleton.mp hm
    · simpa using hd
    · rintro i l hl' rfl
      exact CallState.inFlight.inj (hl'.symm.trans hk)
    · exact hfor.connection ▸ hses
    · exact hfor.requestId ▸ hr
    · rw [checks, if_pos hck, ← hfor.tenantId, ← hfor.connection]
      exact sublist_record (hsub k hk) (.checked g)
  · exact hchecked.setFuture _ rfl (by rintro m ⟨⟩)

theorem resultChecked (h : b.Traced cfg) (hw : b.Wf cfg) {g : ℕ} {outcome : CheckOutcome}
    (hs : resultChecked g outcome b = some b') : b'.Traced cfg := by
  unfold PCAgentBridge.resultChecked at hs
  split at hs
  · rename_i p hp
    cases outcome <;> obtain rfl := Option.some.inj hs
    · exact h.acceptResult hw hp
    · split_ifs
      · exact h.setHandling_ended g
      · exact (h.setHandling_ended g).setFuture _ rfl (by rintro m ⟨⟩)
    · exact h.setHandling_ended g
  · cases hs

theorem reject (h : b.Traced cfg) (i : ℕ) (error : BridgeError) :
    ((b.setCall i .ended).record (.ended i (.error error))).Traced cfg :=
  (h.endCall i).note rfl (by rintro g j ⟨⟩) (by rintro j m r c ⟨⟩) (by rintro j d ⟨⟩)

theorem sendCommand (h : b.Traced cfg) (hw : b.Wf cfg) {i : ℕ} {command : Command}
    {requestId : String} (hs : sendCommand cfg i command requestId b = some b') :
    b'.Traced cfg := by
  unfold PCAgentBridge.sendCommand at hs
  split at hs
  · rename_i hi
    split at hs
    · obtain rfl := Option.some.inj hs
      exact h.reject i _
    split at hs
    · obtain rfl := Option.some.inj hs
      exact h.reject i _
    split at hs
    · obtain rfl := Option.some.inj hs
      exact h.reject i _
    · rename_i c conn hc
      obtain ⟨hl, hcon⟩ := connection?_some.mp hc
      split_ifs at hs with hcap hfull hissued <;> obtain rfl := Option.some.inj hs
      · exact h.reject i _
      · exact h.reject i _
      · refine h.enter hi hl hcon (not_not.mp hcap) hissued ?_
        rintro g p hp rfl
        rcases hw.awaited g p hp with ⟨k, hk, -⟩ | ⟨he, -⟩
        · rw [hi] at hk
          cases hk
        · rw [hi] at he
          cases he
  · cases hs

theorem acquire (h : b.Traced cfg) {i : ℕ} (hs : acquire cfg i b = some b') : b'.Traced cfg := by
  obtain ⟨⟨k, conn⟩, hk, hs⟩ := Option.bind_eq_some_iff.mp hs
  obtain ⟨hk, -, hc⟩ := suspended?_some.mp hk
  have hlock : (b.modifyConnection k.connection (Connection.takeLock i)).Traced cfg :=
    h.modifyConnection fun _ => rfl
  have hc' : (b.modifyConnection k.connection (Connection.takeLock i)).session k.connection =
      some conn.toSession := by
    rw [session_modifyConnection (f := Connection.takeLock i) fun _ => rfl, Bridge.session, hc]
    rfl
  dsimp only at hs
  split_ifs at hs <;> obtain rfl := Option.some.inj hs
  · exact hlock.setPhase hk (by rintro ⟨⟩)
  · exact hlock.deliver hk hc'

theorem sent (h : b.Traced cfg) {i : ℕ} (hs : sent i b = some b') : b'.Traced cfg := by
  obtain ⟨⟨k, conn⟩, hk, rfl⟩ := Option.map_eq_some_iff.mp hs
  obtain ⟨hk, hphase, -⟩ := suspended?_some.mp hk
  have hlock : (b.modifyConnection k.connection (Connection.releaseLock i)).Traced cfg :=
    h.modifyConnection fun _ => rfl
  refine hlock.setPhase hk fun _ s hs => ?_
  obtain ⟨s', hs', -, -, hframe⟩ := hlock.called i k hk
  obtain rfl := Option.some.inj (hs'.symm.trans hs)
  exact hframe (by rw [hphase]; rfl)

/-- A call that wakes with details is attributed. -/
theorem wake (h : b.Traced cfg) {i : ℕ} (hs : wake i b = some b') : b'.Traced cfg := by
  obtain ⟨⟨k, conn⟩, hk, hs⟩ := Option.bind_eq_some_iff.mp hs
  obtain ⟨hk, hphase, -⟩ := suspended?_some.mp hk
  dsimp only at hs
  split at hs
  · cases hs
  · rename_i message hf
    obtain rfl := Option.some.inj hs
    refine h.exit fun details hd => ?_
    obtain ⟨s, hses, -, -, hframe⟩ := h.called i k hk
    obtain ⟨g, s', hses', hr, hsub⟩ := h.result i k message hk hf
    obtain rfl := Option.some.inj (hses.symm.trans hses')
    obtain ⟨hsuccess, hdetails⟩ := resultDetails_ok hd
    refine ⟨s, k, g, message, hr, hsuccess, hdetails, ?_, ?_⟩
    · have hsent := sublist_record (hframe (by rw [hphase]; rfl)) (.ended i (.ok details))
      rwa [List.append_assoc] at hsent
    · have hend := sublist_record hsub (.ended i (.ok details))
      rwa [List.append_assoc _ [_] [_]] at hend
  · obtain rfl := Option.some.inj hs
    exact h.exit_error i k _
  · obtain rfl := Option.some.inj hs
    exact h.exit_error i k _

theorem step (h : b.Traced cfg) (hw : b.Wf cfg) {e : Event} (hs : step cfg b e = some b') :
    b'.Traced cfg := by
  cases e with
  | register r a => exact h.register hw hs
  | registerChecked r outcome => exact h.registerChecked hw hs
  | unregister tenantId websocket =>
      obtain rfl := Option.some.inj hs
      exact h.unregister tenantId websocket
  | close =>
      obtain rfl := Option.some.inj hs
      exact h.close
  | handleResult g tenantId message websocket => exact h.handleResult hw hs
  | resultChecked g outcome => exact h.resultChecked hw hs
  | sendCommand i command requestId => exact h.sendCommand hw hs
  | acquire i => exact h.acquire hs
  | deviceChecked i =>
      obtain ⟨⟨k, conn⟩, hk, rfl⟩ := Option.map_eq_some_iff.mp hs
      obtain ⟨hk, -, hc⟩ := suspended?_some.mp hk
      exact h.deliver hk (congrArg (Option.map Connection.toSession) hc)
  | sent i => exact h.sent hs
  | interrupt i =>
      obtain ⟨⟨k, conn⟩, -, hs⟩ := Option.bind_eq_some_iff.mp hs
      split_ifs at hs
      obtain rfl := Option.some.inj hs
      exact h.setFuture i rfl (by rintro m ⟨⟩)
  | wake i => exact h.wake hs
  | fail i failure =>
      change PCAgentBridge.fail i failure b = _ at hs
      unfold PCAgentBridge.fail at hs
      split at hs
      · split_ifs at hs
        obtain rfl := Option.some.inj hs
        exact h.exit_error i _ _
      · cases hs

end Bridge.Traced

theorem run_traced {es : List Event} (h : run cfg es = some b) : b.Traced cfg := by
  have hboth : b.Wf cfg ∧ b.Traced cfg := by
    refine Machine.run_invariant (P := fun m => m.Wf cfg ∧ m.Traced cfg) ?_
      ⟨Bridge.wf_initial, Bridge.traced_initial⟩ h
    intro m e m' hm hs
    exact ⟨hm.1.step hs, hm.2.step hm.1 hs⟩
  exact hboth.2

/-- Results go to the right call: after every run, details a call returned are
attributed to it, no message resolves two calls and no call is resolved twice,
and a command frame went out on a registered connection with the capability. -/
theorem results_go_to_the_right_call (cfg : Config) (es : List Event) (b : Bridge)
    (h : run cfg es = some b) :
    (∀ i details, .ended i (.ok details) ∈ b.log → Attributed cfg b.log i details) ∧
    (∀ g, b.log.countP (Entry.isResolvedBy g) ≤ 1) ∧
    (∀ i, b.log.countP (Entry.isResolutionOf i) ≤ 1) ∧
    (∀ i websocket frame c current, .frame i websocket frame c current ∈ b.log →
      Delivered b.log i websocket frame c current) ∧
    (∀ i j command command' requestId requestId' c c',
      .called i command requestId c ∈ b.log → .called j command' requestId' c' ∈ b.log →
      i = j ∨ requestId = requestId' →
      i = j ∧ command = command' ∧ requestId = requestId' ∧ c = c') := by
  have ht := run_traced h
  exact ⟨ht.returned, ht.once, ht.onceCall, ht.frames, ht.unique⟩

/-- One command that is sent, answered and returned. -/
def answeredCommand : List Event :=
  [.register 0 ⟨"t", 10, .object [("open_apps", .bool true)], some ⟨"t", "c", "d"⟩⟩,
    .registerChecked 0 .passed,
    .sendCommand 1 ⟨"t", "open_apps", "open", [], some 5⟩ "r1", .acquire 1, .deviceChecked 1,
    .sent 1, .handleResult 2 "t" [("request_id", .string "r1"), ("success", .bool true)] 10,
    .resultChecked 2 .passed, .wake 1]

theorem capacity_pos : 0 < 16 := by decide

def checkedConfig : Config := ⟨16, capacity_pos, true⟩

def Entry.isReturned (i : ℕ) : Entry → Bool
  | .ended j (.ok _) => j = i
  | _ => false

set_option maxRecDepth 4000 in
theorem answeredCommand_returns :
    (run checkedConfig answeredCommand).map (fun b => b.log.any (Entry.isReturned 1)) =
      some true := by
  decide

theorem results_go_to_the_right_call_answeredCommand :
    ∃ b details, run checkedConfig answeredCommand = some b ∧
      .ended 1 (.ok details) ∈ b.log ∧ Attributed checkedConfig b.log 1 details := by
  obtain ⟨b, hb, hany⟩ := Option.map_eq_some_iff.mp answeredCommand_returns
  obtain ⟨e, he, hi⟩ := List.any_eq_true.mp hany
  obtain ⟨details, rfl⟩ : ∃ details, e = .ended 1 (.ok details) := by
    cases e with
    | ended j outcome =>
        cases outcome with
        | error _ => cases hi
        | ok details => exact ⟨details, by rw [show j = 1 by simpa [Entry.isReturned] using hi]⟩
    | _ => cases hi
  exact ⟨b, details, hb, he,
    (results_go_to_the_right_call checkedConfig answeredCommand b hb).1 1 details he⟩
end Ally.PCAgentBridge
