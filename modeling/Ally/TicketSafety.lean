import Ally.Tickets

/-!
# Ticket safety

Single use of a ticket, the principal it gives, and both caps, in every sequence of
operations on the ticket store.
-/

open Relational

namespace Ally.Auth

open Machine Raising

variable {hash : String → String} {settings : TicketSettings} {db db' : AuthDb}

/-! ### What each operation does -/

theorem insertTicket_ok {ticket : WebsocketTicket}
    (h : db.insertTicket settings ticket = .ok db') :
    db.tickets.count (fun _ => true) < settings.max_tickets ∧
      db.tickets.count (fun t => decide (t.credentialId = ticket.credentialId)) <
        settings.max_tickets_per_credential ∧
      ∃ tickets, db.tickets.insert ticket = some tickets ∧ db' = { db with tickets := tickets } := by
  unfold AuthDb.insertTicket at h
  obtain ⟨_, hcaps, h⟩ := bind_eq_ok.mp h
  obtain ⟨tickets, hinsert, h⟩ := bind_eq_ok.mp h
  obtain ⟨htotal, howned⟩ := demand_eq_ok.mp hcaps
  exact ⟨htotal, howned, tickets, fetchRow_eq_ok.mp hinsert, (pure_eq_ok.mp h).symm⟩

theorem activeKey_some {principal : Principal} {key : ApiKey}
    (h : db.activeKey principal = some key) :
    Uuid.text key.id = principal.credentialId ∧ Uuid.text key.tenantId = principal.tenantId := by
  obtain ⟨-, hp⟩ := Table.select_some h
  rw [Bool.and_eq_true, Bool.and_eq_true, decide_eq_true_eq, decide_eq_true_eq] at hp
  exact hp.1

/-- A ticket of the principal, as an issue at the time of `db` stores it. -/
structure IssuedTo (hash : String → String) (settings : TicketSettings) (db : AuthDb)
    (principal : Principal) (audience : Audience) (token : String) (t : WebsocketTicket) :
    Prop where
  tokenHash : t.tokenHash = hash token
  credentialId : Uuid.text t.credentialId = principal.credentialId
  tenantId : Uuid.text t.tenantId = principal.tenantId
  boundTo : t.audience = audience
  expiresAt : t.expiresAt = db.now + microseconds settings.ticket_ttl_seconds

/-- An issue raises and changes nothing, or adds a ticket under the caps. -/
theorem issueTicket_cases (hash : String → String) (settings : TicketSettings) (db : AuthDb)
    (principal : Principal) (audience : Audience) (token : String) :
    (∃ e, issueTicket hash settings db principal audience token = (db, .error e)) ∨
      ∃ ticket db', IssuedTo hash settings db principal audience token ticket ∧
        db.pruneTickets.insertTicket settings ticket = .ok db' ∧
        issueTicket hash settings db principal audience token = (db', .ok token) := by
  unfold issueTicket
  rcases transaction_cases db _ with ⟨a, db', hbody, heq⟩ | ⟨e, -, heq⟩
  · right
    rw [heq]
    obtain ⟨_, -, h⟩ := bind_eq_ok.mp hbody
    obtain ⟨row, hrow, h⟩ := bind_eq_ok.mp h
    obtain ⟨current, -, h⟩ := bind_eq_ok.mp h
    obtain ⟨_, -, h⟩ := bind_eq_ok.mp h
    obtain ⟨issued, hissued, h⟩ := bind_eq_ok.mp h
    cases pure_eq_ok.mp h
    obtain ⟨hcredential, htenant⟩ := activeKey_some (fetchRow_eq_ok.mp hrow)
    have hto : IssuedTo hash settings db principal audience token
        ⟨hash token, row.id, row.tenantId, audience,
          db.now + microseconds settings.ticket_ttl_seconds⟩ :=
      ⟨rfl, hcredential, htenant, rfl, rfl⟩
    exact ⟨_, _, hto, hissued, rfl⟩
  · exact .inl ⟨e, heq⟩

/-- The principal of a usable ticket: that of the ticket's credential, as it is now. -/
structure Yields (hash : String → String) (db : AuthDb) (token : String) (audience : Audience)
    (p : Principal) (t : WebsocketTicket) : Prop where
  mem : t ∈ db.tickets
  tokenHash : t.tokenHash = hash token
  boundTo : t.audience = audience
  unexpired : db.now < t.expiresAt
  key : ∃ k ∈ db.apiKeys, k.id = t.credentialId ∧ k.tenantId = t.tenantId ∧ k.revokedAt = none ∧
    p.tenantId = Uuid.text k.tenantId ∧ p.credentialId = Uuid.text k.id ∧
    p.scopes = k.scopes.toFinset
  scope : audience.scope ∈ p.scopes

theorem usable_iff {tokenHash : String} {audience : Audience} {t : WebsocketTicket} :
    db.usable tokenHash audience t = true ↔ t.tokenHash = tokenHash ∧ t.audience = audience ∧
      db.now < t.expiresAt ∧ (db.keyOf t).isSome = true := by
  simp [AuthDb.usable, and_assoc]

theorem consumeTicket_some {token : String} {audience : Audience} {p : Principal}
    (h : (consumeTicket hash db token audience).2 = .ok (some p)) :
    (∃ t, Yields hash db token audience p t ∧ db.usable (hash token) audience t = true) ∧
      (consumeTicket hash db token audience).1 =
        { db with tickets := db.tickets.delete (db.usable (hash token) audience) } := by
  unfold consumeTicket at h ⊢
  split at h
  · cases h
  next hlength =>
    rw [if_neg hlength]
    cases hrow : (db.tickets.select (db.usable (hash token) audience)).bind db.keyOf with
    | none =>
        rw [hrow] at h
        cases h
    | some key =>
        rw [hrow] at h
        dsimp only at h ⊢
        cases hprincipal : key.principal with
        | error e =>
            rw [hprincipal] at h
            cases h
        | ok principal =>
            rw [hprincipal] at h
            obtain ⟨_, hscope, hp⟩ := map_eq_ok.mp h
            obtain rfl := Option.some.inj hp
            obtain ⟨t, ht, hkey⟩ := Option.bind_eq_some_iff.mp hrow
            obtain ⟨hmem, husable⟩ := Table.select_some ht
            obtain ⟨htoken, haudience, htime, -⟩ := usable_iff.mp husable
            obtain ⟨hkmem, hk⟩ := Table.select_some hkey
            simp only [Bool.and_eq_true, decide_eq_true_eq, Option.isNone_iff_eq_none] at hk
            exact ⟨⟨t, ⟨hmem, htoken, haudience, htime,
              ⟨key, hkmem, hk.1.1, hk.1.2, hk.2, ApiKey.principal_ok hprincipal⟩,
              requireScope_ok hscope⟩, husable⟩, rfl⟩

/-- A consumption removes tickets or leaves them. -/
theorem consumeTicket_tickets (hash : String → String) (db : AuthDb) (token : String)
    (audience : Audience) :
    ∃ p : WebsocketTicket → Bool,
      (consumeTicket hash db token audience).1.tickets = db.tickets.delete p ∨
        (consumeTicket hash db token audience).1.tickets = db.tickets := by
  unfold consumeTicket
  split
  · exact ⟨fun _ => false, .inr rfl⟩
  · split
    · exact ⟨fun _ => false, .inr rfl⟩
    · split
      · exact ⟨fun _ => false, .inr rfl⟩
      · exact ⟨_, .inl rfl⟩

/-! ### Caps -/

structure Capped (settings : TicketSettings) (db : AuthDb) : Prop where
  total : db.tickets.count (fun _ => true) ≤ settings.max_tickets
  owned : ∀ credentialId, db.tickets.count (fun t => decide (t.credentialId = credentialId)) ≤
    settings.max_tickets_per_credential

theorem Capped.congr (h : Capped settings db) (ht : db'.tickets = db.tickets) :
    Capped settings db' :=
  ⟨ht ▸ h.total, ht ▸ h.owned⟩

theorem Capped.delete (h : Capped settings db) (p : WebsocketTicket → Bool)
    (ht : db'.tickets = db.tickets.delete p) : Capped settings db' where
  total := ht ▸ (Table.count_delete_le _ _ _).trans h.total
  owned credentialId := ht ▸ (Table.count_delete_le _ _ _).trans (h.owned credentialId)

theorem Capped.insert {ticket : WebsocketTicket} (h : Capped settings db)
    (hinsert : db.insertTicket settings ticket = .ok db') : Capped settings db' := by
  obtain ⟨htotal, howned, tickets, hsome, rfl⟩ := insertTicket_ok hinsert
  constructor
  · rw [Table.count_insert hsome]
    exact htotal
  · intro credentialId
    rw [Table.count_insert hsome]
    have hold := h.owned credentialId
    split
    · next hsame =>
        rw [decide_eq_true_eq] at hsame
        subst hsame
        exact howned
    · exact hold

theorem capped_perform (op : TicketOp) (h : Capped settings db) :
    Capped settings (op.perform hash settings db).1 := by
  cases op with
  | issue principal audience token =>
      rcases issueTicket_cases hash settings db principal audience token with
        ⟨e, he⟩ | ⟨ticket, db', -, hinsert, hok⟩
      · rw [TicketOp.perform, he]
        exact h
      · rw [TicketOp.perform, hok]
        exact (h.delete _ rfl).insert hinsert
  | consume token audience =>
      obtain ⟨p, hp | hp⟩ := consumeTicket_tickets hash db token audience
      · exact h.delete p hp
      · exact h.congr hp
  | revokeApiKey rawKey => exact h.congr rfl
  | setScopes credentialId scopes =>
      rw [TicketOp.perform, setScopes]
      split
      · exact h.congr rfl
      · exact h.congr rfl
  | advance elapsed => exact h.congr rfl

/-- An issue evicts no ticket that is not expired. -/
theorem issue_keeps (hash : String → String) (settings : TicketSettings) (db : AuthDb)
    (principal : Principal) (audience : Audience) (token : String) {t : WebsocketTicket}
    (ht : t ∈ db.tickets) (htime : db.now < t.expiresAt) :
    t ∈ ((TicketOp.issue principal audience token).perform hash settings db).1.tickets := by
  rcases issueTicket_cases hash settings db principal audience token with
    ⟨e, he⟩ | ⟨ticket, db', -, hinsert, hok⟩
  · rw [TicketOp.perform, he]
    exact ht
  · rw [TicketOp.perform, hok]
    obtain ⟨-, -, tickets, hsome, rfl⟩ := insertTicket_ok hinsert
    refine ((Table.insert_some hsome).2 t).mpr (.inl (Table.mem_delete.mpr ⟨ht, ?_⟩))
    rw [decide_eq_false_iff_not, not_le]
    exact htime

/-! ### Where tickets come from -/

/-- The operation issues the ticket. -/
def IssuesTicket (hash : String → String) (settings : TicketSettings) (db : AuthDb)
    (op : TicketOp) (t : WebsocketTicket) : Prop :=
  ∃ principal token, op = .issue principal t.audience token ∧
    IssuedTo hash settings db principal t.audience token t ∧
      (op.perform hash settings db).2 = .ok none

/-- The operation is a consumption of the ticket's token that gives a principal. -/
def Consumes (hash : String → String) (settings : TicketSettings) (db : AuthDb) (op : TicketOp)
    (t : WebsocketTicket) : Prop :=
  ∃ token audience p, op = .consume token audience ∧ hash token = t.tokenHash ∧
    (op.perform hash settings db).2 = .ok (some p)

theorem ticket_step (op : TicketOp) {t : WebsocketTicket}
    (ht : t ∈ (op.perform hash settings db).1.tickets) :
    (t ∈ db.tickets ∧ ¬ Consumes hash settings db op t) ∨ IssuesTicket hash settings db op t := by
  cases op with
  | issue principal audience token =>
      rcases issueTicket_cases hash settings db principal audience token with
        ⟨e, he⟩ | ⟨ticket, db', hto, hinsert, hok⟩
      · rw [TicketOp.perform, he] at ht
        exact .inl ⟨ht, by rintro ⟨_, _, _, h, -⟩; cases h⟩
      · rw [TicketOp.perform, hok] at ht
        obtain ⟨-, -, tickets, hsome, rfl⟩ := insertTicket_ok hinsert
        rcases ((Table.insert_some hsome).2 t).mp ht with hold | rfl
        · exact .inl ⟨(Table.mem_delete.mp hold).1, by rintro ⟨_, _, _, h, -⟩; cases h⟩
        · have haudience := hto.boundTo
          refine .inr ⟨principal, token, ?_, ?_, ?_⟩
          · rw [haudience]
          · rw [haudience]
            exact hto
          · rw [TicketOp.perform, hok]
            rfl
  | consume token audience =>
      refine .inl ⟨?_, ?_⟩
      · obtain ⟨p, hp | hp⟩ := consumeTicket_tickets hash db token audience
        · rw [TicketOp.perform, hp] at ht
          exact (Table.mem_delete.mp ht).1
        · rw [TicketOp.perform, hp] at ht
          exact ht
      · rintro ⟨token', audience', p, hop, htoken, hp⟩
        cases hop
        obtain ⟨⟨used, hyields, husable⟩, hdb⟩ := consumeTicket_some hp
        rw [TicketOp.perform, hdb] at ht
        obtain ⟨hmem, hnot⟩ := Table.mem_delete.mp ht
        -- the token is the primary key, so this is the ticket that was used
        obtain rfl := Table.eq_of_key_eq hmem hyields.mem (htoken.symm.trans hyields.tokenHash.symm)
        rw [husable] at hnot
        cases hnot
  | revokeApiKey rawKey => exact .inl ⟨ht, by rintro ⟨_, _, _, h, -⟩; cases h⟩
  | setScopes credentialId scopes =>
      rw [TicketOp.perform, setScopes] at ht
      refine .inl ⟨?_, by rintro ⟨_, _, _, h, -⟩; cases h⟩
      split at ht
      · exact ht
      · exact ht
  | advance elapsed => exact .inl ⟨ht, by rintro ⟨_, _, _, h, -⟩; cases h⟩

/-! ### Every sequence of operations -/

def TicketOp.token : TicketOp → Option String
  | .issue _ _ token => some token
  | _ => none

/-- The tokens issued, in order. -/
def issuedTokens (ops : List TicketOp) : List String := ops.filterMap TicketOp.token

/-- The tokens a sequence issues or consumes. -/
def ticketTokens (ops : List TicketOp) : Set String :=
  {token | token ∈ issuedTokens ops ∨ ∃ audience, .consume token audience ∈ ops}

theorem ticket_origin (hash : String → String) (settings : TicketSettings)
    (hnone : db.tickets = .empty) (ops : List TicketOp) {t : WebsocketTicket}
    (ht : t ∈ (db.afterTickets hash settings ops).tickets) : ∃ before op between,
      ops = before ++ op :: between ∧
        IssuesTicket hash settings (db.afterTickets hash settings before) op t ∧
        ∀ b x c, between = b ++ x :: c →
          ¬ Consumes hash settings (db.afterTickets hash settings (before ++ op :: b)) x t :=
  exists_origin (fun _ => True) (fun db t => t ∈ db.tickets) (IssuesTicket hash settings)
    (Consumes hash settings) (fun _ _ _ => trivial) (fun _ op _ _ ht => ticket_step op ht) trivial
    (fun t ht => Table.notMem_empty t (hnone ▸ ht)) ops ht

/-- What a principal that a ticket gave stands for. -/
structure Issued (hash : String → String) (settings : TicketSettings) (db : AuthDb)
    (past : List TicketOp) (token : String) (audience : Audience) (p : Principal) : Prop where
  issue : ∃ before principal between,
    past = before ++ .issue principal audience token :: between ∧
      ((TicketOp.issue principal audience token).perform hash settings
        (db.afterTickets hash settings before)).2 = .ok none ∧
      (db.afterTickets hash settings past).now < (db.afterTickets hash settings before).now +
        microseconds settings.ticket_ttl_seconds ∧
      p.tenantId = principal.tenantId ∧ p.credentialId = principal.credentialId
  key : ∃ k ∈ (db.afterTickets hash settings past).apiKeys, k.revokedAt = none ∧
    Uuid.text k.id = p.credentialId ∧ Uuid.text k.tenantId = p.tenantId ∧
    k.scopes.toFinset = p.scopes
  scope : audience.scope ∈ p.scopes

theorem mem_issuedTokens {ops : List TicketOp} {principal : Principal} {audience : Audience}
    {token : String} (h : .issue principal audience token ∈ ops) : token ∈ issuedTokens ops :=
  List.mem_filterMap.mpr ⟨_, h, rfl⟩

theorem consume_issued (hnone : db.tickets = .empty) {pre : List TicketOp} {token : String}
    {audience : Audience} {p : Principal}
    (hhash : Set.InjOn hash (ticketTokens (pre ++ [.consume token audience])))
    (hp : ((TicketOp.consume token audience).perform hash settings
      (db.afterTickets hash settings pre)).2 = .ok (some p)) :
    Issued hash settings db pre token audience p := by
  obtain ⟨⟨t, hyields, -⟩, -⟩ := consumeTicket_some hp
  obtain ⟨before, op, between, hpre, ⟨principal, token', rfl, hto, hok⟩, -⟩ :=
    ticket_origin hash settings hnone pre hyields.mem
  obtain ⟨k, hk, hid, htenant, hactive, hptenant, hpid, hscopes⟩ := hyields.key
  have hmem : .issue principal t.audience token' ∈ pre := by
    rw [hpre]
    exact List.mem_append_right _ List.mem_cons_self
  have hissue : token' ∈ issuedTokens (pre ++ [.consume token audience]) :=
    mem_issuedTokens (List.mem_append_left _ hmem)
  obtain rfl : token' = token := hhash (.inl hissue) (.inr ⟨audience, by simp⟩)
    (hto.tokenHash.symm.trans hyields.tokenHash)
  obtain rfl : t.audience = audience := hyields.boundTo
  refine ⟨⟨before, principal, between, hpre, hok, ?_, ?_, ?_⟩, ⟨k, hk, hactive, hpid.symm,
    hptenant.symm, hscopes.symm⟩, hyields.scope⟩
  · rw [← hto.expiresAt]
    exact hyields.unexpired
  · rw [hptenant, htenant, hto.tenantId]
  · rw [hpid, hid, hto.credentialId]

/-- The second of two consumptions of a token needs another issue of it. -/
theorem issued_again (hnone : db.tickets = .empty) {pre mid : List TicketOp} {token : String}
    {audience audience' : Audience} {p p' : Principal}
    (hhash : Set.InjOn hash
      (ticketTokens (pre ++ .consume token audience :: mid ++ [.consume token audience'])))
    (hp : ((TicketOp.consume token audience).perform hash settings
      (db.afterTickets hash settings pre)).2 = .ok (some p))
    (hp' : ((TicketOp.consume token audience').perform hash settings
      (db.afterTickets hash settings (pre ++ .consume token audience :: mid))).2 =
        .ok (some p')) : token ∈ issuedTokens mid := by
  obtain ⟨⟨t, hyields, -⟩, -⟩ := consumeTicket_some hp'
  obtain ⟨before, op, between, hsplit, ⟨principal, token', rfl, hto, -⟩, hquiet⟩ :=
    ticket_origin hash settings hnone _ hyields.mem
  have hmid : .issue principal t.audience token' ∈ mid := by
    refine origin_after hsplit (fun h => by cases h) hquiet ?_
    exact ⟨token, audience, p, rfl, hyields.tokenHash.symm, hp⟩
  have hissue : token' ∈
      issuedTokens (pre ++ .consume token audience :: mid ++ [.consume token audience']) :=
    mem_issuedTokens (List.mem_append_left _ (List.mem_append_right _
      (List.mem_cons_of_mem _ hmid)))
  obtain rfl : token' = token := hhash (.inl hissue) (.inr ⟨audience', by simp⟩)
    (hto.tokenHash.symm.trans hyields.tokenHash)
  exact mem_issuedTokens hmid

theorem ticketTokens_mono {ops ops' : List TicketOp} (h : ops ⊆ ops') :
    ticketTokens ops ⊆ ticketTokens ops' := by
  rintro token (hissued | ⟨audience, hconsumed⟩)
  · obtain ⟨op, hop, htoken⟩ := List.mem_filterMap.mp hissued
    exact .inl (List.mem_filterMap.mpr ⟨op, h hop, htoken⟩)
  · exact .inr ⟨audience, h hconsumed⟩

theorem capped_empty (settings : TicketSettings) (hnone : db.tickets = .empty) :
    Capped settings db where
  total := by
    rw [hnone]
    exact Nat.zero_le _
  owned credentialId := by
    rw [hnone]
    exact Nat.zero_le _

/-- Tickets are safe in every sequence of operations that issues no token twice. -/
theorem ticket_safety (hash : String → String) (settings : TicketSettings) {db : AuthDb}
    (hnone : db.tickets = .empty) (ops : List TicketOp) (hhash : Set.InjOn hash (ticketTokens ops))
    (hdistinct : (issuedTokens ops).Nodup) :
    (∀ pre token audience post p, ops = pre ++ .consume token audience :: post →
      (consumeTicket hash (db.afterTickets hash settings pre) token audience).2 = .ok (some p) →
        Issued hash settings db pre token audience p) ∧
    (∀ pre token audience mid audience' post p, ops =
        pre ++ .consume token audience :: mid ++ .consume token audience' :: post →
      (consumeTicket hash (db.afterTickets hash settings pre) token audience).2 = .ok (some p) →
        ∀ p', (consumeTicket hash (db.afterTickets hash settings
          (pre ++ .consume token audience :: mid)) token audience').2 ≠ .ok (some p')) ∧
    (db.afterTickets hash settings ops).tickets.count (fun _ => true) ≤ settings.max_tickets ∧
    (∀ credentialId, (db.afterTickets hash settings ops).tickets.count
        (fun t => decide (t.credentialId = credentialId)) ≤
      settings.max_tickets_per_credential) ∧
    ∀ (db : AuthDb) (principal : Principal) (audience : Audience) (token : String),
      ∀ t ∈ db.tickets, db.now < t.expiresAt →
        t ∈ (issueTicket hash settings db principal audience token).1.tickets := by
  have hcapped : Capped settings (db.afterTickets hash settings ops) :=
    foldl_invariant (fun _ op h => capped_perform op h) (capped_empty settings hnone) ops
  refine ⟨?_, ?_, hcapped.total, hcapped.owned,
    fun db principal audience token t => issue_keeps hash settings db principal audience token⟩
  · intro pre token audience post p hops hp
    have hfirst : pre ++ [.consume token audience] <+: ops := ⟨post, by rw [hops]; simp⟩
    exact consume_issued hnone (hhash.mono (ticketTokens_mono hfirst.subset)) hp
  · intro pre token audience mid audience' post p hops hp p' hp'
    have hfirst : pre ++ [.consume token audience] <+: ops :=
      ⟨mid ++ .consume token audience' :: post, by rw [hops]; simp⟩
    have hsecond : pre ++ .consume token audience :: mid ++ [.consume token audience'] <+: ops :=
      ⟨post, by rw [hops]; simp⟩
    have hagain := issued_again hnone (hhash.mono (ticketTokens_mono hsecond.subset)) hp hp'
    obtain ⟨before, principal, between, hpre, -⟩ :=
      (consume_issued hnone (hhash.mono (ticketTokens_mono hfirst.subset)) hp).issue
    have hbefore : token ∈ issuedTokens pre := by
      rw [hpre]
      exact mem_issuedTokens (List.mem_append_right _ List.mem_cons_self)
    -- the token is issued before the first consumption and again after it
    rw [hops, issuedTokens, List.append_assoc, List.filterMap_append] at hdistinct
    refine (List.nodup_append.mp hdistinct).2.2 token hbefore token ?_ rfl
    rw [List.cons_append, List.filterMap_cons, List.filterMap_append]
    exact List.mem_append_left _ hagain

def chatKey : ApiKey := ⟨1, 0, "h", ["chat:use"], none, by decide⟩

/-- One tenant with one key. -/
def chatTenant : AuthDb := ⟨[0], ⟨[chatKey], by simp⟩, .empty, .empty, .empty, 0⟩

def chatPrincipal : Principal where
  tenantId := Uuid.text 0
  credentialId := Uuid.text 1
  scopes := {"chat:use"}
  tenantId_filled := by decide +kernel
  credentialId_filled := by decide +kernel
  scopes_known := by decide

def chatToken : String := "a-ticket-of-at-least-32-characters"

def chatTicket : List TicketOp :=
  [.issue chatPrincipal .chat chatToken, .advance 1000000, .consume chatToken .chat,
    .consume chatToken .chat]

theorem ticket_safety_chatTicket :
    ∃ p, (consumeTicket id (chatTenant.afterTickets id defaultTicketSettings
        (chatTicket.take 2)) chatToken .chat).2 = .ok (some p) ∧
      Issued id defaultTicketSettings chatTenant (chatTicket.take 2) chatToken .chat p := by
  have hsome : (consumeTicket id (chatTenant.afterTickets id defaultTicketSettings
      (chatTicket.take 2)) chatToken .chat).2.toOption.join.isSome = true := by
    decide +kernel
  have hnone : chatTenant.tickets = .empty := rfl
  obtain ⟨hissued, -⟩ := ticket_safety id defaultTicketSettings hnone chatTicket
    Function.injective_id.injOn (List.nodup_singleton chatToken)
  cases hresult : (consumeTicket id (chatTenant.afterTickets id defaultTicketSettings
      (chatTicket.take 2)) chatToken .chat).2 with
  | error e =>
      rw [hresult] at hsome
      cases hsome
  | ok result =>
      cases result with
      | none =>
          rw [hresult] at hsome
          cases hsome
      | some p => exact ⟨p, rfl, hissued _ _ _ (chatTicket.drop 3) p rfl hresult⟩

end Ally.Auth
