import Ally.AuthDatabase
import Ally.Machine

/-!
# WebSocket tickets

`PostgresTicketStore`: issue under the advisory lock and single consumption.
-/

open Relational

namespace Ally.Auth

open Raising

/-- The settings tickets depend on. -/
structure TicketSettings where
  ticket_ttl_seconds : ℕ
  max_tickets : ℕ
  max_tickets_per_credential : ℕ
  ticket_ttl_bounds : 1 ≤ ticket_ttl_seconds ∧ ticket_ttl_seconds ≤ 120
  max_tickets_bounds : 1 ≤ max_tickets ∧ max_tickets ≤ 100000
  max_tickets_per_credential_bounds :
    1 ≤ max_tickets_per_credential ∧ max_tickets_per_credential ≤ 100

def defaultTicketSettings : TicketSettings :=
  ⟨30, 4096, 8, by decide, by decide, by decide⟩

/-- `Principal.require` of one scope. -/
def requireScope (p : Principal) (scope : String) : Except AuthExn Unit :=
  demand (p.permits {scope} = true)
    (.authorizationDenied "Credential is not permitted to perform this operation")

theorem requireScope_ok {p : Principal} {scope : String} {u : Unit}
    (h : requireScope p scope = .ok u) : scope ∈ p.scopes := by
  have hsub : {scope} ⊆ p.scopes := of_decide_eq_true (demand_eq_ok.mp h)
  exact hsub (Finset.mem_singleton_self scope)

variable (hash : String → String)

/-- The unrevoked row of the credential a principal names. -/
def AuthDb.activeKey (db : AuthDb) (principal : Principal) : Option ApiKey :=
  db.apiKeys.select fun k => decide (Uuid.text k.id = principal.credentialId) &&
    decide (Uuid.text k.tenantId = principal.tenantId) && k.revokedAt.isNone

/-- The count and the insertion, under the caps. -/
def AuthDb.insertTicket (settings : TicketSettings) (db : AuthDb) (ticket : WebsocketTicket) :
    Except AuthExn AuthDb := do
  demand (db.tickets.count (fun _ => true) < settings.max_tickets ∧
      db.tickets.count (fun t => decide (t.credentialId = ticket.credentialId)) <
        settings.max_tickets_per_credential)
    (.ticketCapacityExceeded "Too many outstanding WebSocket tickets")
  let tickets ← fetchRow (db.tickets.insert ticket) (.integrityError "websocket_tickets_pkey")
  return { db with tickets := tickets }

def AuthDb.pruneTickets (db : AuthDb) : AuthDb :=
  { db with tickets := db.tickets.delete fun t => t.expiresAt ≤ db.now }

def issueTicket (settings : TicketSettings) (db : AuthDb) (principal : Principal)
    (audience : Audience) (token : String) : AuthDb × Except AuthExn String :=
  transaction db do
    requireScope principal audience.scope
    let row ← fetchRow (db.activeKey principal)
      (.authorizationDenied "Credential is no longer active")
    let current ← row.principal
    requireScope current audience.scope
    let issued ← db.pruneTickets.insertTicket settings
      ⟨hash token, row.id, row.tenantId, audience,
        db.now + microseconds settings.ticket_ttl_seconds⟩
    return (token, issued)

/-- The unrevoked key of a ticket. -/
def AuthDb.keyOf (db : AuthDb) (t : WebsocketTicket) : Option ApiKey :=
  db.apiKeys.select fun k => decide (k.id = t.credentialId) &&
    decide (k.tenantId = t.tenantId) && k.revokedAt.isNone

/-- The rows the `DELETE … USING` of a consumption removes. -/
def AuthDb.usable (db : AuthDb) (tokenHash : String) (audience : Audience)
    (t : WebsocketTicket) : Bool :=
  decide (t.tokenHash = tokenHash) && decide (t.audience = audience) &&
    decide (db.now < t.expiresAt) && (db.keyOf t).isSome

/-- The scope is checked after the commit, so a ticket whose credential has lost it is
used up. -/
def consumeTicket (db : AuthDb) (token : String) (audience : Audience) :
    AuthDb × Except AuthExn (Option Principal) :=
  if token.length < 32 ∨ 128 < token.length then (db, .ok none)
  else match (db.tickets.select (db.usable (hash token) audience)).bind db.keyOf with
    | none => (db, .ok none)
    | some key =>
        match key.principal with
        | .error e => (db, .error e)
        | .ok principal =>
            ({ db with tickets := db.tickets.delete (db.usable (hash token) audience) },
              (requireScope principal audience.scope).map fun _ => some principal)

/-- `UPDATE api_keys SET scopes` by an operator, under the check constraint. -/
def setScopes (db : AuthDb) (credentialId : Uuid) (scopes : List String) :
    AuthDb × Except AuthExn Unit :=
  if h : scopes.toFinset ⊆ knownScopes then
    ({ db with
      apiKeys := db.apiKeys.update (fun k => k.id = credentialId)
        ⟨fun k => { k with scopes := scopes, api_keys_known_scopes := h }, fun _ => rfl⟩ }, .ok ())
  else (db, .error (.integrityError "api_keys_known_scopes"))

inductive TicketOp
  | issue (principal : Principal) (audience : Audience) (token : String)
  | consume (token : String) (audience : Audience)
  | revokeApiKey (rawKey : String)
  | setScopes (credentialId : Uuid) (scopes : List String)
  | advance (elapsed : ℕ)

/-- The database after an operation; only a consumption returns a principal. -/
def TicketOp.perform (settings : TicketSettings) (db : AuthDb) :
    TicketOp → AuthDb × Except AuthExn (Option Principal)
  | .issue principal audience token =>
      let r := issueTicket hash settings db principal audience token
      (r.1, r.2.map fun _ => none)
  | .consume token audience => consumeTicket hash db token audience
  | .revokeApiKey rawKey =>
      let r := Auth.revokeApiKey hash db rawKey
      (r.1, r.2.map fun _ => none)
  | .setScopes credentialId scopes =>
      let r := Auth.setScopes db credentialId scopes
      (r.1, r.2.map fun _ => none)
  | .advance elapsed => ({ db with now := db.now + elapsed }, .ok none)

/-- The database after a sequence of operations. -/
def AuthDb.afterTickets (settings : TicketSettings) (db : AuthDb) (ops : List TicketOp) : AuthDb :=
  ops.foldl (fun db op => (op.perform hash settings db).1) db

end Ally.Auth
