import Ally.ChunkIdentity
import Ally.Principal
import Ally.Raising

/-!
# The authentication tables

Rows of tenants, API keys, companion devices, pairings and WebSocket tickets, with the
constraints of the migrations. Times are microseconds, and a transaction is atomic: it
sees one time, and one that raises is rolled back.
-/

open Relational

namespace Ally.Auth

open Raising

/-- A row of `api_keys`, with its check constraint. -/
structure ApiKey where
  id : Uuid
  tenantId : Uuid
  keyHash : String
  scopes : List String
  revokedAt : Option ℤ
  api_keys_known_scopes : scopes.toFinset ⊆ knownScopes
  deriving DecidableEq

/-- A row of `companion_devices`. -/
structure CompanionDevice where
  id : Uuid
  tenantId : Uuid
  credentialId : Uuid
  revokedAt : Option ℤ
  deriving DecidableEq

/-- A row of `companion_pairings`. -/
structure CompanionPairing where
  tenantId : Uuid
  tokenHash : String
  expiresAt : ℤ
  deriving DecidableEq

inductive Audience
  | chat
  | pcAgent
  deriving DecidableEq, Repr

/-- `AUDIENCE_SCOPE`. -/
def Audience.scope : Audience → String
  | .chat => "chat:use"
  | .pcAgent => "pc:connect"

/-- A row of `websocket_tickets`. -/
structure WebsocketTicket where
  tokenHash : String
  credentialId : Uuid
  tenantId : Uuid
  audience : Audience
  expiresAt : ℤ
  deriving DecidableEq

structure AuthDb where
  tenants : List Uuid
  apiKeys : Table ApiKey.id
  devices : Table CompanionDevice.id
  pairings : Table CompanionPairing.tenantId
  tickets : Table WebsocketTicket.tokenHash
  now : ℤ

inductive AuthExn
  | authorizationDenied (message : String)
  | pairingCapacityExceeded (message : String)
  | ticketCapacityExceeded (message : String)
  | valueError (message : String)
  | integrityError (constraint : String)
  deriving DecidableEq, Repr

/-- `if not condition: raise error`. -/
def demand (condition : Prop) [Decidable condition] (error : AuthExn) : Except AuthExn Unit :=
  if condition then .ok () else .error error

theorem demand_eq_ok {c : Prop} [Decidable c] {e : AuthExn} {u : Unit} :
    demand c e = .ok u ↔ c := by
  unfold demand
  split_ifs with h
  · exact iff_of_true rfl h
  · exact iff_of_false nofun h

/-- `row = cur.fetchone()` followed by `if row is None: raise error`. -/
def fetchRow {α : Type} (row : Option α) (error : AuthExn) : Except AuthExn α :=
  match row with
  | some a => .ok a
  | none => .error error

theorem fetchRow_eq_ok {α : Type} {row : Option α} {e : AuthExn} {a : α} :
    fetchRow row e = .ok a ↔ row = some a := by
  cases row with
  | none => exact iff_of_false nofun nofun
  | some b => simp [fetchRow]

/-- `conn.commit()` at the end of the body, `conn.rollback()` when it raises. -/
def transaction {α : Type} (db : AuthDb) (body : Except AuthExn (α × AuthDb)) :
    AuthDb × Except AuthExn α :=
  match body with
  | .ok (a, db') => (db', .ok a)
  | .error e => (db, .error e)

theorem transaction_eq_ok {α : Type} {db : AuthDb} {body : Except AuthExn (α × AuthDb)} {a : α} :
    (transaction db body).2 = .ok a ↔ ∃ db', body = .ok (a, db') := by
  cases body with
  | error e => exact iff_of_false nofun nofun
  | ok r =>
      obtain ⟨b, db'⟩ := r
      simp [transaction]

/-- A transaction leaves the database of its body, or the one it began with. -/
theorem transaction_cases {α : Type} (db : AuthDb) (body : Except AuthExn (α × AuthDb)) :
    (∃ a db', body = .ok (a, db') ∧ transaction db body = (db', .ok a)) ∨
      ∃ e, body = .error e ∧ transaction db body = (db, .error e) := by
  cases body with
  | error e => exact .inr ⟨e, rfl, rfl⟩
  | ok r => exact .inl ⟨r.1, r.2, rfl, rfl⟩

def microseconds (seconds : ℕ) : ℤ := seconds * 1000000

/-! ### API keys -/

variable (hash : String → String)

def apiKeyPrefix : String := "ally_"

/-- The raw key for a random token. -/
def generateApiKey (token : String) : String := apiKeyPrefix ++ token

/-- `SET revoked_at=NOW()` on a key. -/
def ApiKey.revoke (now : ℤ) : Rewrite ApiKey.id where
  toFun key := { key with revokedAt := some now }
  keeps _ := rfl

/-- `INSERT INTO api_keys`. -/
def AuthDb.insertApiKey (db : AuthDb) (key : ApiKey) : Except AuthExn AuthDb := do
  demand (key.tenantId ∈ db.tenants) (.integrityError "api_keys_tenant_id_fkey")
  demand (db.apiKeys.select (·.keyHash = key.keyHash) = none)
    (.integrityError "api_keys_key_hash_key")
  let apiKeys ← fetchRow (db.apiKeys.insert key) (.integrityError "api_keys_pkey")
  return { db with apiKeys := apiKeys }

theorem AuthDb.insertApiKey_ok {db db' : AuthDb} {key : ApiKey}
    (h : db.insertApiKey key = .ok db') :
    key.tenantId ∈ db.tenants ∧ (∀ k ∈ db.apiKeys, k.keyHash ≠ key.keyHash) ∧
      ∃ apiKeys, db.apiKeys.insert key = some apiKeys ∧ db' = { db with apiKeys := apiKeys } := by
  unfold AuthDb.insertApiKey at h
  obtain ⟨_, htenant, h⟩ := bind_eq_ok.mp h
  obtain ⟨_, hhash, h⟩ := bind_eq_ok.mp h
  obtain ⟨apiKeys, hinsert, h⟩ := bind_eq_ok.mp h
  refine ⟨demand_eq_ok.mp htenant, fun k hk => ?_, apiKeys, fetchRow_eq_ok.mp hinsert,
    (pure_eq_ok.mp h).symm⟩
  exact of_decide_eq_false (Table.select_none.mp (demand_eq_ok.mp hhash) k hk)

/-- `Principal(str(row[1]), str(row[0]), frozenset(row[2]))`. -/
def ApiKey.principal (key : ApiKey) : Except AuthExn Principal :=
  fetchRow (Principal.make (Uuid.text key.tenantId) (Uuid.text key.id) key.scopes.toFinset)
    (.valueError "Principal identity must not be empty")

theorem ApiKey.principal_ok {key : ApiKey} {p : Principal} (h : key.principal = .ok p) :
    p.tenantId = Uuid.text key.tenantId ∧ p.credentialId = Uuid.text key.id ∧
      p.scopes = key.scopes.toFinset :=
  Principal.make_some (fetchRow_eq_ok.mp h)

def resolvePrincipal (db : AuthDb) (rawKey : Option String) :
    Except AuthExn (Option Principal) :=
  match rawKey with
  | none => .ok none
  | some rawKey =>
      if rawKey.isEmpty ∨ 256 < rawKey.length then .ok none
      else match db.apiKeys.select fun k => k.keyHash = hash rawKey && k.revokedAt.isNone with
        | none => .ok none
        | some key => key.principal.map some

/-- The principal of a key is that of an unrevoked row with the key's hash. -/
theorem resolvePrincipal_some {db : AuthDb} {rawKey : Option String} {p : Principal}
    (h : resolvePrincipal hash db rawKey = .ok (some p)) :
    ∃ raw, rawKey = some raw ∧ ∃ key ∈ db.apiKeys, key.keyHash = hash raw ∧
      key.revokedAt = none ∧ p.credentialId = Uuid.text key.id := by
  unfold resolvePrincipal at h
  cases rawKey with
  | none => cases h
  | some raw =>
      dsimp only at h
      split at h
      · cases h
      · split at h
        · cases h
        · next key hkey =>
            obtain ⟨hmem, hp⟩ := Table.select_some hkey
            obtain ⟨q, hq, hsome⟩ := map_eq_ok.mp h
            cases hsome
            rw [Bool.and_eq_true, decide_eq_true_eq, Option.isNone_iff_eq_none] at hp
            exact ⟨raw, rfl, key, hmem, hp.1, hp.2, (ApiKey.principal_ok hq).2.1⟩

theorem resolvePrincipal_none {db : AuthDb} {raw : String}
    (h : ∀ k ∈ db.apiKeys, k.keyHash = hash raw → k.revokedAt ≠ none) :
    resolvePrincipal hash db (some raw) = .ok none := by
  have hnone : db.apiKeys.select
      (fun k => decide (k.keyHash = hash raw) && k.revokedAt.isNone) = none := by
    refine Table.select_none.mpr fun k hk => ?_
    by_cases hhash : k.keyHash = hash raw
    · rw [Option.isNone_eq_false_iff.mpr (Option.isSome_iff_ne_none.mpr (h k hk hhash)),
        Bool.and_false]
    · rw [decide_eq_false hhash, Bool.false_and]
  unfold resolvePrincipal
  dsimp only
  rw [hnone]
  split
  · rfl
  · rfl

def revokeApiKey (db : AuthDb) (rawKey : String) : AuthDb × Except AuthExn Bool :=
  let active (k : ApiKey) := decide (k.keyHash = hash rawKey) && k.revokedAt.isNone
  transaction db (.ok (decide (0 < db.apiKeys.count active),
    { db with apiKeys := db.apiKeys.update active (ApiKey.revoke db.now) }))

end Ally.Auth
