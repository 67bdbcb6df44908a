import Ally.AuthDatabase
import Ally.Machine

/-!
# Companion devices

`DeviceRegistry`: pairing tokens, their redemption by a device and the revocation of the
device of a tenant. The random draws of an operation are its arguments.
-/

open Relational

namespace Ally.Auth

open Raising

def pairingTtlSeconds : ℕ := 120

def maxPendingPairings : ℕ := 4096

/-- `sorted(DEVICE_SCOPES)`. -/
def deviceScopes : List String := ["pc:connect"]

structure PairedDevice where
  tenantId : Uuid
  credentialId : Uuid
  deviceId : Uuid
  deriving DecidableEq

structure DeviceEnrollment where
  deviceId : Uuid
  apiKey : String
  deriving DecidableEq

variable (hash : String → String)

/-- `INSERT INTO companion_pairings … ON CONFLICT (tenant_id) DO UPDATE`. -/
def AuthDb.upsertPairing (db : AuthDb) (pairing : CompanionPairing) :
    Except AuthExn AuthDb := do
  demand (db.pairings.select (fun p =>
      decide (p.tenantId ≠ pairing.tenantId) && decide (p.tokenHash = pairing.tokenHash)) = none)
    (.integrityError "companion_pairings_token_hash_key")
  return { db with pairings := db.pairings.put pairing }

def issuePairing (db : AuthDb) (tenantId : Uuid) (token : String) :
    AuthDb × Except AuthExn String :=
  transaction db do
    demand (tenantId ∈ db.tenants) (.authorizationDenied "Tenant does not exist")
    let pruned := { db with pairings := db.pairings.delete fun p => p.expiresAt ≤ db.now }
    demand (pruned.pairings.count (fun _ => true) < maxPendingPairings)
      (.pairingCapacityExceeded "Too many pending enrollments")
    let issued ← pruned.upsertPairing
      ⟨tenantId, hash token, db.now + microseconds pairingTtlSeconds⟩
    return (token, issued)

/-- The devices of the tenant that are not revoked. -/
def CompanionDevice.activeFor (tenantId : Uuid) (d : CompanionDevice) : Bool :=
  decide (d.tenantId = tenantId) && d.revokedAt.isNone

def CompanionDevice.revoke (now : ℤ) : Rewrite CompanionDevice.id where
  toFun d := { d with revokedAt := some now }
  keeps _ := rfl

/-- The unrevoked key of an active device of the tenant. -/
def AuthDb.ofActiveDevice (db : AuthDb) (tenantId : Uuid) (k : ApiKey) : Bool :=
  k.revokedAt.isNone && db.devices.rows.any fun d =>
    d.activeFor tenantId && decide (d.credentialId = k.id)

/-- `DeviceRegistry._revoke`: first the keys of the tenant's devices, then the devices. -/
def AuthDb.revokeDevices (db : AuthDb) (tenantId : Uuid) : AuthDb :=
  { db with
    apiKeys := db.apiKeys.update (db.ofActiveDevice tenantId) (ApiKey.revoke db.now)
    devices := db.devices.update (CompanionDevice.activeFor tenantId)
      (CompanionDevice.revoke db.now) }

/-- `INSERT INTO companion_devices`. -/
def AuthDb.insertDevice (db : AuthDb) (device : CompanionDevice) : Except AuthExn AuthDb := do
  demand ((db.apiKeys.select fun k =>
      decide (k.id = device.credentialId) && decide (k.tenantId = device.tenantId)) ≠ none)
    (.integrityError "companion_devices_credential_id_tenant_id_fkey")
  demand (db.devices.select (·.credentialId = device.credentialId) = none)
    (.integrityError "companion_devices_credential_id_key")
  demand (db.devices.select (CompanionDevice.activeFor device.tenantId) = none)
    (.integrityError "companion_one_active_device")
  let devices ← fetchRow (db.devices.insert device) (.integrityError "companion_devices_pkey")
  return { db with devices := devices }

/-- The key and the device that a redemption adds. -/
def AuthDb.enroll (db : AuthDb) (tenantId deviceId credentialId : Uuid) (rawKey : String) :
    Except AuthExn (DeviceEnrollment × AuthDb) := do
  let keyed ← db.insertApiKey
    ⟨credentialId, tenantId, hash rawKey, deviceScopes, none, by decide⟩
  let enrolled ← keyed.insertDevice ⟨deviceId, tenantId, credentialId, none⟩
  return (⟨deviceId, rawKey⟩, enrolled)

def invalidPairing : AuthExn := .authorizationDenied "Invalid or expired pairing token"

/-- `DELETE … RETURNING` of the unexpired pairing of the token. -/
def AuthDb.takePairing (db : AuthDb) (tenantId : Uuid) (tokenHash : String) :
    Except AuthExn AuthDb := do
  let usable (p : CompanionPairing) := decide (p.tenantId = tenantId) &&
    decide (p.tokenHash = tokenHash) && decide (db.now < p.expiresAt)
  demand (0 < db.pairings.count usable) invalidPairing
  return { db with pairings := db.pairings.delete usable }

def redeem (db : AuthDb) (token : String) (deviceId credentialId : Uuid) (keyToken : String) :
    AuthDb × Except AuthExn DeviceEnrollment :=
  transaction db do
    demand (32 ≤ token.length ∧ token.length ≤ 128) invalidPairing
    let row ← fetchRow (db.pairings.select fun p =>
      decide (p.tokenHash = hash token) && db.tenants.contains p.tenantId) invalidPairing
    let taken ← db.takePairing row.tenantId (hash token)
    (taken.revokeDevices row.tenantId).enroll hash row.tenantId deviceId credentialId
      (generateApiKey keyToken)

def revoke (db : AuthDb) (tenantId : Uuid) : AuthDb × Except AuthExn Unit :=
  transaction db do
    demand (tenantId ∈ db.tenants) (.authorizationDenied "Tenant does not exist")
    let revoked := db.revokeDevices tenantId
    return ((), { revoked with
      pairings := revoked.pairings.delete fun p => p.tenantId = tenantId })

def requireActive (db : AuthDb) (device : PairedDevice) : Except AuthExn Unit :=
  demand (db.devices.rows.any (fun d =>
      decide (d.id = device.deviceId) && decide (d.tenantId = device.tenantId) &&
        decide (d.credentialId = device.credentialId) && d.revokedAt.isNone &&
        db.apiKeys.rows.any fun k =>
          decide (k.id = d.credentialId) && decide (k.tenantId = d.tenantId) &&
            k.revokedAt.isNone && decide (k.scopes = deviceScopes)) = true)
    (.authorizationDenied "Paired device is no longer active")

/-! ### Operations in any order -/

inductive DeviceOp
  | issuePairing (tenantId : Uuid) (token : String)
  | redeem (token : String) (deviceId credentialId : Uuid) (keyToken : String)
  | revoke (tenantId : Uuid)
  | revokeApiKey (rawKey : String)
  | advance (elapsed : ℕ)
  deriving DecidableEq

/-- The database after an operation, and whether it returned. -/
def DeviceOp.perform (db : AuthDb) : DeviceOp → AuthDb × Except AuthExn Unit
  | .issuePairing tenantId token =>
      let r := Auth.issuePairing hash db tenantId token
      (r.1, r.2.map fun _ => ())
  | .redeem token deviceId credentialId keyToken =>
      let r := Auth.redeem hash db token deviceId credentialId keyToken
      (r.1, r.2.map fun _ => ())
  | .revoke tenantId => Auth.revoke db tenantId
  | .revokeApiKey rawKey =>
      let r := Auth.revokeApiKey hash db rawKey
      (r.1, r.2.map fun _ => ())
  | .advance elapsed => ({ db with now := db.now + elapsed }, .ok ())

/-- The database after a sequence of operations, each of which may raise. -/
def AuthDb.after (db : AuthDb) (ops : List DeviceOp) : AuthDb :=
  ops.foldl (fun db op => (op.perform hash db).1) db

end Ally.Auth
