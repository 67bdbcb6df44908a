import Ally.Devices

/-!
# Device pairing

At most one active device and one pairing token a tenant, single use of the latest token,
and no way back for the credential of a device that was replaced or revoked.
-/

open Relational

namespace Ally.Auth

open Machine Raising

variable {hash : String → String} {db db' : AuthDb} {op : DeviceOp}

/-! ### What each operation does -/

theorem upsertPairing_ok {pairing : CompanionPairing} (h : db.upsertPairing pairing = .ok db') :
    (∀ p ∈ db.pairings, p.tenantId ≠ pairing.tenantId → p.tokenHash ≠ pairing.tokenHash) ∧
      db' = { db with pairings := db.pairings.put pairing } := by
  unfold AuthDb.upsertPairing at h
  obtain ⟨_, hother, h⟩ := bind_eq_ok.mp h
  refine ⟨fun p hp htenant htoken => ?_, (pure_eq_ok.mp h).symm⟩
  have hnone := Table.select_none.mp (demand_eq_ok.mp hother) p hp
  simp [htenant, htoken] at hnone

theorem issuePairing_cases (hash : String → String) (db : AuthDb) (tenantId : Uuid)
    (token : String) :
    (∃ e, issuePairing hash db tenantId token = (db, .error e)) ∨
      ∃ live : Table CompanionPairing.tenantId, (∀ p ∈ live, p ∈ db.pairings) ∧
        (∀ p ∈ live, p.tenantId ≠ tenantId → p.tokenHash ≠ hash token) ∧
        issuePairing hash db tenantId token =
          ({ db with
            pairings := live.put
              ⟨tenantId, hash token, db.now + microseconds pairingTtlSeconds⟩ }, .ok token) := by
  unfold issuePairing
  rcases transaction_cases db _ with ⟨a, db', hbody, heq⟩ | ⟨e, -, heq⟩
  · right
    rw [heq]
    obtain ⟨_, -, h⟩ := bind_eq_ok.mp hbody
    obtain ⟨_, -, h⟩ := bind_eq_ok.mp h
    obtain ⟨issued, hissued, h⟩ := bind_eq_ok.mp h
    cases pure_eq_ok.mp h
    obtain ⟨hother, rfl⟩ := upsertPairing_ok hissued
    exact ⟨_, fun p hp => (Table.mem_delete.mp hp).1, hother, rfl⟩
  · exact .inl ⟨e, heq⟩

theorem takePairing_ok {tenantId : Uuid} {tokenHash : String}
    (h : db.takePairing tenantId tokenHash = .ok db') :
    (∃ p ∈ db.pairings, p.tenantId = tenantId ∧ p.tokenHash = tokenHash ∧ db.now < p.expiresAt) ∧
      ∃ usable : CompanionPairing → Bool,
        (∀ p, usable p = true ↔
          p.tenantId = tenantId ∧ p.tokenHash = tokenHash ∧ db.now < p.expiresAt) ∧
        db' = { db with pairings := db.pairings.delete usable } := by
  unfold AuthDb.takePairing at h
  obtain ⟨_, hcount, h⟩ := bind_eq_ok.mp h
  have husable (p : CompanionPairing) : (decide (p.tenantId = tenantId) &&
      decide (p.tokenHash = tokenHash) && decide (db.now < p.expiresAt)) = true ↔
        p.tenantId = tenantId ∧ p.tokenHash = tokenHash ∧ db.now < p.expiresAt := by
    simp [and_assoc]
  obtain ⟨p, hp, hpu⟩ := Table.count_pos_iff.mp (demand_eq_ok.mp hcount)
  exact ⟨⟨p, hp, (husable p).mp hpu⟩, _, husable, (pure_eq_ok.mp h).symm⟩

theorem insertDevice_ok {device : CompanionDevice} (h : db.insertDevice device = .ok db') :
    (∀ d ∈ db.devices, d.activeFor device.tenantId = false) ∧
      ∃ devices, db.devices.insert device = some devices ∧
        db' = { db with devices := devices } := by
  unfold AuthDb.insertDevice at h
  obtain ⟨_, -, h⟩ := bind_eq_ok.mp h
  obtain ⟨_, -, h⟩ := bind_eq_ok.mp h
  obtain ⟨_, hactive, h⟩ := bind_eq_ok.mp h
  obtain ⟨devices, hinsert, h⟩ := bind_eq_ok.mp h
  exact ⟨Table.select_none.mp (demand_eq_ok.mp hactive), devices, fetchRow_eq_ok.mp hinsert,
    (pure_eq_ok.mp h).symm⟩

/-- A redemption adds a key with a new hash and a device of the tenant. -/
structure Enrolls (hash : String → String) (db : AuthDb) (tenantId deviceId credentialId : Uuid)
    (rawKey : String) (db' : AuthDb) : Prop where
  newHash : ∀ k ∈ db.apiKeys, k.keyHash ≠ hash rawKey
  newId : ∀ k ∈ db.apiKeys, k.id ≠ credentialId
  keys : ∀ k, k ∈ db'.apiKeys ↔ k ∈ db.apiKeys ∨
    k = ⟨credentialId, tenantId, hash rawKey, deviceScopes, none, by decide⟩
  noneActive : ∀ d ∈ db.devices, d.activeFor tenantId = false
  devices : ∀ d, d ∈ db'.devices ↔ d ∈ db.devices ∨ d = ⟨deviceId, tenantId, credentialId, none⟩
  pairings : db'.pairings = db.pairings
  now : db'.now = db.now

theorem enroll_ok {tenantId deviceId credentialId : Uuid} {rawKey : String}
    {enrollment : DeviceEnrollment}
    (h : db.enroll hash tenantId deviceId credentialId rawKey = .ok (enrollment, db')) :
    Enrolls hash db tenantId deviceId credentialId rawKey db' := by
  unfold AuthDb.enroll at h
  obtain ⟨keyed, hkeyed, h⟩ := bind_eq_ok.mp h
  obtain ⟨enrolled, henrolled, h⟩ := bind_eq_ok.mp h
  cases pure_eq_ok.mp h
  obtain ⟨-, hhash, apiKeys, hapiKeys, rfl⟩ := AuthDb.insertApiKey_ok hkeyed
  obtain ⟨hactive, devices, hdevices, rfl⟩ := insertDevice_ok henrolled
  exact ⟨hhash, (Table.insert_some hapiKeys).1, (Table.insert_some hapiKeys).2, hactive,
    (Table.insert_some hdevices).2, rfl, rfl⟩

/-- A redemption that returned took an unexpired pairing of its token. -/
structure Redeems (hash : String → String) (db : AuthDb) (token : String)
    (deviceId credentialId : Uuid) (keyToken : String) (tenantId : Uuid) (db' : AuthDb) : Prop where
  taken : ∃ p ∈ db.pairings, p.tenantId = tenantId ∧ p.tokenHash = hash token ∧
    db.now < p.expiresAt
  left : ∀ p ∈ db'.pairings, p ∈ db.pairings ∧ p.tenantId ≠ tenantId
  enrolls : ∃ pairings, Enrolls hash { db.revokeDevices tenantId with pairings := pairings }
    tenantId deviceId credentialId (generateApiKey keyToken) db'

theorem redeem_cases (hash : String → String) (db : AuthDb) (token : String)
    (deviceId credentialId : Uuid) (keyToken : String) :
    (∃ e, redeem hash db token deviceId credentialId keyToken = (db, .error e)) ∨
      ∃ tenantId enrollment db',
        redeem hash db token deviceId credentialId keyToken = (db', .ok enrollment) ∧
          Redeems hash db token deviceId credentialId keyToken tenantId db' := by
  unfold redeem
  rcases transaction_cases db _ with ⟨enrollment, db', hbody, heq⟩ | ⟨e, -, heq⟩
  · right
    rw [heq]
    obtain ⟨_, -, h⟩ := bind_eq_ok.mp hbody
    obtain ⟨row, hrow, h⟩ := bind_eq_ok.mp h
    obtain ⟨taken, htaken, h⟩ := bind_eq_ok.mp h
    obtain ⟨hpairing, usable, husable, rfl⟩ := takePairing_ok htaken
    have henrolls := enroll_ok h
    refine ⟨row.tenantId, enrollment, db', rfl, hpairing, fun p hp => ?_, _, henrolls⟩
    rw [henrolls.pairings] at hp
    obtain ⟨hmem, hnot⟩ := Table.mem_delete.mp hp
    refine ⟨hmem, fun htenant => ?_⟩
    obtain ⟨q, hq, hqtenant, hqhash, hqtime⟩ := hpairing
    -- the tenant is the primary key, so this is the pairing that was taken
    obtain rfl := Table.eq_of_key_eq hmem hq (htenant.trans hqtenant.symm)
    rw [(husable p).mpr ⟨htenant, hqhash, hqtime⟩] at hnot
    cases hnot
  · exact .inl ⟨e, heq⟩

theorem revoke_cases (db : AuthDb) (tenantId : Uuid) :
    (∃ e, revoke db tenantId = (db, .error e)) ∨
      revoke db tenantId = ({ db.revokeDevices tenantId with
        pairings := db.pairings.delete fun p => p.tenantId = tenantId }, .ok ()) := by
  unfold revoke
  rcases transaction_cases db _ with ⟨a, db', hbody, heq⟩ | ⟨e, -, heq⟩
  · right
    rw [heq]
    obtain ⟨_, -, h⟩ := bind_eq_ok.mp hbody
    cases pure_eq_ok.mp h
    rfl
  · exact .inl ⟨e, heq⟩

/-! ### Keys, devices and their invariant -/

/-- The later row of a key. -/
structure ApiKey.Continues (k k' : ApiKey) : Prop where
  id : k'.id = k.id
  tenantId : k'.tenantId = k.tenantId
  keyHash : k'.keyHash = k.keyHash
  scopes : k'.scopes = k.scopes
  revoked : k.revokedAt ≠ none → k'.revokedAt ≠ none

theorem ApiKey.Continues.refl (k : ApiKey) : k.Continues k := ⟨rfl, rfl, rfl, rfl, fun h => h⟩

theorem ApiKey.continues_revoke (k : ApiKey) (now : ℤ) : k.Continues (ApiKey.revoke now k) :=
  ⟨rfl, rfl, rfl, rfl, fun _ => Option.some_ne_none now⟩

/-- No key is dropped. -/
def KeysKept (db db' : AuthDb) : Prop := ∀ k ∈ db.apiKeys, ∃ k' ∈ db'.apiKeys, k.Continues k'

/-- The credential has a key, and it is revoked. -/
def KeyRevoked (db : AuthDb) (credentialId : Uuid) : Prop :=
  ∃ k ∈ db.apiKeys, k.id = credentialId ∧ k.revokedAt ≠ none

theorem KeysKept.revoked {credentialId : Uuid} (h : KeysKept db db')
    (hrevoked : KeyRevoked db credentialId) : KeyRevoked db' credentialId := by
  obtain ⟨k, hk, hid, hr⟩ := hrevoked
  obtain ⟨k', hk', hcont⟩ := h k hk
  exact ⟨k', hk', hcont.id.trans hid, hcont.revoked hr⟩

theorem continues_update (now : ℤ) (p : ApiKey → Bool) (k : ApiKey) :
    k.Continues (if p k then ApiKey.revoke now k else k) := by
  split
  · exact k.continues_revoke now
  · exact .refl k

theorem keysKept_update (now : ℤ) (p : ApiKey → Bool)
    (h : db'.apiKeys = db.apiKeys.update p (ApiKey.revoke now)) : KeysKept db db' :=
  fun k hk => ⟨_, h ▸ Table.update_mem hk, continues_update now p k⟩

structure Enrolled (db : AuthDb) : Prop where
  hashes : ∀ k ∈ db.apiKeys, ∀ k' ∈ db.apiKeys, k.keyHash = k'.keyHash → k = k'
  active : ∀ d ∈ db.devices, ∀ d' ∈ db.devices, d.tenantId = d'.tenantId →
    d.revokedAt = none → d'.revokedAt = none → d = d'
  keys : ∀ d ∈ db.devices, ∃ k ∈ db.apiKeys, k.id = d.credentialId ∧ k.tenantId = d.tenantId ∧
    k.scopes = deviceScopes ∧ (d.revokedAt ≠ none → k.revokedAt ≠ none)

theorem hashes_update (now : ℤ) (p : ApiKey → Bool) (h : Enrolled db)
    (hkeys : db'.apiKeys = db.apiKeys.update p (ApiKey.revoke now)) :
    ∀ k ∈ db'.apiKeys, ∀ k' ∈ db'.apiKeys, k.keyHash = k'.keyHash → k = k' := by
  intro k hk k' hk' heq
  rw [hkeys, Table.mem_update] at hk hk'
  obtain ⟨o, ho, rfl⟩ := hk
  obtain ⟨o', ho', rfl⟩ := hk'
  rw [(continues_update now p o).keyHash, (continues_update now p o').keyHash] at heq
  rw [h.hashes o ho o' ho' heq]

theorem Enrolled.congr (h : Enrolled db) (hkeys : db'.apiKeys = db.apiKeys)
    (hdevices : db'.devices = db.devices) : Enrolled db' :=
  ⟨hkeys ▸ h.hashes, hdevices ▸ h.active, hdevices ▸ hkeys ▸ h.keys⟩

/-- Revoking keys only. -/
theorem Enrolled.revokeKeys (now : ℤ) (p : ApiKey → Bool) (h : Enrolled db)
    (hkeys : db'.apiKeys = db.apiKeys.update p (ApiKey.revoke now))
    (hdevices : db'.devices = db.devices) : Enrolled db' where
  hashes := hashes_update now p h hkeys
  active := hdevices ▸ h.active
  keys d hd := by
    obtain ⟨k, hk, hid, htenant, hscopes, hrevoked⟩ := h.keys d (hdevices ▸ hd)
    obtain ⟨k', hk', hcont⟩ := keysKept_update now p hkeys k hk
    exact ⟨k', hk', hcont.id.trans hid, hcont.tenantId.trans htenant,
      hcont.scopes.trans hscopes, fun hd => hcont.revoked (hrevoked hd)⟩

theorem CompanionDevice.activeFor_iff {tenantId : Uuid} {d : CompanionDevice} :
    d.activeFor tenantId = true ↔ d.tenantId = tenantId ∧ d.revokedAt = none := by
  rw [CompanionDevice.activeFor, Bool.and_eq_true, decide_eq_true_eq, Option.isNone_iff_eq_none]

theorem mem_revokeDevices {tenantId : Uuid} {d : CompanionDevice} :
    d ∈ (db.revokeDevices tenantId).devices ↔ ∃ o ∈ db.devices,
      d = if o.activeFor tenantId then CompanionDevice.revoke db.now o else o :=
  Table.mem_update

/-- The key of a device goes on, revoked when the device was active. -/
theorem revokeDevices_key {tenantId : Uuid} {o : CompanionDevice} {k : ApiKey}
    (ho : o ∈ db.devices) (hk : k ∈ db.apiKeys) (hid : k.id = o.credentialId) :
    ∃ k' ∈ (db.revokeDevices tenantId).apiKeys, k.Continues k' ∧
      (o.activeFor tenantId = true → k'.revokedAt ≠ none) := by
  have hcont := continues_update db.now (db.ofActiveDevice tenantId) k
  refine ⟨_, Table.update_mem hk, hcont, fun hactive => ?_⟩
  cases hkey : k.revokedAt with
  | some time => exact hcont.revoked (by rw [hkey]; exact Option.some_ne_none time)
  | none =>
      have hany : db.ofActiveDevice tenantId k = true := by
        rw [AuthDb.ofActiveDevice, hkey, Bool.and_eq_true]
        refine ⟨rfl, List.any_eq_true.mpr ⟨o, ho, ?_⟩⟩
        rw [Bool.and_eq_true, decide_eq_true_eq]
        exact ⟨hactive, hid.symm⟩
      rw [if_pos hany]
      exact Option.some_ne_none _

/-- The devices of the tenant are revoked after their keys. -/
theorem Enrolled.revokeDevices (h : Enrolled db) (tenantId : Uuid) :
    Enrolled (db.revokeDevices tenantId) where
  hashes := hashes_update db.now _ h rfl
  active d hd d' hd' htenant hactive hactive' := by
    obtain ⟨o, ho, rfl⟩ := mem_revokeDevices.mp hd
    obtain ⟨o', ho', rfl⟩ := mem_revokeDevices.mp hd'
    split at hactive
    · cases hactive
    · split at hactive'
      · cases hactive'
      · next hn hn' =>
          rw [if_neg hn, if_neg hn'] at htenant ⊢
          exact h.active o ho o' ho' htenant hactive hactive'
  keys d hd := by
    obtain ⟨o, ho, rfl⟩ := mem_revokeDevices.mp hd
    obtain ⟨k, hk, hid, htenant, hscopes, hrevoked⟩ := h.keys o ho
    obtain ⟨k', hk', hcont, hnow⟩ := revokeDevices_key ho hk hid
    split
    · next hactive =>
        exact ⟨k', hk', hcont.id.trans hid, hcont.tenantId.trans htenant,
          hcont.scopes.trans hscopes, fun _ => hnow hactive⟩
    · exact ⟨k', hk', hcont.id.trans hid, hcont.tenantId.trans htenant,
        hcont.scopes.trans hscopes, fun hd => hcont.revoked (hrevoked hd)⟩

theorem Enrolls.enrolled {tenantId deviceId credentialId : Uuid} {rawKey : String}
    (he : Enrolls hash db tenantId deviceId credentialId rawKey db') (h : Enrolled db) :
    Enrolled db' where
  hashes k hk k' hk' heq := by
    rcases (he.keys k).mp hk with hk | rfl
    · rcases (he.keys k').mp hk' with hk' | rfl
      · exact h.hashes k hk k' hk' heq
      · exact absurd heq (he.newHash k hk)
    · rcases (he.keys k').mp hk' with hk' | rfl
      · exact absurd heq.symm (he.newHash k' hk')
      · rfl
  active d hd d' hd' htenant hactive hactive' := by
    have hnot (o : CompanionDevice) (ho : o ∈ db.devices) (hot : o.tenantId = tenantId)
        (hoa : o.revokedAt = none) : False := by
      have hno := he.noneActive o ho
      rw [CompanionDevice.activeFor_iff.mpr ⟨hot, hoa⟩] at hno
      cases hno
    rcases (he.devices d).mp hd with hd | rfl
    · rcases (he.devices d').mp hd' with hd' | rfl
      · exact h.active d hd d' hd' htenant hactive hactive'
      · exact (hnot d hd htenant hactive).elim
    · rcases (he.devices d').mp hd' with hd' | rfl
      · exact (hnot d' hd' htenant.symm hactive').elim
      · rfl
  keys d hd := by
    rcases (he.devices d).mp hd with hd | rfl
    · obtain ⟨k, hk, hkey⟩ := h.keys d hd
      exact ⟨k, (he.keys k).mpr (.inl hk), hkey⟩
    · exact ⟨_, (he.keys _).mpr (.inr rfl), rfl, rfl, rfl, fun h => absurd rfl h⟩

theorem Redeems.enrolled {token keyToken : String} {deviceId credentialId tenantId : Uuid}
    (hr : Redeems hash db token deviceId credentialId keyToken tenantId db') (h : Enrolled db) :
    Enrolled db' := by
  obtain ⟨pairings, henrolls⟩ := hr.enrolls
  exact henrolls.enrolled ((h.revokeDevices tenantId).congr rfl rfl)

theorem Redeems.keysKept {token keyToken : String} {deviceId credentialId tenantId : Uuid}
    (hr : Redeems hash db token deviceId credentialId keyToken tenantId db') : KeysKept db db' := by
  obtain ⟨pairings, henrolls⟩ := hr.enrolls
  intro k hk
  have hkept : KeysKept db (db.revokeDevices tenantId) := keysKept_update db.now _ rfl
  obtain ⟨k', hk', hcont⟩ := hkept k hk
  exact ⟨k', (henrolls.keys k').mpr (.inl hk'), hcont⟩

/-- What an operation that returned did. -/
inductive Did (hash : String → String) (db : AuthDb) : DeviceOp → AuthDb → Prop
  | issue {tenantId : Uuid} {token : String} {live : Table CompanionPairing.tenantId}
      (hlive : ∀ p ∈ live, p ∈ db.pairings)
      (hother : ∀ p ∈ live, p.tenantId ≠ tenantId → p.tokenHash ≠ hash token) :
      Did hash db (.issuePairing tenantId token)
        { db with
          pairings := live.put
            ⟨tenantId, hash token, db.now + microseconds pairingTtlSeconds⟩ }
  | redeem {token keyToken : String} {deviceId credentialId tenantId : Uuid} {db' : AuthDb}
      (h : Redeems hash db token deviceId credentialId keyToken tenantId db') :
      Did hash db (.redeem token deviceId credentialId keyToken) db'
  | revoke {tenantId : Uuid} : Did hash db (.revoke tenantId)
      { db.revokeDevices tenantId with
        pairings := db.pairings.delete fun p => p.tenantId = tenantId }
  | revokeApiKey {rawKey : String} (p : ApiKey → Bool) : Did hash db (.revokeApiKey rawKey)
      { db with apiKeys := db.apiKeys.update p (ApiKey.revoke db.now) }
  | advance {elapsed : ℕ} : Did hash db (.advance elapsed) { db with now := db.now + elapsed }

theorem perform_cases (hash : String → String) (db : AuthDb) (op : DeviceOp) :
    (∃ e, op.perform hash db = (db, .error e)) ∨
      ∃ db', op.perform hash db = (db', .ok ()) ∧ Did hash db op db' := by
  cases op with
  | issuePairing tenantId token =>
      rcases issuePairing_cases hash db tenantId token with ⟨e, he⟩ | ⟨live, hlive, hother, hok⟩
      · exact .inl ⟨e, by rw [DeviceOp.perform, he]; rfl⟩
      · exact .inr ⟨_, by rw [DeviceOp.perform, hok]; rfl, .issue hlive hother⟩
  | redeem token deviceId credentialId keyToken =>
      rcases redeem_cases hash db token deviceId credentialId keyToken with
        ⟨e, he⟩ | ⟨tenantId, enrollment, db', hok, hredeems⟩
      · exact .inl ⟨e, by rw [DeviceOp.perform, he]; rfl⟩
      · exact .inr ⟨db', by rw [DeviceOp.perform, hok]; rfl, .redeem hredeems⟩
  | revoke tenantId =>
      rcases revoke_cases db tenantId with ⟨e, he⟩ | hok
      · exact .inl ⟨e, he⟩
      · exact .inr ⟨_, hok, .revoke⟩
  | revokeApiKey rawKey => exact .inr ⟨_, rfl, .revokeApiKey _⟩
  | advance elapsed => exact .inr ⟨_, rfl, .advance⟩

theorem Did.enrolled (hd : Did hash db op db') (h : Enrolled db) : Enrolled db' := by
  cases hd with
  | issue hlive hother => exact h.congr rfl rfl
  | redeem hredeems => exact hredeems.enrolled h
  | revoke => exact (h.revokeDevices _).congr rfl rfl
  | revokeApiKey p => exact h.revokeKeys db.now p rfl rfl
  | advance => exact h.congr rfl rfl

theorem Did.keysKept (hd : Did hash db op db') : KeysKept db db' := by
  cases hd with
  | issue hlive hother => exact fun k hk => ⟨k, hk, .refl k⟩
  | redeem hredeems => exact hredeems.keysKept
  | revoke => exact keysKept_update db.now _ rfl
  | revokeApiKey p => exact keysKept_update db.now p rfl
  | advance => exact fun k hk => ⟨k, hk, .refl k⟩

/-! ### Pairings -/

/-- No two pairings share a token. -/
def UniqueTokens (db : AuthDb) : Prop :=
  ∀ p ∈ db.pairings, ∀ p' ∈ db.pairings, p.tokenHash = p'.tokenHash → p = p'

theorem UniqueTokens.of_subset (h : UniqueTokens db) (hsub : ∀ p ∈ db'.pairings, p ∈ db.pairings) :
    UniqueTokens db' :=
  fun p hp p' hp' => h p (hsub p hp) p' (hsub p' hp')

theorem Did.uniqueTokens (hd : Did hash db op db') (h : UniqueTokens db) : UniqueTokens db' := by
  cases hd with
  | issue hlive hother =>
      intro p hp p' hp' heq
      rcases Table.mem_put.mp hp with rfl | ⟨hp, hne⟩
      · rcases Table.mem_put.mp hp' with rfl | ⟨hp', hne'⟩
        · rfl
        · exact absurd heq.symm (hother p' hp' hne')
      · rcases Table.mem_put.mp hp' with rfl | ⟨hp', hne'⟩
        · exact absurd heq (hother p hp hne)
        · exact h p (hlive p hp) p' (hlive p' hp') heq
  | redeem hredeems => exact h.of_subset fun p hp => (hredeems.left p hp).1
  | revoke => exact h.of_subset fun p hp => (Table.mem_delete.mp hp).1
  | revokeApiKey p => exact h
  | advance => exact h

/-- An operation after which the pairing is gone when it returns. -/
def Ends (hash : String → String) (p : CompanionPairing) : DeviceOp → Prop
  | .issuePairing tenantId _ => tenantId = p.tenantId
  | .revoke tenantId => tenantId = p.tenantId
  | .redeem token .. => hash token = p.tokenHash
  | .revokeApiKey _ => False
  | .advance _ => False

/-- A pairing that is there after an operation was there before, or was issued by it. -/
theorem Did.pairing (hd : Did hash db op db') (h : UniqueTokens db) {p : CompanionPairing}
    (hp : p ∈ db'.pairings) :
    (p ∈ db.pairings ∧ ¬ Ends hash p op) ∨ ∃ token, op = .issuePairing p.tenantId token ∧
      p.tokenHash = hash token ∧ p.expiresAt = db.now + microseconds pairingTtlSeconds := by
  cases hd with
  | @issue tenantId token live hlive hother =>
      rcases Table.mem_put.mp hp with rfl | ⟨hp, hne⟩
      · exact .inr ⟨token, rfl, rfl, rfl⟩
      · exact .inl ⟨hlive p hp, fun h => hne h.symm⟩
  | redeem hredeems =>
      obtain ⟨hmem, hne⟩ := hredeems.left p hp
      obtain ⟨q, hq, hqtenant, hqtoken, -⟩ := hredeems.taken
      refine .inl ⟨hmem, fun hends => hne ?_⟩
      rw [h p hmem q hq (hends.symm.trans hqtoken.symm), hqtenant]
  | revoke =>
      obtain ⟨hmem, hne⟩ := Table.mem_delete.mp hp
      exact .inl ⟨hmem, fun hends => of_decide_eq_false hne hends.symm⟩
  | revokeApiKey p => exact .inl ⟨hp, id⟩
  | advance => exact .inl ⟨hp, id⟩

/-! ### Every sequence of operations -/

/-- The operation returns. -/
def Succeeds (hash : String → String) (db : AuthDb) (op : DeviceOp) : Prop :=
  (op.perform hash db).2 = .ok ()

theorem Succeeds.did (h : Succeeds hash db op) : Did hash db op (op.perform hash db).1 := by
  rcases perform_cases hash db op with ⟨e, he⟩ | ⟨db', hok, hdid⟩
  · rw [Succeeds, he] at h
    cases h
  · rw [hok]
    exact hdid

/-- An operation that raises changes nothing. -/
theorem perform_error {e : AuthExn} (h : (op.perform hash db).2 = .error e) :
    (op.perform hash db).1 = db := by
  rcases perform_cases hash db op with ⟨e', he'⟩ | ⟨db', hok, -⟩
  · rw [he']
  · rw [hok] at h
    cases h

theorem perform_fst (hash : String → String) (db : AuthDb) (op : DeviceOp) :
    (op.perform hash db).1 = db ∧ ¬ Succeeds hash db op ∨
      Succeeds hash db op ∧ Did hash db op (op.perform hash db).1 := by
  rcases perform_cases hash db op with ⟨e, he⟩ | ⟨db', hok, hdid⟩
  · exact .inl ⟨by rw [he], fun h => by rw [Succeeds, he] at h; cases h⟩
  · exact .inr ⟨by rw [Succeeds, hok], by rw [hok]; exact hdid⟩

@[simp] theorem after_append (ops ops' : List DeviceOp) :
    db.after hash (ops ++ ops') = (db.after hash ops).after hash ops' :=
  List.foldl_append

@[simp] theorem after_cons (op : DeviceOp) (ops : List DeviceOp) :
    db.after hash (op :: ops) = (op.perform hash db).1.after hash ops := rfl

/-- What every operation that returns keeps is kept by every operation. -/
theorem keeps_perform {P : AuthDb → Prop}
    (hstep : ∀ db op db', P db → Did hash db op db' → P db') (db : AuthDb) (op : DeviceOp)
    (h : P db) : P (op.perform hash db).1 := by
  rcases perform_fst hash db op with ⟨heq, -⟩ | ⟨-, hdid⟩
  · rw [heq]
    exact h
  · exact hstep db op _ h hdid

/-- The tables as the migrations leave them: no device and no pairing yet. -/
structure AuthDb.Initial (db : AuthDb) : Prop where
  api_keys_key_hash_key : ∀ k ∈ db.apiKeys, ∀ k' ∈ db.apiKeys, k.keyHash = k'.keyHash → k = k'
  devices : db.devices = .empty
  pairings : db.pairings = .empty

theorem AuthDb.Initial.enrolled (h : db.Initial) : Enrolled db where
  hashes := h.api_keys_key_hash_key
  active d hd := absurd (h.devices ▸ hd) (Table.notMem_empty d)
  keys d hd := absurd (h.devices ▸ hd) (Table.notMem_empty d)

theorem AuthDb.Initial.uniqueTokens (h : db.Initial) : UniqueTokens db :=
  fun p hp => absurd (h.pairings ▸ hp) (Table.notMem_empty p)

theorem enrolled_after (h : Enrolled db) (ops : List DeviceOp) : Enrolled (db.after hash ops) :=
  foldl_invariant (keeps_perform fun _ _ _ h hdid => hdid.enrolled h) h ops

theorem keyRevoked_after {credentialId : Uuid} (h : KeyRevoked db credentialId)
    (ops : List DeviceOp) : KeyRevoked (db.after hash ops) credentialId :=
  foldl_invariant (keeps_perform fun _ _ _ h hdid => hdid.keysKept.revoked h) h ops

/-- The operation issues the pairing. -/
def Issues (hash : String → String) (db : AuthDb) (op : DeviceOp) (p : CompanionPairing) : Prop :=
  Succeeds hash db op ∧ ∃ token, op = .issuePairing p.tenantId token ∧
    p.tokenHash = hash token ∧ p.expiresAt = db.now + microseconds pairingTtlSeconds

/-- Every pairing was issued, and nothing has ended it since. -/
theorem pairing_issued (hinit : db.Initial) (ops : List DeviceOp) {p : CompanionPairing}
    (hp : p ∈ (db.after hash ops).pairings) : ∃ before op between,
      ops = before ++ op :: between ∧ Issues hash (db.after hash before) op p ∧
        ∀ b x c, between = b ++ x :: c →
          ¬ (Succeeds hash (db.after hash (before ++ op :: b)) x ∧ Ends hash p x) := by
  refine exists_origin UniqueTokens (fun db p => p ∈ db.pairings) (Issues hash)
    (fun db op p => Succeeds hash db op ∧ Ends hash p op)
    (keeps_perform fun _ _ _ h hdid => hdid.uniqueTokens h) (fun db op p hunique hp => ?_)
    hinit.uniqueTokens (fun p hp => ?_) ops hp
  · rcases perform_fst hash db op with ⟨heq, hfail⟩ | ⟨hok, hdid⟩
    · rw [heq] at hp
      exact .inl ⟨hp, fun hends => hfail hends.1⟩
    · rcases hdid.pairing hunique hp with ⟨hmem, hends⟩ | hissue
      · exact .inl ⟨hmem, fun h => hends h.2⟩
      · exact .inr ⟨hok, hissue⟩
  · exact Table.notMem_empty p (hinit.pairings ▸ hp)

/-! ### The claim about every sequence -/

def tokensOf (ops : List DeviceOp) : Set String :=
  {token | (∃ tenantId, .issuePairing tenantId token ∈ ops) ∨
    ∃ deviceId credentialId keyToken, .redeem token deviceId credentialId keyToken ∈ ops}

/-- The token is the latest one issued for the tenant: it is unexpired, and since it was
issued the tenant was not revoked and the token was not redeemed. -/
def Redeemable (hash : String → String) (db : AuthDb) (past : List DeviceOp) (token : String)
    (tenantId : Uuid) : Prop :=
  ∃ before between, past = before ++ .issuePairing tenantId token :: between ∧
    Succeeds hash (db.after hash before) (.issuePairing tenantId token) ∧
    (db.after hash past).now <
      (db.after hash before).now + microseconds pairingTtlSeconds ∧
    ∀ b op c, between = b ++ op :: c →
      Succeeds hash (db.after hash (before ++ .issuePairing tenantId token :: b)) op →
        (∀ token', op ≠ .issuePairing tenantId token') ∧ op ≠ .revoke tenantId ∧
          ∀ deviceId credentialId keyToken, op ≠ .redeem token deviceId credentialId keyToken

/-- Neither a device nor a key of the credential is accepted. -/
def NeverAccepted (hash : String → String) (db : AuthDb) (credentialId : Uuid) : Prop :=
  (∀ device : PairedDevice, device.credentialId = credentialId →
      requireActive db device ≠ .ok ()) ∧
    (∀ rawKey p, resolvePrincipal hash db rawKey = .ok (some p) →
      p.credentialId ≠ Uuid.text credentialId) ∧
    ∀ k ∈ db.apiKeys, k.id = credentialId → ∀ raw, hash raw = k.keyHash →
      resolvePrincipal hash db (some raw) = .ok none

theorem KeyRevoked.neverAccepted {credentialId : Uuid} (h : KeyRevoked db credentialId)
    (henrolled : Enrolled db) : NeverAccepted hash db credentialId := by
  obtain ⟨k, hk, rfl, hrevoked⟩ := h
  refine ⟨fun device hdevice hok => ?_, fun rawKey p hp hid => ?_, fun k' hk' hid raw hraw => ?_⟩
  · have hany := demand_eq_ok.mp hok
    obtain ⟨d, hd, hcond⟩ := List.any_eq_true.mp hany
    simp only [Bool.and_eq_true, decide_eq_true_eq, List.any_eq_true] at hcond
    obtain ⟨⟨⟨⟨-, -⟩, hcred⟩, -⟩, k', hk', ⟨⟨hid, -⟩, hactive⟩, -⟩ := hcond
    obtain rfl := Table.eq_of_key_eq hk' hk (hid.trans (hcred.trans hdevice))
    exact hrevoked (Option.isNone_iff_eq_none.mp hactive)
  · obtain ⟨raw, -, k', hk', -, hactive, hcred⟩ := resolvePrincipal_some hash hp
    obtain rfl := Table.eq_of_key_eq hk' hk (Uuid.text_inj (hcred.symm.trans hid))
    exact hrevoked hactive
  · obtain rfl := Table.eq_of_key_eq hk' hk hid
    refine resolvePrincipal_none hash fun k hk hkhash => ?_
    rw [henrolled.hashes k hk k' hk' (hkhash.trans hraw)]
    exact hrevoked

/-- The operation returned and replaced or revoked the devices the tenant had. -/
def Retires (hash : String → String) (db : AuthDb) (op : DeviceOp) (tenantId : Uuid) : Prop :=
  Succeeds hash db op ∧ (op = .revoke tenantId ∨ ∃ token deviceId credentialId keyToken,
    op = .redeem token deviceId credentialId keyToken ∧
      ⟨deviceId, tenantId, credentialId, none⟩ ∈ (op.perform hash db).1.devices)

/-- The devices a tenant had are revoked with their keys. -/
theorem keyRevoked_revokeDevices {tenantId : Uuid} {d : CompanionDevice} (h : Enrolled db)
    (hd : d ∈ db.devices) (htenant : d.tenantId = tenantId) :
    KeyRevoked (db.revokeDevices tenantId) d.credentialId := by
  obtain ⟨k, hk, hid, -, -, hrevoked⟩ := h.keys d hd
  obtain ⟨k', hk', hcont, hnow⟩ := revokeDevices_key hd hk hid
  refine ⟨k', hk', hcont.id.trans hid, ?_⟩
  cases hactive : d.revokedAt with
  | none => exact hnow (CompanionDevice.activeFor_iff.mpr ⟨htenant, hactive⟩)
  | some time => exact hcont.revoked (hrevoked (by rw [hactive]; exact Option.some_ne_none time))

/-- A redemption adds one device, for the tenant of the pairing. -/
theorem Redeems.device_iff {token keyToken : String}
    {deviceId credentialId tenantId tenantId' : Uuid}
    (h : Redeems hash db token deviceId credentialId keyToken tenantId db') :
    ⟨deviceId, tenantId', credentialId, none⟩ ∈ db'.devices ↔ tenantId' = tenantId := by
  obtain ⟨pairings, henrolls⟩ := h.enrolls
  have hnew := (henrolls.devices ⟨deviceId, tenantId, credentialId, none⟩).mpr (.inr rfl)
  constructor
  · intro hmem
    exact congrArg CompanionDevice.tenantId (Table.eq_of_key_eq hmem hnew rfl)
  · rintro rfl
    exact hnew

theorem Retires.keyRevoked {tenantId : Uuid} {d : CompanionDevice}
    (h : Retires hash db op tenantId) (henrolled : Enrolled db) (hd : d ∈ db.devices)
    (htenant : d.tenantId = tenantId) : KeyRevoked (op.perform hash db).1 d.credentialId := by
  have hrevoked := keyRevoked_revokeDevices henrolled hd htenant
  obtain ⟨hok, hop⟩ := h
  have hdid := hok.did
  rcases hop with rfl | ⟨token, deviceId, credentialId, keyToken, rfl, hnew⟩
  · generalize (DeviceOp.perform hash db (.revoke tenantId)).1 = db' at hdid ⊢
    cases hdid with
    | revoke => exact hrevoked
  · generalize (DeviceOp.perform hash db (.redeem token deviceId credentialId keyToken)).1 = db'
      at hdid hnew ⊢
    cases hdid with
    | redeem hredeems =>
        obtain rfl := hredeems.device_iff.mp hnew
        obtain ⟨pairings, henrolls⟩ := hredeems.enrolls
        obtain ⟨k, hk, hid, hr⟩ := hrevoked
        exact ⟨k, (henrolls.keys k).mpr (.inl hk), hid, hr⟩

/-- A redemption that returned was of the latest token issued for the tenant of the device. -/
theorem redeemable (hinit : db.Initial) {pre : List DeviceOp} {token keyToken : String}
    {deviceId credentialId : Uuid} (hhash : Set.InjOn hash (tokensOf pre ∪ {token}))
    (hok : Succeeds hash (db.after hash pre) (.redeem token deviceId credentialId keyToken)) :
    ∃ tenantId, Redeemable hash db pre token tenantId ∧ ⟨deviceId, tenantId, credentialId, none⟩ ∈
      (db.after hash (pre ++ [.redeem token deviceId credentialId keyToken])).devices := by
  have hdid := hok.did
  rw [after_append, after_cons]
  generalize (DeviceOp.perform hash (db.after hash pre)
    (.redeem token deviceId credentialId keyToken)).1 = db' at hdid ⊢
  cases hdid with
  | @redeem _ _ _ _ tenantId _ hredeems =>
      refine ⟨tenantId, ?_, hredeems.device_iff.mpr rfl⟩
      obtain ⟨p, hp, rfl, htoken, htime⟩ := hredeems.taken
      obtain ⟨before, op, between, hpre, ⟨hissued, token', rfl, htoken', hexpires⟩, hquiet⟩ :=
        pairing_issued hinit pre hp
      have hissue : .issuePairing p.tenantId token' ∈ pre := by
        rw [hpre]
        simp
      obtain rfl : token' = token :=
        hhash (.inl (.inl ⟨p.tenantId, hissue⟩)) (.inr rfl) (htoken'.symm.trans htoken)
      refine ⟨before, between, hpre, hissued, hexpires ▸ htime, fun b op c hsplit hop => ?_⟩
      have hends (h : Ends hash p op) : False := hquiet b op c hsplit ⟨hop, h⟩
      refine ⟨?_, ?_, ?_⟩
      · rintro token'' rfl
        exact hends rfl
      · rintro rfl
        exact hends rfl
      · rintro deviceId' credentialId' keyToken' rfl
        exact hends htoken.symm

theorem tokensOf_redeem {ops pre post : List DeviceOp} {token keyToken : String}
    {deviceId credentialId : Uuid}
    (h : ops = pre ++ .redeem token deviceId credentialId keyToken :: post) :
    tokensOf pre ∪ {token} ⊆ tokensOf ops := by
  rintro token' ((⟨tenantId, hmem⟩ | ⟨deviceId', credentialId', keyToken', hmem⟩) | rfl)
  · exact .inl ⟨tenantId, h ▸ List.mem_append_left _ hmem⟩
  · exact .inr ⟨deviceId', credentialId', keyToken', h ▸ List.mem_append_left _ hmem⟩
  · exact .inr ⟨deviceId, credentialId, keyToken,
      h ▸ List.mem_append_right _ List.mem_cons_self⟩

/-- Between two redemptions of a token it is issued again. -/
theorem Redeemable.issued_again {past mid : List DeviceOp} {token keyToken : String}
    {deviceId credentialId tenantId : Uuid}
    (h : Redeemable hash db (past ++ .redeem token deviceId credentialId keyToken :: mid) token
      tenantId)
    (hok : Succeeds hash (db.after hash past) (.redeem token deviceId credentialId keyToken)) :
    .issuePairing tenantId token ∈ mid := by
  obtain ⟨before, between, hsplit, -, -, hquiet⟩ := h
  rcases List.append_eq_append_iff.mp hsplit with ⟨c, rfl, hc⟩ | ⟨c, rfl, hc⟩
  · cases c with
    | nil => cases (List.cons.inj hc).1
    | cons x c =>
        rw [(List.cons.inj hc).2]
        simp
  · cases c with
    | nil => cases (List.cons.inj hc).1
    | cons x c =>
        obtain ⟨rfl, hbetween⟩ := List.cons.inj hc
        exact absurd rfl ((hquiet c _ mid hbetween hok).2.2 deviceId credentialId keyToken)

/-- Device pairing is safe in every sequence of operations. -/
theorem device_pairing_safety (hash : String → String) {db : AuthDb} (hinit : db.Initial)
    (ops : List DeviceOp) (hhash : Set.InjOn hash (tokensOf ops)) :
    (∀ d ∈ (db.after hash ops).devices, ∀ d' ∈ (db.after hash ops).devices,
      d.tenantId = d'.tenantId → d.revokedAt = none → d'.revokedAt = none → d = d') ∧
    (∀ p ∈ (db.after hash ops).pairings, ∀ p' ∈ (db.after hash ops).pairings,
      p.tenantId = p'.tenantId → p = p') ∧
    (∀ d ∈ (db.after hash ops).devices, d.revokedAt = none → ∃ k ∈ (db.after hash ops).apiKeys,
      k.id = d.credentialId ∧ k.tenantId = d.tenantId ∧ k.scopes = deviceScopes) ∧
    (∀ pre token deviceId credentialId keyToken post,
      ops = pre ++ .redeem token deviceId credentialId keyToken :: post →
      Succeeds hash (db.after hash pre) (.redeem token deviceId credentialId keyToken) →
      ∃ tenantId, Redeemable hash db pre token tenantId ∧
        ⟨deviceId, tenantId, credentialId, none⟩ ∈ (db.after hash
          (pre ++ [.redeem token deviceId credentialId keyToken])).devices) ∧
    (∀ pre token deviceId credentialId keyToken mid deviceId' credentialId' keyToken' post,
      ops = pre ++ .redeem token deviceId credentialId keyToken :: mid ++
        .redeem token deviceId' credentialId' keyToken' :: post →
      Succeeds hash (db.after hash pre) (.redeem token deviceId credentialId keyToken) →
      Succeeds hash
        (db.after hash (pre ++ .redeem token deviceId credentialId keyToken :: mid))
        (.redeem token deviceId' credentialId' keyToken') →
      ∃ tenantId, .issuePairing tenantId token ∈ mid) ∧
    (∀ pre op post d, ops = pre ++ op :: post → d ∈ (db.after hash pre).devices →
      Retires hash (db.after hash pre) op d.tenantId →
        NeverAccepted hash (db.after hash ops) d.credentialId) ∧
    ∀ (db : AuthDb) (op : DeviceOp) (e : AuthExn), (op.perform hash db).2 = .error e →
      (op.perform hash db).1 = db := by
  have henrolled : Enrolled (db.after hash ops) := enrolled_after hinit.enrolled ops
  have hredeem (pre : List DeviceOp) (token : String) (deviceId credentialId : Uuid)
      (keyToken : String) (post : List DeviceOp)
      (hops : ops = pre ++ .redeem token deviceId credentialId keyToken :: post)
      (hok : Succeeds hash (db.after hash pre) (.redeem token deviceId credentialId keyToken)) :=
    redeemable hinit (hhash.mono (tokensOf_redeem hops)) hok
  refine ⟨henrolled.active, fun p hp p' hp' => Table.eq_of_key_eq hp hp', fun d hd _ => ?_,
    hredeem, ?_, ?_, fun db op e => perform_error⟩
  · obtain ⟨k, hk, hid, htenant, hscopes, -⟩ := henrolled.keys d hd
    exact ⟨k, hk, hid, htenant, hscopes⟩
  · intro pre token deviceId credentialId keyToken mid deviceId' credentialId' keyToken' post
      hops hok hok'
    obtain ⟨tenantId, hredeemable, -⟩ :=
      hredeem _ token deviceId' credentialId' keyToken' post hops hok'
    exact ⟨tenantId, hredeemable.issued_again hok⟩
  · intro pre op post d hops hd hretires
    have hrevoked := hretires.keyRevoked (enrolled_after hinit.enrolled pre) hd rfl
    have hlater : KeyRevoked ((op.perform hash (db.after hash pre)).1.after hash post)
        d.credentialId := keyRevoked_after hrevoked post
    rw [hops, after_append, after_cons]
    rw [hops, after_append, after_cons] at henrolled
    exact hlater.neverAccepted henrolled

/-- One tenant, without keys. -/
def newTenant : AuthDb := ⟨[0], .empty, .empty, .empty, .empty, 0⟩

theorem newTenant_initial : newTenant.Initial where
  api_keys_key_hash_key k hk := absurd hk (Table.notMem_empty k)
  devices := rfl
  pairings := rfl

def firstToken : String := "first-pairing-token-of-the-tenant"

def secondToken : String := "second-pairing-token-of-the-tenant"

/-- A device is paired, and another one takes its place. -/
def firstPairing : List DeviceOp := [.issuePairing 0 firstToken, .advance 5000000,
  .redeem firstToken 1 2 "k1", .issuePairing 0 secondToken]

def secondPairing : DeviceOp := .redeem secondToken 3 4 "k2"

theorem device_pairing_safety_replacedDevice :
    (⟨1, 0, 2, none⟩ : CompanionDevice) ∈ (newTenant.after id firstPairing).devices ∧
      NeverAccepted id (newTenant.after id (firstPairing ++ secondPairing :: [.revoke 0])) 2 := by
  have hpaired : (⟨1, 0, 2, none⟩ : CompanionDevice) ∈
      (newTenant.after id firstPairing).devices.rows := by
    decide +kernel
  have hok : Succeeds id (newTenant.after id firstPairing) secondPairing := by
    unfold Succeeds
    decide +kernel
  have hreplaced : (⟨3, 0, 4, none⟩ : CompanionDevice) ∈
      (secondPairing.perform id (newTenant.after id firstPairing)).1.devices.rows := by
    decide +kernel
  obtain ⟨-, -, -, -, -, hnever, -⟩ := device_pairing_safety id newTenant_initial
    (firstPairing ++ secondPairing :: [.revoke 0]) Function.injective_id.injOn
  exact ⟨hpaired, hnever firstPairing secondPairing [.revoke 0] ⟨1, 0, 2, none⟩ rfl hpaired
    ⟨hok, .inr ⟨secondToken, 3, 4, "k2", rfl, hreplaced⟩⟩⟩

end Ally.Auth
