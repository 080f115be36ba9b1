import LeafageEvm.Tempo.AccountKeychain

/-! Who may change an account's keys: only the account itself, in a transaction of its own that is signed by its root
key or by an admin key. -/

namespace LeafageEvm.Tempo.AccountKeychain
open List Function
variable {middle : AccountKeychain} {event : KeychainEvent} {events : List (KeychainEnv × KeychainEvent)}
  {key : AuthorizedKey} {now : Nat} {env : KeychainEnv} {keychain next : AccountKeychain}
  {account msgSender keyId token : Address} {amount : Nat}

/-- What the contract keeps for an account. -/
structure SameAccount (account : Address) (keychain next : AccountKeychain) : Prop where
  keys : next.keys account = keychain.keys account
  limits : ∀ keyId, next.spendingLimits (account, keyId) = keychain.spendingLimits (account, keyId)
  scopes : ∀ keyId, next.keyScopes (account, keyId) = keychain.keyScopes (account, keyId)
  witnesses : next.keyAuthorizationWitnesses account = keychain.keyAuthorizationWitnesses account

theorem SameAccount.refl (account : Address) (keychain : AccountKeychain) : SameAccount account keychain keychain :=
  ⟨rfl, fun _ => rfl, fun _ => rfl, rfl⟩

theorem SameAccount.trans (h : SameAccount account keychain middle) (h' : SameAccount account middle next) :
    SameAccount account keychain next :=
  ⟨h'.keys.trans h.keys, fun keyId => (h'.limits keyId).trans (h.limits keyId),
    fun keyId => (h'.scopes keyId).trans (h.scopes keyId), h'.witnesses.trans h.witnesses⟩

/-- Only what belongs to one account changes, and the transaction stays the same. -/
structure Within (msgSender : Address) (keychain next : AccountKeychain) : Prop where
  key : next.transactionKey = keychain.transactionKey
  origin : next.txOrigin = keychain.txOrigin
  others : ∀ account, account ≠ msgSender → SameAccount account keychain next

theorem Within.refl (msgSender : Address) (keychain : AccountKeychain) : Within msgSender keychain keychain :=
  ⟨rfl, rfl, fun account _ => .refl account keychain⟩

theorem Within.trans (h : Within msgSender keychain middle) (h' : Within msgSender middle next) :
    Within msgSender keychain next :=
  ⟨h'.key.trans h.key, h'.origin.trans h.origin, fun account hne => (h.others account hne).trans (h'.others account hne)⟩

theorem within_writeLimit (msgSender keyId token : Address) (state : SpendingLimitState) :
    Within msgSender keychain (keychain.writeLimit msgSender keyId token state) := by
  refine ⟨rfl, rfl, fun account hne => ⟨rfl, fun other => ?_, fun _ => rfl, rfl⟩⟩
  have hpair : (account, other) ≠ (msgSender, keyId) := fun heq => hne (congrArg Prod.fst heq)
  exact update_of_ne hpair _ _

section
variable (keychain : AccountKeychain) (msgSender keyId : Address)

theorem within_writeKey (key : AuthorizedKey) : Within msgSender keychain (keychain.writeKey msgSender keyId key) :=
  ⟨rfl, rfl, fun _ hne => ⟨update_of_ne hne .., fun _ => rfl, fun _ => rfl, rfl⟩⟩

theorem within_writeScope (scope : KeyScope) :
    Within msgSender keychain (keychain.writeScope msgSender keyId scope) := by
  refine ⟨rfl, rfl, fun account hne => ⟨rfl, fun _ => rfl, fun other => ?_, rfl⟩⟩
  have hpair : (account, other) ≠ (msgSender, keyId) := fun heq => hne (congrArg Prod.fst heq)
  exact update_of_ne hpair _ _
end

/-- A key record goes its way: it is made once, may come to enforce limits while it is active, and may be revoked. -/
inductive KeyStep (env : KeychainEnv) (key : AuthorizedKey) : AuthorizedKey → Prop
  | same : KeyStep env key key
  | create (new : AuthorizedKey) : key.expiry = 0 → key.isRevoked = false → KeyStep env key new
  | limit : key.isRevoked = false → key.expiry ≠ 0 → env.now < key.expiry.val → KeyStep env key { key with enforceLimits := true }
  | revoke : KeyStep env key { isRevoked := true }

/-- What a successful call of the interface comes to. -/
structure Administers (env : KeychainEnv) (msgSender : Address) (keychain next : AccountKeychain) : Prop where
  admin : keychain.ensureAdminCaller env msgSender = .ok ()
  within : Within msgSender keychain next
  keys : ∀ keyId, KeyStep env (keychain.keys msgSender keyId) (next.keys msgSender keyId)

theorem keys_writeKey (keychain : AccountKeychain) (account keyId other : Address) (key : AuthorizedKey) :
    (keychain.writeKey account keyId key).keys account other = if other = keyId then key else keychain.keys account other := by
  show update keychain.keys account (update (keychain.keys account) keyId key) account other = _
  rw [update_self]
  by_cases heq : other = keyId
  · rw [if_pos heq, heq, update_self]
  · rw [if_neg heq, update_of_ne heq]

/-- One key is written, and later writes leave the keys alone. -/
theorem keyStep_writeKey (hstep : KeyStep env (keychain.keys msgSender keyId) key)
    (hkeys : next.keys = (keychain.writeKey msgSender keyId key).keys) (other : Address) :
    KeyStep env (keychain.keys msgSender other) (next.keys msgSender other) := by
  rw [hkeys, keys_writeKey]
  split
  · rename_i heq
    rw [heq]
    exact hstep
  · exact .same

theorem loadActiveKey_eq_ok {currentTimestamp : Nat} (h : keychain.loadActiveKey account keyId currentTimestamp = .ok key) :
    key = keychain.keys account keyId ∧ key.isRevoked = false ∧ key.expiry ≠ 0 ∧ currentTimestamp < key.expiry.val := by
  obtain ⟨hrevoked, h⟩ := check_ok h
  obtain ⟨hexpiry, h⟩ := check_ok h
  obtain ⟨_, htime, rfl⟩ := map_ok h
  exact ⟨rfl, hrevoked, hexpiry, require_eq_ok.mp htime⟩

theorem foldl_writeRemaining (keyId : Address) (limits : List TokenLimit) {start : AccountKeychain}
    (hwithin : Within msgSender keychain start) :
    Within msgSender keychain (limits.foldl (writeRemaining msgSender keyId) start) ∧
      (limits.foldl (writeRemaining msgSender keyId) start).keys = start.keys := by
  induction limits generalizing start with
  | nil => exact ⟨hwithin, rfl⟩
  | cons _ _ ih => exact ih (hwithin.trans (within_writeLimit ..))

variable {signatureType : SignatureType}

theorem authorizeKey_administers {expiry : U64} {enforceLimits : Bool} {limits : List TokenLimit}
    (h : keychain.authorizeKey env msgSender keyId signatureType expiry enforceLimits limits = .ok next) :
    Administers env msgSender keychain next := by
  obtain ⟨_, h⟩ := rest_ok h
  obtain ⟨_, hadmin, h⟩ := bind_ok h
  iterate 2 obtain ⟨_, h⟩ := rest_ok h
  obtain ⟨hexisting, h⟩ := check_ok h
  obtain ⟨hrevoked, h⟩ := check_ok h
  obtain ⟨number, -, rfl⟩ := map_ok h
  generalize ({ signatureType := number, expiry := expiry, enforceLimits := enforceLimits } : AuthorizedKey) = key
  have hstart := foldl_writeRemaining keyId limits (within_writeKey keychain msgSender keyId key)
  have hstep : KeyStep env (keychain.keys msgSender keyId) key := .create key hexisting hrevoked
  cases enforceLimits with
  | true =>
    exact ⟨hadmin, hstart.1, keyStep_writeKey hstep hstart.2⟩
  | false =>
    exact ⟨hadmin, within_writeKey .., keyStep_writeKey hstep rfl⟩

theorem authorizeKeyWithRestrictions_administers {config : KeyRestrictions} {witness : Option Nat} {isAdmin : Bool}
    (h : keychain.authorizeKeyWithRestrictions env msgSender keyId signatureType config witness isAdmin = .ok next) :
    Administers env msgSender keychain next := by
  obtain ⟨_, hadmin, h⟩ := bind_ok h
  iterate 3 obtain ⟨_, h⟩ := rest_ok h
  obtain ⟨hexisting, h⟩ := check_ok h
  obtain ⟨hrevoked, h⟩ := check_ok h
  iterate 4 obtain ⟨_, h⟩ := rest_ok h
  have hstep : ∀ key, KeyStep env (keychain.keys msgSender keyId) key := fun key => .create key hexisting hrevoked
  split at h
  · cases h
    exact ⟨hadmin, within_writeKey .., keyStep_writeKey (hstep _) rfl⟩
  obtain ⟨_, hlimits, h⟩ := bind_ok h
  obtain ⟨_, -, rfl⟩ := map_ok h
  obtain ⟨hwithin, hkeys⟩ := foldlM_ok_induction (P := fun state => Within msgSender keychain state ∧
    state.keys = (keychain.writeKey msgSender keyId _).keys) hlimits ⟨within_writeKey .., rfl⟩ (by
      intro _ _ _ hwrite hstate
      obtain ⟨_, -, rfl⟩ := map_ok hwrite
      exact ⟨hstate.1.trans (within_writeLimit ..), hstate.2⟩)
  exact ⟨hadmin, hwithin.trans (within_writeScope ..), keyStep_writeKey (hstep _) hkeys⟩

theorem burnKeyAuthorizationWitness_administers {witness : Nat}
    (h : keychain.burnKeyAuthorizationWitness env msgSender witness = .ok next) : Administers env msgSender keychain next := by
  obtain ⟨_, hadmin, h⟩ := bind_ok h
  obtain ⟨_, -, rfl⟩ := map_ok h
  exact ⟨hadmin, ⟨rfl, rfl, fun _ hne => ⟨rfl, fun _ => rfl, fun _ => rfl, update_of_ne hne ..⟩⟩, fun _ => .same⟩

theorem revokeKey_administers (h : keychain.revokeKey env msgSender keyId = .ok next) :
    Administers env msgSender keychain next := by
  obtain ⟨_, hadmin, h⟩ := bind_ok h
  obtain ⟨_, -, rfl⟩ := map_ok h
  exact ⟨hadmin, within_writeKey .., keyStep_writeKey .revoke rfl⟩

theorem updateSpendingLimit_administers {newLimit : Nat}
    (h : keychain.updateSpendingLimit env msgSender keyId token newLimit = .ok next) :
    Administers env msgSender keychain next := by
  obtain ⟨_, hadmin, h⟩ := bind_ok h
  obtain ⟨_, hactive, h⟩ := bind_ok h
  obtain ⟨_, h⟩ := rest_ok h
  obtain ⟨rfl, hrevoked, hexpiry, htime⟩ := loadActiveKey_eq_ok hactive
  generalize hstart : (if (keychain.keys msgSender keyId).enforceLimits then keychain
    else keychain.writeKey msgSender keyId { keychain.keys msgSender keyId with enforceLimits := true }) = start at h
  have hkeyed : Within msgSender keychain start ∧
      ∀ other, KeyStep env (keychain.keys msgSender other) (start.keys msgSender other) := by
    rw [← hstart]
    split
    · exact ⟨.refl .., fun _ => .same⟩
    · exact ⟨within_writeKey .., keyStep_writeKey (.limit hrevoked hexpiry htime) rfl⟩
  split at h
  · obtain ⟨_, -, rfl⟩ := map_ok h
    exact ⟨hadmin, hkeyed.1.trans (within_writeLimit ..), hkeyed.2⟩
  · cases h
    exact ⟨hadmin, hkeyed.1.trans (within_writeLimit ..), hkeyed.2⟩

theorem setAllowedCalls_administers {scopes : List CallScope}
    (h : keychain.setAllowedCalls env msgSender keyId scopes = .ok next) : Administers env msgSender keychain next := by
  obtain ⟨_, h⟩ := rest_ok h
  obtain ⟨_, hadmin, h⟩ := bind_ok h
  iterate 4 obtain ⟨_, h⟩ := rest_ok h
  obtain ⟨_, -, rfl⟩ := map_ok h
  exact ⟨hadmin, within_writeScope .., fun _ => .same⟩

theorem removeAllowedCalls_administers {target : Address}
    (h : keychain.removeAllowedCalls env msgSender keyId target = .ok next) : Administers env msgSender keychain next := by
  obtain ⟨_, hadmin, h⟩ := bind_ok h
  obtain ⟨_, h⟩ := rest_ok h
  obtain ⟨_, -, rfl⟩ := map_ok h
  simp only
  split
  · exact ⟨hadmin, within_writeScope .., fun _ => .same⟩
  · exact ⟨hadmin, .refl .., fun _ => .same⟩

/-- **Every call of the interface is administration of the caller's own keys.** -/
theorem call_administers {call : KeychainCall} (h : keychain.call env msgSender call = .ok next) :
    Administers env msgSender keychain next := by
  iterate 2 obtain ⟨_, h⟩ := rest_ok h
  cases call with
  | authorizeKey => exact authorizeKey_administers h
  | authorizeKeyWithRestrictions | authorizeKeyWithWitness | authorizeAdminKey =>
    exact authorizeKeyWithRestrictions_administers h
  | burnKeyAuthorizationWitness => exact burnKeyAuthorizationWitness_administers h
  | revokeKey => exact revokeKey_administers h
  | updateSpendingLimit => exact updateSpendingLimit_administers h
  | setAllowedCalls => exact setAllowedCalls_administers h
  | removeAllowedCalls => exact removeAllowedCalls_administers h

/-! ### Revoked and expired keys -/

/-- A key that will not be active again. -/
def Dead (key : AuthorizedKey) (now : Nat) : Prop := key.isRevoked = true ∨ key.expiry ≠ 0 ∧ key.expiry.val ≤ now

theorem Dead.step {key' : AuthorizedKey} (h : Dead key now) (hstep : KeyStep env key key') (htime : now ≤ env.now) :
    Dead key' now := by
  cases hstep with
  | same => exact h
  | create _ hexpiry hrevoked =>
    rcases h with hdead | ⟨hset, -⟩
    · rw [hrevoked] at hdead
      cases hdead
    · exact absurd hexpiry hset
  | limit hrevoked =>
    rcases h with hdead | ⟨-, hexpired⟩
    · rw [hrevoked] at hdead
      cases hdead
    · omega
  | revoke => exact .inl rfl

theorem Dead.not_active (h : Dead (keychain.keys account keyId) amount) (htime : amount ≤ now) :
    keychain.isActiveKey account keyId now = false := by
  unfold isActiveKey
  cases hload : keychain.loadActiveKey account keyId now with
  | error => rfl
  | ok =>
    obtain ⟨rfl, hrevoked, -, hlive⟩ := loadActiveKey_eq_ok hload
    rcases h with hdead | ⟨-, hexpired⟩
    · rw [hrevoked] at hdead
      cases hdead
    · omega

/-! ### What the other events do -/

/-- What an event asks to be taken from a limit: by which account, of which token, and how much. An approval counts by
what it adds to the one before. -/
def spending : KeychainEvent → Option (Address × Address × Nat)
  | .authorizeTransfer account token amount => some (account, token, amount)
  | .authorizeApprove account token oldApproval newApproval => some (account, token, newApproval - oldApproval)
  | _ => none

/-- How a row changes without administration. Only the key that signed the running transaction spends and is refunded,
for the account that is its origin, and by the token and the amount of the event. -/
inductive RowRule (env : KeychainEnv) (event : KeychainEvent) (keychain : AccountKeychain) (account keyId token : Address) :
    SpendingLimitState → Prop
  | same : RowRule env event keychain account keyId token (keychain.spendingLimits (account, keyId) token)
  | spend (amount : Nat) (row : SpendingLimitState) : keychain.txOrigin = account → keychain.transactionKey = keyId → keyId ≠ 0 →
      spending event = some (account, token, amount) →
      spendRow env (keychain.spendingLimits (account, keyId) token) amount = .ok row →
      RowRule env event keychain account keyId token row
  | refund (amount : Nat) : keychain.txOrigin = account → keychain.transactionKey = keyId → keyId ≠ 0 →
      event = .refundSpendingLimit account token amount →
      RowRule env event keychain account keyId token
        (refundRow env (keychain.spendingLimits (account, keyId) token) amount)

/-- Spending and refunds: one row of the transaction's key, of the account that is the origin. -/
structure Spends (env : KeychainEnv) (event : KeychainEvent) (keychain next : AccountKeychain) : Prop where
  keys : next.keys = keychain.keys
  scopes : next.keyScopes = keychain.keyScopes
  witnesses : next.keyAuthorizationWitnesses = keychain.keyAuthorizationWitnesses
  key : next.transactionKey = keychain.transactionKey
  origin : next.txOrigin = keychain.txOrigin
  rows : ∀ account keyId token, RowRule env event keychain account keyId token (next.spendingLimits (account, keyId) token)

theorem Spends.refl (env : KeychainEnv) (event : KeychainEvent) (keychain : AccountKeychain) : Spends env event keychain keychain :=
  ⟨rfl, rfl, rfl, rfl, rfl, fun _ _ _ => .same⟩

theorem spends_writeLimit {row : SpendingLimitState} (h : RowRule env event keychain account keyId token row) :
    Spends env event keychain (keychain.writeLimit account keyId token row) := by
  refine ⟨rfl, rfl, rfl, rfl, rfl, fun other otherKey otherToken => ?_⟩
  show RowRule env event keychain other otherKey otherToken (update keychain.spendingLimits (account, keyId)
    (update (keychain.spendingLimits (account, keyId)) token row) (other, otherKey) otherToken)
  by_cases hpair : (other, otherKey) = (account, keyId)
  · obtain ⟨rfl, rfl⟩ := Prod.mk.inj hpair
    rw [update_self]
    by_cases htoken : otherToken = token
    · rw [htoken, update_self]
      exact h
    · rw [update_of_ne htoken]
      exact .same
  · rw [update_of_ne hpair]
    exact .same

theorem verifyAndUpdateSpending_spends (hevent : spending event = some (keychain.txOrigin, token, amount))
    (h : keychain.verifyAndUpdateSpending env keychain.txOrigin keychain.transactionKey token amount = .ok next) :
    Spends env event keychain next := by
  unfold verifyAndUpdateSpending at h
  split at h
  · cases h
    exact .refl ..
  rename_i hkey
  obtain ⟨_, h⟩ := rest_ok h
  split at h
  · cases h
    exact .refl ..
  · obtain ⟨row, hrow, rfl⟩ := map_ok h
    exact spends_writeLimit (.spend amount row rfl rfl hkey hevent hrow)

theorem refundSpendingLimit_spends (env : KeychainEnv) (keychain : AccountKeychain) (account token : Address) (amount : Nat) :
    Spends env (.refundSpendingLimit account token amount) keychain (keychain.refundSpendingLimit env account token amount) := by
  unfold refundSpendingLimit
  split
  · exact .refl ..
  rename_i hown
  obtain ⟨hkey, horigin⟩ := not_or.mp hown
  split
  · exact .refl ..
  · split
    · exact .refl ..
    · exact spends_writeLimit (.refund amount (not_not.mp horigin).symm rfl hkey rfl)

theorem attempt_cases (h : keychain.attempt env event = .ok next) : (∃ origin key, event = .transaction origin key ∧
        next = { keychain with txOrigin := origin, transactionKey := key }) ∨
      (∃ msgSender, Administers env msgSender keychain next) ∨ Spends env event keychain next := by
  cases event with
  | transaction origin key =>
    cases h
    exact .inl ⟨origin, key, rfl, rfl⟩
  | call msgSender => exact .inr (.inl ⟨msgSender, call_administers h⟩)
  | authorizeTransfer =>
    right; right
    simp only [attempt, authorizeTransfer] at h
    split at h
    · cases h
      exact .refl ..
    · rename_i hown
      cases not_not.mp (not_or.mp hown).2
      exact verifyAndUpdateSpending_spends rfl h
  | authorizeApprove =>
    right; right
    simp only [attempt, authorizeApprove] at h
    split at h
    · cases h
      exact .refl ..
    · rename_i hown
      cases not_not.mp (not_or.mp (not_or.mp hown).2).1
      exact verifyAndUpdateSpending_spends rfl h
  | refundSpendingLimit =>
    cases h
    exact .inr (.inr (refundSpendingLimit_spends ..))

theorem Dead.attempt (h : Dead (keychain.keys account keyId) now) (htime : now ≤ env.now)
    (hattempt : keychain.attempt env event = .ok next) : Dead (next.keys account keyId) now := by
  rcases attempt_cases hattempt with ⟨_, _, -, rfl⟩ | ⟨msgSender, hadmin⟩ | hspends
  · exact h
  · by_cases heq : account = msgSender
    · rw [heq] at h ⊢
      exact h.step (hadmin.keys keyId) htime
    · rw [(hadmin.within.others account heq).keys]
      exact h
  · rw [hspends.keys]
    exact h

theorem Dead.run (h : Dead (keychain.keys account keyId) now) (htime : ∀ event ∈ events, now ≤ event.1.now) :
    Dead ((keychain.run events).keys account keyId) now := by
  induction events generalizing keychain with
  | nil => exact h
  | cons event _ ih =>
    rw [forall_mem_cons] at htime
    refine ih ?_ htime.2
    unfold apply
    cases hattempt : keychain.attempt event.1 event.2 with
    | ok => exact h.attempt htime.1 hattempt
    | error => exact h

/-! ### Transactions signed by access keys -/

def Restricted (keychain : AccountKeychain) (account : Address) : Prop :=
  keychain.txOrigin = account → keychain.transactionKey ≠ 0 ∧ keychain.transactionKey ≠ account ∧
    (keychain.keys account keychain.transactionKey).isAdmin = false

/-- One event leaves the account's keys alone, and changes its rows by the rules. -/
structure Untouched (event : KeychainEnv × KeychainEvent) (account : Address) (keychain next : AccountKeychain) : Prop where
  keys : next.keys account = keychain.keys account
  scopes : ∀ keyId, next.keyScopes (account, keyId) = keychain.keyScopes (account, keyId)
  witnesses : next.keyAuthorizationWitnesses account = keychain.keyAuthorizationWitnesses account
  rows : ∀ keyId token, RowRule event.1 event.2 keychain account keyId token (next.spendingLimits (account, keyId) token)

def SignedByAccessKey (keys : Address → AuthorizedKey) (account : Address) (event : KeychainEvent) : Prop :=
  ∀ origin key, event = .transaction origin key → origin = account →
    key ≠ 0 ∧ key ≠ account ∧ (keys key).isAdmin = false

section
variable (h : Restricted keychain account)
include h
/-- An access key cannot administer. -/
theorem Restricted.not_admin (hspec : .t2 ≤ env.spec) : keychain.ensureAdminCaller env account ≠ .ok () := by
  intro hadmin
  obtain ⟨hkey, horigin⟩ := check_ok hadmin
  have horigin := (require_eq_ok.mp horigin hspec).2
  obtain ⟨hset, hown, hplain⟩ := h horigin
  rcases hkey with hzero | ⟨-, hisAdmin⟩
  · exact hset hzero
  unfold isAdminKey at hisAdmin
  rw [if_neg hown] at hisAdmin
  split at hisAdmin
  · rename_i _ hload
    obtain ⟨rfl, -⟩ := loadActiveKey_eq_ok hload
    rw [hplain] at hisAdmin
    cases hisAdmin
  · cases hisAdmin

theorem Restricted.apply {event : KeychainEnv × KeychainEvent} (hspec : .t2 ≤ event.1.spec)
    (hsigned : SignedByAccessKey (keychain.keys account) account event.2) :
    Untouched event account keychain (keychain.apply event) ∧ Restricted (keychain.apply event) account := by
  have hsame : Untouched event account keychain keychain := ⟨rfl, fun _ => rfl, rfl, fun _ _ => .same⟩
  unfold AccountKeychain.apply
  cases hattempt : keychain.attempt event.1 event.2 with
  | error => exact ⟨hsame, h⟩
  | ok =>
    rcases attempt_cases hattempt with ⟨origin, key, hevent, rfl⟩ | ⟨msgSender, hadmin⟩ | hspends
    · exact ⟨⟨rfl, fun _ => rfl, rfl, fun _ _ => .same⟩, hsigned origin key hevent⟩
    · have hother : account ≠ msgSender := by
        rintro rfl
        exact h.not_admin hspec hadmin.admin
      have hframe := hadmin.within.others account hother
      refine ⟨{ hframe with rows := fun keyId _ => ?_ }, ?_⟩
      · rw [hframe.limits keyId]
        exact .same
      · unfold Restricted
        rw [hadmin.within.origin, hadmin.within.key, hframe.keys]
        exact h
    · refine ⟨⟨congrFun hspends.keys account, fun keyId => congrFun hspends.scopes _, congrFun hspends.witnesses account,
        hspends.rows account⟩, ?_⟩
      unfold Restricted
      rw [hspends.origin, hspends.key, hspends.keys]
      exact h

/-- The same over a stretch. -/
theorem Restricted.run
    (hevents : ∀ event ∈ events, .t2 ≤ event.1.spec ∧ SignedByAccessKey (keychain.keys account) account event.2) :
    Restricted (keychain.run events) account ∧ (keychain.run events).keys account = keychain.keys account ∧
      (∀ keyId, (keychain.run events).keyScopes (account, keyId) = keychain.keyScopes (account, keyId)) ∧
      (keychain.run events).keyAuthorizationWitnesses account = keychain.keyAuthorizationWitnesses account := by
  induction events generalizing keychain with
  | nil => exact ⟨h, rfl, fun _ => rfl, rfl⟩
  | cons _ _ ih =>
    rw [forall_mem_cons] at hevents
    obtain ⟨huntouched, hnext⟩ := h.apply hevents.1.1 hevents.1.2
    have hrest := ih hnext (by rw [huntouched.keys]; exact hevents.2)
    refine ⟨hrest.1, hrest.2.1.trans huntouched.keys, fun keyId => (hrest.2.2.1 keyId).trans (huntouched.scopes keyId),
      hrest.2.2.2.trans huntouched.witnesses⟩
end

/-- **Access keys cannot escalate.** A key that is revoked or has expired is not active at any later time. While the
account's transactions are signed by access keys that are not admin keys, its keys, scopes and witnesses stay as they
are, and its rows change by spending and refunds alone, whoever calls. -/
theorem access_keys_cannot_escalate (keychain : AccountKeychain) (account : Address)
    (events : List (KeychainEnv × KeychainEvent)) (hspec : ∀ event ∈ events, .t2 ≤ event.1.spec) :
    (∀ keyId now later, Dead (keychain.keys account keyId) now → (∀ event ∈ events, now ≤ event.1.now) → now ≤ later →
      (keychain.run events).isActiveKey account keyId later = false) ∧
    (Restricted keychain account →
      (∀ event ∈ events, SignedByAccessKey (keychain.keys account) account event.2) →
      (keychain.run events).keys account = keychain.keys account ∧
      (∀ keyId, (keychain.run events).keyScopes (account, keyId) = keychain.keyScopes (account, keyId)) ∧
      (keychain.run events).keyAuthorizationWitnesses account = keychain.keyAuthorizationWitnesses account ∧
      ∀ before event after, events = before ++ event :: after → ∀ keyId token,
        RowRule event.1 event.2 (keychain.run before) account keyId token
          ((keychain.run (before ++ [event])).spendingLimits (account, keyId) token)) := by
  refine ⟨fun keyId now later hdead htime hlater => (hdead.run htime).not_active hlater, fun hrestricted hsigned => ?_⟩
  have hall : ∀ event ∈ events, .t2 ≤ event.1.spec ∧ SignedByAccessKey (keychain.keys account) account event.2 :=
    fun event hmem => ⟨hspec event hmem, hsigned event hmem⟩
  obtain ⟨-, hkeys, hscopes, hwitnesses⟩ := hrestricted.run hall
  refine ⟨hkeys, hscopes, hwitnesses, fun before event after hsplit keyId token => ?_⟩
  subst hsplit
  have hbefore : ∀ other ∈ before, .t2 ≤ other.1.spec ∧ SignedByAccessKey (keychain.keys account) account other.2 :=
    fun other hmem => hall other (mem_append_left _ hmem)
  obtain ⟨hmid, hmidKeys, -⟩ := hrestricted.run hbefore
  obtain ⟨hevent, hsignature⟩ := hall event (by simp)
  have hstep := (hmid.apply hevent (by rw [hmidKeys]; exact hsignature)).1
  have hrun : keychain.run (before ++ [event]) = (keychain.run before).apply event := by
    unfold AccountKeychain.run
    rw [foldl_append]
    rfl
  rw [hrun]
  exact hstep.rows keyId token

/-- An access key without admin rights calls for its own limit to be raised, which fails, and spends from it. -/
theorem access_keys_cannot_escalate_limit :
    let keychain : AccountKeychain :=
      { keys := fun _ keyId => if keyId = 7 then { expiry := 100, enforceLimits := true } else {}
        spendingLimits := fun _ _ => { remaining := 80, max := 80 } }
    let env : KeychainEnv := ⟨.t6, 50, fun _ => false⟩
    let before := [(env, .transaction 5 7), (env, KeychainEvent.call 5 (.updateSpendingLimit 7 9 1000))]
    let events := before ++ [(env, .authorizeTransfer 5 9 30)]
    (keychain.run events).keys 5 = keychain.keys 5 ∧ ((keychain.run before).spendingLimits (5, 7) 9).remaining = 80 ∧
      ((keychain.run events).spendingLimits (5, 7) 9).remaining = 50 ∧
      RowRule env (.authorizeTransfer 5 9 30) (keychain.run before) 5 7 9 ((keychain.run events).spendingLimits (5, 7) 9) := by
  intro keychain env before events
  have hspec : ∀ event ∈ events, TempoHardfork.t2 ≤ event.1.spec := by decide
  have hrestricted : Restricted keychain 5 := fun horigin => absurd horigin (by decide)
  have hsigned : ∀ event ∈ events, SignedByAccessKey (keychain.keys 5) 5 event.2 := by
    simp only [events, before, List.cons_append, List.nil_append, forall_mem_cons]
    refine ⟨fun _ _ hevent _ => ?_, fun _ _ hevent => (nomatch hevent), fun _ _ hevent => (nomatch hevent),
      fun _ hmem => (nomatch hmem)⟩
    cases hevent
    decide
  obtain ⟨hkeys, -, -, hrows⟩ := (access_keys_cannot_escalate keychain 5 events hspec).2 hrestricted hsigned
  exact ⟨hkeys, by decide +kernel, by decide +kernel, hrows before _ [] rfl 7 9⟩

end LeafageEvm.Tempo.AccountKeychain
