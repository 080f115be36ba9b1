import LeafageEvm.Tempo.Base
import LeafageEvm.Types

/-! The keychain: access keys of accounts with their expiry, their limits of spending by token and the calls they may
make. Transactions are signed by the account's root key, which is written as the zero key, or by one of its access
keys; the key and the origin of the running transaction are known to the contract. Limits and scopes are stored under
the hash of account and key, which stands for the pair; gas is left out. -/

namespace LeafageEvm.Tempo
open Function

inductive KeychainError where
  | unauthorizedCaller
  | keyAlreadyExists
  | keyNotFound
  | keyExpired
  | spendingLimitExceeded
  | invalidSignatureType
  | zeroPublicKey
  | expiryInPast
  | keyAlreadyRevoked
  | invalidCallScope
  | invalidSpendingLimit
  | keyAuthorizationWitnessAlreadyBurned
  | invalidKeyId
  | legacyAuthorizeKeySelectorChanged
  | unknownFunctionSelector
  | invalidCalldata
  deriving DecidableEq

inductive SignatureType where
  | secp256k1 | p256 | webAuthn | configurableAccount
  deriving DecidableEq

def u256Max : Nat := 2 ^ 256 - 1

def zeroPeriodicRemainingSentinel : Nat := u256Max

structure AuthorizedKey where
  signatureType : Nat := 0
  expiry : U64 := 0
  enforceLimits : Bool := false
  isRevoked : Bool := false
  isAdmin : Bool := false
  deriving DecidableEq

structure SpendingLimitState where
  remaining : Nat := 0
  max : Nat := 0
  period : Nat := 0
  periodEnd : Nat := 0
  deriving DecidableEq

def saturatingAdd (a b bound : Nat) : Nat := min (a + b) bound

def SpendingLimitState.computeNextPeriodEnd (state : SpendingLimitState) (currentTimestamp : Nat) : Nat :=
  let periodsElapsed := saturatingAdd ((currentTimestamp - state.periodEnd) / state.period) 1 u64Max
  saturatingAdd state.periodEnd (min (state.period * periodsElapsed) u64Max) u64Max

structure SelectorRule where
  selector : Nat
  recipients : List Address

structure CallScope where
  target : Address
  selectorRules : List SelectorRule

structure TokenLimit where
  token : Address
  amount : Nat
  period : Nat := 0

structure KeyRestrictions where
  expiry : U64
  enforceLimits : Bool
  limits : List TokenLimit
  allowAnyCalls : Bool
  allowedCalls : List CallScope

/-- The calls a key may make: any, or those to the targets, with the selectors and to the recipients listed, where an
empty list of selectors or recipients allows all of them. -/
structure KeyScope where
  isScoped : Bool := false
  targets : List Address := []
  selectors : Address → List Nat := fun _ => []
  recipients : Address → Nat → List Address := fun _ _ => []

structure KeychainEnv where
  spec : TempoHardfork
  timestamp : Nat
  /-- Whether the factory knows a token. -/
  isTip20 : Address → Bool := fun _ => false

def KeychainEnv.now (env : KeychainEnv) : Nat := min env.timestamp u64Max

/-! ### Scopes -/

namespace KeyScope

variable (env : KeychainEnv) (scope : KeyScope) (target : Address)

def setInsert {A : Type} [DecidableEq A] (set : List A) (value : A) : List A := if value ∈ set then set else set ++ [value]

/-- The last value takes the place of the one that goes. -/
def setRemove {A : Type} [DecidableEq A] (set : List A) (value : A) : List A :=
  match set.getLast? with
  | none => set
  | some last => (set.map fun other => if other = value then last else other).dropLast

def clearTargetSelectors : KeyScope :=
  { scope with
    selectors := update scope.selectors target []
    recipients := update scope.recipients target fun selector =>
      if selector ∈ scope.selectors target then [] else scope.recipients target selector }

def clearAllTargetScopes : KeyScope :=
  { scope.targets.foldl clearTargetSelectors scope with targets := [] }

def removeTargetScope : KeyScope :=
  if scope.targets.contains target then ({ scope with targets := setRemove scope.targets target }).clearTargetSelectors target
  else scope

def transferSelector : Nat := 0xa9059cbb
def approveSelector : Nat := 0x095ea7b3
def transferWithMemoSelector : Nat := 0x95777d59

/-- `is_constrained_tip20_selector`. -/
def isConstrainedTip20Selector (selector : Nat) : Bool :=
  selector = transferSelector ∨ selector = approveSelector ∨ selector = transferWithMemoSelector

def validateRules (env : KeychainEnv) (target : Address) : List SelectorRule → List Nat → Except KeychainError Unit
  | [], _ => .ok ()
  | rule :: rules, selectors =>
    (require (rule.selector ∉ selectors) .invalidCallScope).bind fun _ =>
      (require (rule.recipients ≠ [] → isConstrainedTip20Selector rule.selector = true ∧
          (if .t4 ≤ env.spec then isTip20Prefix target else env.isTip20 target) = true ∧
          0 ∉ rule.recipients ∧ rule.recipients.Nodup) .invalidCallScope).bind fun _ =>
        validateRules env target rules (rule.selector :: selectors)

def validateCallScope (scope : CallScope) : Except KeychainError Unit :=
  (require (scope.target ≠ 0) .invalidCallScope).bind fun _ => validateRules env scope.target scope.selectorRules []

/-- `validate_call_scopes`: duplicates, and from T4 each scope. -/
def validateCallScopes (scopes : List CallScope) : Except KeychainError Unit :=
  (require (scopes.map CallScope.target).Nodup .invalidCallScope).bind fun _ =>
    if .t4 ≤ env.spec then scopes.foldlM (fun _ scope => validateCallScope env scope) () else .ok ()

def insertRule (scope : KeyScope) (rule : SelectorRule) : KeyScope :=
  { scope with
    selectors := update scope.selectors target (setInsert (scope.selectors target) rule.selector)
    recipients := update scope.recipients target
      (update (scope.recipients target) rule.selector
        (if rule.recipients.isEmpty ∧ .t4 ≤ env.spec then scope.recipients target rule.selector else rule.recipients)) }

def upsertTargetScope (call : CallScope) : Except KeychainError KeyScope :=
  (if .t4 ≤ env.spec then .ok () else validateCallScope env call).map fun _ =>
    call.selectorRules.foldl (insertRule env call.target)
      (({ scope with targets := setInsert scope.targets call.target }).clearTargetSelectors call.target)

def replaceAllowedCalls (allowedCalls : Option (List CallScope)) :
    Except KeychainError KeyScope :=
  let scope := scope.clearAllTargetScopes
  match allowedCalls with
  | none => .ok { scope with isScoped := false }
  | some [] => .ok { scope with isScoped := true }
  | some scopes =>
    (validateCallScopes env scopes).bind fun _ => scopes.foldlM (upsertTargetScope env) { scope with isScoped := true }

end KeyScope

structure AccountKeychain where
  keys : Address → Address → AuthorizedKey := fun _ _ => {}
  spendingLimits : Address × Address → Address → SpendingLimitState := fun _ _ => {}
  keyScopes : Address × Address → KeyScope := fun _ => {}
  keyAuthorizationWitnesses : Address → Nat → Bool := fun _ _ => false
  transactionKey : Address := 0
  txOrigin : Address := 0

namespace AccountKeychain

variable (env : KeychainEnv) (keychain : AccountKeychain) (account msgSender : Address) (state : SpendingLimitState) (keyId token : Address)

def writeKey (key : AuthorizedKey) : AccountKeychain :=
  { keychain with keys := update keychain.keys account (update (keychain.keys account) keyId key) }

def writeLimit (state : SpendingLimitState) : AccountKeychain :=
  { keychain with
    spendingLimits := update keychain.spendingLimits (account, keyId)
      (update (keychain.spendingLimits (account, keyId)) token state) }

def writeScope (scope : KeyScope) : AccountKeychain :=
  { keychain with keyScopes := update keychain.keyScopes (account, keyId) scope }

def loadActiveKey (currentTimestamp : Nat) :
    Except KeychainError AuthorizedKey :=
  let key := keychain.keys account keyId
  (require (key.isRevoked = false) .keyAlreadyRevoked).bind fun _ =>
    (require (key.expiry ≠ 0) .keyNotFound).bind fun _ =>
      (require (currentTimestamp < key.expiry.val) .keyExpired).map fun _ => key

def isActiveKey (currentTimestamp : Nat) : Bool :=
  (keychain.loadActiveKey account keyId currentTimestamp).toBool

def isAdminKey : Bool :=
  if keyId = account then true
  else
    match keychain.loadActiveKey account keyId env.now with
    | .ok key => key.isAdmin
    | .error _ => false

def ensureAdminCaller : Except KeychainError Unit :=
  (require (keychain.transactionKey = 0 ∨ .t6 ≤ env.spec ∧ keychain.isAdminKey env msgSender keychain.transactionKey = true)
    .unauthorizedCaller).bind fun _ =>
    require (.t2 ≤ env.spec → keychain.txOrigin ≠ 0 ∧ keychain.txOrigin = msgSender) .unauthorizedCaller

def signatureTypeNumber : SignatureType → Except KeychainError Nat
  | .secp256k1 => .ok 0
  | .p256 => .ok 1
  | .webAuthn => .ok 2
  | .configurableAccount => .error .invalidSignatureType

/-- `t3_spending_limit_cap`. -/
def t3SpendingLimitCap (limit : Nat) : Except KeychainError Nat :=
  (require (limit ≤ u128Max) .invalidSpendingLimit).map fun _ => limit

/-- Only what is left is written, the rest of the row stays. -/
def writeRemaining (keychain : AccountKeychain) (limit : TokenLimit) : AccountKeychain :=
  keychain.writeLimit msgSender keyId limit.token
    { keychain.spendingLimits (msgSender, keyId) limit.token with remaining := limit.amount }

/-- `authorize_key`, before T3. -/
def authorizeKey (signatureType : SignatureType)
    (expiry : U64) (enforceLimits : Bool) (limits : List TokenLimit) : Except KeychainError AccountKeychain :=
  (require (¬ .t3 ≤ env.spec) .legacyAuthorizeKeySelectorChanged).bind fun _ =>
    (keychain.ensureAdminCaller env msgSender).bind fun _ =>
      (require (keyId ≠ 0) .zeroPublicKey).bind fun _ =>
        (require (env.now < expiry.val) .expiryInPast).bind fun _ =>
          let existing := keychain.keys msgSender keyId
          (require (existing.expiry = 0) .keyAlreadyExists).bind fun _ =>
            (require (existing.isRevoked = false) .keyAlreadyRevoked).bind fun _ =>
              (signatureTypeNumber signatureType).map fun signatureType =>
                let keychain := keychain.writeKey msgSender keyId
                  { signatureType := signatureType, expiry := expiry, enforceLimits := enforceLimits }
                if enforceLimits then limits.foldl (writeRemaining msgSender keyId) keychain else keychain

def writeNewLimit (keychain : AccountKeychain) (limit : TokenLimit) :
    Except KeychainError AccountKeychain :=
  (t3SpendingLimitCap limit.amount).map fun max =>
    keychain.writeLimit msgSender keyId limit.token
      { remaining := limit.amount, max := max, period := limit.period
        periodEnd := if limit.period = 0 then 0 else saturatingAdd env.now limit.period u64Max }

/-- `ensure_key_authorization_witness_not_burned`. -/
def ensureWitnessNotBurned (witness : Nat) : Except KeychainError Unit :=
  require (keychain.keyAuthorizationWitnesses account witness = false) .keyAuthorizationWitnessAlreadyBurned

/-- `authorize_key_with_restrictions_internal`. -/
def authorizeKeyWithRestrictions
    (signatureType : SignatureType) (config : KeyRestrictions) (witness : Option Nat) (isAdmin : Bool) :
    Except KeychainError AccountKeychain :=
  (keychain.ensureAdminCaller env msgSender).bind fun _ =>
    (require (keyId ≠ 0) .zeroPublicKey).bind fun _ =>
      (require (¬ (isAdmin = true ∧ keyId = msgSender)) .invalidKeyId).bind fun _ =>
        (require (env.now < config.expiry.val) .expiryInPast).bind fun _ =>
          let existing := keychain.keys msgSender keyId
          (require (existing.expiry = 0) .keyAlreadyExists).bind fun _ =>
            (require (existing.isRevoked = false) .keyAlreadyRevoked).bind fun _ =>
              (signatureTypeNumber signatureType).bind fun signatureType =>
                (require (config.enforceLimits = true → (config.limits.map TokenLimit.token).Nodup) .invalidSpendingLimit).bind
                  fun _ =>
                  (require (config.allowAnyCalls = true → .t5 ≤ env.spec → config.allowedCalls.isEmpty = true)
                    .invalidCallScope).bind fun _ =>
                    (match witness with
                      | some witness => keychain.ensureWitnessNotBurned msgSender witness
                      | none => .ok ()).bind fun _ =>
                      let keychain := keychain.writeKey msgSender keyId
                        { signatureType := signatureType, expiry := config.expiry, enforceLimits := config.enforceLimits
                          isAdmin := isAdmin }
                      if isAdmin then .ok keychain
                      else
                        ((if config.enforceLimits then config.limits else []).foldlM (writeNewLimit env msgSender keyId)
                          keychain).bind fun keychain =>
                          (KeyScope.replaceAllowedCalls env (keychain.keyScopes (msgSender, keyId))
                            (if config.allowAnyCalls then none else some config.allowedCalls)).map
                            (keychain.writeScope msgSender keyId)

/-- `authorize_admin_key_authorization`. -/
def authorizeAdminKey
    (signatureType : SignatureType) (witness : Nat) : Except KeychainError AccountKeychain :=
  keychain.authorizeKeyWithRestrictions env msgSender keyId signatureType
    { expiry := Fin.last _, enforceLimits := false, limits := [], allowAnyCalls := true, allowedCalls := [] } (some witness) true

def burnKeyAuthorizationWitness (witness : Nat) :
    Except KeychainError AccountKeychain :=
  (keychain.ensureAdminCaller env msgSender).bind fun _ =>
    (keychain.ensureWitnessNotBurned msgSender witness).map fun _ =>
      { keychain with
        keyAuthorizationWitnesses := update keychain.keyAuthorizationWitnesses msgSender
          (update (keychain.keyAuthorizationWitnesses msgSender) witness true) }

def revokeKey :
    Except KeychainError AccountKeychain :=
  (keychain.ensureAdminCaller env msgSender).bind fun _ =>
    (require ((keychain.keys msgSender keyId).expiry ≠ 0) .keyNotFound).map fun _ =>
      keychain.writeKey msgSender keyId { isRevoked := true }

def updateSpendingLimit (newLimit : Nat) :
    Except KeychainError AccountKeychain :=
  (keychain.ensureAdminCaller env msgSender).bind fun _ =>
    (keychain.loadActiveKey msgSender keyId env.now).bind fun key =>
      (require (key.isAdmin = false) .invalidKeyId).bind fun _ =>
        let keychain := if key.enforceLimits then keychain else keychain.writeKey msgSender keyId { key with enforceLimits := true }
        let state := keychain.spendingLimits (msgSender, keyId) token
        if .t3 ≤ env.spec then
          (t3SpendingLimitCap newLimit).map fun max =>
            keychain.writeLimit msgSender keyId token { state with remaining := newLimit, max := max }
        else .ok (keychain.writeLimit msgSender keyId token { state with remaining := newLimit })

def setAllowedCalls (scopes : List CallScope) :
    Except KeychainError AccountKeychain :=
  (require (.t3 ≤ env.spec) .invalidCallScope).bind fun _ =>
    (keychain.ensureAdminCaller env msgSender).bind fun _ =>
      (keychain.loadActiveKey msgSender keyId env.now).bind fun key =>
        (require (key.isAdmin = false) .invalidKeyId).bind fun _ =>
          (require (scopes.isEmpty = false) .invalidCallScope).bind fun _ =>
            (KeyScope.validateCallScopes env scopes).bind fun _ =>
              (scopes.foldlM (KeyScope.upsertTargetScope env) (keychain.keyScopes (msgSender, keyId))).map fun scope =>
                keychain.writeScope msgSender keyId { scope with isScoped := true }

def removeAllowedCalls (target : Address) :
    Except KeychainError AccountKeychain :=
  (keychain.ensureAdminCaller env msgSender).bind fun _ =>
    (keychain.loadActiveKey msgSender keyId env.now).bind fun key =>
      (require (key.isAdmin = false) .invalidKeyId).map fun _ =>
        let scope := keychain.keyScopes (msgSender, keyId)
        if scope.isScoped then keychain.writeScope msgSender keyId (scope.removeTargetScope target) else keychain

/-! ### Spending -/

/-- What a row has left before a spend, and the row with its window moved on. -/
def rollOver : Nat × SpendingLimitState :=
  if state.period ≠ 0 then
    if state.periodEnd ≤ env.now then
      (state.max, { state with periodEnd := state.computeNextPeriodEnd env.now, remaining := state.max })
    else if .t7 ≤ env.spec ∧ state.remaining = zeroPeriodicRemainingSentinel then (0, state)
    else (state.remaining, state)
  else (state.remaining, state)

def spendRow (amount : Nat) : Except KeychainError SpendingLimitState :=
  if .t3 ≤ env.spec then
    let rolled := rollOver env state
    (require (amount ≤ rolled.1) .spendingLimitExceeded).map fun _ =>
      let newRemaining := rolled.1 - amount
      if state.period ≠ 0 then
        { rolled.2 with
          remaining := if .t7 ≤ env.spec ∧ newRemaining = 0 then zeroPeriodicRemainingSentinel else newRemaining }
      else { state with remaining := newRemaining }
  else
    (require (amount ≤ state.remaining) .spendingLimitExceeded).map fun _ =>
      { state with remaining := state.remaining - amount }

def verifyAndUpdateSpending (amount : Nat) :
    Except KeychainError AccountKeychain :=
  if keyId = 0 then .ok keychain
  else
    (keychain.loadActiveKey account keyId env.now).bind fun key =>
      if key.enforceLimits = false then .ok keychain
      else
        (spendRow env (keychain.spendingLimits (account, keyId) token) amount).map (keychain.writeLimit account keyId token)

def refundRow (amount : Nat) : SpendingLimitState :=
  if .t3 ≤ env.spec then
    let refunded :=
      if .t7 ≤ env.spec ∧ state.period ≠ 0 ∧ state.remaining = zeroPeriodicRemainingSentinel then amount
      else saturatingAdd state.remaining amount u256Max
    { state with remaining := if state.max = 0 then refunded else min refunded state.max }
  else { state with remaining := saturatingAdd state.remaining amount u256Max }

def refundSpendingLimit (amount : Nat) :
    AccountKeychain :=
  if keychain.transactionKey = 0 ∨ account ≠ keychain.txOrigin then keychain
  else
    match keychain.loadActiveKey account keychain.transactionKey env.now with
    | .error _ => keychain
    | .ok key =>
      if key.enforceLimits = false then keychain
      else
        keychain.writeLimit account keychain.transactionKey token
          (refundRow env (keychain.spendingLimits (account, keychain.transactionKey) token) amount)

def authorizeTransfer (amount : Nat) :
    Except KeychainError AccountKeychain :=
  if keychain.transactionKey = 0 ∨ account ≠ keychain.txOrigin then .ok keychain
  else keychain.verifyAndUpdateSpending env account keychain.transactionKey token amount

def authorizeApprove (oldApproval newApproval : Nat) :
    Except KeychainError AccountKeychain :=
  if keychain.transactionKey = 0 ∨ account ≠ keychain.txOrigin ∨ newApproval - oldApproval = 0 then .ok keychain
  else keychain.verifyAndUpdateSpending env account keychain.transactionKey token (newApproval - oldApproval)

/-- `effective_limit_state`: what is left and when the window ends, as `get_remaining_limit_with_period` says it. -/
def effectiveLimitState : Nat × Nat :=
  let key := keychain.keys account keyId
  let state := keychain.spendingLimits (account, keyId) token
  if keyId = 0 ∧ .t3 ≤ env.spec then (0, 0)
  else if key.expiry = 0 ∨ key.isRevoked = true then (0, 0)
  else if .t3 ≤ env.spec ∧ key.expiry.val ≤ env.now then (0, 0)
  else if ¬ .t3 ≤ env.spec then (state.remaining, 0)
  else if state.period = 0 then (state.remaining, 0)
  else
    let remaining := if .t7 ≤ env.spec ∧ state.remaining = zeroPeriodicRemainingSentinel then 0 else state.remaining
    if env.now < state.periodEnd then (remaining, state.periodEnd)
    else
      let periodsElapsed := saturatingAdd ((env.now - state.periodEnd) / state.period) 1 u64Max
      (state.max, saturatingAdd state.periodEnd (min (state.period * periodsElapsed) u64Max) u64Max)

end AccountKeychain

/-! ### The interface -/

inductive KeychainCall where
  | authorizeKey (keyId : Address) (signatureType : SignatureType) (expiry : U64) (enforceLimits : Bool)
      (limits : List TokenLimit)
  | authorizeKeyWithRestrictions (keyId : Address) (signatureType : SignatureType) (config : KeyRestrictions)
  | authorizeKeyWithWitness (keyId : Address) (signatureType : SignatureType) (config : KeyRestrictions) (witness : Nat)
  | authorizeAdminKey (keyId : Address) (signatureType : SignatureType) (witness : Nat)
  | burnKeyAuthorizationWitness (witness : Nat)
  | revokeKey (keyId : Address)
  | updateSpendingLimit (keyId token : Address) (newLimit : Nat)
  | setAllowedCalls (keyId : Address) (scopes : List CallScope)
  | removeAllowedCalls (keyId target : Address)

/-- `selector_is_disabled`. -/
def KeychainCall.isDisabled (spec : TempoHardfork) : KeychainCall → Bool
  | .authorizeKeyWithRestrictions .. => ¬ .t3 ≤ spec
  | .authorizeKeyWithWitness .. => ¬ .t5 ≤ spec
  | .authorizeAdminKey .. => ¬ .t6 ≤ spec
  | .burnKeyAuthorizationWitness .. => ¬ .t5 ≤ spec
  | .setAllowedCalls .. => ¬ .t3 ≤ spec
  | .removeAllowedCalls .. => ¬ .t3 ≤ spec
  | _ => false

def KeychainCall.isConfigurableAccountAuthorization (spec : TempoHardfork) : KeychainCall → Bool
  | .authorizeKey _ signatureType .. => .t11 ≤ spec ∧ signatureType = .configurableAccount
  | .authorizeKeyWithRestrictions _ signatureType _ => .t11 ≤ spec ∧ signatureType = .configurableAccount
  | .authorizeKeyWithWitness _ signatureType _ _ => .t11 ≤ spec ∧ signatureType = .configurableAccount
  | .authorizeAdminKey _ signatureType _ => .t11 ≤ spec ∧ signatureType = .configurableAccount
  | _ => false

/-- What happens to the contract: a transaction begins, a contract calls it, or a token asks it about a transfer. -/
inductive KeychainEvent where
  | transaction (origin key : Address)
  | call (msgSender : Address) (call : KeychainCall)
  | authorizeTransfer (account token : Address) (amount : Nat)
  | authorizeApprove (account token : Address) (oldApproval newApproval : Nat)
  | refundSpendingLimit (account token : Address) (amount : Nat)

namespace AccountKeychain

def call (env : KeychainEnv) (keychain : AccountKeychain) (msgSender : Address) (call : KeychainCall) :
    Except KeychainError AccountKeychain :=
  (require (call.isDisabled env.spec = false) .unknownFunctionSelector).bind fun _ =>
    (require (call.isConfigurableAccountAuthorization env.spec = false) .invalidCalldata).bind fun _ =>
      match call with
      | .authorizeKey keyId signatureType expiry enforceLimits limits =>
        keychain.authorizeKey env msgSender keyId signatureType expiry enforceLimits limits
      | .authorizeKeyWithRestrictions keyId signatureType config =>
        keychain.authorizeKeyWithRestrictions env msgSender keyId signatureType config none false
      | .authorizeKeyWithWitness keyId signatureType config witness =>
        keychain.authorizeKeyWithRestrictions env msgSender keyId signatureType config (some witness) false
      | .authorizeAdminKey keyId signatureType witness => keychain.authorizeAdminKey env msgSender keyId signatureType witness
      | .burnKeyAuthorizationWitness witness => keychain.burnKeyAuthorizationWitness env msgSender witness
      | .revokeKey keyId => keychain.revokeKey env msgSender keyId
      | .updateSpendingLimit keyId token newLimit => keychain.updateSpendingLimit env msgSender keyId token newLimit
      | .setAllowedCalls keyId scopes => keychain.setAllowedCalls env msgSender keyId scopes
      | .removeAllowedCalls keyId target => keychain.removeAllowedCalls env msgSender keyId target

def attempt (env : KeychainEnv) (keychain : AccountKeychain) : KeychainEvent → Except KeychainError AccountKeychain
  | .transaction origin key => .ok { keychain with txOrigin := origin, transactionKey := key }
  | .call msgSender call => keychain.call env msgSender call
  | .authorizeTransfer account token amount => keychain.authorizeTransfer env account token amount
  | .authorizeApprove account token oldApproval newApproval => keychain.authorizeApprove env account token oldApproval newApproval
  | .refundSpendingLimit account token amount => .ok (keychain.refundSpendingLimit env account token amount)

/-- What fails is reverted. -/
def apply (keychain : AccountKeychain) (event : KeychainEnv × KeychainEvent) : AccountKeychain :=
  match keychain.attempt event.1 event.2 with
  | .ok next => next
  | .error _ => keychain

def run (keychain : AccountKeychain) (events : List (KeychainEnv × KeychainEvent)) : AccountKeychain :=
  events.foldl apply keychain

end AccountKeychain
end LeafageEvm.Tempo
