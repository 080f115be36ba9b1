import LeafageEvm.Tempo.Base

/-! The TIP-20 token: balances, supply and allowances, the receive-policy guard that blocked inbounds are
redirected to, and the rewards before T8. Roles, transfer policies, receive policies, virtual addresses and
spending limits are given to each call as it finds them: no balance can change through them. The events of
the guard are kept, those of the token are not. -/

namespace LeafageEvm.Tempo

inductive Role where
  | defaultAdmin | pause | unpause | issuer | burnBlocked | burnAt
  deriving DecidableEq

inductive AuthRole where
  | sender | recipient | mintRecipient
  deriving DecidableEq

inductive BlockedReason where
  | none | tokenFilter | receivePolicy
  deriving DecidableEq

/-- A reason as receipts hold it. -/
def BlockedReason.code : BlockedReason → Nat
  | .none => 0
  | .tokenFilter => 1
  | .receivePolicy => 2

/-- What a call on a token reads elsewhere: the fork and the time, the masters of virtual addresses, the
roles and the transfer policy of the token, the receive policies, the access keys' spending limits, and the
signer of a permit (by owner, spender, value, nonce and deadline). -/
structure Env where
  spec : TempoHardfork
  timestamp : Nat
  masters : Nat → Option Address
  hasRole : Role → Address → Bool
  isAuthorizedAs : AuthRole → Address → Except TempoError Bool
  authorizeTransfer : Address → Nat → Except TempoError Unit
  authorizeApprove : Address → Nat → Nat → Except TempoError Unit
  recoverSigner : Address → Address → Nat → Nat → Nat → Option Address
  checkReceivePolicy : Address → Address → Except TempoError (Option (BlockedReason × Address))

variable (env : Env)

/-- An environment without policies, virtual addresses or spending limits, where everybody has every role. -/
def Env.permissive (spec : TempoHardfork) : Env where
  spec := spec
  timestamp := 0
  masters := fun _ => none
  hasRole := fun _ _ => true
  isAuthorizedAs := fun _ _ => .ok true
  authorizeTransfer := fun _ _ => .ok ()
  authorizeApprove := fun _ _ _ => .ok ()
  recoverSigner := fun _ _ _ _ _ => none
  checkReceivePolicy := fun _ _ => .ok none

structure UserRewardInfo where
  rewardRecipient : Address := 0
  rewardPerToken : Nat := 0
  rewardBalance : Nat := 0
  deriving DecidableEq

/-- The storage of a token that its balances depend on. -/
structure Token where
  totalSupply : Nat := 0
  supplyCap : Nat := 0
  paused : Bool := false
  balances : Address → Nat := fun _ => 0
  allowances : Address → Address → Nat := fun _ _ => 0
  permitNonces : Address → Nat := fun _ => 0
  globalRewardPerToken : Nat := 0
  optedInSupply : Nat := 0
  userRewardInfo : Address → UserRewardInfo := fun _ => {}

@[irreducible] def accPrecision : Nat := 10 ^ 18

structure Recipient where
  target : Address
  virtualAddr : Option Address := none

/-- `resolve_recipient`: from T3 on a virtual address stands for its master. -/
def resolveRecipient (address : Address) : Except TempoError Address :=
  if .t3 ≤ env.spec ∧ isVirtual address then
    match env.masters (address.val / 2 ^ 128) with
    | some master => .ok master
    | none => .error .virtualAddressUnregistered
  else .ok address

namespace Recipient

def direct (target : Address) : Recipient := { target := target }

def resolve (env : Env) (address : Address) : Except TempoError Recipient :=
  (resolveRecipient env address).map fun target =>
    if target = address then direct address else { target := target, virtualAddr := some address }

def validate (dest : Recipient) : Except TempoError Unit :=
  require (dest.target ≠ 0 ∧ ¬ isTip20Prefix dest.target) .invalidRecipient

def eventAddress (dest : Recipient) : Address := dest.virtualAddr.getD dest.target

end Recipient

/-! ### Rewards -/

namespace Token

variable (spec : TempoHardfork) (token : Token) (amount : Nat)

def setBalance (account : Address) (amount : Nat) : Token :=
  { token with balances := Function.update token.balances account amount }

def setAllowance (owner spender : Address) (amount : Nat) : Token :=
  { token with allowances := Function.update token.allowances owner (Function.update (token.allowances owner) spender amount) }

def setRewardInfo (account : Address) (info : UserRewardInfo) : Token :=
  { token with userRewardInfo := Function.update token.userRewardInfo account info }

/-- The reward of a holder for a rise of the accumulator. -/
def accrued (balance delta : Nat) : Except TempoError Nat :=
  (checkedMul balance delta .underOverflow).map (· / accPrecision)

/-- Credit a reward to the account's recipient, and return the account's own record. -/
def creditReward (holder : Address) (info : UserRewardInfo) (reward : Nat) :
    Except TempoError (Token × UserRewardInfo) :=
  if info.rewardRecipient = holder then
    (checkedAdd info.rewardBalance reward .underOverflow).map fun balance =>
      (token, { info with rewardBalance := balance })
  else
    let delegateInfo := token.userRewardInfo info.rewardRecipient
    (checkedAdd delegateInfo.rewardBalance reward .underOverflow).map fun balance =>
      (token.setRewardInfo info.rewardRecipient { delegateInfo with rewardBalance := balance }, info)

/-- `update_rewards`: accrue what the holder's balance has earned since its last update. Returns the
recipient of its rewards. -/
def updateRewards (holder : Address) : Except TempoError (Address × Token) :=
  if .t8 ≤ spec then .ok (0, token)
  else
    let info := token.userRewardInfo holder
    (checkedSub token.globalRewardPerToken info.rewardPerToken .underOverflow).bind fun delta =>
      if delta = 0 then .ok (info.rewardRecipient, token)
      else
        (if info.rewardRecipient = 0 then .ok (token, info)
          else (accrued (token.balances holder) delta).bind (token.creditReward holder info)).map fun credited =>
            (info.rewardRecipient, credited.1.setRewardInfo holder
              { credited.2 with rewardPerToken := token.globalRewardPerToken })

def addOptedIn : Except TempoError Token :=
  (checkedAdd token.optedInSupply amount .underOverflow).bind fun supply =>
    (toU128 supply .underOverflow).map fun supply => { token with optedInSupply := supply }

def subOptedIn : Except TempoError Token :=
  (checkedSub token.optedInSupply amount .underOverflow).bind fun supply =>
    (toU128 supply .underOverflow).map fun supply => { token with optedInSupply := supply }

def handleRewardsOnTransfer (source target : Address) (amount : Nat) :
    Except TempoError Token :=
  (token.updateRewards spec source).bind fun fromUpdate =>
    (fromUpdate.2.updateRewards spec target).bind fun toUpdate =>
      if fromUpdate.1 ≠ 0 then
        if toUpdate.1 = 0 then toUpdate.2.subOptedIn amount else .ok toUpdate.2
      else if toUpdate.1 ≠ 0 then toUpdate.2.addOptedIn amount
      else .ok toUpdate.2

def handleRewardsOnMint (target : Address) (amount : Nat) :
    Except TempoError Token :=
  (token.updateRewards spec target).bind fun update =>
    if update.1 ≠ 0 then update.2.addOptedIn amount else .ok update.2

/-! ### Moving tokens -/

/-- `_transfer_to`. The zero address is not credited. -/
def transferTo (source target : Address) (amount : Nat) :
    Except TempoError Token :=
  let fromBalance := token.balances source
  if fromBalance < amount then .error (.insufficientBalance fromBalance amount)
  else
    (token.handleRewardsOnTransfer spec source target amount).bind fun token =>
      (checkedSub fromBalance amount .underOverflow).bind fun newFromBalance =>
        let token := token.setBalance source newFromBalance
        if target = 0 then .ok token
        else (checkedAdd (token.balances target) amount .supplyCapExceeded).map (token.setBalance target)

def mintTo (target : Address) (totalSupply amount : Nat) :
    Except TempoError Token :=
  (checkedAdd totalSupply amount .underOverflow).bind fun newSupply =>
    if token.supplyCap < newSupply then .error .supplyCapExceeded
    else
      (token.handleRewardsOnMint spec target amount).bind fun token =>
        let token := { token with totalSupply := newSupply }
        (checkedAdd (token.balances target) amount .supplyCapExceeded).map (token.setBalance target)

/-- What is left of a burn after its transfer to the zero address. -/
def reduceSupply : Except TempoError Token :=
  (checkedSub token.totalSupply amount (.insufficientBalance token.totalSupply amount)).map fun supply =>
    { token with totalSupply := supply }

/-- `_transfer`. -/
def transferInner (env : Env) (token : Token) (source target : Address) (amount : Nat) : Except TempoError Token :=
  (Recipient.resolve env target).bind fun target => token.transferTo env.spec source target.target amount

/-- The burn that `_burn`, `burn_blocked_internal` and `burn_at` end in. -/
def burnFrom (env : Env) (token : Token) (source : Address) (amount : Nat) : Except TempoError Token :=
  (token.transferInner env source 0 amount).bind fun token => token.reduceSupply amount

def checkNotPaused : Except TempoError Unit := require (token.paused = false) .contractPaused

def consumeAllowance (owner spender : Address) (amount : Nat) : Except TempoError Token :=
  let allowed := token.allowances owner spender
  if allowed < amount then .error .insufficientAllowance
  else if allowed = 2 ^ 256 - 1 then .ok token
  else (checkedSub allowed amount .insufficientAllowance).map (token.setAllowance owner spender)

end Token

/-! ### The guard -/

inductive InboundKind where
  | transfer | mint
  deriving DecidableEq

def blockedReceiptVersion : Nat := 1

/-- A claim receipt. -/
structure Receipt where
  version : Nat
  token : Address
  recoveryAuthority : Address
  originator : Address
  recipient : Address
  blockedAt : Nat
  blockedNonce : Nat
  blockedReason : Nat
  kind : InboundKind
  memo : Nat
  deriving DecidableEq

inductive GuardEvent where
  | transferBlocked (receipt : Receipt) (amount : Nat)
  | receiptClaimed (receipt : Receipt) (caller dest : Address) (amount : Nat)
  | receiptBurned (receipt : Receipt) (caller : Address) (amount : Nat)
  deriving DecidableEq

/-- The receive-policy guard: its nonce, the amounts of the receipts and the events it has emitted, the last
one first. An amount is stored under the hash of its receipt, which stands for the receipt. -/
structure Guard where
  nonce : Nat := 0
  balances : Receipt → Nat := fun _ => 0
  events : List GuardEvent := []

namespace Guard

def nextReceiptNonce (guard : Guard) : Except TempoError (Nat × Guard) :=
  let nonce := max guard.nonce 1
  if nonce + 1 < 2 ^ 64 then .ok (nonce, { guard with nonce := nonce + 1 }) else .error .underOverflow

def setBalance (guard : Guard) (receipt : Receipt) (amount : Nat) : Guard :=
  { guard with balances := Function.update guard.balances receipt amount }

def emitEvent (guard : Guard) (event : GuardEvent) : Guard := { guard with events := event :: guard.events }

def storeBlocked (env : Env) (guard : Guard) (token originator recipient recoveryAuthority : Address) (amount : Nat)
    (blockedReason : BlockedReason) (kind : InboundKind) (memo : Nat) : Except TempoError Guard :=
  (require (blockedReason.code = 1 ∨ blockedReason.code = 2) .invalidReceipt).bind fun _ =>
    guard.nextReceiptNonce.map fun next =>
      let receipt : Receipt :=
        { version := blockedReceiptVersion, token := token, recoveryAuthority := recoveryAuthority
          originator := originator, recipient := recipient, blockedAt := min env.timestamp (2 ^ 64 - 1)
          blockedNonce := next.1, blockedReason := blockedReason.code, kind := kind, memo := memo }
      (next.2.setBalance receipt amount).emitEvent (.transferBlocked receipt amount)

end Guard

/-- `is_transfer_authorized`, which before T2 looks at both sides always. -/
def isTransferAuthorized (source target : Address) : Except TempoError Bool :=
  (env.isAuthorizedAs .sender source).bind fun sender =>
    if .t2 ≤ env.spec ∧ sender = false then .ok false
    else (env.isAuthorizedAs .recipient target).map fun recipient => sender && recipient

def ensureTransferAuthorized (source target : Address) : Except TempoError Unit :=
  (isTransferAuthorized env source target).bind fun authorized => require (authorized = true) .policyForbids

def ensureAuthorizedAs (account : Address) (role : AuthRole) : Except TempoError Unit :=
  (env.isAuthorizedAs role account).bind fun authorized => require (authorized = true) .policyForbids

def ensureReceivePolicyAuthorized (sender receiver : Address) : Except TempoError Unit :=
  (env.checkReceivePolicy sender receiver).bind fun blocked => require (blocked = none) .policyForbids

def checkRole (account : Address) (role : Role) : Except TempoError Unit :=
  require (env.hasRole role account = true) .unauthorized

/-- A token with the guard, as a call on the token sees them. -/
structure Custody where
  token : Token
  guard : Guard

namespace Custody

variable (env : Env) (self : Address) (state : Custody) (msgSender : Address)

/-- `validate_inbound_or_block`: from T6 on, an inbound that the receiver does not accept goes to the guard
instead. Returns whether it did. -/
def validateInboundOrBlock (originator : Address) (dest : Recipient)
    (amount : Nat) (mintTotalSupply : Option Nat) (memo : Nat) : Except TempoError (Bool × Custody) :=
  if ¬ .t6 ≤ env.spec then .ok (false, state)
  else
    (require (dest.target ≠ receivePolicyGuardAddress) .addressReserved).bind fun _ =>
      (env.checkReceivePolicy originator dest.target).bind fun blocked =>
        match blocked with
        | none => .ok (false, state)
        | some (reason, recoveryAuthority) =>
          (match mintTotalSupply with
            | some totalSupply => state.token.mintTo env.spec receivePolicyGuardAddress totalSupply amount
            | none => state.token.transferTo env.spec originator receivePolicyGuardAddress amount).bind fun token =>
              (state.guard.storeBlocked env self originator dest.eventAddress recoveryAuthority amount reason
                (if mintTotalSupply.isSome then .mint else .transfer) memo).map fun guard => (true, ⟨token, guard⟩)

def validateTransfer (spender : Option Address) (source dest : Address)
    (amount memo : Nat) : Except TempoError (Option Recipient × Custody) :=
  (Recipient.resolve env dest).bind fun dest =>
    state.token.checkNotPaused.bind fun _ =>
      dest.validate.bind fun _ =>
        (ensureTransferAuthorized env source dest.target).bind fun _ =>
          (match spender with
            | some spender => state.token.consumeAllowance source spender amount
            | none => (env.authorizeTransfer source amount).map fun _ => state.token).bind fun token =>
              (validateInboundOrBlock env self { state with token := token } source dest amount none memo).map
                fun (inbound : Bool × Custody) => (if inbound.1 then none else some dest, inbound.2)

/-- The transfers by allowance, by an access key and on behalf of a precompile: validate, then move. -/
def transferWith (spender : Option Address) (source dest : Address)
    (amount memo : Nat) : Except TempoError Custody :=
  (validateTransfer env self state spender source dest amount memo).bind fun validated =>
    match validated.1 with
    | none => .ok validated.2
    | some dest => (validated.2.token.transferTo env.spec source dest.target amount).map fun token =>
      { validated.2 with token := token }

/-- `transfer_with_memo`, and `transfer` with the memo zero. -/
def transfer (dest : Address) (amount memo : Nat) :
    Except TempoError Custody :=
  transferWith env self state none msgSender dest amount memo

/-- `transfer_from_with_memo`, and `transfer_from` with the memo zero. -/
def transferFrom (source dest : Address) (amount memo : Nat) :
    Except TempoError Custody :=
  transferWith env self state (some msgSender) source dest amount memo

def isImplicitlyApproved (spec : TempoHardfork) (address : Address) : Bool :=
  .t5 ≤ spec ∧ (address = tipFeeManagerAddress ∨ address = stablecoinDexAddress ∨ address = tip20ChannelReserveAddress)

/-- `system_transfer_from`: a precompile takes from its caller. -/
def systemTransferFrom (caller source : Address) (amount : Nat) :
    Except TempoError Custody :=
  (require (.t5 ≤ env.spec → isImplicitlyApproved env.spec caller = true) .unauthorized).bind fun _ =>
    transferWith env self state none source caller amount 0

/-- `channel_reserve_transfer`: a delivery that the receiver does not accept fails. -/
def channelReserveTransfer (source : Address) (dest : Recipient) (amount : Nat)
    (receivePolicySender : Address) : Except TempoError Custody :=
  (require (source = tip20ChannelReserveAddress ∨ dest.eventAddress = tip20ChannelReserveAddress) .unauthorized).bind fun _ =>
    state.token.checkNotPaused.bind fun _ =>
      dest.validate.bind fun _ =>
        (env.authorizeTransfer source amount).bind fun _ =>
          (require (dest.target ≠ receivePolicyGuardAddress) .addressReserved).bind fun _ =>
            (ensureReceivePolicyAuthorized env receivePolicySender dest.target).bind fun _ =>
              (state.token.transferTo env.spec source dest.target amount).map fun token => { state with token := token }

/-- `mint_with_memo`, and `mint` with the memo zero. -/
def mint (dest : Address) (amount memo : Nat) :
    Except TempoError Custody :=
  (Recipient.resolve env dest).bind fun dest =>
    (checkRole env msgSender .issuer).bind fun _ =>
      (if .t3 ≤ env.spec then state.token.checkNotPaused.bind fun _ => dest.validate else .ok ()).bind fun _ =>
        (ensureAuthorizedAs env dest.target .mintRecipient).bind fun _ =>
          (validateInboundOrBlock env self state msgSender dest amount (some state.token.totalSupply) memo).bind fun inbound =>
            if inbound.1 then .ok inbound.2
            else (inbound.2.token.mintTo env.spec dest.target state.token.totalSupply amount).map fun token =>
              { inbound.2 with token := token }

end Custody

/-! ### Burns, rewards and administration -/

namespace Token

variable (env : Env) (self : Address) (token : Token) (msgSender source : Address) (amount : Nat)

/-- `burn_with_memo` and `burn`. -/
def burn : Except TempoError Token :=
  (if .t3 ≤ env.spec then token.checkNotPaused else .ok ()).bind fun _ =>
    (checkRole env msgSender .issuer).bind fun _ => token.burnFrom env msgSender amount

/-- `check_burn_address`: balances that others have claims on. -/
def checkBurnAddress : Except TempoError Unit :=
  require (source ≠ tipFeeManagerAddress ∧ source ≠ stablecoinDexAddress ∧
    (.t5 ≤ env.spec → source ≠ tip20ChannelReserveAddress ∧ source ≠ self) ∧
    (.t6 ≤ env.spec → source ≠ receivePolicyGuardAddress) ∧
    (.t12 ≤ env.spec → isZonePortal source = false)) .protectedAddress

/-- `burn_blocked_internal`: the funds are the owner's, or the guard's on its behalf. -/
def burnBlockedInternal (owner : Address) (amount : Nat)
    (checkProtected : Bool) : Except TempoError Token :=
  (if .t3 ≤ env.spec then token.checkNotPaused else .ok ()).bind fun _ =>
    (checkRole env msgSender .burnBlocked).bind fun _ =>
      (if checkProtected then checkBurnAddress env self owner else .ok ()).bind fun _ =>
        (env.isAuthorizedAs .sender owner).bind fun authorized =>
          (require (authorized = false) .policyForbids).bind fun _ =>
            token.burnFrom env (if checkProtected then owner else receivePolicyGuardAddress) amount

def burnBlocked :
    Except TempoError Token :=
  token.burnBlockedInternal env self msgSender source amount true

def burnAt :
    Except TempoError Token :=
  token.checkNotPaused.bind fun _ =>
    (checkRole env msgSender .burnAt).bind fun _ =>
      (checkBurnAddress env self source).bind fun _ =>
        (env.authorizeTransfer source amount).bind fun _ => token.burnFrom env source amount

/-- The accumulator after a distribution, which fails if nobody has opted in. -/
def raiseRewardPerToken : Except TempoError Token :=
  (require (token.optedInSupply ≠ 0) .noOptedInSupply).bind fun _ =>
    (checkedMul amount accPrecision .underOverflow).bind fun scaled =>
      (checkedAdd token.globalRewardPerToken (scaled / token.optedInSupply) .underOverflow).map fun rate =>
        { token with globalRewardPerToken := rate }

/-- `distribute_reward`, which T7 turned off. -/
def distributeReward :
    Except TempoError Token :=
  if .t7 ≤ env.spec then .ok token
  else
    token.checkNotPaused.bind fun _ =>
      (require (amount ≠ 0) .invalidAmount).bind fun _ =>
        (ensureTransferAuthorized env msgSender self).bind fun _ =>
          (env.authorizeTransfer msgSender amount).bind fun _ =>
            (token.transferInner env msgSender self amount).bind fun token => token.raiseRewardPerToken amount

/-- `set_reward_recipient`, which T7 turned off. -/
def setRewardRecipient (recipient : Address) : Except TempoError Token :=
  if .t7 ≤ env.spec then .ok token
  else
    token.checkNotPaused.bind fun _ =>
      (require (.t3 ≤ env.spec → isVirtual recipient = false) .invalidRecipient).bind fun _ =>
        (if recipient ≠ 0 then ensureTransferAuthorized env msgSender recipient else .ok ()).bind fun _ =>
          (token.updateRewards env.spec msgSender).bind fun update =>
            let token := update.2
            let holderBalance := token.balances msgSender
            (if update.1 ≠ 0 then
                if recipient = 0 then token.subOptedIn holderBalance else .ok token
              else if recipient ≠ 0 then token.addOptedIn holderBalance
              else .ok token).map fun token =>
                token.setRewardInfo msgSender { token.userRewardInfo msgSender with rewardRecipient := recipient }

def payReward (rewardRecipient : Address) (amount : Nat) :
    Except TempoError Token :=
  (checkedSub (token.balances self) amount .underOverflow).bind fun contractBalance =>
    let token := token.setBalance self contractBalance
    (checkedAdd (token.balances msgSender) amount .underOverflow).bind fun balance =>
      let token := token.setBalance msgSender balance
      if rewardRecipient ≠ 0 then token.addOptedIn amount else .ok token

/-- `claim_rewards`. Returns the amount paid. -/
def claimRewards : Except TempoError (Nat × Token) :=
  token.checkNotPaused.bind fun _ =>
    (ensureTransferAuthorized env self msgSender).bind fun _ =>
      (token.updateRewards env.spec msgSender).bind fun update =>
        let token := update.2
        let info := token.userRewardInfo msgSender
        let maxAmount := min info.rewardBalance (token.balances self)
        (checkedSub info.rewardBalance maxAmount .underOverflow).bind fun rewardBalance =>
          let token := token.setRewardInfo msgSender { info with rewardBalance := rewardBalance }
          (if 0 < maxAmount then token.payReward self msgSender update.1 maxAmount else .ok token).map fun token =>
            (maxAmount, token)

def setSupplyCap (newSupplyCap : Nat) : Except TempoError Token :=
  (checkRole env msgSender .defaultAdmin).bind fun _ =>
    (require (token.totalSupply ≤ newSupplyCap) .invalidSupplyCap).bind fun _ =>
      (require (newSupplyCap ≤ u128Max) .supplyCapExceeded).map fun _ => { token with supplyCap := newSupplyCap }

/-- `initialize`, as far as it concerns balances. -/
def initializeToken : Token := { token with supplyCap := u128Max }

def approve (spender : Address) (amount : Nat) : Except TempoError Token :=
  (env.authorizeApprove msgSender (token.allowances msgSender spender) amount).map fun _ =>
    token.setAllowance msgSender spender amount

/-- `permit`: an approval by the owner's signature. -/
def permit (owner spender : Address) (value deadline : Nat) : Except TempoError Token :=
  (require (env.timestamp ≤ deadline) .permitExpired).bind fun _ =>
    let nonce := token.permitNonces owner
    (require (env.recoverSigner owner spender value nonce deadline = some owner) .invalidSignature).bind fun _ =>
      (checkedAdd nonce 1 .underOverflow).map fun next =>
        { token with permitNonces := Function.update token.permitNonces owner next }.setAllowance owner spender value

def pause : Except TempoError Token :=
  (checkRole env msgSender .pause).map fun _ => { token with paused := true }

def unpause : Except TempoError Token :=
  (checkRole env msgSender .unpause).map fun _ => { token with paused := false }

end Token

/-! ### Claims on the guard -/

inductive RecoveryMode where
  | originator | receiver | thirdParty
  deriving DecidableEq

namespace RecoveryMode

variable (mode : RecoveryMode)

def ofReceipt (receipt : Receipt) (receiver : Address) : RecoveryMode :=
  if receipt.recoveryAuthority = 0 then .originator
  else if receipt.recoveryAuthority = receiver then .receiver
  else .thirdParty

def authority (receipt : Receipt) : Address :=
  match mode with
  | .originator => receipt.originator
  | .receiver | .thirdParty => receipt.recoveryAuthority

def policySubject (originator receiver : Address) : Address :=
  match mode with
  | .originator => originator
  | .receiver | .thirdParty => receiver

def isReroute (dest receiver : Address) : Bool :=
  match mode with
  | .originator => true
  | .receiver | .thirdParty => dest ≠ receiver

def spendingAccount (recoveryAuthority : Address) : Option Address :=
  match mode with
  | .originator | .receiver => some recoveryAuthority
  | .thirdParty => none

end RecoveryMode

/-- `release_blocked_funds`: a reroute is checked like a transfer, a resume only for its recipient. -/
def Token.releaseBlockedFunds (token : Token) (originator receiver dest : Address) (amount : Nat)
    (recoveryMode : RecoveryMode) (recoveryAuthority : Address) : Except TempoError Token :=
  token.checkNotPaused.bind fun _ =>
    (Recipient.resolve env dest).bind fun destination =>
      destination.validate.bind fun _ =>
        (if recoveryMode.isReroute dest receiver then
            let policySubject := recoveryMode.policySubject originator receiver
            (ensureTransferAuthorized env policySubject destination.target).bind fun _ =>
              (ensureReceivePolicyAuthorized env policySubject destination.target).bind fun _ =>
                match recoveryMode.spendingAccount recoveryAuthority with
                | some account => env.authorizeTransfer account amount
                | none => .ok ()
          else ensureAuthorizedAs env destination.target .recipient).bind fun _ =>
            token.transferTo env.spec receivePolicyGuardAddress destination.target amount

namespace Custody

/-- `resolve_receipt`: the receiver is looked up again. -/
def resolveReceipt (env : Env) (receipt : Receipt) : Except TempoError (Address × RecoveryMode) :=
  match resolveRecipient env receipt.recipient with
  | .ok receiver => .ok (receiver, .ofReceipt receipt receiver)
  | .error _ => .error .invalidClaimAddress

/-- `claim`, on the token of the receipt. -/
def claim (env : Env) (state : Custody) (msgSender dest : Address) (receipt : Receipt) : Except TempoError Custody :=
  (require (dest ≠ receivePolicyGuardAddress) .invalidClaimAddress).bind fun _ =>
    (resolveReceipt env receipt).bind fun resolved =>
      let recoveryAuthority := resolved.2.authority receipt
      (require (msgSender = recoveryAuthority) .unauthorizedClaimer).bind fun _ =>
        let amount := state.guard.balances receipt
        (require (amount ≠ 0) .invalidReceipt).bind fun _ =>
          (state.token.releaseBlockedFunds env receipt.originator resolved.1 dest amount resolved.2 recoveryAuthority).map
            fun token => ⟨token, (state.guard.setBalance receipt 0).emitEvent (.receiptClaimed receipt msgSender dest amount)⟩

/-- `burn_blocked_receipt`, on the token of the receipt. -/
def burnBlockedReceipt (env : Env) (self : Address) (state : Custody) (msgSender : Address) (receipt : Receipt) :
    Except TempoError Custody :=
  (resolveReceipt env receipt).bind fun resolved =>
    let amount := state.guard.balances receipt
    (require (amount ≠ 0) .invalidReceipt).bind fun _ =>
      let owner := resolved.2.policySubject receipt.originator resolved.1
      (state.token.burnBlockedInternal env self msgSender owner amount false).map fun token =>
        ⟨token, (state.guard.setBalance receipt 0).emitEvent (.receiptBurned receipt msgSender amount)⟩

end Custody

/-! ### Calls -/

/-- The calls that concern balances, supply or allowances. Who makes one is given with it. The two transfers
of other precompiles take from the one who called the precompile, or from the precompile itself. -/
inductive TokenCall where
  | initializeToken
  | transfer (dest : Address) (amount memo : Nat)
  | transferFrom (source dest : Address) (amount memo : Nat)
  | systemTransferFrom (caller : Address) (amount : Nat)
  | channelReserveTransfer (dest : Recipient) (amount : Nat) (receivePolicySender : Address)
  | permit (owner spender : Address) (value deadline : Nat)
  | approve (spender : Address) (amount : Nat)
  | mint (dest : Address) (amount memo : Nat)
  | burn (amount : Nat)
  | burnBlocked (source : Address) (amount : Nat)
  | burnAt (source : Address) (amount : Nat)
  | distributeReward (amount : Nat)
  | setRewardRecipient (recipient : Address)
  | claimRewards
  | setSupplyCap (newSupplyCap : Nat)
  | pause
  | unpause
  | claim (dest : Address) (receipt : Receipt)
  | burnBlockedReceipt (receipt : Receipt)

def Custody.withToken (state : Custody) (result : Except TempoError Token) : Except TempoError Custody :=
  result.map fun token => { state with token := token }

/-- A call on the token at `self`, or on the guard for a receipt of that token. -/
def Custody.call (self : Address) (state : Custody) (msgSender : Address) : TokenCall → Except TempoError Custody
  | .initializeToken => .ok { state with token := state.token.initializeToken }
  | .transfer dest amount memo => state.transfer env self msgSender dest amount memo
  | .transferFrom source dest amount memo => state.transferFrom env self msgSender source dest amount memo
  | .systemTransferFrom caller amount => state.systemTransferFrom env self caller msgSender amount
  | .channelReserveTransfer dest amount receivePolicySender =>
    state.channelReserveTransfer env msgSender dest amount receivePolicySender
  | .permit owner spender value deadline =>
    (require (.t2 ≤ env.spec) .unknownFunctionSelector).bind fun _ =>
      state.withToken (state.token.permit env owner spender value deadline)
  | .approve spender amount => state.withToken (state.token.approve env msgSender spender amount)
  | .mint dest amount memo => state.mint env self msgSender dest amount memo
  | .burn amount => state.withToken (state.token.burn env msgSender amount)
  | .burnBlocked source amount => state.withToken (state.token.burnBlocked env self msgSender source amount)
  | .burnAt source amount =>
    (require (.t12 ≤ env.spec) .unknownFunctionSelector).bind fun _ =>
      state.withToken (state.token.burnAt env self msgSender source amount)
  | .distributeReward amount => state.withToken (state.token.distributeReward env self msgSender amount)
  | .setRewardRecipient recipient => state.withToken (state.token.setRewardRecipient env msgSender recipient)
  | .claimRewards => state.withToken ((state.token.claimRewards env self msgSender).map (·.2))
  | .setSupplyCap newSupplyCap => state.withToken (state.token.setSupplyCap env msgSender newSupplyCap)
  | .pause => state.withToken (state.token.pause env msgSender)
  | .unpause => state.withToken (state.token.unpause env msgSender)
  | .claim dest receipt =>
    (require (.t6 ≤ env.spec ∧ receipt.token = self) .unknownFunctionSelector).bind fun _ =>
      state.claim env msgSender dest receipt
  | .burnBlockedReceipt receipt =>
    (require (.t6 ≤ env.spec ∧ receipt.token = self) .unknownFunctionSelector).bind fun _ =>
      state.burnBlockedReceipt env self msgSender receipt

/-- All tokens, and the guard they share. -/
structure World where
  tokens : Address → Token := fun _ => {}
  guard : Guard := {}

/-- One call: who makes it, on which token, and what it finds elsewhere. -/
structure CallRecord where
  env : Env
  self : Address
  msgSender : Address
  call : TokenCall

namespace World

/-- The token is found by its address; one without code refuses its calls before they are looked at, which
is left out here. -/
def call (world : World) (record : CallRecord) : Except TempoError World :=
  (require (isTip20Prefix record.self = true) .invalidToken).bind fun _ =>
  (Custody.call record.env record.self ⟨world.tokens record.self, world.guard⟩ record.msgSender record.call).map
    fun state => { tokens := Function.update world.tokens record.self state.token, guard := state.guard }

/-- A call that fails is reverted to the checkpoint before it. -/
def apply (world : World) (record : CallRecord) : World :=
  match world.call record with
  | .ok next => next
  | .error _ => world

def run (world : World) (records : List CallRecord) : World := records.foldl apply world

end World
end LeafageEvm.Tempo
