import LeafageEvm.Ledger
import LeafageEvm.Outcome

/-! The staking contract of Monad: validators, their delegators, rewards by accumulators per token, and withdrawals
after a delay. A stake counts from the next epoch on, or from the one after it when it is given in the boundary period
at the end of an epoch; until then it waits as delta or next delta. The reward accumulator of such an epoch is kept as
long as somebody refers to it. What one call changes of a validator, one of its delegators and the validator's
accumulators is a position. Validator flags, the validator set, the linked lists of delegators and the logs have no
part in amounts and are left out; so are the system calls, except for the epoch. -/

namespace LeafageEvm.Monad
open Function
variable (x : Nat) (era : Era) (y : Nat)

inductive StakingError where
  | internalError
  | invalidInput
  | validatorExists
  | unknownValidator
  | withdrawalIdExists
  | unknownWithdrawalId
  | withdrawalNotReady
  | insufficientStake
  | invalidSignature
  | notInValidatorSet
  | solvencyError
  | commissionTooHigh
  | valueNonZero
  | delegationTooSmall
  | externalRewardTooSmall
  | externalRewardTooLarge
  | overflow
  | underflow
  | divisionByZero
  | withdrawalInsolvent
  | compoundLogicError
  | invalidListEntry
  deriving DecidableEq

abbrev Address := Fin (2 ^ 160)
abbrev ValId := Fin (2 ^ 64)
abbrev WithdrawalId := Fin (2 ^ 8)

def u256 (n : Nat) : Nat := n % 2 ^ 256
def u64 (n : Nat) : Nat := n % 2 ^ 64

def unitBias : Nat := 10 ^ 36
def dustThreshold : Nat := 10 ^ 9
def maxCommission : Nat := 10 ^ 18
def minExternalReward : Nat := dustThreshold
def maxExternalReward : Nat := 10 ^ 25
def minAuthAddressStake : Nat := 100000 * 10 ^ 18
def withdrawalDelay : Nat := 1

def checkedAdd : Except StakingError Nat := if x + y < 2 ^ 256 then .ok (x + y) else .error .overflow
def checkedSub : Except StakingError Nat := if y ≤ x then .ok (x - y) else .error .underflow
def checkedMul : Except StakingError Nat := if x * y < 2 ^ 256 then .ok (x * y) else .error .overflow
def checkedDiv : Except StakingError Nat := if y = 0 then .error .divisionByZero else .ok (x / y)
def checkedMulDiv (z : Nat) : Except StakingError Nat := (checkedMul x y).bind fun product => checkedDiv product z

def calculateRewards (stake currentAcc lastCheckedAcc : Nat) : Except StakingError Nat :=
  (checkedSub currentAcc lastCheckedAcc).bind fun delta => checkedMulDiv delta stake unitBias

structure Delegator where
  stake : Nat := 0
  accumulatedRewardPerToken : Nat := 0
  rewards : Nat := 0
  deltaStake : Nat := 0
  nextDeltaStake : Nat := 0
  deltaEpoch : Nat := 0
  nextDeltaEpoch : Nat := 0
  deriving DecidableEq

structure Validator where
  authAddress : Nat := 0
  stake : Nat := 0
  accumulatedRewardPerToken : Nat := 0
  commission : Nat := 0
  unclaimedRewards : Nat := 0
  deriving DecidableEq

structure WithdrawalRequest where
  amount : Nat := 0
  acc : Nat := 0
  epoch : Nat := 0
  deriving DecidableEq

/-- A request is there when one of its slots is set. -/
def WithdrawalRequest.hasData (request : WithdrawalRequest) : Bool := request.amount ≠ 0 ∨ request.acc ≠ 0 ∨ request.epoch ≠ 0

structure RefCountedAccumulator where
  value : Nat := 0
  refcount : Nat := 0
  deriving DecidableEq

/-- When a call is made: the epoch, and the slot of the boundary flag. -/
structure Era where
  epoch : Nat
  inBoundary : Nat

/-- `in_epoch_delay_period`: the first byte of the slot. -/
def Era.inEpochDelayPeriod : Bool := era.inBoundary / 2 ^ 248 % 2 ^ 8 ≠ 0

/-- `in_epoch_delay_period_set`: the slot has data. -/
def Era.inEpochDelayPeriodSet : Bool := era.inBoundary ≠ 0

/-- `get_activation_epoch`. -/
def Era.activationEpoch : Nat := if era.inEpochDelayPeriodSet then u64 (era.epoch + 2) else u64 (era.epoch + 1)

def Era.isEpochActive (activeEpoch : Nat) : Bool := activeEpoch ≠ 0 ∧ activeEpoch ≤ era.epoch

/-! ### Positions -/

/-- What a call works on: the validator, the delegator and the validator's accumulators by epoch. -/
structure Position where
  validator : Validator
  delegator : Delegator
  accumulators : Nat → RefCountedAccumulator

namespace Position

def setDelegator (position : Position) (delegator : Delegator) : Position := { position with delegator := delegator }

def incrementAccumulatorRefcount (era : Era) (position : Position) : Position :=
  let epoch := era.activationEpoch
  { position with
    accumulators := update position.accumulators epoch
      { value := position.validator.accumulatedRewardPerToken
        refcount := u256 ((position.accumulators epoch).refcount + 1) } }

/-- `decrement_accumulator_refcount`, with the value it returns. -/
def decrementAccumulatorRefcount (position : Position) (epoch : Nat) : Nat × Position :=
  let acc := position.accumulators epoch
  if acc.refcount = 0 then (0, position)
  else
    (acc.value,
      { position with
        accumulators := update position.accumulators epoch
          (if acc.refcount - 1 = 0 then {} else { acc with refcount := acc.refcount - 1 }) })

end Position

def Delegator.canPromoteDelta (delegator : Delegator) (epoch : Nat) : Bool :=
  delegator.deltaEpoch = 0 ∧ delegator.nextDeltaEpoch ≤ u64 (epoch + 1)

def Delegator.promoteDelta (delegator : Delegator) : Delegator :=
  { delegator with
    deltaStake := delegator.nextDeltaStake
    nextDeltaStake := 0
    deltaEpoch := delegator.nextDeltaEpoch
    nextDeltaEpoch := 0 }

namespace Position

variable (era : Era) (position : Position) (rewards : Nat)

/-- `apply_compound`, with the rewards it returns. -/
def applyCompound : Except StakingError (Nat × Position) :=
  let decremented := position.decrementAccumulatorRefcount position.delegator.deltaEpoch
  let delegator := position.delegator
  (calculateRewards delegator.stake decremented.1 delegator.accumulatedRewardPerToken).bind fun rewards =>
    (checkedAdd delegator.stake delegator.deltaStake).map fun compoundedStake =>
      (rewards, decremented.2.setDelegator
        { delegator with accumulatedRewardPerToken := decremented.1, stake := compoundedStake }.promoteDelta)

def rewardInvariant : Except StakingError Position :=
  (require (rewards ≤ position.validator.unclaimedRewards) .solvencyError).map fun _ =>
    { position with
      validator := { position.validator with unclaimedRewards := position.validator.unclaimedRewards - rewards } }

def addDelegatorRewards : Except StakingError Position :=
  (checkedAdd position.delegator.rewards rewards).map fun newRewards =>
    position.setDelegator { position.delegator with rewards := newRewards }

def payRewards : Except StakingError Position :=
  (position.rewardInvariant rewards).bind fun position => position.addDelegatorRewards rewards

def compoundOnce : Except StakingError Position :=
  position.applyCompound.bind fun compounded => compounded.2.payRewards compounded.1

/-- The rewards since the last time, up to now. -/
def accrue : Except StakingError Position :=
  if position.delegator.stake = 0 then .ok position
  else
    (calculateRewards position.delegator.stake position.validator.accumulatedRewardPerToken
      position.delegator.accumulatedRewardPerToken).bind fun rewards =>
      (position.payRewards rewards).map fun paid =>
        paid.setDelegator { paid.delegator with accumulatedRewardPerToken := position.validator.accumulatedRewardPerToken }

/-- A next delta that is near takes the place of the delta when there is none. -/
def promoted : Position :=
  if position.delegator.canPromoteDelta era.epoch then position.setDelegator position.delegator.promoteDelta else position

def pullDelegatorUpToDate : Except StakingError Position :=
  let position := position.promoted era
  let canCompound := era.isEpochActive position.delegator.deltaEpoch
  let canCompoundBoundary := era.isEpochActive position.delegator.nextDeltaEpoch
  (if canCompoundBoundary then (require (canCompound = true) .compoundLogicError).bind fun _ => position.compoundOnce
    else .ok position).bind fun position =>
    (if canCompound then position.compoundOnce else .ok position).bind fun position => position.accrue

def addDelta (stake : Nat) : Except StakingError Position :=
  let delegator := position.delegator
  if era.inEpochDelayPeriod then
    (checkedAdd delegator.nextDeltaStake stake).map fun delta =>
      let added := position.setDelegator { delegator with nextDeltaStake := delta, nextDeltaEpoch := era.activationEpoch }
      if delegator.nextDeltaEpoch = 0 then added.incrementAccumulatorRefcount era else added
  else
    (checkedAdd delegator.deltaStake stake).map fun delta =>
      let added := position.setDelegator { delegator with deltaStake := delta, deltaEpoch := era.activationEpoch }
      if delegator.deltaEpoch = 0 then added.incrementAccumulatorRefcount era else added

end Position

/-! ### The contract -/

structure StakingState where
  validators : ValId → Validator := fun _ => {}
  delegators : ValId → Address → Delegator := fun _ _ => {}
  accumulators : ValId → Nat → RefCountedAccumulator := fun _ _ => {}
  requests : ValId → Address → WithdrawalId → WithdrawalRequest := fun _ _ _ => {}
  valIds : Nat → Nat := fun _ => 0
  valIdsBls : Nat → Nat := fun _ => 0
  lastValId : Nat := 0
  balance : Nat := 0

def stakingContractAddress : Address := ⟨0x1000, by decide⟩

/-- The ends of the linked lists are not entries of them. -/
def isListEntry (valId : ValId) (address : Address) : Bool :=
  address.val ≠ 0 ∧ address.val ≠ 2 ^ 160 - 1 ∧ valId.val ≠ 2 ^ 64 - 1 ∧ valId.val ≠ 0

/-- The fields of the message of a new validator, with what its keys and signatures come to. -/
structure NewValidator where
  signedStake : Nat
  authAddress : Address
  commission : Nat
  signaturesValid : Bool
  secpEthAddress : Nat
  blsEthAddress : Nat

namespace StakingState

variable (era : Era) (state : StakingState) (sender : Address) (valId : ValId) (address : Address) (value : Nat)

def position : Position :=
  ⟨state.validators valId, state.delegators valId address, state.accumulators valId⟩

def put (position : Position) : StakingState :=
  { state with
    validators := update state.validators valId position.validator
    delegators := update state.delegators valId
      (update (state.delegators valId) address position.delegator)
    accumulators := update state.accumulators valId position.accumulators }

def putRequest (withdrawalId : WithdrawalId)
    (request : WithdrawalRequest) : StakingState :=
  { state with
    requests := update state.requests valId
      (update (state.requests valId) address
        (update (state.requests valId address) withdrawalId request)) }

def valExists : Bool := (state.validators valId).authAddress ≠ 0

def delegate (stake : Nat) (address : Address) :
    Except StakingError StakingState :=
  (require (state.valExists valId = true) .unknownValidator).bind fun _ =>
    (require (dustThreshold ≤ stake) .delegationTooSmall).bind fun _ =>
      ((state.position valId address).pullDelegatorUpToDate era).bind fun position =>
        (position.addDelta era stake).bind fun position =>
          (checkedAdd position.validator.stake stake).bind fun newValStake =>
            (require (isListEntry valId address = true) .invalidInput).map fun _ =>
              state.put valId address { position with validator := { position.validator with stake := newValStake } }

def sendTokens (dest : Address) (amount : Nat) : Except StakingError StakingState :=
  (require (amount ≤ state.balance) .internalError).map fun _ =>
    if dest = stakingContractAddress then state else { state with balance := state.balance - amount }

def register (message : NewValidator) : StakingState :=
  { state with
    valIds := update state.valIds message.secpEthAddress valId.val
    valIdsBls := update state.valIdsBls message.blsEthAddress valId.val
    lastValId := valId.val
    validators := update state.validators valId
      { state.validators valId with authAddress := message.authAddress.val, commission := message.commission } }

def addValidator (message : NewValidator) : Except StakingError StakingState :=
  (require (message.signedStake = value) .invalidInput).bind fun _ =>
    (require (minAuthAddressStake ≤ value) .insufficientStake).bind fun _ =>
      (require (message.signaturesValid = true) .invalidSignature).bind fun _ =>
        (require (message.commission ≤ maxCommission) .commissionTooHigh).bind fun _ =>
          (require (state.valIds message.secpEthAddress = 0 ∧ state.valIdsBls message.blsEthAddress = 0)
            .validatorExists).bind fun _ =>
            let valId : ValId := ⟨u64 (state.lastValId + 1), Nat.mod_lt _ (by decide)⟩
            (state.register valId message).delegate era valId value message.authAddress

def delegateCall (valId : ValId) :
    Except StakingError StakingState :=
  if value ≠ 0 then state.delegate era valId value sender else .ok state

/-- What an undelegation takes, with the dust that would be left. -/
def withDust (stake amount : Nat) : Nat := if stake - amount < dustThreshold then stake else amount

def takeStake (position : Position) (amount : Nat) : Except StakingError Position :=
  (checkedSub position.validator.stake amount).map fun valStake =>
    let delegator := { position.delegator with stake := position.delegator.stake - amount }
    let taken := ({ position with validator := { position.validator with stake := valStake } }).incrementAccumulatorRefcount era
    taken.setDelegator (if delegator.stake = 0 then { delegator with accumulatedRewardPerToken := 0 } else delegator)

def undelegate (valId : ValId) (stake : Nat)
    (withdrawalId : WithdrawalId) : Except StakingError StakingState :=
  (require (value = 0) .valueNonZero).bind fun _ =>
    if stake = 0 then .ok state
    else
      (require (state.valExists valId = true) .unknownValidator).bind fun _ =>
        (require ((state.requests valId sender withdrawalId).hasData = false) .withdrawalIdExists).bind fun _ =>
          ((state.position valId sender).pullDelegatorUpToDate era).bind fun position =>
            (require (stake ≤ position.delegator.stake) .insufficientStake).bind fun _ =>
              let amount := withDust position.delegator.stake stake
              (takeStake era position amount).bind fun taken =>
                (require (u256 (taken.delegator.stake + taken.delegator.deltaStake + taken.delegator.nextDeltaStake) = 0 →
                    isListEntry valId sender = true) .invalidListEntry).map fun _ =>
                  (state.put valId sender taken).putRequest valId sender withdrawalId
                    ⟨amount, position.delegator.accumulatedRewardPerToken, era.activationEpoch⟩

def compound (valId : ValId) :
    Except StakingError StakingState :=
  (require (value = 0) .valueNonZero).bind fun _ =>
    ((state.position valId sender).pullDelegatorUpToDate era).bind fun position =>
      let rewards := position.delegator.rewards
      let cleared := state.put valId sender (position.setDelegator { position.delegator with rewards := 0 })
      if rewards ≠ 0 then cleared.delegate era valId rewards sender else .ok cleared

def withdraw (valId : ValId) (withdrawalId : WithdrawalId) :
    Except StakingError StakingState :=
  (require (value = 0) .valueNonZero).bind fun _ =>
    let request := state.requests valId sender withdrawalId
    (require (request.hasData = true) .unknownWithdrawalId).bind fun _ =>
      (require (era.isEpochActive (u64 (request.epoch + withdrawalDelay)) = true) .withdrawalNotReady).bind fun _ =>
        let decremented := (state.position valId sender).decrementAccumulatorRefcount request.epoch
        (calculateRewards request.amount decremented.1 request.acc).bind fun rewards =>
          (decremented.2.rewardInvariant rewards).bind fun position =>
            (checkedAdd request.amount rewards).bind fun withdrawalAmount =>
              (require (withdrawalAmount ≤ state.balance) .withdrawalInsolvent).bind fun _ =>
                ((state.put valId sender position).putRequest valId sender withdrawalId {}).sendTokens sender withdrawalAmount

def claimRewards (valId : ValId) :
    Except StakingError StakingState :=
  (require (value = 0) .valueNonZero).bind fun _ =>
    ((state.position valId sender).pullDelegatorUpToDate era).bind fun position =>
      let rewards := position.delegator.rewards
      if rewards ≠ 0 then
        (state.put valId sender (position.setDelegator { position.delegator with rewards := 0 })).sendTokens sender rewards
      else .ok (state.put valId sender position)

/-- `get_delegator`: anybody may ask, and the position of the delegator is brought up to date. -/
def getDelegator (valId : ValId) (address : Address) : Except StakingError StakingState :=
  (require (value = 0) .valueNonZero).bind fun _ =>
    ((state.position valId address).pullDelegatorUpToDate era).map (state.put valId address)

/-- `external_reward`, with the stake of the validator in this epoch. -/
def externalReward (activeStake : Nat) (state : StakingState) (value : Nat) (valId : ValId) : Except StakingError StakingState :=
  (require (state.valExists valId = true) .unknownValidator).bind fun _ =>
    (require (activeStake ≠ 0) .notInValidatorSet).bind fun _ =>
      (require (minExternalReward ≤ value) .externalRewardTooSmall).bind fun _ =>
        (require (value ≤ maxExternalReward) .externalRewardTooLarge).bind fun _ =>
          (checkedMulDiv value unitBias activeStake).bind fun rewardAcc =>
            let validator := state.validators valId
            (checkedAdd validator.accumulatedRewardPerToken rewardAcc).bind fun acc =>
              (checkedAdd validator.unclaimedRewards value).map fun unclaimedRewards =>
                { state with
                  validators := update state.validators valId
                    { validator with accumulatedRewardPerToken := acc, unclaimedRewards := unclaimedRewards } }

end StakingState

inductive StakingCall where
  | addValidator (message : NewValidator)
  | delegate (valId : ValId)
  | undelegate (valId : ValId) (stake : Nat) (withdrawalId : WithdrawalId)
  | compound (valId : ValId)
  | withdraw (valId : ValId) (withdrawalId : WithdrawalId)
  | claimRewards (valId : ValId)
  | externalReward (valId : ValId) (activeStake : Nat)
  | getDelegator (valId : ValId) (address : Address)

structure StakingRecord where
  sender : Address
  value : Nat
  call : StakingCall

namespace StakingState

def call (era : Era) (state : StakingState) (record : StakingRecord) : Except StakingError StakingState :=
  let state := { state with balance := state.balance + record.value }
  match record.call with
  | .addValidator message => state.addValidator era record.value message
  | .delegate valId => state.delegateCall era record.sender record.value valId
  | .undelegate valId stake withdrawalId => state.undelegate era record.sender record.value valId stake withdrawalId
  | .compound valId => state.compound era record.sender record.value valId
  | .withdraw valId withdrawalId => state.withdraw era record.sender record.value valId withdrawalId
  | .claimRewards valId => state.claimRewards era record.sender record.value valId
  | .externalReward valId activeStake => state.externalReward activeStake record.value valId
  | .getDelegator valId address => state.getDelegator era record.value valId address

/-- A call that fails is rolled back. -/
def apply (era : Era) (state : StakingState) (record : StakingRecord) : StakingState :=
  match state.call era record with
  | .ok next => next
  | .error _ => state

end StakingState
end LeafageEvm.Monad
