import LeafageEvm.Monad.Staking

/-! The funds of the staking contract: stakes are those of the delegators, and what the contract owes moves with what it
holds. -/

namespace LeafageEvm.Monad
open Delegator Position Function
variable {era : Era} {position next : Position} {state after : StakingState} {valId : ValId} {address : Address} {amount : Nat}

theorem checkedAdd_eq_ok {x y z : Nat} : checkedAdd x y = .ok z ↔ x + y < 2 ^ 256 ∧ z = x + y := by
  rw [checkedAdd]
  split <;> simp_all [eq_comm]

theorem checkedSub_eq_ok {x y z : Nat} : checkedSub x y = .ok z ↔ y ≤ x ∧ z = x - y := by
  rw [checkedSub]
  split <;> simp_all [eq_comm]

/-! ### One position -/

def Delegator.total (delegator : Delegator) : Nat := delegator.stake + delegator.deltaStake + delegator.nextDeltaStake

/-- A stake that waits has its epoch. -/
structure Delegator.Marked (delegator : Delegator) : Prop where
  delta : delegator.deltaEpoch = 0 → delegator.deltaStake = 0
  next : delegator.nextDeltaEpoch = 0 → delegator.nextDeltaStake = 0

/-- Rewards have moved from the pool to the delegator, and nothing else has changed in the totals. -/
structure Position.Settles (position next : Position) : Prop where
  authAddress : next.validator.authAddress = position.validator.authAddress
  stake : next.validator.stake = position.validator.stake
  total : next.delegator.total = position.delegator.total
  rewards : next.validator.unclaimedRewards + next.delegator.rewards =
    position.validator.unclaimedRewards + position.delegator.rewards
  marked : next.delegator.Marked

namespace Position

theorem Settles.trans {middle : Position} (h : Settles position middle) (h' : Settles middle next) : Settles position next :=
  ⟨h'.authAddress.trans h.authAddress, h'.stake.trans h.stake, h'.total.trans h.total, h'.rewards.trans h.rewards, h'.marked⟩

theorem Settles.refl (h : position.delegator.Marked) : Settles position position := ⟨rfl, rfl, rfl, rfl, h⟩

theorem payRewards_eq_ok (h : position.payRewards amount = .ok next) :
    next.validator.unclaimedRewards + amount = position.validator.unclaimedRewards ∧
      next.validator = { position.validator with unclaimedRewards := next.validator.unclaimedRewards } ∧
      next.delegator = { position.delegator with rewards := position.delegator.rewards + amount } ∧
      next.accumulators = position.accumulators := by
  obtain ⟨_, hpaid, h⟩ := bind_ok h
  obtain ⟨_, hsolvent, rfl⟩ := map_ok hpaid
  obtain ⟨rewards, hrewards, rfl⟩ := map_ok h
  have hsolvent := require_eq_ok.mp hsolvent
  have hrewards : rewards = position.delegator.rewards + amount := (checkedAdd_eq_ok.mp hrewards).2
  subst hrewards
  exact ⟨Nat.sub_add_cancel hsolvent, rfl, rfl, rfl⟩

theorem payRewards_settles (hmarked : position.delegator.Marked) (h : position.payRewards amount = .ok next) :
    Settles position next := by
  obtain ⟨hpool, hvalidator, hdelegator, -⟩ := payRewards_eq_ok h
  refine ⟨by rw [hvalidator], by rw [hvalidator], by rw [hdelegator]; rfl, ?_, ?_⟩
  · rw [hdelegator]
    show next.validator.unclaimedRewards + (position.delegator.rewards + amount) = _
    omega
  · rw [hdelegator]
    exact ⟨hmarked.delta, hmarked.next⟩

theorem decrement_fields (position : Position) (epoch : Nat) :
    (position.decrementAccumulatorRefcount epoch).2.validator = position.validator ∧
      (position.decrementAccumulatorRefcount epoch).2.delegator = position.delegator := by
  unfold decrementAccumulatorRefcount
  simp only
  split <;> exact ⟨rfl, rfl⟩

theorem applyCompound_eq_ok {rewards : Nat} (h : position.applyCompound = .ok (rewards, next)) :
    next.validator = position.validator ∧
      next.accumulators = (position.decrementAccumulatorRefcount position.delegator.deltaEpoch).2.accumulators ∧
      ∃ acc, next.delegator = { position.delegator with
        accumulatedRewardPerToken := acc
        stake := position.delegator.stake + position.delegator.deltaStake }.promoteDelta := by
  obtain ⟨_, h⟩ := rest_ok h
  obtain ⟨_, hsum, heq⟩ := map_ok h
  cases heq
  have hsum := (checkedAdd_eq_ok.mp hsum).2
  subst hsum
  obtain ⟨hvalidator, -⟩ := decrement_fields position position.delegator.deltaEpoch
  exact ⟨hvalidator, rfl, _, rfl⟩

section
variable (hmarked : position.delegator.Marked)
include hmarked
theorem compoundOnce_settles (h : position.compoundOnce = .ok next) : Settles position next := by
  obtain ⟨⟨_, middle⟩, hcompound, hpay⟩ := bind_ok h
  obtain ⟨hvalidator, -, _, hdelegator⟩ := applyCompound_eq_ok hcompound
  have hmiddle : Settles position middle := by
    refine ⟨by rw [hvalidator], by rw [hvalidator], ?_, by rw [hvalidator, hdelegator]; rfl, ?_⟩
    · rw [hdelegator]
      rfl
    · rw [hdelegator]
      exact ⟨hmarked.next, fun _ => rfl⟩
  exact hmiddle.trans (payRewards_settles hmiddle.marked hpay)

theorem accrue_settles (h : position.accrue = .ok next) : Settles position next := by
  unfold accrue at h
  split at h
  · cases h
    exact .refl hmarked
  obtain ⟨rewards, h⟩ := rest_ok h
  obtain ⟨_, hpay, rfl⟩ := map_ok h
  have hpaid := payRewards_settles hmarked hpay
  exact ⟨hpaid.authAddress, hpaid.stake, hpaid.total, hpaid.rewards, hpaid.marked.delta, hpaid.marked.next⟩

/-- A next delta takes the place of none. -/
theorem promoted_settles : Settles position (position.promoted era) := by
  unfold promoted canPromoteDelta
  split
  · rename_i hpromote
    have hzero := hmarked.delta (decide_eq_true_eq.mp hpromote).1
    refine ⟨rfl, rfl, ?_, rfl, hmarked.next, fun _ => rfl⟩
    show position.delegator.stake + position.delegator.nextDeltaStake + 0 =
      position.delegator.stake + position.delegator.deltaStake + position.delegator.nextDeltaStake
    omega
  · exact .refl hmarked

/-- **Pulling a delegator up to date only moves rewards.** -/
theorem pullDelegatorUpToDate_settles (h : position.pullDelegatorUpToDate era = .ok next) : Settles position next := by
  unfold pullDelegatorUpToDate at h
  have hfirst : Settles position (position.promoted era) := promoted_settles hmarked
  generalize position.promoted era = start at h hfirst
  obtain ⟨second, hsecond, h⟩ := bind_ok h
  obtain ⟨third, hthird, h⟩ := bind_ok h
  have hsecond : Settles start second := by
    split at hsecond
    · obtain ⟨_, hcompound⟩ := rest_ok hsecond
      exact compoundOnce_settles hfirst.marked hcompound
    · cases hsecond
      exact .refl hfirst.marked
  have hthird : Settles second third := by
    split at hthird
    · exact compoundOnce_settles hsecond.marked hthird
    · cases hthird
      exact .refl hsecond.marked
  exact ((hfirst.trans hsecond).trans hthird).trans (accrue_settles hthird.marked h)

theorem addDelta_eq_ok (hepoch : era.activationEpoch ≠ 0) (h : position.addDelta era amount = .ok next) :
    next.validator = position.validator ∧ next.delegator.total = position.delegator.total + amount ∧
      next.delegator.rewards = position.delegator.rewards ∧ next.delegator.Marked := by
  unfold addDelta at h
  split at h
  · obtain ⟨delta, hdelta, rfl⟩ := map_ok h
    have hdelta := (checkedAdd_eq_ok.mp hdelta).2
    subst hdelta
    have hnew : ({ position.delegator with
        nextDeltaStake := position.delegator.nextDeltaStake + amount
        nextDeltaEpoch := era.activationEpoch } : Delegator).total = position.delegator.total + amount := by
      unfold total
      simp only
      omega
    split <;> exact ⟨rfl, hnew, rfl, hmarked.delta, fun hzero => absurd hzero hepoch⟩
  · obtain ⟨_, hdelta, rfl⟩ := map_ok h
    have hdelta := (checkedAdd_eq_ok.mp hdelta).2
    subst hdelta
    have hnew : ({ position.delegator with
        deltaStake := position.delegator.deltaStake + amount
        deltaEpoch := era.activationEpoch } : Delegator).total = position.delegator.total + amount := by
      unfold total
      simp only
      omega
    split <;> exact ⟨rfl, hnew, rfl, fun hzero => absurd hzero hepoch, hmarked.next⟩
end

end Position

/-- The calls that add to a stake, which then waits for its epoch. -/
def StakingCall.delegates : StakingCall → Bool
  | .addValidator _ | .delegate _ | .compound _ => true
  | _ => false

/-! ### Sums over the contract -/

namespace StakingState

variable {value : Nat} {withdrawalId : WithdrawalId} {record : StakingRecord}

/-- The stakes of a validator's delegators, those that wait included. -/
def staked (state : StakingState) (valId : ValId) : Nat := ∑ address, (state.delegators valId address).total

def liabilities (state : StakingState) : Nat :=
  ∑ valId, ((state.validators valId).stake + (state.validators valId).unclaimedRewards) +
    ∑ valId, ∑ address, (state.delegators valId address).rewards +
    ∑ valId, ∑ address, ∑ withdrawalId, (state.requests valId address withdrawalId).amount

/-- The stake of each validator is that of its delegators, and stakes that wait have their epoch. -/
structure Backed (state : StakingState) : Prop where
  stake : ∀ valId, (state.validators valId).stake = state.staked valId
  marked : ∀ valId address, (state.delegators valId address).Marked

section
variable (state : StakingState)

theorem staked_put (valId : ValId) (address : Address) (position : Position) :
    (state.put valId address position).staked valId + (state.delegators valId address).total =
      state.staked valId + position.delegator.total := by
  have hsum := sum_update (fun _ delegator => total delegator) (state.delegators valId) address position.delegator
  unfold staked put
  simp only [update_self]
  exact hsum

theorem staked_put_of_ne {valId other : ValId} (hne : other ≠ valId) (address : Address)
    (position : Position) : (state.put valId address position).staked other = state.staked other := by
  unfold staked put
  simp only [update_of_ne hne]

theorem liabilities_put (valId : ValId) (address : Address) (position : Position) :
    (state.put valId address position).liabilities + ((state.validators valId).stake +
        (state.validators valId).unclaimedRewards + (state.delegators valId address).rewards) =
      state.liabilities + (position.validator.stake + position.validator.unclaimedRewards + position.delegator.rewards) := by
  have hvalidators := sum_update (fun _ validator => Validator.stake validator + validator.unclaimedRewards) state.validators valId
    position.validator
  have hinner := sum_update (fun _ delegator => rewards delegator) (state.delegators valId) address position.delegator
  have houter := sum_update (fun _ (row : Address → Delegator) => ∑ address, (row address).rewards) state.delegators valId
    (update (state.delegators valId) address position.delegator)
  unfold liabilities put
  simp only
  omega

theorem liabilities_putRequest (valId : ValId) (address : Address) (withdrawalId : WithdrawalId)
    (request : WithdrawalRequest) :
    (state.putRequest valId address withdrawalId request).liabilities + (state.requests valId address withdrawalId).amount =
      state.liabilities + request.amount := by
  have hinner := sum_update (fun _ request => WithdrawalRequest.amount request) (state.requests valId address) withdrawalId request
  have hmiddle := sum_update (fun _ (row : WithdrawalId → WithdrawalRequest) => ∑ withdrawalId, (row withdrawalId).amount)
    (state.requests valId) address (update (state.requests valId address) withdrawalId request)
  have houter := sum_update (fun _ (rows : Address → WithdrawalId → WithdrawalRequest) =>
      ∑ address, ∑ withdrawalId, (rows address withdrawalId).amount) state.requests valId
    (update (state.requests valId) address (update (state.requests valId address) withdrawalId request))
  unfold liabilities putRequest
  simp only
  omega
end

theorem Backed.put (h : Backed state) {position : Position} (hmarked : position.delegator.Marked)
    (hstake : position.validator.stake + (state.delegators valId address).total =
      (state.validators valId).stake + position.delegator.total) : Backed (state.put valId address position) := by
  constructor
  · intro other
    by_cases heq : other = valId
    · subst heq
      have hold := h.stake other
      have hsum := staked_put state other address position
      have hnew : ((state.put other address position).validators other) = position.validator := update_self ..
      rw [hnew]
      omega
    · have hnew : ((state.put valId address position).validators other) = state.validators other := update_of_ne heq ..
      rw [hnew, staked_put_of_ne state heq, h.stake]
  · intro other otherAddress
    show (update state.delegators valId (update (state.delegators valId) address position.delegator)
      other otherAddress).Marked
    by_cases heq : other = valId
    · rw [heq, update_self]
      by_cases haddress : otherAddress = address
      · rw [haddress, update_self]
        exact hmarked
      · rw [update_of_ne haddress]
        exact h.marked valId otherAddress
    · rw [update_of_ne heq]
      exact h.marked other otherAddress

theorem Backed.putRequest (h : Backed state) (withdrawalId : WithdrawalId) (request : WithdrawalRequest) :
    Backed (state.putRequest valId address withdrawalId request) := ⟨h.stake, h.marked⟩

/-- What of the validator enters the sums stays. -/
theorem liabilities_setValidator (state : StakingState) (valId : ValId) (validator : Validator) :
    ({ state with validators := update state.validators valId validator }).liabilities +
        ((state.validators valId).stake + (state.validators valId).unclaimedRewards) =
      state.liabilities + (validator.stake + validator.unclaimedRewards) := by
  have hvalidators := sum_update (fun _ validator => Validator.stake validator + validator.unclaimedRewards) state.validators valId
    validator
  unfold liabilities
  simp only
  omega

theorem Backed.setValidator (h : Backed state) {validator : Validator} (hstake : validator.stake = (state.validators valId).stake) :
    Backed { state with validators := update state.validators valId validator } := by
  refine ⟨fun other => ?_, h.marked⟩
  show (update state.validators valId validator other).stake = state.staked other
  by_cases heq : other = valId
  · rw [heq, update_self, hstake, h.stake]
  · rw [update_of_ne heq, h.stake]

/-! ### The calls -/

theorem settled_position {pulled : Position} (h : (state.position valId address).Settles pulled) :
    pulled.validator.stake = (state.validators valId).stake ∧ pulled.delegator.total = (state.delegators valId address).total ∧
      pulled.validator.unclaimedRewards + pulled.delegator.rewards =
        (state.validators valId).unclaimedRewards + (state.delegators valId address).rewards :=
  ⟨h.stake, h.total, h.rewards⟩

section
variable (hbacked : Backed state)
include hbacked
theorem delegate_funds (hepoch : era.activationEpoch ≠ 0) (h : state.delegate era valId amount address = .ok after) :
    Backed after ∧ after.liabilities = state.liabilities + amount ∧ after.balance = state.balance := by
  iterate 2 obtain ⟨_, h⟩ := rest_ok h
  obtain ⟨_, hpulled, h⟩ := bind_ok h
  obtain ⟨added, hadded, h⟩ := bind_ok h
  obtain ⟨newValStake, hstake, h⟩ := bind_ok h
  obtain ⟨-, -, rfl⟩ := map_ok h
  have hstake := (checkedAdd_eq_ok.mp hstake).2
  have hpulled := pullDelegatorUpToDate_settles (hbacked.marked valId address) hpulled
  obtain ⟨hvalidator, htotal, hrewards, hmarked⟩ := addDelta_eq_ok hpulled.marked hepoch hadded
  obtain ⟨hpulledStake, hpulledTotal, hpulledRewards⟩ := settled_position hpulled
  rw [hvalidator] at hstake
  refine ⟨hbacked.put hmarked ?_, ?_, rfl⟩
  · show newValStake + _ = _ + added.delegator.total
    omega
  · have hsum := liabilities_put state valId address
      { added with validator := { added.validator with stake := newValStake } }
    simp only [hvalidator] at hsum ⊢
    omega

theorem sendTokens_funds (hdest : address ≠ stakingContractAddress) (h : state.sendTokens address amount = .ok after) :
    Backed after ∧ after.liabilities = state.liabilities ∧ after.balance + amount = state.balance := by
  obtain ⟨_, hsolvent, rfl⟩ := map_ok h
  have hsolvent := require_eq_ok.mp hsolvent
  rw [if_neg hdest]
  refine ⟨⟨hbacked.stake, hbacked.marked⟩, rfl, ?_⟩
  show state.balance - amount + amount = state.balance
  omega

theorem register_funds (valId : ValId) (message : NewValidator) :
    Backed (state.register valId message) ∧ (state.register valId message).liabilities = state.liabilities := by
  let validator : Validator :=
    { state.validators valId with authAddress := message.authAddress.val, commission := message.commission }
  have hset : Backed { state with validators := update state.validators valId validator } := hbacked.setValidator rfl
  have hsum := liabilities_setValidator state valId validator
  refine ⟨⟨hset.stake, hset.marked⟩, ?_⟩
  show ({ state with validators := update state.validators valId validator }).liabilities = _
  have hstake : validator.stake = (state.validators valId).stake := rfl
  have hunclaimed : validator.unclaimedRewards = (state.validators valId).unclaimedRewards := rfl
  omega

theorem addValidator_funds (hepoch : era.activationEpoch ≠ 0) {message : NewValidator}
    (h : state.addValidator era amount message = .ok after) :
    Backed after ∧ after.liabilities = state.liabilities + amount ∧ after.balance = state.balance := by
  iterate 5 obtain ⟨_, h⟩ := rest_ok h
  obtain ⟨hregistered, hsame⟩ := register_funds hbacked ⟨u64 (state.lastValId + 1), Nat.mod_lt _ (by decide)⟩ message
  obtain ⟨hafter, hliabilities, hbalance⟩ := delegate_funds hregistered hepoch h
  exact ⟨hafter, by rw [hliabilities, hsame], hbalance⟩
end

theorem takeStake_funds {position taken : Position} (hmarked : position.delegator.Marked) (hstake : amount ≤ position.delegator.stake)
    (h : takeStake era position amount = .ok taken) :
    taken.validator.stake + amount = position.validator.stake ∧
      taken.validator.unclaimedRewards = position.validator.unclaimedRewards ∧
      taken.delegator.total + amount = position.delegator.total ∧
      taken.delegator.rewards = position.delegator.rewards ∧ taken.delegator.Marked := by
  set rest := position.delegator.stake - amount
  obtain ⟨valStake, hval, rfl⟩ := map_ok h
  obtain ⟨hle, hval⟩ := checkedSub_eq_ok.mp hval
  have htotal : rest + position.delegator.deltaStake + position.delegator.nextDeltaStake + amount =
      position.delegator.total := by
    unfold total
    omega
  have hstake : valStake + amount = position.validator.stake := by omega
  refine ⟨hstake, rfl, ?_⟩
  show total (if rest = 0 then _ else _) + amount = _ ∧ rewards (if rest = 0 then _ else _) = _ ∧
    Delegator.Marked (if rest = 0 then _ else _)
  split <;> exact ⟨htotal, rfl, hmarked.delta, hmarked.next⟩

theorem withDust_le {stake amount : Nat} (h : amount ≤ stake) : withDust stake amount ≤ stake := by
  unfold withDust
  split <;> omega

section
variable (hbacked : Backed state)
include hbacked
/-- What is taken out of the stakes is in the request. -/
theorem undelegate_funds (h : state.undelegate era address value valId amount withdrawalId = .ok after) :
    Backed after ∧ after.liabilities = state.liabilities ∧ after.balance = state.balance ∧ value = 0 := by
  obtain ⟨hvalue, h⟩ := check_ok h
  split at h
  · cases h
    exact ⟨hbacked, rfl, rfl, hvalue⟩
  obtain ⟨_, h⟩ := rest_ok h
  obtain ⟨hfree, h⟩ := check_ok h
  obtain ⟨pulled, hpulled, h⟩ := bind_ok h
  obtain ⟨henough, h⟩ := check_ok h
  obtain ⟨taken, htaken, h⟩ := bind_ok h
  obtain ⟨-, -, rfl⟩ := map_ok h
  have hpulled := pullDelegatorUpToDate_settles (hbacked.marked valId address) hpulled
  obtain ⟨hstake, hunclaimed, htotal, hrewards, hmarked⟩ := takeStake_funds hpulled.marked (withDust_le henough) htaken
  obtain ⟨hpulledStake, hpulledTotal, hpulledRewards⟩ := settled_position hpulled
  refine ⟨(hbacked.put hmarked (by omega)).putRequest .., ?_, rfl, hvalue⟩
  have hempty : (state.requests valId address withdrawalId).amount = 0 := by
    have hnone := of_decide_eq_false hfree
    omega
  have hput := liabilities_put state valId address taken
  have hrequest := liabilities_putRequest (state.put valId address taken) valId address withdrawalId
    ⟨withDust pulled.delegator.stake amount, pulled.delegator.accumulatedRewardPerToken, era.activationEpoch⟩
  have hrequests : (state.put valId address taken).requests = state.requests := rfl
  rw [hrequests] at hrequest
  simp only at hrequest
  omega

theorem clearRewards_funds {pulled : Position} (hpulled : (state.position valId address).Settles pulled) :
    Backed (state.put valId address (pulled.setDelegator { pulled.delegator with rewards := 0 })) ∧
      (state.put valId address (pulled.setDelegator { pulled.delegator with rewards := 0 })).liabilities +
        pulled.delegator.rewards = state.liabilities := by
  obtain ⟨hpulledStake, hpulledTotal, hpulledRewards⟩ := settled_position hpulled
  constructor
  · refine hbacked.put ⟨hpulled.marked.delta, hpulled.marked.next⟩ ?_
    show pulled.validator.stake + (state.delegators valId address).total = _ + pulled.delegator.total
    omega
  · have hput := liabilities_put state valId address (pulled.setDelegator { pulled.delegator with rewards := 0 })
    have hvalidator : (pulled.setDelegator { pulled.delegator with rewards := 0 }).validator = pulled.validator := rfl
    have hzero : (pulled.setDelegator { pulled.delegator with rewards := 0 }).delegator.rewards = 0 := rfl
    rw [hvalidator] at hput
    omega

theorem compound_funds (hepoch : era.activationEpoch ≠ 0) (h : state.compound era address value valId = .ok after) :
    Backed after ∧ after.liabilities = state.liabilities ∧ after.balance = state.balance ∧ value = 0 := by
  obtain ⟨hvalue, h⟩ := check_ok h
  obtain ⟨_, hpulled, h⟩ := bind_ok h
  have hpulled := pullDelegatorUpToDate_settles (hbacked.marked valId address) hpulled
  obtain ⟨hcleared, hliabilities⟩ := clearRewards_funds hbacked hpulled
  simp only at h
  split at h
  · obtain ⟨hafter, hdelegated, hbalance⟩ := delegate_funds hcleared hepoch h
    exact ⟨hafter, by omega, hbalance, hvalue⟩
  rename_i hnone
  cases h
  rw [not_not.mp hnone, add_zero] at hliabilities
  exact ⟨hcleared, hliabilities, rfl, hvalue⟩

theorem getDelegator_funds (h : state.getDelegator era value valId address = .ok after) :
    Backed after ∧ after.liabilities = state.liabilities ∧ after.balance = state.balance ∧ value = 0 := by
  obtain ⟨hvalue, h⟩ := check_ok h
  obtain ⟨pulled, hpulled, rfl⟩ := map_ok h
  have hpulled := pullDelegatorUpToDate_settles (hbacked.marked valId address) hpulled
  obtain ⟨hstake, htotal, hrewards⟩ := settled_position hpulled
  have hput := liabilities_put state valId address pulled
  exact ⟨hbacked.put hpulled.marked (by omega), by omega, rfl, hvalue⟩

theorem claimRewards_funds (hdest : address ≠ stakingContractAddress)
    (h : state.claimRewards era address value valId = .ok after) :
    Backed after ∧ after.liabilities + state.balance = state.liabilities + after.balance ∧ value = 0 := by
  obtain ⟨hvalue, h⟩ := check_ok h
  obtain ⟨pulled, hpulled, h⟩ := bind_ok h
  have hpulled := pullDelegatorUpToDate_settles (hbacked.marked valId address) hpulled
  obtain ⟨hcleared, hliabilities⟩ := clearRewards_funds hbacked hpulled
  simp only at h
  split at h
  · obtain ⟨hafter, hsent, hbalance⟩ := sendTokens_funds hcleared hdest h
    have hkept : (state.put valId address (pulled.setDelegator { pulled.delegator with rewards := 0 })).balance = state.balance := rfl
    exact ⟨hafter, by omega, hvalue⟩
  rename_i hnone
  cases h
  -- Without rewards the position is the one that would be left after the payment.
  have hnone : pulled.delegator.rewards = 0 := not_not.mp hnone
  have hsame : pulled.setDelegator { pulled.delegator with rewards := 0 } = pulled := by
    unfold setDelegator
    rw [← hnone]
  rw [hsame] at hcleared hliabilities
  have hkept : (state.put valId address pulled).balance = state.balance := rfl
  exact ⟨hcleared, by omega, hvalue⟩

theorem withdraw_funds (hdest : address ≠ stakingContractAddress)
    (h : state.withdraw era address value valId withdrawalId = .ok after) :
    Backed after ∧ after.liabilities + state.balance = state.liabilities + after.balance ∧ value = 0 := by
  obtain ⟨hvalue, h⟩ := check_ok h
  iterate 2 obtain ⟨_, h⟩ := rest_ok h
  obtain ⟨rewards, h⟩ := rest_ok h
  obtain ⟨paid, hpaid, h⟩ := bind_ok h
  obtain ⟨_, hamount, h⟩ := bind_ok h
  obtain ⟨_, h⟩ := rest_ok h
  have hamount := (checkedAdd_eq_ok.mp hamount).2
  obtain ⟨_, hsolvent, rfl⟩ := map_ok hpaid
  have hsolvent := require_eq_ok.mp hsolvent
  obtain ⟨hvalidator, hdelegator⟩ := decrement_fields (state.position valId address)
    (state.requests valId address withdrawalId).epoch
  rw [hvalidator] at hsolvent
  generalize hpaid : ({ ((state.position valId address).decrementAccumulatorRefcount
    (state.requests valId address withdrawalId).epoch).2 with validator := _ } : Position) = paid at h
  have hpaidValidator : paid.validator = { state.validators valId with
      unclaimedRewards := (state.validators valId).unclaimedRewards - rewards } := by
    rw [← hpaid, hvalidator]
    rfl
  have hpaidDelegator : paid.delegator = state.delegators valId address := by
    rw [← hpaid]
    exact hdelegator
  have hput := liabilities_put state valId address paid
  set stored := state.put valId address paid
  have hrequest := liabilities_putRequest stored valId address withdrawalId {}
  have hrequests : stored.requests = state.requests := rfl
  have hkept : (stored.putRequest valId address withdrawalId {}).balance = state.balance := rfl
  have hsolvent : rewards ≤ (state.validators valId).unclaimedRewards := hsolvent
  rw [hpaidValidator, hpaidDelegator] at hput
  rw [hrequests] at hrequest
  simp only at hput hrequest
  have hbackedPut : Backed stored := by
    refine hbacked.put (hpaidDelegator ▸ hbacked.marked valId address) ?_
    rw [hpaidValidator, hpaidDelegator]
  obtain ⟨hafter, hsent, hbalance⟩ := sendTokens_funds (hbackedPut.putRequest withdrawalId {}) hdest h
  exact ⟨hafter, by omega, hvalue⟩

theorem externalReward_funds {activeStake : Nat} (h : state.externalReward activeStake amount valId = .ok after) :
    Backed after ∧ after.liabilities = state.liabilities + amount ∧ after.balance = state.balance := by
  iterate 5 obtain ⟨_, h⟩ := rest_ok h
  obtain ⟨acc, h⟩ := rest_ok h
  obtain ⟨unclaimedRewards, hunclaimed, rfl⟩ := map_ok h
  have hunclaimed := (checkedAdd_eq_ok.mp hunclaimed).2
  refine ⟨hbacked.setValidator rfl, ?_, rfl⟩
  have hsum := liabilities_setValidator state valId
    { state.validators valId with accumulatedRewardPerToken := acc, unclaimedRewards := unclaimedRewards }
  simp only at hsum
  omega
end

/-- What the contract has beyond what it owes. -/
def surplus (state : StakingState) : Int := state.balance - state.liabilities

theorem call_funds (hbacked : Backed state) (hepoch : record.call.delegates = true → era.activationEpoch ≠ 0)
    (hsender : record.sender ≠ stakingContractAddress) (h : state.call era record = .ok after) :
    Backed after ∧ after.surplus = state.surplus := by
  have hcredited : Backed { state with balance := state.balance + record.value } := ⟨hbacked.stake, hbacked.marked⟩
  have howed : ({ state with balance := state.balance + record.value } : StakingState).liabilities = state.liabilities := rfl
  have hheld : ({ state with balance := state.balance + record.value } : StakingState).balance = state.balance + record.value := rfl
  unfold surplus
  unfold call at h
  split at h
  · next hcall =>
    obtain ⟨hafter, hliabilities, hbalance⟩ := addValidator_funds hcredited (hepoch (by rw [hcall]; rfl)) h
    exact ⟨hafter, by omega⟩
  · next hcall =>
    unfold delegateCall at h
    split at h
    · obtain ⟨hafter, hliabilities, hbalance⟩ := delegate_funds hcredited (hepoch (by rw [hcall]; rfl)) h
      exact ⟨hafter, by omega⟩
    · cases h
      exact ⟨hcredited, by omega⟩
  · obtain ⟨hafter, hliabilities, hbalance, hvalue⟩ := undelegate_funds hcredited h
    exact ⟨hafter, by omega⟩
  · next hcall =>
    obtain ⟨hafter, hliabilities, hbalance, hvalue⟩ := compound_funds hcredited (hepoch (by rw [hcall]; rfl)) h
    exact ⟨hafter, by omega⟩
  · obtain ⟨hafter, hmoved, hvalue⟩ := withdraw_funds hcredited hsender h
    exact ⟨hafter, by omega⟩
  · obtain ⟨hafter, hmoved, hvalue⟩ := claimRewards_funds hcredited hsender h
    exact ⟨hafter, by omega⟩
  · obtain ⟨hafter, hliabilities, hbalance⟩ := externalReward_funds hcredited h
    exact ⟨hafter, by omega⟩
  · obtain ⟨hafter, hliabilities, hbalance, hvalue⟩ := getDelegator_funds hcredited h
    exact ⟨hafter, by omega⟩

/-! ### Runs -/

/-- Calls one after another, each when it is made. -/
def run (state : StakingState) (history : List (Era × StakingRecord)) : StakingState :=
  history.foldl (fun state step => state.apply step.1 step.2) state

/-- Whose stakes a call can change. -/
def actor (record : StakingRecord) : Address :=
  match record.call with
  | .addValidator message => message.authAddress
  | .getDelegator _ address => address
  | _ => record.sender

variable {other : Address}

theorem put_delegators_of_ne (hne : other ≠ address) (position : Position) (otherId : ValId) :
    (state.put valId address position).delegators otherId other = state.delegators otherId other := by
  show update state.delegators valId _ otherId other = _
  by_cases heq : otherId = valId
  · rw [heq, update_self, update_of_ne hne]
  · rw [update_of_ne heq]

theorem delegate_delegators_of_ne (hne : other ≠ address) (h : state.delegate era valId amount address = .ok after)
    (otherId : ValId) : after.delegators otherId other = state.delegators otherId other := by
  iterate 5 obtain ⟨_, h⟩ := rest_ok h
  obtain ⟨-, -, rfl⟩ := map_ok h
  exact put_delegators_of_ne hne _ otherId

theorem sendTokens_delegators (h : state.sendTokens address amount = .ok after) : after.delegators = state.delegators := by
  obtain ⟨-, -, rfl⟩ := map_ok h
  split <;> rfl

/-- A call changes the stakes of nobody else. -/
theorem call_delegators_of_ne (hne : other ≠ actor record) (h : state.call era record = .ok after) (otherId : ValId) :
    after.delegators otherId other = state.delegators otherId other := by
  have hkept : ({ state with balance := state.balance + record.value } : StakingState).delegators = state.delegators := rfl
  unfold call at h
  unfold actor at hne
  rw [← hkept]
  split at h <;> rename_i hcall <;> rw [hcall] at hne <;> simp only at hne
  · obtain ⟨_, h⟩ := rest_ok h
    iterate 4 obtain ⟨_, h⟩ := rest_ok h
    exact delegate_delegators_of_ne hne h otherId
  · unfold delegateCall at h
    split at h
    · exact delegate_delegators_of_ne hne h otherId
    · cases h
      rfl
  · obtain ⟨_, h⟩ := rest_ok h
    split at h
    · cases h
      rfl
    iterate 4 obtain ⟨_, h⟩ := rest_ok h
    obtain ⟨taken, h⟩ := rest_ok h
    obtain ⟨-, -, rfl⟩ := map_ok h
    exact put_delegators_of_ne hne taken otherId
  · obtain ⟨_, h⟩ := rest_ok h
    obtain ⟨_, h⟩ := rest_ok h
    simp only at h
    split at h
    · exact (delegate_delegators_of_ne hne h otherId).trans (put_delegators_of_ne hne _ otherId)
    · cases h
      exact put_delegators_of_ne hne _ otherId
  · obtain ⟨_, h⟩ := rest_ok h
    iterate 3 obtain ⟨_, h⟩ := rest_ok h
    obtain ⟨paid, h⟩ := rest_ok h
    iterate 2 obtain ⟨_, h⟩ := rest_ok h
    rw [sendTokens_delegators h]
    exact put_delegators_of_ne hne paid otherId
  · obtain ⟨_, h⟩ := rest_ok h
    obtain ⟨_, h⟩ := rest_ok h
    simp only at h
    split at h
    · rw [sendTokens_delegators h]
      exact put_delegators_of_ne hne _ otherId
    · cases h
      exact put_delegators_of_ne hne _ otherId
  · obtain ⟨_, h⟩ := rest_ok h
    iterate 5 obtain ⟨_, h⟩ := rest_ok h
    obtain ⟨_, -, rfl⟩ := map_ok h
    rfl
  · obtain ⟨_, h⟩ := rest_ok h
    obtain ⟨pulled, -, rfl⟩ := map_ok h
    exact put_delegators_of_ne hne pulled otherId

theorem run_delegators_of_ne {history : List (Era × StakingRecord)} (hne : ∀ step ∈ history, other ≠ actor step.2)
    (otherId : ValId) : (state.run history).delegators otherId other = state.delegators otherId other := by
  induction history generalizing state with
  | nil => rfl
  | cons step _ ih =>
    rw [List.forall_mem_cons] at hne
    refine (ih hne.2).trans ?_
    show (state.apply step.1 step.2).delegators otherId other = _
    unfold apply
    cases hcall : state.call step.1 step.2 with
    | ok => exact call_delegators_of_ne hne.1 hcall otherId
    | error e => rfl

/-- A call of an account other than the contract, in an epoch with a next one if it delegates. -/
def Regular (step : Era × StakingRecord) : Prop :=
  (step.2.call.delegates = true → step.1.activationEpoch ≠ 0) ∧ step.2.sender ≠ stakingContractAddress

theorem apply_funds (hbacked : Backed state) {step : Era × StakingRecord} (hstep : Regular step) :
    Backed (state.apply step.1 step.2) ∧ (state.apply step.1 step.2).surplus = state.surplus := by
  unfold apply
  cases hcall : state.call step.1 step.2 with
  | ok => exact call_funds hbacked hstep.1 hstep.2 hcall
  | error e => exact ⟨hbacked, rfl⟩

/-- **The staking contract conserves funds**: along every run the stake of each validator is that of its delegators, and a
call that succeeds leaves the contract with what it had beyond what it owes. -/
theorem staking_conserves_funds {history : List (Era × StakingRecord)} (hbacked : Backed state)
    (hhistory : ∀ step ∈ history, Regular step) :
    (∀ valId, ((state.run history).validators valId).stake = (state.run history).staked valId) ∧
      (state.run history).surplus = state.surplus ∧
      ∀ step next, Regular step → (state.run history).call step.1 step.2 = .ok next →
        next.surplus = (state.run history).surplus := by
  have hrun : Backed (state.run history) ∧ (state.run history).surplus = state.surplus := by
    induction history generalizing state with
    | nil => exact ⟨hbacked, rfl⟩
    | cons _ _ ih =>
      rw [List.forall_mem_cons] at hhistory
      obtain ⟨hnext, hsurplus⟩ := apply_funds hbacked hhistory.1
      obtain ⟨hlast, hrest⟩ := ih hnext hhistory.2
      exact ⟨hlast, hrest.trans hsurplus⟩
  refine ⟨hrun.1.stake, hrun.2, ?_⟩
  intro _ _ hstep hcall
  exact (call_funds hrun.1 hstep.1 hstep.2 hcall).2

/-- A contract without validators is backed. -/
theorem backed_default : Backed {} := by
  constructor
  · intro _
    show 0 = ∑ address : Address, 0
    rw [Finset.sum_const_zero]
  · exact fun _ _ => ⟨fun _ => rfl, fun _ => rfl⟩

/-- A validator comes with its stake, and the stake is given up in parts. -/
theorem staking_conserves_funds_undelegated :
    let message : NewValidator := ⟨minAuthAddressStake, ⟨7, by decide⟩, 0, true, 1, 2⟩
    let history : List (Era × StakingRecord) :=
      [(⟨5, 0⟩, ⟨⟨7, by decide⟩, minAuthAddressStake, .addValidator message⟩),
        (⟨6, 0⟩, ⟨⟨7, by decide⟩, 0, .undelegate ⟨1, by decide⟩ dustThreshold ⟨0, by decide⟩⟩)]
    (({} : StakingState).run history).surplus = ({} : StakingState).surplus ∧
      ((({} : StakingState).run history).validators ⟨1, by decide⟩).stake = minAuthAddressStake - dustThreshold := by
  refine ⟨(staking_conserves_funds backed_default ?_).2.1, by decide⟩
  intro _ hstep
  rcases List.mem_cons.mp hstep with rfl | hstep
  · exact ⟨fun _ => by decide, by decide⟩
  · rw [List.mem_singleton.mp hstep]
    exact ⟨fun _ => by decide, by decide⟩

/-- A contract in which every validator has the same one delegator. -/
def sole (owner : Address) (delegator : Delegator) (balance : Nat) : StakingState :=
  { validators := fun _ => { stake := delegator.total }, delegators := fun _ => update (fun _ => {}) owner delegator, balance }

variable {owner : Address} {delegator : Delegator} {balance : Nat}

theorem sole_delegators_of_ne (hne : other ≠ owner) : (sole owner delegator balance).delegators valId other = {} := by
  simp [sole, hne]

theorem sole_delegators : (sole owner delegator balance).delegators valId owner = delegator := by
  simp [sole]

theorem staked_eq_total (hothers : ∀ other, other ≠ owner → state.delegators valId other = {}) :
    state.staked valId = (state.delegators valId owner).total :=
  Finset.sum_eq_single owner (fun other _ hne => by rw [hothers other hne]; rfl) fun hnone => absurd (Finset.mem_univ _) hnone

theorem staked_sole : (sole owner delegator balance).staked valId = delegator.total := by
  rw [staked_eq_total fun other hne => sole_delegators_of_ne hne, sole_delegators]

theorem backed_sole (hmarked : delegator.Marked) : Backed (sole owner delegator balance) := by
  refine ⟨fun valId => staked_sole.symm, fun valId address => ?_⟩
  by_cases heq : address = owner
  · rw [heq, sole_delegators]
    exact hmarked
  · rw [sole_delegators_of_ne heq]
    exact ⟨fun _ => rfl, fun _ => rfl⟩

/-- In the last epoch the stake of a new validator waits without an epoch, and the next call of its owner loses it. So it is
where a stake waits without an epoch from the start. And a contract that claims rewards of its own pays nothing. -/
theorem stake_lost_in_last_epoch :
    let owner : Address := ⟨7, by decide⟩
    let valId : ValId := ⟨1, by decide⟩
    (let message : NewValidator := ⟨minAuthAddressStake, owner, 0, true, 1, 2⟩
     let lost := ({} : StakingState).run [(⟨2 ^ 64 - 1, 0⟩, ⟨owner, minAuthAddressStake, .addValidator message⟩),
       (⟨2 ^ 64 - 1, 0⟩, ⟨owner, 0, .claimRewards valId⟩)]
     Backed {} ∧ (lost.validators valId).stake = minAuthAddressStake ∧ lost.staked valId = 0) ∧
    (let unmarked := sole owner { deltaStake := 5 } 5
     let lost := unmarked.run [(⟨6, 0⟩, ⟨owner, 0, .claimRewards valId⟩)]
     (∀ valId, (unmarked.validators valId).stake = unmarked.staked valId) ∧ (lost.validators valId).stake = 5 ∧
       lost.staked valId = 0) ∧
    let rewarded := sole stakingContractAddress { rewards := 5 } 5
    Backed rewarded ∧
      (rewarded.run [(⟨6, 0⟩, ⟨stakingContractAddress, 0, .claimRewards valId⟩)]).surplus = rewarded.surplus + 5 := by
  intro owner valId
  refine ⟨⟨backed_default, by decide, ?_⟩, ⟨fun valId => staked_sole.symm, by decide, ?_⟩, ?_⟩
  · rw [@staked_eq_total _ valId owner fun other hne => run_delegators_of_ne (by simpa [actor] using hne) valId]
    decide
  · rw [@staked_eq_total _ valId owner fun other hne =>
      (run_delegators_of_ne (by simpa [actor] using hne) valId).trans (sole_delegators_of_ne hne)]
    decide
  · intro rewarded
    have hbacked : Backed rewarded := backed_sole ⟨fun _ => rfl, fun _ => rfl⟩
    have hmarked : (rewarded.position valId stakingContractAddress).delegator.Marked :=
      hbacked.marked valId stakingContractAddress
    obtain ⟨-, hliabilities⟩ := clearRewards_funds hbacked (Settles.refl hmarked)
    have hrun : rewarded.run [(⟨6, 0⟩, ⟨stakingContractAddress, 0, .claimRewards valId⟩)] =
        rewarded.put valId stakingContractAddress ((rewarded.position valId stakingContractAddress).setDelegator {}) := rfl
    have hbalance : (rewarded.put valId stakingContractAddress
        ((rewarded.position valId stakingContractAddress).setDelegator {})).balance = rewarded.balance := rfl
    have howed : (rewarded.put valId stakingContractAddress
        ((rewarded.position valId stakingContractAddress).setDelegator {})).liabilities + 5 = rewarded.liabilities := hliabilities
    refine ⟨hbacked, ?_⟩
    rw [hrun, surplus, surplus]
    omega

end StakingState
end LeafageEvm.Monad
