import LeafageEvm.Monad.StakingFunds

/-! The reference counts of the reward accumulators: each is the number of delegators and withdrawals that still refer to
the accumulator, as long as epochs follow one another. -/

namespace LeafageEvm.Monad
open StakingState Position Nat Finset Function
variable {epoch : Nat} {boundary : Bool} {position next : Position} {base : Nat → Nat} {amount : Nat}

/-- The calls after which something waits for an epoch to begin. -/
def StakingCall.schedules : StakingCall → Bool
  | .undelegate .. => true
  | call => call.delegates

/-! ### Epochs -/

/-- The flag of the boundary period is the first byte of its slot. -/
def eraOf (epoch : Nat) (boundary : Bool) : Era := ⟨epoch, if boundary then 2 ^ 248 else 0⟩

theorem eraOf_inEpochDelayPeriod : (eraOf epoch boundary).inEpochDelayPeriod = boundary := by
  cases boundary <;> simp [Era.inEpochDelayPeriod, eraOf]

theorem eraOf_activationEpoch (hepoch : epoch + 1 < 2 ^ 64) (hactive : (eraOf epoch boundary).activationEpoch ≠ 0) :
    (eraOf epoch boundary).activationEpoch = if boundary then epoch + 2 else epoch + 1 := by
  cases boundary
  · exact mod_eq_of_lt hepoch
  · by_cases hless : epoch + 2 < 2 ^ 64
    · exact mod_eq_of_lt hless
    · have hlast : epoch = 2 ^ 64 - 2 := by omega
      subst hlast
      exact absurd rfl hactive

theorem isEpochActive_eq_true {activeEpoch : Nat} :
    (eraOf epoch boundary).isEpochActive activeEpoch = true ↔ activeEpoch ≠ 0 ∧ activeEpoch ≤ epoch := decide_eq_true_iff

/-- One reference. -/
def mark (epoch other : Nat) : Nat := if epoch = other then 1 else 0

theorem mark_self (epoch : Nat) : mark epoch epoch = 1 := if_pos rfl

theorem mark_zero {other : Nat} (h : other ≠ 0) : mark 0 other = 0 := if_neg h.symm

theorem mark_le_one (epoch other : Nat) : mark epoch other ≤ 1 := by
  unfold mark
  split <;> omega

def Delegator.marks (delegator : Delegator) (other : Nat) : Nat :=
  mark delegator.deltaEpoch other + mark delegator.nextDeltaEpoch other

/-- The stakes that wait do so for an epoch to come, the delta for the earlier one. -/
structure Delegator.Timely (epoch : Nat) (boundary : Bool) (delegator : Delegator) : Prop where
  marked : delegator.Marked
  delta_le : delegator.deltaEpoch ≤ epoch + 1
  next_le : delegator.nextDeltaEpoch ≤ epoch + 1 ∨ boundary = true ∧ delegator.nextDeltaEpoch = epoch + 2 ∧
    (delegator.deltaEpoch = 0 ∨ delegator.deltaEpoch = epoch + 1)
  delta_lt : delegator.deltaEpoch ≠ 0 → delegator.nextDeltaEpoch ≠ 0 → delegator.deltaEpoch < delegator.nextDeltaEpoch

/-- Nothing waits for an epoch that has begun. -/
structure Delegator.Current (epoch : Nat) (boundary : Bool) (delegator : Delegator) : Prop where
  marked : delegator.Marked
  delta : delegator.deltaEpoch = 0 ∨ delegator.deltaEpoch = epoch + 1
  next : delegator.nextDeltaEpoch = 0 ∨ boundary = true ∧ delegator.nextDeltaEpoch = epoch + 2

theorem Delegator.Current.timely {delegator : Delegator} (h : delegator.Current epoch boundary) :
    delegator.Timely epoch boundary := by
  obtain ⟨hmarked, hdelta, hnext⟩ := h
  refine ⟨hmarked, by omega, ?_, by omega⟩
  rcases hnext with hnext | ⟨hboundary, hnext⟩
  · left
    omega
  · exact .inr ⟨hboundary, hnext, hdelta⟩

section
variable {delegator : Delegator} (h : delegator.Timely epoch boundary)
include h
theorem Delegator.Timely.enterBoundary : delegator.Timely epoch true := by
  refine { h with next_le := ?_ }
  rcases h.next_le with hnext | ⟨-, hnext⟩
  · exact .inl hnext
  · exact .inr ⟨rfl, hnext⟩

theorem Delegator.Timely.advance : delegator.Timely (epoch + 1) false := by
  have hdelta := h.delta_le
  refine ⟨h.marked, by omega, .inl ?_, h.delta_lt⟩
  rcases h.next_le with hnext | ⟨-, hnext⟩ <;> omega
end

/-! ### One position -/

open Delegator

namespace Position

/-- The counts of a validator's accumulators are the references of the delegator and of the rest. -/
def Tracked (base : Nat → Nat) (position : Position) : Prop :=
  ∀ other, other ≠ 0 → (position.accumulators other).refcount = base other + position.delegator.marks other

variable {f : Nat → Nat} {era : Era}

theorem refcount_decrement (hepoch : epoch ≠ 0)
    (h : ∀ other, other ≠ 0 → (position.accumulators other).refcount = f other + mark epoch other) {other : Nat}
    (hother : other ≠ 0) : ((position.decrementAccumulatorRefcount epoch).2.accumulators other).refcount = f other := by
  have hself := h epoch hepoch
  rw [mark_self] at hself
  have hpresent : (position.accumulators epoch).refcount ≠ 0 := by omega
  unfold decrementAccumulatorRefcount
  rw [if_neg hpresent]
  show (update position.accumulators epoch _ other).refcount = f other
  by_cases heq : other = epoch
  · rw [heq, update_self]
    split
    · show 0 = f epoch
      omega
    · show (position.accumulators epoch).refcount - 1 = f epoch
      omega
  have hkept := h other hother
  have hnone : mark epoch other = 0 := if_neg (heq ·.symm)
  rw [update_of_ne heq]
  omega

theorem refcount_increment (hbound : ∀ other, f other + 1 < 2 ^ 256)
    (h : ∀ other, other ≠ 0 → (position.accumulators other).refcount = f other) {other : Nat} (hother : other ≠ 0) :
    ((position.incrementAccumulatorRefcount era).accumulators other).refcount = f other + mark era.activationEpoch other := by
  have hkept := h other hother
  show (update position.accumulators era.activationEpoch _ other).refcount = _
  by_cases heq : other = era.activationEpoch
  · have hless := hbound other
    rw [← heq, update_self, mark_self]
    show ((position.accumulators other).refcount + 1) % 2 ^ 256 = _
    rw [hkept, mod_eq_of_lt hless]
  · have hnone : mark era.activationEpoch other = 0 := if_neg (heq ·.symm)
    rw [update_of_ne heq, hkept, hnone, add_zero]

theorem compoundOnce_tracked (h : Tracked base position) (hepoch : position.delegator.deltaEpoch ≠ 0)
    (hmarked : position.delegator.Marked) (hok : position.compoundOnce = .ok next) :
    Tracked base next ∧ next.delegator.Marked ∧ next.delegator.deltaEpoch = position.delegator.nextDeltaEpoch ∧
      next.delegator.nextDeltaEpoch = 0 := by
  have hsettles := compoundOnce_settles hmarked hok
  obtain ⟨⟨_, _⟩, hcompound, hpay⟩ := bind_ok hok
  obtain ⟨-, haccumulators, _, hdelegator⟩ := applyCompound_eq_ok hcompound
  obtain ⟨-, -, hpaid, hkept⟩ := payRewards_eq_ok hpay
  have hdelta : next.delegator.deltaEpoch = position.delegator.nextDeltaEpoch := by
    rw [hpaid, hdelegator]
    rfl
  have hnext : next.delegator.nextDeltaEpoch = 0 := by
    rw [hpaid, hdelegator]
    rfl
  refine ⟨?_, hsettles.marked, hdelta, hnext⟩
  intro other hother
  have hbefore : ∀ other, other ≠ 0 → (position.accumulators other).refcount =
      (base other + mark position.delegator.nextDeltaEpoch other) + mark position.delegator.deltaEpoch other := by
    intro other hother
    rw [h other hother, marks]
    omega
  rw [hkept, haccumulators, refcount_decrement hepoch hbefore hother, marks, hdelta, hnext, mark_zero hother, add_zero]

theorem accrue_tracked (h : Tracked base position) (hmarked : position.delegator.Marked) (hok : position.accrue = .ok next) :
    Tracked base next ∧ next.delegator.Marked ∧ next.delegator.deltaEpoch = position.delegator.deltaEpoch ∧
      next.delegator.nextDeltaEpoch = position.delegator.nextDeltaEpoch := by
  have hsettles := accrue_settles hmarked hok
  unfold accrue at hok
  split at hok
  · cases hok
    exact ⟨h, hmarked, rfl, rfl⟩
  obtain ⟨_, hok⟩ := rest_ok hok
  obtain ⟨paid, hpay, rfl⟩ := map_ok hok
  obtain ⟨-, -, hpaid, hkept⟩ := payRewards_eq_ok hpay
  have hdelta : paid.delegator.deltaEpoch = position.delegator.deltaEpoch := by rw [hpaid]
  have hnext : paid.delegator.nextDeltaEpoch = position.delegator.nextDeltaEpoch := by rw [hpaid]
  refine ⟨?_, hsettles.marked, hdelta, hnext⟩
  intro other hother
  show (paid.accumulators other).refcount = base other + (mark paid.delegator.deltaEpoch other + mark paid.delegator.nextDeltaEpoch other)
  rw [hkept, h other hother, hdelta, hnext, marks]

section
variable (hepoch : epoch + 1 < 2 ^ 64) (h : Tracked base position)
  (htimely : position.delegator.Timely epoch boundary)
include hepoch h htimely
theorem promoted_tracked : let start := position.promoted (eraOf epoch boundary)
    Tracked base start ∧ start.delegator.Timely epoch boundary ∧ (start.delegator.deltaEpoch = 0 →
      start.delegator.nextDeltaEpoch ≤ epoch + 1 → start.delegator.nextDeltaEpoch = 0) := by
  have hwrap : u64 ((eraOf epoch boundary).epoch + 1) = epoch + 1 := mod_eq_of_lt hepoch
  unfold promoted canPromoteDelta
  simp only [decide_eq_true_eq, hwrap]
  split
  · rename_i hpromote
    refine ⟨?_, ⟨⟨htimely.marked.next, fun _ => rfl⟩, hpromote.2, .inl (zero_le _), fun _ hzero => absurd rfl hzero⟩,
      fun _ _ => rfl⟩
    intro other hother
    show (position.accumulators other).refcount = base other + (mark position.delegator.nextDeltaEpoch other + mark 0 other)
    rw [h other hother, marks, hpromote.1]
    omega
  · rename_i hkeep
    refine ⟨h, htimely, fun hzero hle => ?_⟩
    exact absurd ⟨hzero, hle⟩ hkeep

/-- **Pulling a delegator up to date keeps the counts, and nothing waits for an epoch that has begun.** -/
theorem pullDelegatorUpToDate_tracked (hok : position.pullDelegatorUpToDate (eraOf epoch boundary) = .ok next) :
    Tracked base next ∧ next.delegator.Current epoch boundary := by
  obtain ⟨hstart, hstartTimely, hearly⟩ := promoted_tracked hepoch h htimely
  unfold pullDelegatorUpToDate at hok
  obtain ⟨hmarked, hdelta, hnext, hlt⟩ := hstartTimely
  obtain ⟨_, hsecond, hok⟩ := bind_ok hok
  obtain ⟨third, hthird, hok⟩ := bind_ok hok
  rw [ite_eq_iff] at hsecond hthird
  rw [isEpochActive_eq_true] at hsecond hthird
  -- The epochs decide how often the delegator is compounded: twice, once or not at all.
  have hthree : Tracked base third ∧ third.delegator.Marked ∧
      (third.delegator.deltaEpoch = 0 ∨ third.delegator.deltaEpoch = epoch + 1) ∧
      (third.delegator.nextDeltaEpoch = 0 ∨ boundary = true ∧ third.delegator.nextDeltaEpoch = epoch + 2) := by
    rcases hsecond with ⟨hactiveNext, hsecond⟩ | ⟨hinactiveNext, hsecond⟩
    · obtain ⟨hactive, hcompound⟩ := check_ok hsecond
      have hactive := isEpochActive_eq_true.mp hactive
      obtain ⟨htracked, hmarked', hdelta', hnext'⟩ := compoundOnce_tracked hstart hactive.1 hmarked hcompound
      rcases hthird with ⟨-, hthird⟩ | ⟨hinactive, -⟩
      · obtain ⟨htracked, hmarked'', hdelta'', hnext''⟩ := compoundOnce_tracked htracked (hdelta' ▸ hactiveNext.1) hmarked' hthird
        exact ⟨htracked, hmarked'', .inl (hdelta''.trans hnext'), .inl hnext''⟩
      · exact absurd hactive hinactive
    cases hsecond
    rcases hthird with ⟨hactive, hthird⟩ | ⟨hinactive, hthird⟩
    · obtain ⟨htracked, hmarked', hdelta', hnext'⟩ := compoundOnce_tracked hstart hactive.1 hmarked hthird
      refine ⟨htracked, hmarked', ?_, .inl hnext'⟩
      rcases hnext with _ | ⟨-, -, _⟩ <;> omega
    cases hthird
    refine ⟨hstart, hmarked, by omega, ?_⟩
    rcases hnext with hnext | ⟨hboundary, hnext, -⟩
    · left
      omega
    · exact .inr ⟨hboundary, hnext⟩
  obtain ⟨htracked, hmarked, hdelta, hnext⟩ := hthree
  obtain ⟨htracked, hmarked, hdelta', hnext'⟩ := accrue_tracked htracked hmarked hok
  exact ⟨htracked, hmarked, hdelta' ▸ hdelta, hnext' ▸ hnext⟩
end

/-- The accumulators that bringing a delegator up to date reads are there, and the delta is compounded before the next
delta. -/
structure Readable (era : Era) (position : Position) : Prop where
  delta : era.isEpochActive (position.promoted era).delegator.deltaEpoch = true →
    ((position.promoted era).accumulators (position.promoted era).delegator.deltaEpoch).refcount ≠ 0
  order : era.isEpochActive (position.promoted era).delegator.nextDeltaEpoch = true →
    era.isEpochActive (position.promoted era).delegator.deltaEpoch = true
  next : era.isEpochActive (position.promoted era).delegator.nextDeltaEpoch = true →
    ∀ compounded, (position.promoted era).compoundOnce = .ok compounded →
      (compounded.accumulators compounded.delegator.deltaEpoch).refcount ≠ 0

section
variable (h : Tracked base position)
include h
/-- A new delta takes its reference beside the one the delegator keeps. -/
theorem increment_counts (kept : Nat) (hbound : ∀ other, base other + 2 < 2 ^ 256)
    (hkept : ∀ other, other ≠ 0 → position.delegator.marks other = mark kept other) {other : Nat} (hother : other ≠ 0) :
    ((position.incrementAccumulatorRefcount era).accumulators other).refcount =
      base other + (mark kept other + mark era.activationEpoch other) := by
  have hless : ∀ other, base other + mark kept other + 1 < 2 ^ 256 := by
    intro other
    have hone := mark_le_one kept other
    have hroom := hbound other
    omega
  have hbefore : ∀ other, other ≠ 0 → (position.accumulators other).refcount = base other + mark kept other := by
    intro other hother
    rw [h other hother, hkept other hother]
  rw [refcount_increment hless hbefore hother, add_assoc]

/-- A delegation refers to the accumulator of the epoch from which it counts, once. -/
theorem addDelta_tracked (hepoch : epoch + 1 < 2 ^ 64) (hactive : (eraOf epoch boundary).activationEpoch ≠ 0) (hbound : ∀ other, base other + 2 < 2 ^ 256)
    (hcurrent : position.delegator.Current epoch boundary)
    (hok : position.addDelta (eraOf epoch boundary) amount = .ok next) :
    Tracked base next ∧ next.delegator.Current epoch boundary := by
  set activation := (eraOf epoch boundary).activationEpoch
  have hactivation := eraOf_activationEpoch hepoch hactive
  obtain ⟨hmarked, hdelta, hnext⟩ := hcurrent
  unfold addDelta at hok
  rw [eraOf_inEpochDelayPeriod] at hok
  split at hok
  · rename_i hboundary
    rw [if_pos hboundary] at hactivation
    obtain ⟨_, -, rfl⟩ := map_ok hok
    have hactivated : activation ≠ 0 := by omega
    split
    · rename_i hzero
      refine ⟨?_, ⟨hmarked.delta, fun hnone => absurd hnone hactivated⟩, hdelta, .inr ⟨hboundary, hactivation⟩⟩
      intro other hother
      refine increment_counts h position.delegator.deltaEpoch hbound (fun other hother => ?_) hother
      rw [marks, hzero, mark_zero hother, add_zero]
    refine ⟨?_, ⟨hmarked.delta, fun hnone => absurd hnone hactivated⟩, hdelta, .inr ⟨hboundary, hactivation⟩⟩
    intro other hother
    have hsame : position.delegator.nextDeltaEpoch = activation := by omega
    show (position.accumulators other).refcount =
      base other + (mark position.delegator.deltaEpoch other + mark activation other)
    rw [h other hother, marks, hsame]
  · rename_i hboundary
    rw [if_neg hboundary] at hactivation
    obtain ⟨_, -, rfl⟩ := map_ok hok
    have hactivated : activation ≠ 0 := by omega
    split
    · rename_i hzero
      refine ⟨?_, ⟨fun hnone => absurd hnone hactivated, hmarked.next⟩, .inr hactivation, hnext⟩
      intro other hother
      refine (increment_counts h position.delegator.nextDeltaEpoch hbound (fun other hother => ?_) hother).trans ?_
      · rw [marks, hzero, mark_zero hother, zero_add]
      · rw [add_comm (mark _ other)]
        rfl
    refine ⟨?_, ⟨fun hnone => absurd hnone hactivated, hmarked.next⟩, .inr hactivation, hnext⟩
    intro other hother
    have hsame : position.delegator.deltaEpoch = activation := by omega
    show (position.accumulators other).refcount =
      base other + (mark activation other + mark position.delegator.nextDeltaEpoch other)
    rw [h other hother, marks, hsame]

/-! ### What a pull reads -/

theorem Tracked.refcount_ne_zero (hepoch : position.delegator.deltaEpoch ≠ 0) :
    (position.accumulators position.delegator.deltaEpoch).refcount ≠ 0 := by
  rw [h _ hepoch, marks, mark_self]
  omega

theorem Tracked.readable (hepoch : epoch + 1 < 2 ^ 64)
    (htimely : position.delegator.Timely epoch boundary) : Readable (eraOf epoch boundary) position := by
  obtain ⟨htracked, ⟨hmarked, -, -, hlt⟩, hearly⟩ := promoted_tracked hepoch h htimely
  have horder : (eraOf epoch boundary).isEpochActive (position.promoted (eraOf epoch boundary)).delegator.nextDeltaEpoch = true →
      (eraOf epoch boundary).isEpochActive (position.promoted (eraOf epoch boundary)).delegator.deltaEpoch = true := by
    rw [isEpochActive_eq_true, isEpochActive_eq_true]
    omega
  refine ⟨?_, horder, ?_⟩
  · intro hactive
    exact htracked.refcount_ne_zero (isEpochActive_eq_true.mp hactive).1
  · intro hactive _ hcompound
    have hdeltaActive := isEpochActive_eq_true.mp (horder hactive)
    obtain ⟨hafter, -, hdelta', -⟩ := compoundOnce_tracked htracked hdeltaActive.1 hmarked hcompound
    apply hafter.refcount_ne_zero
    rw [hdelta']
    exact (isEpochActive_eq_true.mp hactive).1
end

theorem checkedAdd_ne_error (x y : Nat) : checkedAdd x y ≠ .error .compoundLogicError := by
  unfold checkedAdd
  split <;> simp

theorem checkedSub_ne_error (x y : Nat) : checkedSub x y ≠ .error .compoundLogicError := by
  unfold checkedSub
  split <;> simp

theorem checkedMulDiv_ne_error (x y z : Nat) : checkedMulDiv x y z ≠ .error .compoundLogicError := by
  refine bind_ne_error ?_ fun _ _ => ?_
  · unfold checkedMul
    split <;> simp
  · unfold checkedDiv
    split <;> simp

theorem calculateRewards_ne_error (x y z : Nat) : calculateRewards x y z ≠ .error .compoundLogicError :=
  bind_ne_error (checkedSub_ne_error _ _) fun _ _ => checkedMulDiv_ne_error _ _ _

section
variable (position : Position)

theorem rewardInvariant_ne_error (rewards : Nat) :
    position.rewardInvariant rewards ≠ .error .compoundLogicError := map_ne_error require_ne_error

theorem payRewards_ne_error (rewards : Nat) : position.payRewards rewards ≠ .error .compoundLogicError :=
  bind_ne_error (rewardInvariant_ne_error _ _) fun _ _ => map_ne_error (checkedAdd_ne_error _ _)

theorem compoundOnce_ne_error : position.compoundOnce ≠ .error .compoundLogicError := by
  refine bind_ne_error ?_ fun _ _ => payRewards_ne_error _ _
  exact bind_ne_error (calculateRewards_ne_error _ _ _) fun _ _ => map_ne_error (checkedAdd_ne_error _ _)

theorem accrue_ne_error : position.accrue ≠ .error .compoundLogicError := by
  unfold accrue
  split
  · simp
  · exact bind_ne_error (calculateRewards_ne_error _ _ _) fun _ _ => map_ne_error (payRewards_ne_error _ _)
end

theorem addDelta_ne_error (era : Era) (position : Position) (stake : Nat) :
    position.addDelta era stake ≠ .error .compoundLogicError := by
  unfold addDelta
  split <;> exact map_ne_error (checkedAdd_ne_error _ _)

/-- When the delta is compounded before the next delta, the order is never found wrong. -/
theorem Readable.pull_ne_error (h : Readable era position) :
    position.pullDelegatorUpToDate era ≠ .error .compoundLogicError := by
  unfold pullDelegatorUpToDate
  refine bind_ne_error ?_ fun second _ => bind_ne_error ?_ fun third _ => accrue_ne_error third
  · split
    · rename_i hactive
      rw [h.order hactive]
      exact compoundOnce_ne_error _
    · simp
  · split
    · exact compoundOnce_ne_error second
    · simp

end Position

/-! ### The counts of the contract -/

namespace StakingState

variable {state after : StakingState} {valId : ValId} {address : Address}

def references (state : StakingState) (valId : ValId) (other : Nat) : Nat :=
  ∑ address, (state.delegators valId address).marks other +
    ∑ address, ∑ withdrawalId, mark (state.requests valId address withdrawalId).epoch other

def rest (state : StakingState) (valId : ValId) (address : Address) (other : Nat) : Nat :=
  state.references valId other - (state.delegators valId address).marks other

section
variable (state : StakingState)

theorem references_put_of_ne {valId otherId : ValId} (hne : otherId ≠ valId) (address : Address)
    (position : Position) (other : Nat) :
    (state.put valId address position).references otherId other = state.references otherId other := by
  unfold references put
  simp only [update_of_ne hne]

section
variable (valId : ValId) (other : Nat)

theorem references_lt : state.references valId other + 2 < 2 ^ 256 := by
  have hsum (n m : Nat) : ∑ _ : Fin n, m = n * m := by
    rw [sum_const_nat fun _ _ => rfl, Finset.card_univ, Fintype.card_fin]
  have hdelegators : ∑ address, (state.delegators valId address).marks other ≤ ∑ _ : Address, 2 := by
    apply sum_le_sum
    intro address _
    have hdelta := mark_le_one (state.delegators valId address).deltaEpoch other
    have hnext := mark_le_one (state.delegators valId address).nextDeltaEpoch other
    unfold marks
    omega
  have hrequests : ∑ address, ∑ withdrawalId, mark (state.requests valId address withdrawalId).epoch other ≤
      ∑ _ : Address, 2 ^ 8 := by
    apply sum_le_sum
    intro address _
    calc ∑ withdrawalId, mark (state.requests valId address withdrawalId).epoch other
        ≤ ∑ _ : WithdrawalId, 1 := sum_le_sum fun _ _ => mark_le_one ..
      _ = 2 ^ 8 * 1 := hsum ..
      _ = 2 ^ 8 := mul_one _
  rw [hsum] at hdelegators hrequests
  unfold references
  omega

section
variable (address : Address)

theorem marks_le_references : (state.delegators valId address).marks other ≤ state.references valId other := by
  have hle := single_le_sum (fun address _ => zero_le ((state.delegators valId address).marks other))
    (mem_univ address)
  unfold references
  omega

theorem mark_le_references (withdrawalId : WithdrawalId) :
    mark (state.requests valId address withdrawalId).epoch other ≤ state.references valId other := by
  have hinner := single_le_sum
    (fun withdrawalId _ => zero_le (mark (state.requests valId address withdrawalId).epoch other))
    (mem_univ withdrawalId)
  have houter := single_le_sum
    (fun address _ => zero_le (∑ withdrawalId, mark (state.requests valId address withdrawalId).epoch other))
    (mem_univ address)
  unfold references
  omega

theorem references_put (position : Position) :
    (state.put valId address position).references valId other = state.rest valId address other + position.delegator.marks other := by
  have hle := marks_le_references state valId other address
  have hsum := sum_update (fun _ delegator => marks delegator other) (state.delegators valId) address position.delegator
  unfold rest references at *
  simp only [put, update_self] at *
  omega
end

theorem references_putRequest (address : Address) (withdrawalId : WithdrawalId) (request : WithdrawalRequest) :
    (state.putRequest valId address withdrawalId request).references valId other +
        mark (state.requests valId address withdrawalId).epoch other =
      state.references valId other + mark request.epoch other := by
  have hinner := sum_update (fun _ request => mark (WithdrawalRequest.epoch request) other) (state.requests valId address)
    withdrawalId request
  have houter := sum_update (fun _ (row : WithdrawalId → WithdrawalRequest) => ∑ withdrawalId, mark (row withdrawalId).epoch other)
    (state.requests valId) address (update (state.requests valId address) withdrawalId request)
  unfold references putRequest
  simp only [update_self]
  omega
end

theorem references_putRequest_of_ne {valId otherId : ValId} (hne : otherId ≠ valId) (address : Address)
    (withdrawalId : WithdrawalId) (request : WithdrawalRequest) (other : Nat) :
    (state.putRequest valId address withdrawalId request).references otherId other = state.references otherId other := by
  unfold references putRequest
  simp only [update_of_ne hne]
end

/-- The counts are right, and all that waits is in time. -/
structure Accounted (epoch : Nat) (boundary : Bool) (state : StakingState) : Prop where
  refcount : ∀ valId other, other ≠ 0 → (state.accumulators valId other).refcount = state.references valId other
  timely : ∀ valId address, (state.delegators valId address).Timely epoch boundary
  requests : ∀ valId address withdrawalId, (state.requests valId address withdrawalId).hasData = true →
    (state.requests valId address withdrawalId).epoch ≠ 0

theorem rest_lt (state : StakingState) (valId : ValId) (address : Address) (other : Nat) :
    state.rest valId address other + 2 < 2 ^ 256 := by
  have hless := references_lt state valId other
  unfold rest
  omega

theorem put_delegators_forall {P : Delegator → Prop} (h : ∀ valId address, P (state.delegators valId address))
    {position : Position} (hposition : P position.delegator) (otherId : ValId) (other : Address) :
    P ((state.put valId address position).delegators otherId other) := by
  by_cases hne : other = address
  · show P (update state.delegators valId _ otherId other)
    by_cases heq : otherId = valId
    · rw [heq, update_self, hne, update_self]
      exact hposition
    · rw [update_of_ne heq]
      exact h otherId other
  · rw [put_delegators_of_ne hne]
    exact h otherId other

theorem takeStake_eq_ok {era : Era} {position taken : Position} (hmarked : position.delegator.Marked)
    (h : takeStake era position amount = .ok taken) :
    taken.accumulators = (position.incrementAccumulatorRefcount era).accumulators ∧
      taken.delegator.deltaEpoch = position.delegator.deltaEpoch ∧
      taken.delegator.nextDeltaEpoch = position.delegator.nextDeltaEpoch ∧ taken.delegator.Marked := by
  set rest := position.delegator.stake - amount
  obtain ⟨_, -, rfl⟩ := map_ok h
  refine ⟨rfl, ?_⟩
  show deltaEpoch (if rest = 0 then _ else _) = _ ∧ nextDeltaEpoch (if rest = 0 then _ else _) = _ ∧
    Delegator.Marked (if rest = 0 then _ else _)
  split <;> exact ⟨rfl, rfl, hmarked.delta, hmarked.next⟩

section
variable (h : Accounted epoch boundary state)
include h
theorem Accounted.position_tracked (valId : ValId) (address : Address) :
    (state.position valId address).Tracked (state.rest valId address) := by
  intro other hother
  have hle := marks_le_references state valId other address
  show (state.accumulators valId other).refcount = state.rest valId address other + (state.delegators valId address).marks other
  rw [h.refcount valId other hother, rest, Nat.sub_add_cancel hle]

/-- A position is written back with its count. -/
theorem Accounted.put {position : Position}
    (htracked : position.Tracked (state.rest valId address)) (htimely : position.delegator.Timely epoch boundary) :
    Accounted epoch boundary (state.put valId address position) := by
  refine ⟨?_, put_delegators_forall h.timely htimely, h.requests⟩
  intro otherId other hother
  show (update state.accumulators valId position.accumulators otherId other).refcount = _
  by_cases heq : otherId = valId
  · rw [heq, update_self, references_put, htracked other hother]
  · rw [update_of_ne heq, references_put_of_ne state heq, h.refcount otherId other hother]

theorem Accounted.exchange {position : Position} {withdrawalId : WithdrawalId}
    {request : WithdrawalRequest} (htimely : position.delegator.Timely epoch boundary)
    (hrequest : request.hasData = true → request.epoch ≠ 0) (hcount : ∀ other, other ≠ 0 →
      (position.accumulators other).refcount + mark (state.requests valId address withdrawalId).epoch other =
        state.rest valId address other + position.delegator.marks other + mark request.epoch other) :
    Accounted epoch boundary ((state.put valId address position).putRequest valId address withdrawalId request) := by
  refine ⟨?_, put_delegators_forall h.timely htimely, ?_⟩
  · intro otherId other hother
    show (update state.accumulators valId position.accumulators otherId other).refcount = _
    by_cases heq : otherId = valId
    · have hsum := references_putRequest (state.put valId address position) valId other address withdrawalId request
      rw [references_put] at hsum
      have hcount := hcount other hother
      have hrequests : (state.put valId address position).requests = state.requests := rfl
      rw [hrequests] at hsum
      rw [heq, update_self]
      omega
    · rw [update_of_ne heq, references_putRequest_of_ne _ heq, references_put_of_ne state heq,
        h.refcount otherId other hother]
  · intro otherId other otherWithdrawal
    show (update state.requests valId _ otherId other otherWithdrawal).hasData = true →
      (update state.requests valId _ otherId other otherWithdrawal).epoch ≠ 0
    by_cases heq : otherId = valId
    · rw [heq, update_self]
      by_cases haddress : other = address
      · rw [haddress, update_self]
        by_cases hwithdrawal : otherWithdrawal = withdrawalId
        · rw [hwithdrawal, update_self]
          exact hrequest
        · rw [update_of_ne hwithdrawal]
          exact h.requests valId address otherWithdrawal
      · rw [update_of_ne haddress]
        exact h.requests valId other otherWithdrawal
    · rw [update_of_ne heq]
      exact h.requests otherId other otherWithdrawal

/-! ### The calls -/

theorem Accounted.sendTokens (hok : state.sendTokens address amount = .ok after) : Accounted epoch boundary after := by
  obtain ⟨-, -, rfl⟩ := map_ok hok
  split
  · exact h
  · exact { h with }

theorem Accounted.register (valId : ValId) (message : NewValidator) :
    Accounted epoch boundary (state.register valId message) := { h with }
end

section Calls
variable (hepoch : epoch + 1 < 2 ^ 64) (h : Accounted epoch boundary state) {value : Nat} {withdrawalId : WithdrawalId}

include hepoch h
section
variable {pulled : Position} (hpulled : (state.position valId address).pullDelegatorUpToDate (eraOf epoch boundary) = .ok pulled)
include hpulled
theorem pulled_tracked : pulled.Tracked (state.rest valId address) ∧ pulled.delegator.Current epoch boundary :=
  pullDelegatorUpToDate_tracked hepoch (h.position_tracked valId address) (h.timely valId address) hpulled

theorem clearRewards_accounted :
    Accounted epoch boundary (state.put valId address (pulled.setDelegator { pulled.delegator with rewards := 0 })) := by
  obtain ⟨htracked, hcurrent⟩ := pulled_tracked hepoch h hpulled
  have htimely := hcurrent.timely
  exact h.put htracked { htimely with marked := ⟨htimely.marked.delta, htimely.marked.next⟩ }
end

section
variable (hactive : (eraOf epoch boundary).activationEpoch ≠ 0)
include hactive
theorem delegate_accounted (hok : state.delegate (eraOf epoch boundary) valId amount address = .ok after) :
    Accounted epoch boundary after := by
  iterate 2 obtain ⟨_, hok⟩ := rest_ok hok
  obtain ⟨_, hpulled, hok⟩ := bind_ok hok
  obtain ⟨_, hadded, hok⟩ := bind_ok hok
  obtain ⟨_, hok⟩ := rest_ok hok
  obtain ⟨-, -, rfl⟩ := map_ok hok
  obtain ⟨htracked, hcurrent⟩ := pulled_tracked hepoch h hpulled
  obtain ⟨htracked, hcurrent⟩ := addDelta_tracked htracked hepoch hactive (rest_lt state valId address) hcurrent hadded
  exact h.put htracked hcurrent.timely

theorem undelegate_accounted (hok : state.undelegate (eraOf epoch boundary) address value valId amount withdrawalId = .ok after) :
    Accounted epoch boundary after := by
  obtain ⟨_, hok⟩ := rest_ok hok
  split at hok
  · cases hok
    exact h
  obtain ⟨_, hok⟩ := rest_ok hok
  obtain ⟨hfree, hok⟩ := check_ok hok
  obtain ⟨pulled, hpulled, hok⟩ := bind_ok hok
  obtain ⟨_, hok⟩ := rest_ok hok
  obtain ⟨taken, htaken, hok⟩ := bind_ok hok
  obtain ⟨-, -, rfl⟩ := map_ok hok
  obtain ⟨htracked, hcurrent⟩ := pulled_tracked hepoch h hpulled
  have hempty : (state.requests valId address withdrawalId).epoch = 0 := by
    have hnone := of_decide_eq_false hfree
    omega
  obtain ⟨haccumulators, hdelta, hnext, hmarked⟩ := takeStake_eq_ok hcurrent.marked htaken
  have hmarks other : taken.delegator.marks other = pulled.delegator.marks other := by
    rw [marks, marks, hdelta, hnext]
  refine h.exchange ?_ (fun _ => hactive) ?_
  · refine Delegator.Current.timely ⟨hmarked, ?_, ?_⟩
    · rw [hdelta]
      exact hcurrent.delta
    · rw [hnext]
      exact hcurrent.next
  · intro other hother
    have hless : ∀ other, state.rest valId address other + pulled.delegator.marks other + 1 < 2 ^ 256 := by
      intro other
      have hroom := references_lt (state.put valId address pulled) valId other
      rw [references_put] at hroom
      omega
    rw [haccumulators, refcount_increment hless htracked hother, hempty, mark_zero hother, hmarks, add_zero]

theorem compound_accounted (hok : state.compound (eraOf epoch boundary) address value valId = .ok after) :
    Accounted epoch boundary after := by
  obtain ⟨_, hok⟩ := rest_ok hok
  obtain ⟨_, hpulled, hok⟩ := bind_ok hok
  have hcleared := clearRewards_accounted hepoch h hpulled
  simp only at hok
  split at hok
  · exact delegate_accounted hepoch hcleared hactive hok
  · cases hok
    exact hcleared
end

theorem getDelegator_accounted (hok : state.getDelegator (eraOf epoch boundary) value valId address = .ok after) :
    Accounted epoch boundary after := by
  obtain ⟨_, hok⟩ := rest_ok hok
  obtain ⟨_, hpulled, rfl⟩ := map_ok hok
  obtain ⟨htracked, hcurrent⟩ := pulled_tracked hepoch h hpulled
  exact h.put htracked hcurrent.timely

theorem claimRewards_accounted (hok : state.claimRewards (eraOf epoch boundary) address value valId = .ok after) :
    Accounted epoch boundary after := by
  obtain ⟨_, hok⟩ := rest_ok hok
  obtain ⟨_, hpulled, hok⟩ := bind_ok hok
  simp only at hok
  split at hok
  · exact (clearRewards_accounted hepoch h hpulled).sendTokens hok
  cases hok
  obtain ⟨htracked, hcurrent⟩ := pulled_tracked hepoch h hpulled
  exact h.put htracked hcurrent.timely

omit hepoch in
theorem withdraw_accounted (hok : state.withdraw (eraOf epoch boundary) address value valId withdrawalId = .ok after) :
    Accounted epoch boundary after := by
  set requested := (state.requests valId address withdrawalId).epoch
  obtain ⟨_, hok⟩ := rest_ok hok
  obtain ⟨hdata, hok⟩ := check_ok hok
  iterate 2 obtain ⟨_, hok⟩ := rest_ok hok
  obtain ⟨_, hpaid, hok⟩ := bind_ok hok
  iterate 2 obtain ⟨_, hok⟩ := rest_ok hok
  obtain ⟨-, -, rfl⟩ := map_ok hpaid
  have hrequestEpoch := h.requests valId address withdrawalId hdata
  refine Accounted.sendTokens (h.exchange ?_ (fun hnone => absurd hnone (by decide)) ?_) hok
  · rw [(decrement_fields ..).2]
    exact h.timely valId address
  · intro other hother
    -- The request is one of the references.
    have hbefore : ∀ other, other ≠ 0 → ((state.position valId address).accumulators other).refcount =
        state.references valId other - mark requested other +
          mark requested other := by
      intro other hother
      rw [Nat.sub_add_cancel (mark_le_references state valId other address withdrawalId)]
      exact h.refcount valId other hother
    have hle := marks_le_references state valId other address
    have hrequestLe := mark_le_references state valId other address withdrawalId
    show (((state.position valId address).decrementAccumulatorRefcount
      requested).2.accumulators other).refcount + _ = _ +
        ((state.position valId address).decrementAccumulatorRefcount _).2.delegator.marks other + mark 0 other
    rw [refcount_decrement hrequestEpoch hbefore hother, (decrement_fields _ _).2, mark_zero hother, rest,
      Nat.sub_add_cancel hrequestLe]
    show _ = _ + (state.delegators valId address).marks other + 0
    rw [Nat.sub_add_cancel hle, add_zero]

theorem call_accounted {record : StakingRecord}
    (hactive : record.call.schedules = true → (eraOf epoch boundary).activationEpoch ≠ 0) (hok : state.call (eraOf epoch boundary) record = .ok after) :
    Accounted epoch boundary after := by
  have hcredited : Accounted epoch boundary { state with balance := state.balance + record.value } :=
    { h with }
  unfold call at hok
  split at hok
  · next hcall =>
    iterate 5 obtain ⟨_, hok⟩ := rest_ok hok
    exact delegate_accounted hepoch (hcredited.register ..) (hactive (by rw [hcall]; rfl)) hok
  · next hcall =>
    unfold delegateCall at hok
    split at hok
    · exact delegate_accounted hepoch hcredited (hactive (by rw [hcall]; rfl)) hok
    · cases hok
      exact hcredited
  · next hcall => exact undelegate_accounted hepoch hcredited (hactive (by rw [hcall]; rfl)) hok
  · next hcall => exact compound_accounted hepoch hcredited (hactive (by rw [hcall]; rfl)) hok
  · exact withdraw_accounted hcredited hok
  · exact claimRewards_accounted hepoch hcredited hok
  · iterate 6 obtain ⟨_, hok⟩ := rest_ok hok
    obtain ⟨_, -, rfl⟩ := map_ok hok
    exact { hcredited with }
  · exact getDelegator_accounted hepoch hcredited hok

/-! ### No error of the order of compounds -/

theorem pull_ne_error (valId : ValId) (address : Address) :
    (state.position valId address).pullDelegatorUpToDate (eraOf epoch boundary) ≠ .error .compoundLogicError :=
  ((h.position_tracked valId address).readable hepoch (h.timely valId address)).pull_ne_error

theorem delegate_ne_error : state.delegate (eraOf epoch boundary) valId amount address ≠ .error .compoundLogicError := by
  refine require_bind_ne_error (require_bind_ne_error ?_)
  refine bind_ne_error (pull_ne_error hepoch h valId address) fun _ _ => ?_
  refine bind_ne_error (addDelta_ne_error _ _ _) fun _ _ => ?_
  exact bind_ne_error (checkedAdd_ne_error _ _) fun _ _ => map_ne_error require_ne_error

omit hepoch h in
theorem sendTokens_ne_error : state.sendTokens address amount ≠ .error .compoundLogicError :=
  map_ne_error require_ne_error

theorem call_ne_error (record : StakingRecord) : state.call (eraOf epoch boundary) record ≠ .error .compoundLogicError := by
  have hcredited : Accounted epoch boundary { state with balance := state.balance + record.value } :=
    { h with }
  unfold call
  split
  · iterate 5 refine require_bind_ne_error ?_
    exact delegate_ne_error hepoch (hcredited.register ..)
  · unfold delegateCall
    split
    · exact delegate_ne_error hepoch hcredited
    · simp
  · refine require_bind_ne_error ?_
    split
    · simp
    refine require_bind_ne_error (require_bind_ne_error ?_)
    refine bind_ne_error (pull_ne_error hepoch hcredited _ _) fun pulled _ => ?_
    refine require_bind_ne_error (bind_ne_error ?_ fun _ _ => ?_)
    · exact map_ne_error (checkedSub_ne_error _ _)
    · exact map_ne_error require_ne_error
  · refine require_bind_ne_error ?_
    refine bind_ne_error (pull_ne_error hepoch hcredited _ _) fun pulled hpulled => ?_
    simp only
    split
    · exact delegate_ne_error hepoch (clearRewards_accounted hepoch hcredited hpulled)
    · simp
  · iterate 3 refine require_bind_ne_error ?_
    refine bind_ne_error (calculateRewards_ne_error _ _ _) fun _ _ => ?_
    refine bind_ne_error (rewardInvariant_ne_error _ _) fun _ _ => ?_
    refine bind_ne_error (checkedAdd_ne_error _ _) fun _ _ => ?_
    exact require_bind_ne_error sendTokens_ne_error
  · refine require_bind_ne_error ?_
    refine bind_ne_error (pull_ne_error hepoch hcredited _ _) fun pulled _ => ?_
    simp only
    split
    · exact sendTokens_ne_error
    · simp
  · iterate 4 refine require_bind_ne_error ?_
    refine bind_ne_error (checkedMulDiv_ne_error _ _ _) fun _ _ => ?_
    exact bind_ne_error (checkedAdd_ne_error _ _) fun _ _ => map_ne_error (checkedAdd_ne_error _ _)
  · exact require_bind_ne_error (map_ne_error (pull_ne_error hepoch hcredited _ _))

end Calls
end StakingState

/-! ### Runs over epochs -/

/-- The contract in its epoch. -/
structure StakingWorld where
  state : StakingState := {}
  epoch : Nat
  inBoundary : Bool := false

inductive StakingEvent where
  | call (record : StakingRecord)
  | enterBoundary
  | nextEpoch

namespace StakingWorld

variable {world : StakingWorld} {history : List StakingEvent}

def era (world : StakingWorld) : Era := eraOf world.epoch world.inBoundary

/-- The epoch changes after a boundary period, and ends it. -/
def step (world : StakingWorld) : StakingEvent → StakingWorld
  | .call record => { world with state := world.state.apply world.era record }
  | .enterBoundary => { world with inBoundary := true }
  | .nextEpoch => if world.inBoundary then { world with epoch := world.epoch + 1, inBoundary := false } else world

def run (world : StakingWorld) (history : List StakingEvent) : StakingWorld := history.foldl step world

/-- A call after which something waits for an epoch is made in one that has a next one. -/
def Fits (world : StakingWorld) : StakingEvent → Prop
  | .call record => record.call.schedules = true → world.era.activationEpoch ≠ 0
  | _ => True

def Admits : StakingWorld → List StakingEvent → Prop
  | _, [] => True
  | world, event :: history => world.Fits event ∧ (world.step event).Admits history

theorem epoch_le_step (world : StakingWorld) (event : StakingEvent) : world.epoch ≤ (world.step event).epoch := by
  unfold step
  split
  · rfl
  · rfl
  · split
    · exact le_succ _
    · rfl

theorem epoch_le_run (world : StakingWorld) (history : List StakingEvent) : world.epoch ≤ (world.run history).epoch := by
  induction history generalizing world with
  | nil => rfl
  | cons event _ ih => exact (epoch_le_step world event).trans (ih (world.step event))

section
variable (h : world.state.Accounted world.epoch world.inBoundary)
include h
theorem step_accounted (hepoch : world.epoch + 1 < 2 ^ 64) {event : StakingEvent} (hfits : world.Fits event) :
    (world.step event).state.Accounted (world.step event).epoch (world.step event).inBoundary := by
  cases event with
  | call record =>
    show (world.state.apply world.era record).Accounted world.epoch world.inBoundary
    unfold apply
    cases hcall : world.state.call world.era record with
    | ok => exact call_accounted hepoch h hfits hcall
    | error e => exact h
  | enterBoundary => exact { h with timely := fun valId address => (h.timely valId address).enterBoundary }
  | nextEpoch =>
    unfold step
    simp only
    split
    · exact { h with timely := fun valId address => (h.timely valId address).advance }
    · exact h

theorem run_accounted (hepoch : (world.run history).epoch + 1 < 2 ^ 64) (hadmits : world.Admits history) :
    (world.run history).state.Accounted (world.run history).epoch (world.run history).inBoundary := by
  induction history generalizing world with
  | nil => exact h
  | cons event history ih =>
    have hstep := epoch_le_step world event
    have hrest := epoch_le_run (world.step event) history
    have hlast : ((world.step event).run history).epoch + 1 < 2 ^ 64 := hepoch
    exact ih (step_accounted h (by omega) hadmits.1) hepoch hadmits.2
end

theorem accounted_default (epoch : Nat) (boundary : Bool) : StakingState.Accounted epoch boundary {} := by
  refine ⟨?_, fun _ _ => ?_, fun _ _ _ hdata => absurd hdata Bool.false_ne_true⟩
  · intro _ other hother
    show 0 = ∑ _ : Address, (mark 0 other + mark 0 other) + ∑ _ : Address, ∑ _ : WithdrawalId, mark 0 other
    simp only [mark_zero hother, add_zero, sum_const_zero]
  · exact ⟨⟨fun _ => rfl, fun _ => rfl⟩, zero_le _, .inl (zero_le _), absurd rfl⟩

/-- **Accumulators are never lost**: after every run of calls and epochs each count is the number of references, what a
call reads is there, and no stake waits without its epoch. -/
theorem accumulators_never_lost {epoch : Nat} (hadmits : Admits { epoch := epoch } history)
    (hepoch : (run { epoch := epoch } history).epoch + 1 < 2 ^ 64) :
    let world := run { epoch := epoch } history
    (∀ valId other, other ≠ 0 → (world.state.accumulators valId other).refcount = world.state.references valId other) ∧
      (∀ valId address, (world.state.position valId address).Readable world.era ∧
        ∀ pulled, (world.state.position valId address).pullDelegatorUpToDate world.era = .ok pulled →
          (pulled.setDelegator { pulled.delegator with rewards := 0 }).Readable world.era) ∧
      (∀ valId address withdrawalId, (world.state.requests valId address withdrawalId).hasData = true →
        (world.state.accumulators valId (world.state.requests valId address withdrawalId).epoch).refcount ≠ 0) ∧
      (∀ record, world.state.call world.era record ≠ .error .compoundLogicError) ∧
      ∀ valId address, (world.state.delegators valId address).Marked := by
  intro world
  have h : world.state.Accounted world.epoch world.inBoundary := run_accounted (accounted_default epoch false) hepoch hadmits
  refine ⟨h.refcount, ?_, ?_, call_ne_error hepoch h, fun valId address => (h.timely valId address).marked⟩
  · intro valId address
    refine ⟨(h.position_tracked valId address).readable hepoch (h.timely valId address), ?_⟩
    intro pulled hpulled
    have hcleared := clearRewards_accounted hepoch h hpulled
    generalize pulled.setDelegator { pulled.delegator with rewards := 0 } = cleared at hcleared
    have hposition : (world.state.put valId address cleared).position valId address = cleared := by
      unfold position put
      simp only [update_self]
    have hreadable := (hcleared.position_tracked valId address).readable hepoch (hcleared.timely valId address)
    rw [hposition] at hreadable
    exact hreadable
  · intro valId address withdrawalId hdata
    have hne := h.requests valId address withdrawalId hdata
    have hle := mark_le_references world.state valId (world.state.requests valId address withdrawalId).epoch address
      withdrawalId
    rw [h.refcount valId _ hne]
    rw [mark_self] at hle
    omega

/-- A validator comes, its owner delegates more in the boundary period, and in the last epoch but one somebody else looks
at the delegation: the delta that has become active is compounded, and the other one takes its place. -/
theorem accumulators_never_lost_boundary :
    let message : NewValidator := ⟨minAuthAddressStake, ⟨7, by decide⟩, 0, true, 1, 2⟩
    let history : List StakingEvent :=
      [.call ⟨⟨7, by decide⟩, minAuthAddressStake, .addValidator message⟩, .enterBoundary,
        .call ⟨⟨7, by decide⟩, dustThreshold, .delegate ⟨1, by decide⟩⟩, .nextEpoch,
        .call ⟨⟨8, by decide⟩, 0, .getDelegator ⟨1, by decide⟩ ⟨7, by decide⟩⟩]
    let world := run { epoch := 2 ^ 64 - 3 } history
    world.epoch = 2 ^ 64 - 2 ∧ world.state.references ⟨1, by decide⟩ (2 ^ 64 - 2) = 0 ∧
      world.state.references ⟨1, by decide⟩ (2 ^ 64 - 1) = 1 := by
  intro _ history world
  have hepoch : world.epoch + 1 < 2 ^ 64 := by decide
  have hadmits : Admits { epoch := 2 ^ 64 - 3 } history := ⟨fun _ => by decide, trivial, fun _ => by decide, trivial, nofun, trivial⟩
  refine ⟨by decide, ?_, ?_⟩
  · exact ((accumulators_never_lost hadmits hepoch).1 ⟨1, by decide⟩ _ (by decide)).symm.trans (by decide)
  · exact ((accumulators_never_lost hadmits hepoch).1 ⟨1, by decide⟩ _ (by decide)).symm.trans (by decide)

/-- In the last epoch the stake of a new validator waits without an epoch. And what was delegated for the last epoch in the
boundary period two epochs before makes a call of its owner fail there. -/
theorem stake_unmarked_in_last_epoch :
    let message : NewValidator := ⟨minAuthAddressStake, ⟨7, by decide⟩, 0, true, 1, 2⟩
    let world := run { epoch := 2 ^ 64 - 1 } [.call ⟨⟨7, by decide⟩, minAuthAddressStake, .addValidator message⟩]
    let late := run { epoch := 2 ^ 64 - 4 } [.call ⟨⟨7, by decide⟩, minAuthAddressStake, .addValidator message⟩, .enterBoundary,
      .nextEpoch, .enterBoundary, .call ⟨⟨7, by decide⟩, dustThreshold, .delegate ⟨1, by decide⟩⟩, .nextEpoch, .enterBoundary,
      .nextEpoch]
    (world.state.delegators ⟨1, by decide⟩ ⟨7, by decide⟩).deltaStake = minAuthAddressStake ∧
      (world.state.delegators ⟨1, by decide⟩ ⟨7, by decide⟩).deltaEpoch = 0 ∧
      late.state.call late.era ⟨⟨7, by decide⟩, 0, .claimRewards ⟨1, by decide⟩⟩ = .error .compoundLogicError := by
  exact ⟨by decide, by decide, rfl⟩

end StakingWorld
end LeafageEvm.Monad
