import LeafageEvm.Arbitrum.Retryable

/-! The submission of a retryable: it creates the deposit and nothing else, pays the escrow if and only if it makes a
ticket, and keeps what it gives back within the deposit. -/

namespace LeafageEvm.Arbitrum
open Balances Function

/-- The most that a scheduled redeem gives back. -/
def SubmitRetryableOutcome.maxRefund : SubmitRetryableOutcome → Nat
  | .success _ (some retry) => retry.maxRefund
  | _ => 0

namespace RetryState

variable {env : RetryableEnv} {submit : SubmitRetryableTx} {state state' state'' next : RetryState}

/-- What the sender's payments leave: other accounts lose nothing, and those that are not paid keep their balance. -/
structure Pays (env : RetryableEnv) (submit : SubmitRetryableTx) (state state' : RetryState) : Prop where
  total : state'.balances.total = state.balances.total
  le : ∀ account, account ≠ submit.sender → state.balances account ≤ state'.balances account
  other : ∀ account, account ∉ [submit.sender, submit.feeRefundAddr, env.networkFeeAccount, env.infraFeeAccount] →
    state'.balances account = state.balances account

theorem Pays.trans (h : Pays env submit state state') (h' : Pays env submit state' state'') : Pays env submit state state'' :=
  ⟨h'.total.trans h.total, fun account hne => (h.le account hne).trans (h'.le account hne),
    fun account hnot => (h'.other account hnot).trans (h.other account hnot)⟩

/-- Every account but the sender has room for the credits that are still to come. -/
def Room (sender : Address) (balances credits : Balances) : Prop :=
  ∀ account, account ≠ sender → balances account + credits account ≤ u256Max

theorem Room.mono {sender : Address} {balances balances' credits credits' : Balances} (h : Room sender balances credits)
    (hle : ∀ account, account ≠ sender → balances' account + credits' account ≤ balances account + credits account) :
    Room sender balances' credits' := fun account hne => (hle account hne).trans (h account hne)

section
variable {rest : Balances} {target : Address} {amount : Nat} {ok : Bool}

theorem Room.transfer (hroom : Room submit.sender state.balances (rest.add target amount))
    (heq : state.tryTransfer submit.sender target amount = (next, ok)) :
    state.balances.Moved submit.sender target amount next.balances ok ∧ next.refunded = state.refunded ∧
      next.storage = state.storage ∧ Room submit.sender next.balances rest := by
  obtain ⟨rfl, rfl⟩ := Prod.mk.inj heq
  have hmoved := moved_tryTransfer fun hne : submit.sender ≠ target => show state.balances target + amount ≤ u256Max by
    have hfits := hroom target hne.symm
    rw [add_apply, if_pos rfl] at hfits
    omega
  refine ⟨hmoved, rfl, rfl, hroom.mono fun account hne => ?_⟩
  have hle := (hmoved.bounds hne).2
  rw [add_apply]
  exact (Nat.add_le_add_right hle _).trans (by omega)

theorem Room.pays (hroom : Room submit.sender state.balances (rest.add target amount))
    (htarget : target ∈ [submit.feeRefundAddr, env.networkFeeAccount, env.infraFeeAccount])
    (heq : state.tryTransfer submit.sender target amount = (next, ok)) :
    Pays env submit state next ∧ next.refunded = state.refunded ∧ next.storage = state.storage ∧
      Room submit.sender next.balances rest := by
  obtain ⟨hmoved, hrest⟩ := hroom.transfer heq
  refine ⟨⟨hmoved.total, fun account hne => hmoved.le hne, fun account hnot => hmoved.other account ?_ ?_⟩, hrest⟩
  · exact fun heq => hnot (heq ▸ List.mem_cons_self)
  · exact fun heq => hnot (heq ▸ .tail _ htarget)

end

/-- What is left of the sender's funds after a payment, which costs it nothing where it is paid itself. -/
def leftAfter (sender target : Address) (funds amount : Nat) : Nat := if sender = target then funds else funds - amount

/-- What the accounts are paid at most after the ticket exists, from so much of the sender's and so much of the deposit that
can be given back. -/
def redeemCredits (env : RetryableEnv) (submit : SubmitRetryableTx) (funds available : Nat) : Balances :=
  let refunds := add (fun _ => 0) submit.feeRefundAddr available
  let gasCost := saturatingMul 256 env.basefee submit.gas
  let infraCost := if 11 ≤ env.arbosVersion ∧ env.infraFeeAccount ≠ 0 then
    min (saturatingMul 256 (min env.minBaseFee env.basefee) submit.gas) gasCost else 0
  if funds < saturatingMul 256 submit.gasFeeCap submit.gas ∨ submit.gas < 21000 ∨ submit.gasFeeCap < env.basefee then refunds
  else (refunds.add env.networkFeeAccount (gasCost - infraCost)).add env.infraFeeAccount infraCost

/-- What a submission pays the accounts at most, from what the sender has with the deposit: nothing where it halts at once,
and neither the escrow nor the redeem where the sender cannot pay the retry value. -/
def credits (env : RetryableEnv) (submit : SubmitRetryableTx) (funds : Nat) : Balances :=
  let fee := submissionFee submit.retryData.length submit.l1BaseFee
  let available := submit.depositValue - min submit.depositValue submit.retryValue
  let escrow := env.escrow submit.ticketId
  let afterFee := leftAfter submit.sender env.networkFeeAccount funds fee
  if funds < submit.maxSubmissionFee ∨ submit.maxSubmissionFee < fee then fun _ => 0
  else if submit.sender ≠ escrow ∧ afterFee < submit.retryValue then
    (add (fun _ => 0) submit.feeRefundAddr available).add env.networkFeeAccount fee
  else ((redeemCredits env submit (leftAfter submit.sender escrow afterFee submit.retryValue) available).add escrow
    submit.retryValue).add env.networkFeeAccount fee

theorem mint_eq_ok {account : Address} {amount : Nat} (hword : state.balances account ≤ u256Max)
    (h : state.mint account amount = .ok next) :
    next = { state with balances := state.balances.add account amount } ∧ state.balances account + amount ≤ u256Max := by
  unfold mint at h
  split at h
  · next hzero =>
      cases h
      rw [hzero, add, add_zero, update_eq_self]
      exact ⟨rfl, hword⟩
  · obtain ⟨_, hbalances, rfl⟩ := map_ok h
    obtain ⟨hfits, hadded⟩ := Option.ite_none_right_eq_some.mp (orError_eq_ok.mp hbalances)
    exact ⟨by rw [Option.some.inj hadded], hfits⟩

def sampleEnv : RetryableEnv where
  networkFeeAccount := 1
  infraFeeAccount := 2
  minBaseFee := 1
  basefee := 2
  timestamp := 1000
  arbosVersion := 60
  escrow := fun _ => 3

end RetryState
end LeafageEvm.Arbitrum
