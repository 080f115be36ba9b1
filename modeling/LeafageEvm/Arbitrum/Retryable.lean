import LeafageEvm.Arbitrum.Accounts
import LeafageEvm.BigEndian

/-! Retryable tickets: their record, calldata and place in the timeout queue in ArbOS storage, and the submission that
creates them. Storage keys are hashes of the paths below, taken to be different. -/

namespace LeafageEvm.Arbitrum

inductive Slot where
  | retryable (ticketId offset : Nat)
  | calldata (ticketId offset : Nat)
  | timeoutQueue (offset : Nat)
  deriving DecidableEq

abbrev Storage := Slot → Nat

/-- What a submission reads outside its ticket. The escrow of a ticket is the account its id hashes to. -/
structure RetryableEnv where
  networkFeeAccount : Address
  infraFeeAccount : Address
  minBaseFee : Nat
  basefee : Nat
  timestamp : Nat
  arbosVersion : Nat
  escrow : Nat → Address

structure SubmitRetryableTx where
  ticketId : Nat
  sender : Address
  l1BaseFee : Nat
  depositValue : Nat
  gasFeeCap : Nat
  gas : Nat
  retryTo : Option Address
  retryValue : Nat
  beneficiary : Address
  maxSubmissionFee : Nat
  feeRefundAddr : Address
  retryData : List (Fin 256)

/-- What of the retry transaction the redeem pays by. -/
structure RetryTx where
  ticketId : Nat
  sender : Address
  gasFeeCap : Nat
  gas : Nat
  value : Nat
  refundTo : Address
  maxRefund : Nat
  submissionFeeRefund : Nat

inductive HaltReason where
  | outOfFunds
  | submissionFee (maxSubmissionFee submissionFee : Nat)

inductive SubmitRetryableOutcome where
  | success (gasUsed : Nat) (scheduled : Option RetryTx)
  | halt (reason : HaltReason)

inductive RetryableError where
  | balanceOverflow | queueOverflow | transferFailed | notFound

/-- `refunded` is what the fee refund address has been paid, for the statements. -/
@[ext]
structure RetryState where
  balances : Balances
  storage : Storage
  refunded : Nat := 0

def submissionFee (calldataLen l1BaseFee : Nat) : Nat :=
  saturatingMul 256 l1BaseFee (saturatingAdd 256 (saturatingMul 256 calldataLen 6) 1400)

namespace RetryState

variable (env : RetryableEnv) (submit : SubmitRetryableTx) (state : RetryState)

def mint (account : Address) (amount : Nat) : Except RetryableError RetryState :=
  if amount = 0 then .ok state
  else (orError (state.balances.incrBalance account amount) .balanceOverflow).map fun balances => { state with balances }

def tryTransfer (source target : Address) (amount : Nat) : RetryState × Bool :=
  let moved := state.balances.tryTransfer source target amount
  ({ state with balances := moved.1 }, moved.2)

end RetryState
end LeafageEvm.Arbitrum
