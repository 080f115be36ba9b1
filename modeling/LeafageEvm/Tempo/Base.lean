import LeafageEvm.Outcome
import Mathlib.Algebra.Order.Ring.Nat
import Mathlib.Data.Fintype.Card

/-! What the Tempo precompiles share: hardforks, addresses, checked arithmetic and what a call reads outside
the contract it is made on. Amounts are natural numbers; the checked operations fail where the machine's
would overflow. -/

namespace LeafageEvm.Tempo

inductive TempoHardfork where
  | genesis | t1 | t1a | t1b | t1c | t2 | t3 | t4 | t5 | t6 | t7 | t8 | t9 | t10 | t11 | t12 | t13
  deriving DecidableEq

/-- The position of a fork in the schedule. -/
def TempoHardfork.index : TempoHardfork → Nat
  | .genesis => 0 | .t1 => 1 | .t1a => 2 | .t1b => 3 | .t1c => 4 | .t2 => 5 | .t3 => 6 | .t4 => 7 | .t5 => 8
  | .t6 => 9 | .t7 => 10 | .t8 => 11 | .t9 => 12 | .t10 => 13 | .t11 => 14 | .t12 => 15 | .t13 => 16

instance : LE TempoHardfork := ⟨fun a b => a.index ≤ b.index⟩
instance : DecidableLE TempoHardfork := fun a b => inferInstanceAs (Decidable (a.index ≤ b.index))

instance addressNeZero : NeZero (2 ^ 160) := ⟨by decide⟩

abbrev Address := Fin (2 ^ 160)

instance addressLawfulBEq : LawfulBEq Address := inferInstance

def tipFeeManagerAddress : Address := 0xfeec000000000000000000000000000000000000
def pathUsdAddress : Address := 0x20C0000000000000000000000000000000000000
def stablecoinDexAddress : Address := 0xdec0000000000000000000000000000000000000
def tip20ChannelReserveAddress : Address := 0x4D50500000000000000000000000000000000000
def receivePolicyGuardAddress : Address := 0xB10C000000000000000000000000000000000000

/-- `is_tip20_prefix`: the first 12 bytes. -/
def isTip20Prefix (address : Address) : Bool := address.val / 2 ^ 64 = 0x20C000000000000000000000

/-- The first 12 bytes are `ZONE_PORTAL_PREFIX`. -/
def isZonePortal (address : Address) : Bool := address.val / 2 ^ 64 = 0x5AD000000000000000000000

/-- Bytes 4 to 14 are `VIRTUAL_MAGIC`. -/
def isVirtual (address : Address) : Bool := address.val / 2 ^ 48 % 2 ^ 80 = 0xFDFDFDFDFDFDFDFDFDFD

/-- The reasons a precompile call fails for. -/
inductive TempoError where
  | underOverflow
  | invalidRecipient
  | contractPaused
  | policyForbids
  | unauthorized
  | insufficientAllowance
  | insufficientBalance (available required : Nat)
  | supplyCapExceeded
  | invalidSupplyCap
  | invalidAmount
  | noOptedInSupply
  | protectedAddress
  | addressReserved
  | virtualAddressUnregistered
  | invalidReceipt
  | invalidClaimAddress
  | unauthorizedClaimer
  | invalidToken
  | unknownFunctionSelector
  | permitExpired
  | invalidSignature
  | spendingLimitExceeded
  | policyNotFound
  | invalidPayee
  | zeroDeposit
  | channelAlreadyExists
  | channelNotFound
  | expiringNonceHashNotSet
  | notPayer
  | notPayeeOrOperator
  | amountExceedsDeposit
  | amountNotIncreasing
  | captureAmountInvalid
  | depositOverflow
  | closeNotReady
  | identicalAddresses
  | invalidCurrency
  | insufficientReserves
  | insufficientLiquidity
  | invalidSwapCalculation
  | divisionByZero
  | uninitialized
  | invalidQuoteToken
  | tokenAlreadyExists (token : Address)
  | addressNotReserved
  | identicalTokens
  | pairDoesNotExist
  | pairAlreadyExists
  | invalidBaseToken
  | tickOutOfBounds (tick : Int)
  | invalidTick
  | invalidFlipTick
  | belowMinimumOrderSize (amount : Nat)
  | insufficientInternalBalance
  | insufficientOutput
  | maxInputExceeded
  | orderDoesNotExist
  | orderNotStale
  | outOfRounds
  deriving DecidableEq

/-! ### Checked arithmetic -/

def u64Max : Nat := 2 ^ 64 - 1
def u128Max : Nat := 2 ^ 128 - 1

def checkedAdd {E : Type} (a b : Nat) (error : E) : Except E Nat := if a + b < 2 ^ 256 then .ok (a + b) else .error error
def checkedSub {E : Type} (a b : Nat) (error : E) : Except E Nat := if b ≤ a then .ok (a - b) else .error error
def checkedMul {E : Type} (a b : Nat) (error : E) : Except E Nat := if a * b < 2 ^ 256 then .ok (a * b) else .error error
def toU128 {E : Type} (a : Nat) (error : E) : Except E Nat := if a ≤ u128Max then .ok a else .error error

section Checked
variable {E : Type} {a b c : Nat} {error : E}

theorem checkedAdd_eq_ok : checkedAdd a b error = .ok c ↔ a + b < 2 ^ 256 ∧ c = a + b := by
  rw [checkedAdd]
  split <;> simp_all [eq_comm]

theorem checkedSub_eq_ok : checkedSub a b error = .ok c ↔ b ≤ a ∧ c = a - b := by
  rw [checkedSub]
  split <;> simp_all [eq_comm]

theorem checkedMul_eq_ok : checkedMul a b error = .ok c ↔ a * b < 2 ^ 256 ∧ c = a * b := by
  rw [checkedMul]
  split <;> simp_all [eq_comm]

theorem toU128_eq_ok : toU128 a error = .ok c ↔ a ≤ u128Max ∧ c = a := by
  rw [toU128]
  split <;> simp_all [eq_comm]

end Checked
end LeafageEvm.Tempo
