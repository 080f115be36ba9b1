import LeafageEvm.Arbitrum.Accounts

/-! The fees of an ordinary transaction: what the handler takes from the caller before the execution, gives back after it
and pays to the network, tip and poster accounts. Balance checks and fee charging are on. The execution is any: it gets
the gas that is left after the intrinsic and the poster gas, and leaves some of it, a refund and balances behind. -/

namespace LeafageEvm.Arbitrum
open Balances Function

structure FeeTx where
  caller : Address
  gasLimit : Nat
  /-- Legacy and EIP-2930 transactions. -/
  fixedPrice : Bool := true
  gasPrice : Nat
  maxPriorityFeePerGas : Option Nat := none
  value : Nat := 0

/-- What `ArbPricing` has to say of a transaction; the units depend on the mode. -/
structure ArbPricing where
  pricePerUnit : Nat
  minBaseFee : Nat
  calldataUnits : Bool → Nat

structure ArbPosterCharge where
  posterGas : Nat := 0
  posterFee : Nat := 0

structure FeeEnv where
  l2Basefee : Nat
  arbosVersion : Nat
  collectTipsSlot : Bool
  beneficiary : Address
  networkFeeAccount : Address
  pricing : Option ArbPricing
  gasEstimation : Bool := false
  computationLimit : Nat := 0
  /-- The largest part of the gas spent that is refunded: a fifth from London on, a half before. -/
  refundQuotient : Nat := 5
  initialGas : Nat
  floorGas : Nat := 0

/-- What an execution leaves behind, of the gas it was given. -/
structure Execution where
  gasLeft : Nat
  refund : Nat
  balances : Balances
  networkFeeAccount : Address
  multiGasPrice : Option Nat

inductive FeeError where
  | gasLimit | lackOfFunds | overflowPayment

structure Settlement where
  debited : Nat
  reimbursed : Nat
  networkFee : Nat
  tipFee : Nat
  posterFee : Nat
  posterGas : Nat
  multiGasRefund : Nat
  posterAccount : Address
  balances : Balances

def batchPosterAddress : Address := 0xA4b000000000000000000073657175656e636572
def l1PricerFundsPoolAddress : Address := 0xA4B00000000000000000000000000000000000f6

def effectiveGasPrice (tx : FeeTx) (basefee : Nat) : Nat :=
  if tx.fixedPrice then tx.gasPrice
  else match tx.maxPriorityFeePerGas with
    | none => tx.gasPrice
    | some tip => min tx.gasPrice (saturatingAdd 128 basefee tip)

def nitroMessageGasPrice (tx : FeeTx) (basefee : Nat) : Nat :=
  if tx.fixedPrice = false ∧ tx.maxPriorityFeePerGas = none then min (effectiveGasPrice tx basefee) basefee
  else effectiveGasPrice tx basefee

namespace FeeEnv

variable (env : FeeEnv)

def collectTips : Bool :=
  (if env.arbosVersion = 9 then true else if env.arbosVersion < 60 then false else env.collectTipsSlot) &&
    env.beneficiary = batchPosterAddress

/-- `tx_fee_prices`: the settlement price and the one posting is priced at. -/
def txFeePrices (tx : FeeTx) : Nat × Nat :=
  let messageGasPrice := nitroMessageGasPrice tx env.l2Basefee
  (if env.collectTips then messageGasPrice else min messageGasPrice env.l2Basefee,
    if env.collectTips = true ∧ messageGasPrice ≠ 0 then messageGasPrice else env.l2Basefee)

def posterGasFromCost (pricing : ArbPricing) (cost l2GasPrice : Nat) (adjustPrice : Bool) : Nat :=
  let price := if adjustPrice then max (saturatingMul 256 l2GasPrice 7 / 8) pricing.minBaseFee else l2GasPrice
  if price = 0 then 0 else min (cost / price) (2 ^ 64 - 1)

def gasChargingCharge (pricing : ArbPricing) (paidGasPrice : Nat) : ArbPosterCharge :=
  let calldataUnits := pricing.calldataUnits env.gasEstimation
  if paidGasPrice = 0 ∨ calldataUnits = 0 then {}
  else
    let cost := saturatingMul 256 pricing.pricePerUnit calldataUnits
    let posterCost := if env.gasEstimation then saturatingMul 256 cost 11000 / 10000 else cost
    let posterGas := posterGasFromCost pricing posterCost paidGasPrice env.gasEstimation
    { posterGas, posterFee := saturatingMul 256 paidGasPrice posterGas }

def posterCharge (tx : FeeTx) : ArbPosterCharge :=
  if env.l2Basefee = 0 then {}
  else match env.pricing with
    | none => {}
    | some pricing => env.gasChargingCharge pricing (env.txFeePrices tx).2

/-- `ensure_enough_balance` and `calculate_caller_fee`. -/
def calculateCallerFee (tx : FeeTx) (balance : Nat) : Except FeeError Nat :=
  (require (tx.gasLimit * tx.gasPrice < 2 ^ 128 ∧ tx.gasLimit * tx.gasPrice + tx.value ≤ u256Max) .overflowPayment).bind fun _ =>
  (require (tx.gasLimit * tx.gasPrice + tx.value ≤ balance) .lackOfFunds).bind fun _ =>
  let gasCost := tx.gasLimit * (env.txFeePrices tx).1
  (require (gasCost < 2 ^ 128 ∧ gasCost + tx.value ≤ u256Max) .overflowPayment).map fun _ => balance - gasCost

/-- The gas a transaction has spent in the end and the refund on it, from what the execution left. -/
def finalGas (tx : FeeTx) (posterGas gasLeft refund : Nat) : Nat × Nat :=
  let totalGasSpent := tx.gasLimit - gasLeft
  let refunded := min refund ((totalGasSpent - posterGas) / env.refundQuotient)
  if totalGasSpent - refunded < env.floorGas then (env.floorGas, 0) else (totalGasSpent, refunded)

/-- `incr_balance` where its answer is ignored. -/
def credit (balances : Balances) (account : Address) (amount : Nat) : Balances :=
  (balances.incrBalance account amount).getD balances

/-- `apply_multi_gas_refund`: the refund and the balances after it. -/
def applyMultiGasRefund (tx : FeeTx) (exec : Execution) (gasUsed : Nat) (balances : Balances) : Nat × Balances :=
  match exec.multiGasPrice with
  | none => (0, balances)
  | some multiGasCost =>
    let singleGasCost := saturatingMul 256 env.l2Basefee gasUsed
    if singleGasCost ≤ multiGasCost then (0, balances)
    else match balances.decrBalance exec.networkFeeAccount (singleGasCost - multiGasCost) with
      | none => (0, balances)
      | some taken => (singleGasCost - multiGasCost, credit taken tx.caller (singleGasCost - multiGasCost))

/-- The handler, from the validation of the caller to the reward of the beneficiaries. The execution is given the
balances after the caller has paid and the gas of the first frame. -/
def settle (tx : FeeTx) (balances : Balances) (run : Balances → Nat → Execution) : Except FeeError Settlement :=
  (require (env.initialGas ≤ tx.gasLimit ∧ env.floorGas ≤ tx.gasLimit) .gasLimit).bind fun _ =>
  (env.calculateCallerFee tx (balances tx.caller)).bind fun newBalance =>
  let charge := env.posterCharge tx
  (require (charge.posterGas ≤ tx.gasLimit - env.initialGas) .gasLimit).map fun _ =>
  let price := (env.txFeePrices tx).1
  let gasRemaining := tx.gasLimit - env.initialGas - charge.posterGas
  let heldGas := if env.gasEstimation then gasRemaining - env.computationLimit else 0
  let exec := run (Function.update balances tx.caller newBalance) (gasRemaining - heldGas)
  let final := env.finalGas tx charge.posterGas (min exec.gasLeft (gasRemaining - heldGas) + heldGas) exec.refund
  let gasUsed := final.1 - final.2
  let reimbursed := saturatingMul 128 price (tx.gasLimit - final.1 + final.2)
  let computeGas := gasUsed - charge.posterGas
  let networkFee := saturatingMul 128 (min price env.l2Basefee) computeGas
  let tipFee := saturatingMul 128 (price - env.l2Basefee) computeGas
  let posterFee := if price = 0 then 0 else charge.posterFee
  let posterAccount := if env.arbosVersion < 2 then env.beneficiary else l1PricerFundsPoolAddress
  let paid := credit (credit (credit (credit exec.balances tx.caller reimbursed) exec.networkFeeAccount networkFee)
    env.networkFeeAccount tipFee) posterAccount posterFee
  let refund := env.applyMultiGasRefund tx exec gasUsed paid
  { debited := balances tx.caller - newBalance, reimbursed, networkFee, tipFee, posterFee, posterGas := charge.posterGas
    multiGasRefund := refund.1, posterAccount, balances := refund.2 }

/-- What the settlement has to pay an account before the multi-gas refund. -/
def due (tx : FeeTx) (exec : Execution) (settled : Settlement) (account : Address) : Nat :=
  (if account = tx.caller then settled.reimbursed else 0) +
    (if account = exec.networkFeeAccount then settled.networkFee else 0) +
    (if account = env.networkFeeAccount then settled.tipFee else 0) +
    if account = settled.posterAccount then settled.posterFee else 0

variable {env} {tx : FeeTx} {balances : Balances}

/-! ### Prices -/

theorem effectiveGasPrice_le (tx : FeeTx) (basefee : Nat) : effectiveGasPrice tx basefee ≤ tx.gasPrice := by
  unfold effectiveGasPrice
  split
  · exact le_rfl
  · split
    · exact le_rfl
    · exact min_le_left ..

theorem nitroMessageGasPrice_le (tx : FeeTx) (basefee : Nat) :
    nitroMessageGasPrice tx basefee ≤ effectiveGasPrice tx basefee := by
  unfold nitroMessageGasPrice
  split
  · exact min_le_left ..
  · exact le_rfl

theorem settlement_le_gasPrice (env : FeeEnv) (tx : FeeTx) : (env.txFeePrices tx).1 ≤ tx.gasPrice := by
  have hmessage := (nitroMessageGasPrice_le tx env.l2Basefee).trans (effectiveGasPrice_le ..)
  simp only [txFeePrices]
  split <;> omega

theorem settlement_eq_posting (hprice : effectiveGasPrice tx env.l2Basefee = 0 ∨ env.l2Basefee ≤ effectiveGasPrice tx env.l2Basefee)
    (hpaid : (env.txFeePrices tx).1 ≠ 0) : (env.txFeePrices tx).2 = (env.txFeePrices tx).1 := by
  have hmessage : nitroMessageGasPrice tx env.l2Basefee = 0 ∨ env.l2Basefee ≤ nitroMessageGasPrice tx env.l2Basefee := by
    unfold nitroMessageGasPrice
    split <;> omega
  simp only [txFeePrices] at hpaid ⊢
  by_cases hcollect : env.collectTips = true
  · rw [if_pos hcollect] at hpaid ⊢
    rw [if_pos ⟨hcollect, hpaid⟩]
  · rw [if_neg hcollect] at hpaid ⊢
    rw [if_neg fun hboth => hcollect hboth.1]
    omega

theorem posterFee_eq (env : FeeEnv) (tx : FeeTx) : (env.posterCharge tx).posterFee =
    saturatingMul 256 (env.txFeePrices tx).2 (env.posterCharge tx).posterGas := by
  unfold posterCharge
  split
  · rfl
  cases env.pricing with
  | none => rfl
  | some =>
    simp only [gasChargingCharge]
    split <;> rfl

/-! ### Gas -/

theorem finalGas_bounds {posterGas gasLeft : Nat} (refund : Nat) (hfloor : env.floorGas ≤ tx.gasLimit)
    (hleft : gasLeft + posterGas ≤ tx.gasLimit) :
    let final := env.finalGas tx posterGas gasLeft refund
    final.1 ≤ tx.gasLimit ∧ final.2 ≤ final.1 ∧ posterGas ≤ final.1 - final.2 := by
  have hcap := Nat.div_le_self (tx.gasLimit - gasLeft - posterGas) env.refundQuotient
  simp only [finalGas]
  split <;> simp only <;> omega

/-- What the caller pays is what it gets back and what the gas used costs: the base fee and the tip of the computation,
and the posting. -/
theorem gasCost_split (price basefee : Nat) {gasLimit spent refunded posterGas : Nat} (hspent : spent ≤ gasLimit)
    (hrefunded : refunded ≤ spent) (hposter : posterGas ≤ spent - refunded) :
    gasLimit * price = price * (gasLimit - spent + refunded) + (min price basefee * (spent - refunded - posterGas) +
      (price - basefee) * (spent - refunded - posterGas) + price * posterGas) := by
  have hprice : min price basefee + (price - basefee) = price := by omega
  have hgas : gasLimit = gasLimit - spent + refunded + (spent - refunded - posterGas + posterGas) := by omega
  rw [← add_mul, hprice, ← mul_add, ← mul_add, ← hgas, mul_comm]

/-! ### Balances -/

theorem credit_eq (account : Address) {amount : Nat} (h : balances account + amount ≤ u256Max) :
    credit balances account amount = balances.add account amount := by
  rw [credit, incrBalance, if_pos h, Option.getD_some]

theorem credit_le (hword : ∀ account, balances account ≤ u256Max) (account : Address) (amount : Nat) (other : Address) :
    credit balances account amount other ≤ u256Max := by
  unfold credit incrBalance
  split
  · rw [Option.getD_some, add, update_apply]
    split
    · assumption
    · exact hword other
  · exact hword other

theorem credits_eq (caller network tip poster : Address) {reimbursed networkFee tipFee posterFee : Nat}
    (h : ∀ account, balances account + ((if account = caller then reimbursed else 0) +
      (if account = network then networkFee else 0) + (if account = tip then tipFee else 0) +
      if account = poster then posterFee else 0) ≤ u256Max) (account : Address) :
    credit (credit (credit (credit balances caller reimbursed) network networkFee) tip tipFee) poster posterFee account =
      balances account + ((if account = caller then reimbursed else 0) + (if account = network then networkFee else 0) +
        (if account = tip then tipFee else 0) + if account = poster then posterFee else 0) := by
  have hcaller := h caller
  have hnetwork := h network
  have htip := h tip
  have hposter := h poster
  rw [if_pos rfl] at hcaller
  rw [if_pos (rfl : network = network)] at hnetwork
  rw [if_pos (rfl : tip = tip)] at htip
  rw [if_pos (rfl : poster = poster)] at hposter
  rw [credit_eq caller (by omega), credit_eq network (by simp only [add_apply]; omega),
    credit_eq tip (by simp only [add_apply]; omega), credit_eq poster (by simp only [add_apply]; omega)]
  simp only [add_apply]
  omega

section
variable {exec : Execution} {gasUsed : Nat} (hword : ∀ account, balances account ≤ u256Max)
include hword

theorem applyMultiGasRefund_apply (hroom : tx.caller ≠ exec.networkFeeAccount →
      balances tx.caller + (env.applyMultiGasRefund tx exec gasUsed balances).1 ≤ u256Max) (account : Address) :
    let refund := env.applyMultiGasRefund tx exec gasUsed balances
    refund.2 account + (if account = exec.networkFeeAccount then refund.1 else 0) =
      balances account + if account = tx.caller then refund.1 else 0 := by
  unfold applyMultiGasRefund at hroom ⊢
  split
  · simp
  simp only at hroom ⊢
  split
  · simp
  rename_i multiGasCost hprice hcost
  rw [hprice] at hroom
  simp only [if_neg hcost] at hroom
  generalize saturatingMul 256 env.l2Basefee gasUsed - multiGasCost = amount at hroom ⊢
  by_cases hfunds : amount ≤ balances exec.networkFeeAccount
  · have htaken := sub_apply hfunds
    have hcaller := htaken tx.caller
    have hfull := hword tx.caller
    rw [decrBalance, if_pos hfunds] at hroom ⊢
    simp only at hroom ⊢
    have hfits : balances.sub exec.networkFeeAccount amount tx.caller + amount ≤ u256Max := by
      by_cases hsame : tx.caller = exec.networkFeeAccount
      · rw [if_pos hsame] at hcaller
        omega
      · have hroom := hroom hsame
        omega
    have haccount := htaken account
    rw [credit_eq _ hfits, add_apply]
    omega
  · rw [decrBalance, if_neg hfunds]
    simp

theorem applyMultiGasRefund_le (account : Address) :
    let refund := env.applyMultiGasRefund tx exec gasUsed balances
    refund.2 account ≤ u256Max ∧ (account ≠ tx.caller →
      refund.2 account + (if account = exec.networkFeeAccount then refund.1 else 0) = balances account) := by
  unfold applyMultiGasRefund
  split
  · exact ⟨hword account, fun _ => by simp⟩
  simp only
  split
  · exact ⟨hword account, fun _ => by simp⟩
  rename_i multiGasCost _ _
  generalize saturatingMul 256 env.l2Basefee gasUsed - multiGasCost = amount
  by_cases hfunds : amount ≤ balances exec.networkFeeAccount
  · have htaken := sub_apply hfunds
    rw [decrBalance, if_pos hfunds]
    refine ⟨credit_le (fun other => ?_) .., fun hne => ?_⟩
    · have hless := htaken other
      have hfull := hword other
      omega
    · have hkept : credit (balances.sub exec.networkFeeAccount amount) tx.caller amount account =
          balances.sub exec.networkFeeAccount amount account := by
        unfold credit incrBalance
        split
        · exact update_of_ne hne ..
        · rfl
      simp only [hkept]
      exact htaken account
  · rw [decrBalance, if_neg hfunds]
    exact ⟨hword account, fun _ => by simp⟩
end

/-- Every account gets what it is due if and only if it has room for it. -/
theorem paid_iff {exec : Execution} {gasUsed reimbursed networkFee tipFee posterFee : Nat} {tip poster : Address}
    (hword : ∀ account, exec.balances account ≤ u256Max) :
    let due account := (if account = tx.caller then reimbursed else 0) +
      (if account = exec.networkFeeAccount then networkFee else 0) + (if account = tip then tipFee else 0) +
      if account = poster then posterFee else 0
    let refund := env.applyMultiGasRefund tx exec gasUsed (credit (credit (credit (credit exec.balances tx.caller reimbursed)
      exec.networkFeeAccount networkFee) tip tipFee) poster posterFee)
    (∀ account, refund.2 account + (if account = exec.networkFeeAccount then refund.1 else 0) =
        exec.balances account + due account + if account = tx.caller then refund.1 else 0) ↔
      ∀ account, exec.balances account + due account +
        (if account = tx.caller ∧ account ≠ exec.networkFeeAccount then refund.1 else 0) ≤ u256Max := by
  intro due refund
  have hpaid := credit_le (credit_le (credit_le (credit_le hword tx.caller reimbursed) exec.networkFeeAccount networkFee)
    tip tipFee) poster posterFee
  constructor
  · intro heq account
    have haccount := heq account
    obtain ⟨hle, hother⟩ := applyMultiGasRefund_le hpaid account
    by_cases hcaller : account = tx.caller
    · by_cases hnetwork : account = exec.networkFeeAccount
      · rw [if_pos hnetwork, if_pos hcaller] at haccount
        rw [if_neg fun h => h.2 hnetwork]
        exact (Nat.add_right_cancel haccount).symm.le.trans hle
      · rw [if_neg hnetwork, if_pos hcaller] at haccount
        rw [if_pos ⟨hcaller, hnetwork⟩, ← haccount]
        exact hle
    · rw [if_neg hcaller, hother hcaller] at haccount
      rw [if_neg fun h => hcaller h.1, ← haccount]
      exact hpaid account
  · intro hroom account
    have hdue := credits_eq tx.caller exec.networkFeeAccount tip poster fun account =>
      (Nat.le_add_right _ _).trans (hroom account)
    refine (applyMultiGasRefund_apply hpaid (fun hne => ?_) account).trans (by rw [hdue])
    have hcaller := hroom tx.caller
    rw [if_pos ⟨rfl, hne⟩] at hcaller
    rw [hdue]
    exact hcaller

/-- **Fee settlement conserves value.** -/
theorem fees_conserved (env : FeeEnv) (tx : FeeTx) (balances : Balances) (run : Balances → Nat → Execution)
    (hprice : effectiveGasPrice tx env.l2Basefee = 0 ∨ env.l2Basefee ≤ effectiveGasPrice tx env.l2Basefee) :
    match env.settle tx balances run with
    | .error _ => True
    | .ok settled => ∃ debitedBalances frameGas,
        (∀ account, debitedBalances account + (if account = tx.caller then settled.debited else 0) = balances account) ∧
        settled.debited = tx.gasLimit * (env.txFeePrices tx).1 ∧
        settled.debited = settled.reimbursed + (settled.networkFee + settled.tipFee + settled.posterFee) ∧
        settled.reimbursed + settled.posterGas * (env.txFeePrices tx).1 ≤ settled.debited ∧
        let exec := run debitedBalances frameGas
        ((∀ account, exec.balances account ≤ u256Max) →
          ((∀ account, settled.balances account + (if account = exec.networkFeeAccount then settled.multiGasRefund else 0) =
              exec.balances account + env.due tx exec settled account +
                if account = tx.caller then settled.multiGasRefund else 0) ↔
            ∀ account, exec.balances account + env.due tx exec settled account +
              (if account = tx.caller ∧ account ≠ exec.networkFeeAccount then settled.multiGasRefund else 0) ≤ u256Max)) := by
  cases hsettle : env.settle tx balances run with
  | error => trivial
  | ok =>
    obtain ⟨⟨-, hfloor⟩, hsettle⟩ := check_ok hsettle
    obtain ⟨_, hcaller, hsettle⟩ := bind_ok hsettle
    obtain ⟨_, hposter, rfl⟩ := map_ok hsettle
    obtain ⟨_, hcaller⟩ := rest_ok hcaller
    obtain ⟨hfunds, hcaller⟩ := check_ok hcaller
    obtain ⟨_, hfits, rfl⟩ := map_ok hcaller
    have hfits := (require_eq_ok.mp hfits).1
    have hposter := require_eq_ok.mp hposter
    have hcost := Nat.mul_le_mul_left tx.gasLimit (settlement_le_gasPrice env tx)
    have hposting := settlement_eq_posting hprice
    have hfee := posterFee_eq env tx
    simp only
    generalize (env.txFeePrices tx).1 = price at *
    generalize env.posterCharge tx = charge at *
    generalize hleft : tx.gasLimit - env.initialGas - charge.posterGas = gasRemaining
    generalize hheld : (if env.gasEstimation = true then gasRemaining - env.computationLimit else 0) = heldGas
    have hheld : heldGas ≤ gasRemaining := by
      rw [← hheld]
      split <;> omega
    refine ⟨update balances tx.caller (balances tx.caller - tx.gasLimit * price), gasRemaining - heldGas, ?_⟩
    generalize run _ _ = exec
    have hbounds := finalGas_bounds exec.refund hfloor
      (show min exec.gasLeft (gasRemaining - heldGas) + heldGas + charge.posterGas ≤ tx.gasLimit by omega)
    obtain ⟨hspent, hrefunded, hcovers⟩ := hbounds
    have hsplit := gasCost_split price env.l2Basefee hspent hrefunded hcovers
    -- No product exceeds the cost of the gas limit, which fits 128 bits.
    have hposterFee : (if price = 0 then 0 else charge.posterFee) = price * charge.posterGas := by
      split
      · next hzero => rw [hzero, zero_mul]
      · next hpaid =>
          rw [hposting hpaid] at hfee
          rw [hfee, saturatingMul_eq (by omega)]
    rw [saturatingMul_eq (by omega), saturatingMul_eq (by omega), saturatingMul_eq (by omega), hposterFee]
    refine ⟨fun account => ?_, by omega, by omega, ?_, fun hword => ?_⟩
    · rw [update_apply]
      split
      · next hcaller =>
          rw [hcaller]
          omega
      · rfl
    · rw [mul_comm charge.posterGas]
      omega
    · exact paid_iff hword

def sampleEnv : FeeEnv where
  l2Basefee := 100
  arbosVersion := 60
  collectTipsSlot := true
  beneficiary := batchPosterAddress
  networkFeeAccount := 7
  pricing := some ⟨10, 50, fun _ => 200⟩
  initialGas := 21000

def sampleTx : FeeTx := { caller := 1, gasLimit := 30000, gasPrice := 150 }

/-- An account that is not paid may be full. -/
theorem fees_conserved_tip : ∃ settled exec,
    sampleEnv.settle sampleTx (update (fun _ => 10 ^ 18) 9 u256Max)
        (fun balances gas => ⟨gas - 1000, 200, balances, 7, some 0⟩) = .ok settled ∧
      settled.tipFee ≠ 0 ∧ settled.posterFee ≠ 0 ∧ settled.multiGasRefund ≠ 0 ∧
      settled.debited = settled.reimbursed + (settled.networkFee + settled.tipFee + settled.posterFee) ∧
      exec.balances 9 = u256Max ∧
      ∀ account, settled.balances account + (if account = exec.networkFeeAccount then settled.multiGasRefund else 0) =
        exec.balances account + sampleEnv.due sampleTx exec settled account +
          if account = sampleTx.caller then settled.multiGasRefund else 0 := by
  have h := fees_conserved sampleEnv sampleTx (update (fun _ => 10 ^ 18) 9 u256Max)
    (fun balances gas => ⟨gas - 1000, 200, balances, 7, some 0⟩) (.inr (by decide))
  obtain ⟨debitedBalances, frameGas, hdebited, hcost, hsplit, -, hpaid⟩ := h
  have hword account : debitedBalances account ≤ u256Max := by
    refine (Nat.le_add_right _ _).trans ((hdebited account).le.trans ?_)
    rw [update_apply]
    split
    · exact le_rfl
    · decide
  refine ⟨_, _, rfl, by decide, by decide, by decide, hsplit, ?_, (hpaid hword).mpr fun account => ?_⟩
  · exact hdebited 9
  · by_cases hfull : account = 9
    · subst hfull
      exact hword 9
    · have hstart : debitedBalances account ≤ 10 ^ 18 :=
        (Nat.le_add_right _ _).trans ((hdebited account).le.trans (update_of_ne hfull ..).le)
      have hshare {p : Prop} [Decidable p] {n : Nat} (hn : n ≤ 10 ^ 9) : (if p then n else 0) ≤ 10 ^ 9 := by
        split <;> omega
      have hsum : 10 ^ 18 + (10 ^ 9 + 10 ^ 9 + 10 ^ 9 + 10 ^ 9) + 10 ^ 9 ≤ u256Max := by decide
      refine le_trans (Nat.add_le_add (Nat.add_le_add hstart ?_) (hshare (by decide))) hsum
      exact Nat.add_le_add (Nat.add_le_add (Nat.add_le_add (hshare (by decide)) (hshare (by decide))) (hshare (by decide)))
        (hshare (by decide))

/-- The network account is full, and its fee is lost. -/
theorem full_account_loses_fee : ∃ settled,
    sampleEnv.settle sampleTx (update (fun _ => 10 ^ 18) 7 u256Max)
        (fun balances gas => ⟨gas - 1000, 0, balances, 7, none⟩) = .ok settled ∧
      settled.networkFee ≠ 0 ∧ settled.balances 7 = u256Max := ⟨_, rfl, by decide, by decide⟩

end FeeEnv
end LeafageEvm.Arbitrum
