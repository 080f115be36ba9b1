import LeafageEvm.Tempo.TokenActions

/-! The fee AMM: directional pools of a user token and a validator token, liquidity in validator tokens, swaps
that rebalance a pool, and the fees collected for validators. A pool is stored under the hash of its pair of
tokens, which stands for the pair. Fee collection itself belongs to the transaction's execution; what it has
collected and what it has reserved of a pool is given. -/

namespace LeafageEvm.Tempo

/-- A user token and a validator token. -/
abbrev PoolKey := Address × Address

structure Pool where
  reserveUserToken : Nat := 0
  reserveValidatorToken : Nat := 0
  deriving DecidableEq

/-- The fee manager with the tokens it works on. -/
structure FeeManager where
  world : World := {}
  pools : PoolKey → Pool := fun _ => {}
  totalSupply : PoolKey → Nat := fun _ => 0
  liquidityBalances : PoolKey → Address → Nat := fun _ _ => 0
  collectedFees : Address → Address → Nat := fun _ _ => 0

/-- What a call finds: the environment of each token, which tokens are USD, and what the running transaction
has reserved of each pool. -/
structure FeeEnv where
  spec : TempoHardfork
  tokens : Address → Env
  isUsd : Address → Bool
  pendingFeeSwapReservation : PoolKey → Nat

namespace FeeManager

variable (env : FeeEnv) (manager : FeeManager) (key : PoolKey) (token msgSender userToken validatorToken : Address)

def n : Nat := 9985
def scale : Nat := 10000
def minLiquidity : Nat := 1000

def setNested {A : Type} [DecidableEq A] (mapping : A → Address → Nat) (outer : A) (inner : Address) (value : Nat) :
    A → Address → Nat :=
  Function.update mapping outer (Function.update (mapping outer) inner value)

def onToken (operation : Custody → Except TempoError Custody) :
    Except TempoError FeeManager :=
  (require (isTip20Prefix token = true) .invalidToken).bind fun _ =>
    (operation ⟨manager.world.tokens token, manager.world.guard⟩).map fun state =>
      { manager with world := { tokens := Function.update manager.world.tokens token state.token, guard := state.guard } }

/-- Take from the caller. -/
def collect (source : Address) (amount : Nat) : Except TempoError FeeManager :=
  manager.onToken token fun state => state.systemTransferFrom (env.tokens token) token tipFeeManagerAddress source amount

/-- Pay out. -/
def deliver (dest : Address) (amount : Nat) : Except TempoError FeeManager :=
  manager.onToken token fun state => state.transfer (env.tokens token) token tipFeeManagerAddress dest amount 0

def setPool (pool : Pool) : FeeManager :=
  { manager with pools := Function.update manager.pools key pool }

def setTotalSupply (supply : Nat) : FeeManager :=
  { manager with totalSupply := Function.update manager.totalSupply key supply }

def setLiquidity (account : Address) (amount : Nat) : FeeManager :=
  { manager with liquidityBalances := setNested manager.liquidityBalances key account amount }

def validateUsdCurrency : Except TempoError Unit :=
  require (env.isUsd token = true) .invalidCurrency

def checkReservation (reserveValidatorToken : Nat) : Except TempoError Unit :=
  require (.t1c ≤ env.spec → env.pendingFeeSwapReservation key ≤ reserveValidatorToken) .insufficientLiquidity

def distributeFees (validator token : Address) : Except TempoError FeeManager :=
  let amount := manager.collectedFees validator token
  if amount = 0 then .ok manager
  else
    { manager with collectedFees := setNested manager.collectedFees validator token 0 }.deliver env token validator amount

def rebalanceSwap (amountOut : Nat)
    (dest : Address) : Except TempoError (Nat × FeeManager) :=
  (require (amountOut ≠ 0) .invalidAmount).bind fun _ =>
    let key : PoolKey := (userToken, validatorToken)
    let pool := manager.pools key
    (checkedMul amountOut n .underOverflow).bind fun product =>
      (checkedAdd (product / scale) 1 .underOverflow).bind fun amountIn =>
        (toU128 amountIn .invalidAmount).bind fun amountIn =>
          (toU128 amountOut .invalidAmount).bind fun amountOut =>
            (toU128 (pool.reserveValidatorToken + amountIn) .insufficientReserves).bind fun reserveValidatorToken =>
              (checkedSub pool.reserveUserToken amountOut .invalidAmount).bind fun reserveUserToken =>
                (checkReservation env key reserveValidatorToken).bind fun _ =>
                  ((manager.setPool key ⟨reserveUserToken, reserveValidatorToken⟩).collect env validatorToken msgSender
                      amountIn).bind fun manager =>
                    (manager.deliver env userToken dest amountOut).map fun manager => (amountIn, manager)

def mintedLiquidity (pool : Pool) (totalSupply amountValidatorToken : Nat) : Except TempoError (Nat × Nat) :=
  if pool.reserveUserToken = 0 ∧ pool.reserveValidatorToken = 0 then
    let halfAmount := amountValidatorToken / 2
    (require (minLiquidity < halfAmount) .insufficientLiquidity).bind fun _ =>
      (checkedAdd totalSupply minLiquidity .underOverflow).bind fun totalSupply =>
        (checkedSub halfAmount minLiquidity .insufficientLiquidity).map fun liquidity => (liquidity, totalSupply)
  else
    (checkedMul n pool.reserveUserToken .invalidSwapCalculation).bind fun product =>
      (checkedAdd pool.reserveValidatorToken (product / scale) .invalidAmount).bind fun denom =>
        (require (denom ≠ 0) .divisionByZero).bind fun _ =>
          (checkedMul amountValidatorToken totalSupply .invalidSwapCalculation).map fun product =>
            (product / denom, totalSupply)

def mint (amountValidatorToken : Nat)
    (dest : Address) : Except TempoError (Nat × FeeManager) :=
  (require (userToken ≠ validatorToken) .identicalAddresses).bind fun _ =>
    (require (amountValidatorToken ≠ 0) .invalidAmount).bind fun _ =>
      (validateUsdCurrency env userToken).bind fun _ =>
        (validateUsdCurrency env validatorToken).bind fun _ =>
          (if .t8 ≤ env.spec then
              (ensureAuthorizedAs (env.tokens userToken) msgSender .sender).bind fun _ =>
                (ensureAuthorizedAs (env.tokens userToken) tipFeeManagerAddress .recipient).bind fun _ =>
                  (ensureAuthorizedAs (env.tokens userToken) dest .recipient).bind fun _ =>
                    ensureAuthorizedAs (env.tokens validatorToken) dest .recipient
            else .ok ()).bind fun _ =>
              let key : PoolKey := (userToken, validatorToken)
              let pool := manager.pools key
              (mintedLiquidity pool (manager.totalSupply key) amountValidatorToken).bind fun minted =>
                (require (minted.1 ≠ 0) .insufficientLiquidity).bind fun _ =>
                  (manager.collect env validatorToken msgSender amountValidatorToken).bind fun manager =>
                    (toU128 amountValidatorToken .invalidAmount).bind fun validatorAmount =>
                      (toU128 (pool.reserveValidatorToken + validatorAmount) .invalidAmount).bind fun reserveValidatorToken =>
                        (checkedAdd minted.2 minted.1 .underOverflow).bind fun totalSupply =>
                          (checkedAdd (manager.liquidityBalances key dest) minted.1 .underOverflow).map fun balance =>
                            (minted.1, ((manager.setPool key { pool with reserveValidatorToken := reserveValidatorToken }).setTotalSupply
                              key totalSupply).setLiquidity key dest balance)

def share (liquidity reserve totalSupply : Nat) : Except TempoError Nat :=
  (checkedMul liquidity reserve .underOverflow).bind fun product =>
    (require (totalSupply ≠ 0) .underOverflow).map fun _ => product / totalSupply

def burn (liquidity : Nat)
    (dest : Address) : Except TempoError ((Nat × Nat) × FeeManager) :=
  (require (userToken ≠ validatorToken) .identicalAddresses).bind fun _ =>
    (require (liquidity ≠ 0) .invalidAmount).bind fun _ =>
      (validateUsdCurrency env userToken).bind fun _ =>
        (validateUsdCurrency env validatorToken).bind fun _ =>
          (if .t8 ≤ env.spec then
              (ensureAuthorizedAs (env.tokens userToken) msgSender .sender).bind fun _ =>
                ensureAuthorizedAs (env.tokens validatorToken) msgSender .sender
            else .ok ()).bind fun _ =>
              let key : PoolKey := (userToken, validatorToken)
              let pool := manager.pools key
              let totalSupply := manager.totalSupply key
              let balance := manager.liquidityBalances key msgSender
              (require (liquidity ≤ balance) .insufficientLiquidity).bind fun _ =>
                (share liquidity pool.reserveUserToken totalSupply).bind fun amountUserToken =>
                  (share liquidity pool.reserveValidatorToken totalSupply).bind fun amountValidatorToken =>
                    (toU128 amountValidatorToken .invalidAmount).bind fun validatorAmount =>
                      (checkedSub pool.reserveValidatorToken validatorAmount .insufficientReserves).bind fun reserveValidatorToken =>
                        (checkReservation env key reserveValidatorToken).bind fun _ =>
                          (checkedSub totalSupply liquidity .underOverflow).bind fun supply =>
                            (toU128 amountUserToken .invalidAmount).bind fun userAmount =>
                              (checkedSub pool.reserveUserToken userAmount .insufficientReserves).bind fun reserveUserToken =>
                                ((((manager.setLiquidity key msgSender (balance - liquidity)).setTotalSupply key supply).setPool key
                                    ⟨reserveUserToken, reserveValidatorToken⟩).deliver env userToken dest
                                      amountUserToken).bind fun manager =>
                                  (manager.deliver env validatorToken dest amountValidatorToken).map fun manager =>
                                    ((amountUserToken, amountValidatorToken), manager)

end FeeManager

inductive FeeCall where
  | distributeFees (validator token : Address)
  | rebalanceSwap (userToken validatorToken : Address) (amountOut : Nat) (dest : Address)
  | mint (userToken validatorToken : Address) (amountValidatorToken : Nat) (dest : Address)
  | burn (userToken validatorToken : Address) (liquidity : Nat) (dest : Address)

/-- One call: who makes it and what it finds elsewhere. -/
structure FeeRecord where
  env : FeeEnv
  msgSender : Address
  call : FeeCall

namespace FeeManager

def call (manager : FeeManager) (record : FeeRecord) : Except TempoError FeeManager :=
  match record.call with
  | .distributeFees validator token => manager.distributeFees record.env validator token
  | .rebalanceSwap userToken validatorToken amountOut dest =>
    (manager.rebalanceSwap record.env record.msgSender userToken validatorToken amountOut dest).map (·.2)
  | .mint userToken validatorToken amountValidatorToken dest =>
    (manager.mint record.env record.msgSender userToken validatorToken amountValidatorToken dest).map (·.2)
  | .burn userToken validatorToken liquidity dest =>
    (manager.burn record.env record.msgSender userToken validatorToken liquidity dest).map (·.2)

/-- A failing call is reverted. -/
def apply (manager : FeeManager) (record : FeeRecord) : FeeManager :=
  match manager.call record with
  | .ok next => next
  | .error _ => manager

def run (manager : FeeManager) (records : List FeeRecord) : FeeManager := records.foldl apply manager

end FeeManager
end LeafageEvm.Tempo
