import LeafageEvm.Tempo.FeeManager
import Mathlib.Tactic.Ring
import Mathlib.Tactic.Linarith

/-! The accounts of the fee AMM: its balances against reserves and fees, the supply of liquidity, and what a
deposit brings back. -/

namespace LeafageEvm.Tempo.FeeManager
open Nat List Function
variable {manager manager' : FeeManager} {env : FeeEnv}
variable {reserve totalSupply supply total : Nat} {error : TempoError} {records : List FeeRecord} {into out : Address → Nat}
  {mid : FeeManager} {token validator : Address}
  {amount amountOut amountIn liquidity amountUserToken amountValidatorToken count : Nat} {key : PoolKey} {pool : Pool}
  {record : FeeRecord}

def balance (manager : FeeManager) (token : Address) : Nat := (manager.world.tokens token).balances tipFeeManagerAddress

def reserves (manager : FeeManager) (token : Address) : Nat :=
  ∑ key : PoolKey, ((if key.1 = token then (manager.pools key).reserveUserToken else 0) +
    if key.2 = token then (manager.pools key).reserveValidatorToken else 0)

def fees (manager : FeeManager) (token : Address) : Nat := ∑ validator : Address, manager.collectedFees validator token

def surplus (manager : FeeManager) (token : Address) : Int :=
  manager.balance token - manager.reserves token - manager.fees token

def held (manager : FeeManager) (key : PoolKey) : Nat := ∑ account : Address, manager.liquidityBalances key account

section
variable {A : Type} (mapping : A → Address → Nat)

theorem sum_setNested [DecidableEq A] (outer : A) (inner : Address) (value : Nat) :
    ∑ account, setNested mapping outer inner value outer account + mapping outer inner =
      ∑ account, mapping outer account + value := by
  unfold setNested
  rw [update_self]
  exact sum_update (fun _ v => v) (mapping outer) inner value

theorem setNested_of_ne [DecidableEq A] {outer other : A} (h : other ≠ outer)
    (inner : Address) (value : Nat) : setNested mapping outer inner value other = mapping other :=
  update_of_ne h _ _
end

/-- Only the tokens differ, and the fee manager's balances by what went in and out. -/
structure Moves (into out : Address → Nat) (manager manager' : FeeManager) : Prop where
  eq : manager' = { manager with world := manager'.world }
  balance : ∀ token, manager.balance token + into token ≤ manager'.balance token + out token

theorem Moves.trans {into' out' : Address → Nat} (h : Moves into out manager mid) (h' : Moves into' out' mid manager') :
    Moves (fun token => into token + into' token) (fun token => out token + out' token) manager manager' := by
  refine ⟨?_, fun token => ?_⟩
  · rw [h'.eq, h.eq]
  · have hfirst := h.balance token
    have hsecond := h'.balance token
    omega

theorem onToken_moves {operation : Custody → Except TempoError Custody}
    {into out : Nat} (h : manager.onToken token operation = .ok manager')
    (hstate : ∀ state, operation ⟨manager.world.tokens token, manager.world.guard⟩ = .ok state →
      (manager.world.tokens token).balances tipFeeManagerAddress + into ≤ state.token.balances tipFeeManagerAddress + out) :
    Moves (fun other => if token = other then into else 0) (fun other => if token = other then out else 0) manager manager' := by
  obtain ⟨_, h⟩ := rest_ok h
  obtain ⟨state, hok, rfl⟩ := map_ok h
  refine ⟨rfl, fun other => ?_⟩
  unfold balance
  by_cases hother : token = other
  · subst hother
    simpa using hstate state hok
  · simp [hother, Ne.symm hother]

theorem feeManager_not_isVirtual : isVirtual tipFeeManagerAddress = false := by decide

/-- The calls on the fee manager: nobody calls from its own address, and it accepts what it is sent, having no
receive policy. -/
structure Admissible (env : FeeEnv) (msgSender : Address) : Prop where
  sender : msgSender ≠ tipFeeManagerAddress
  policy : ∀ token sender, (env.tokens token).checkReceivePolicy sender tipFeeManagerAddress = .ok none

theorem collect_moves {source : Address} (hadmissible : Admissible env source)
    (h : manager.collect env token source amount = .ok manager') :
    Moves (fun other => if token = other then amount else 0) (fun other => if token = other then 0 else 0) manager manager' := by
  refine onToken_moves h fun _ hstate => ?_
  exact le_of_eq (Custody.balances_systemTransferFrom hadmissible.sender feeManager_not_isVirtual
    (hadmissible.policy token source) hstate).symm

theorem deliver_moves {dest : Address} (h : manager.deliver env token dest amount = .ok manager') :
    Moves (fun other => if token = other then 0 else 0) (fun other => if token = other then amount else 0) manager manager' := by
  refine onToken_moves h fun _ hstate => ?_
  exact Nat.sub_le_iff_le_add.mp (Custody.sub_le_balances_transfer hstate)

/-! ### What the calls leave -/

variable {msgSender userToken validatorToken dest : Address}

theorem distributeFees_eq_ok (h : manager.distributeFees env validator token = .ok manager') :
    manager' = manager ∨ Moves (fun other => if token = other then 0 else 0)
        (fun other => if token = other then manager.collectedFees validator token else 0)
        { manager with collectedFees := setNested manager.collectedFees validator token 0 } manager' := by
  unfold distributeFees at h
  simp only at h
  split at h
  · cases h
    exact .inl rfl
  · exact .inr (deliver_moves h)

theorem share_eq_ok (h : share liquidity reserve totalSupply = .ok amount) :
    totalSupply ≠ 0 ∧ amount = liquidity * reserve / totalSupply := by
  obtain ⟨_, hproduct, h⟩ := bind_ok h
  obtain ⟨-, rfl⟩ := checkedMul_eq_ok.mp hproduct
  obtain ⟨_, hsupply, rfl⟩ := map_ok h
  exact ⟨require_eq_ok.mp hsupply, rfl⟩

theorem Moves.books (h : Moves into out manager manager') :
    manager'.pools = manager.pools ∧ manager'.totalSupply = manager.totalSupply ∧
      manager'.liquidityBalances = manager.liquidityBalances ∧ manager'.collectedFees = manager.collectedFees := by
  rw [h.eq]
  exact ⟨rfl, rfl, rfl, rfl⟩

theorem Moves.pool_self (h : Moves into out mid manager') (hpools : mid.pools = update manager.pools key pool) :
    manager'.pools key = pool := by
  rw [h.books.1, hpools, update_self]

theorem Moves.totalSupply_self (h : Moves into out mid manager')
    (htotal : mid.totalSupply = update manager.totalSupply key supply) : manager'.totalSupply key = supply := by
  rw [h.books.2.1, htotal, update_self]

section
variable (token : Address)

theorem Moves.reserves (h : Moves into out manager manager') : manager'.reserves token = manager.reserves token := by
  unfold FeeManager.reserves
  rw [h.books.1]

theorem Moves.fees (h : Moves into out manager manager') : manager'.fees token = manager.fees token := by
  unfold FeeManager.fees
  rw [h.books.2.2.2]

end

/-- A pool that nobody has deposited into. -/
structure Uninitialised (manager : FeeManager) (key : PoolKey) : Prop where
  pool : manager.pools key = {}
  totalSupply : manager.totalSupply key = 0
  held : manager.held key = 0

/-- A pool in use: it never runs dry, and some of its liquidity is locked. -/
structure Initialised (manager : FeeManager) (key : PoolKey) : Prop where
  reserves : ¬ ((manager.pools key).reserveUserToken = 0 ∧ (manager.pools key).reserveValidatorToken = 0)
  totalSupply : manager.totalSupply key = manager.held key + minLiquidity

def Stands (manager : FeeManager) (key : PoolKey) (count : Nat) : Prop :=
  count = 0 ∧ manager.Uninitialised key ∨ count = 1 ∧ manager.Initialised key

section
variable (h : manager.Stands key count)
include h
theorem Stands.cases : manager.Uninitialised key ∨ manager.Initialised key := h.imp And.right And.right

theorem Stands.congr (hpool : manager'.pools key = manager.pools key)
    (htotal : manager'.totalSupply key = manager.totalSupply key)
    (hliquidity : manager'.liquidityBalances key = manager.liquidityBalances key) : manager'.Stands key count := by
  have hheld : manager'.held key = manager.held key := by
    unfold held
    rw [hliquidity]
  rcases h with ⟨hcount, hnew⟩ | ⟨hcount, hused⟩
  · refine .inl ⟨hcount, ?_, ?_, ?_⟩
    · rw [hpool, hnew.pool]
    · rw [htotal, hnew.totalSupply]
    · rw [hheld, hnew.held]
  refine .inr ⟨hcount, ?_, ?_⟩
  · rw [hpool]
    exact hused.reserves
  · rw [htotal, hheld, hused.totalSupply]

theorem Stands.of_initialised (hused : manager.Initialised key)
    (hused' : manager'.Initialised key) : manager'.Stands key count := by
  rcases h with ⟨-, hnew⟩ | ⟨hcount, -⟩
  · refine absurd ?_ hused.reserves
    rw [hnew.pool]
    exact ⟨rfl, rfl⟩
  · exact .inr ⟨hcount, hused'⟩
end

theorem mintedLiquidity_eq_ok (h : mintedLiquidity pool totalSupply amount = .ok (liquidity, supply)) :
    ((pool.reserveUserToken = 0 ∧ pool.reserveValidatorToken = 0) ∧ liquidity + minLiquidity = amount / 2 ∧
        supply = totalSupply + minLiquidity) ∨
      (¬ (pool.reserveUserToken = 0 ∧ pool.reserveValidatorToken = 0) ∧
        pool.reserveValidatorToken + n * pool.reserveUserToken / scale ≠ 0 ∧
        liquidity = amount * totalSupply / (pool.reserveValidatorToken + n * pool.reserveUserToken / scale) ∧
        supply = totalSupply) := by
  unfold mintedLiquidity at h
  by_cases hempty : pool.reserveUserToken = 0 ∧ pool.reserveValidatorToken = 0
  · rw [if_pos hempty] at h
    obtain ⟨_, h⟩ := rest_ok h
    obtain ⟨_, htotal, h⟩ := bind_ok h
    obtain ⟨-, rfl⟩ := checkedAdd_eq_ok.mp htotal
    obtain ⟨_, hrest, heq⟩ := map_ok h
    obtain ⟨hle, hsub⟩ := checkedSub_eq_ok.mp hrest
    obtain ⟨hliquidity, hsupply⟩ := Prod.mk.inj heq
    refine .inl ⟨hempty, ?_, hsupply.symm⟩
    rw [← hliquidity, hsub, Nat.sub_add_cancel hle]
  · rw [if_neg hempty] at h
    obtain ⟨_, hproduct, h⟩ := bind_ok h
    obtain ⟨-, rfl⟩ := checkedMul_eq_ok.mp hproduct
    obtain ⟨_, hdenom, h⟩ := bind_ok h
    obtain ⟨-, rfl⟩ := checkedAdd_eq_ok.mp hdenom
    obtain ⟨hne, h⟩ := check_ok h
    obtain ⟨_, hminted, heq⟩ := map_ok h
    obtain ⟨-, rfl⟩ := checkedMul_eq_ok.mp hminted
    cases heq
    exact .inr ⟨hempty, hne, rfl, rfl⟩

/-- A share that is not the whole leaves something. -/
theorem share_lt (hreserve : reserve ≠ 0) (hlt : liquidity < total) : liquidity * reserve / total < reserve := by
  rw [div_lt_iff_lt_mul (by omega), mul_comm reserve]
  exact mul_lt_mul_of_pos_right hlt (pos_of_ne_zero hreserve)

section
variable (hadmissible : Admissible env msgSender)
include hadmissible
theorem rebalanceSwap_eq_ok
    (h : manager.rebalanceSwap env msgSender userToken validatorToken amountOut dest = .ok (amountIn, manager')) :
    amountIn ≠ 0 ∧ amountOut ≠ 0 ∧ amountOut ≤ (manager.pools (userToken, validatorToken)).reserveUserToken ∧
      Moves (fun other => if validatorToken = other then amountIn else 0) (fun other => if userToken = other then amountOut else 0)
        (manager.setPool (userToken, validatorToken)
          ⟨(manager.pools (userToken, validatorToken)).reserveUserToken - amountOut,
            (manager.pools (userToken, validatorToken)).reserveValidatorToken + amountIn⟩) manager' := by
  obtain ⟨hout, h⟩ := check_ok h
  obtain ⟨_, h⟩ := rest_ok h
  obtain ⟨_, hsum, h⟩ := bind_ok h
  obtain ⟨-, rfl⟩ := checkedAdd_eq_ok.mp hsum
  obtain ⟨_, hinput, h⟩ := bind_ok h
  obtain ⟨-, rfl⟩ := toU128_eq_ok.mp hinput
  obtain ⟨_, houtput, h⟩ := bind_ok h
  rw [(toU128_eq_ok.mp houtput).2] at h
  obtain ⟨_, hvalidator, h⟩ := bind_ok h
  obtain ⟨-, rfl⟩ := toU128_eq_ok.mp hvalidator
  obtain ⟨_, huser, h⟩ := bind_ok h
  obtain ⟨hle, rfl⟩ := checkedSub_eq_ok.mp huser
  obtain ⟨_, h⟩ := rest_ok h
  obtain ⟨_, hmid, h⟩ := bind_ok h
  obtain ⟨_, hafter, heq⟩ := map_ok h
  cases heq
  have hmoves := (collect_moves hadmissible hmid).trans (deliver_moves hafter)
  simp only [ite_self, zero_add] at hmoves
  exact ⟨succ_ne_zero _, hout, hle, hmoves⟩

section
variable (h : manager.mint env msgSender userToken validatorToken amount dest = .ok (liquidity, manager'))
include h
theorem mint_eq_ok : let pair := (userToken, validatorToken)
    let pool := manager.pools pair
    ∃ supply, amount ≠ 0 ∧ liquidity ≠ 0 ∧
      mintedLiquidity pool (manager.totalSupply pair) amount = .ok (liquidity, supply) ∧
      Moves (fun other => if validatorToken = other then amount else 0) (fun _ => 0)
        { manager.setPool pair { pool with reserveValidatorToken := pool.reserveValidatorToken + amount } with
          totalSupply := update manager.totalSupply pair (supply + liquidity)
          liquidityBalances := setNested manager.liquidityBalances pair dest
            (manager.liquidityBalances pair dest + liquidity) } manager' := by
  obtain ⟨_, h⟩ := rest_ok h
  obtain ⟨hamount, h⟩ := check_ok h
  iterate 3 obtain ⟨_, h⟩ := rest_ok h
  obtain ⟨⟨_, supply⟩, hminted, h⟩ := bind_ok h
  obtain ⟨hliquidity, h⟩ := check_ok h
  obtain ⟨_, hmid, h⟩ := bind_ok h
  obtain ⟨_, hvalidator, h⟩ := bind_ok h
  rw [(toU128_eq_ok.mp hvalidator).2] at h
  obtain ⟨_, hreserve, h⟩ := bind_ok h
  obtain ⟨-, rfl⟩ := toU128_eq_ok.mp hreserve
  obtain ⟨_, htotal, h⟩ := bind_ok h
  obtain ⟨-, rfl⟩ := checkedAdd_eq_ok.mp htotal
  obtain ⟨balance, hbalance, heq⟩ := map_ok h
  obtain ⟨-, rfl⟩ := checkedAdd_eq_ok.mp hbalance
  cases heq
  have hmoves := collect_moves hadmissible hmid
  simp only [ite_self] at hmoves
  refine ⟨supply, hamount, hliquidity, hminted, ?_, hmoves.balance⟩
  rw [hmoves.eq]
  rfl

/-- A deposit leaves its pool in use. -/
theorem initialised_mint
    (hbefore : manager.Uninitialised (userToken, validatorToken) ∨ manager.Initialised (userToken, validatorToken)) :
    manager'.Initialised (userToken, validatorToken) := by
  obtain ⟨supply, hamount, -, hminted, hmoves⟩ := mint_eq_ok hadmissible h
  obtain ⟨-, -, hliquidity, -⟩ := hmoves.books
  have hheld : manager'.held (userToken, validatorToken) = manager.held (userToken, validatorToken) + liquidity := by
    have hsum := sum_setNested manager.liquidityBalances (userToken, validatorToken) dest
      (manager.liquidityBalances (userToken, validatorToken) dest + liquidity)
    unfold held
    rw [hliquidity]
    show ∑ account, setNested _ _ _ _ _ account = _
    omega
  have hsupply : manager'.totalSupply (userToken, validatorToken) = supply + liquidity := hmoves.totalSupply_self rfl
  constructor
  · rw [hmoves.pool_self rfl]
    rintro ⟨-, hzero⟩
    exact hamount (Nat.add_eq_zero_iff.mp hzero).2
  · rw [hsupply, hheld]
    -- the branch taken is the one of the state found
    rcases mintedLiquidity_eq_ok hminted with ⟨hempty, -, rfl⟩ | ⟨hfull, -, -, rfl⟩
    · rcases hbefore with hnew | hused
      · rw [hnew.totalSupply, hnew.held]
        omega
      · exact absurd hempty hused.reserves
    rcases hbefore with hnew | hused
    · rw [hnew.pool] at hfull
      exact absurd ⟨rfl, rfl⟩ hfull
    · rw [hused.totalSupply]
      omega
end

end

section
variable (h : manager.burn env msgSender userToken validatorToken liquidity dest = .ok ((amountUserToken, amountValidatorToken), manager'))
include h
theorem burn_eq_ok : let pair := (userToken, validatorToken)
    let pool := manager.pools pair
    liquidity ≠ 0 ∧ liquidity ≤ manager.liquidityBalances pair msgSender ∧ liquidity ≤ manager.totalSupply pair ∧
      amountUserToken = liquidity * pool.reserveUserToken / manager.totalSupply pair ∧
      amountValidatorToken = liquidity * pool.reserveValidatorToken / manager.totalSupply pair ∧
      amountUserToken ≤ pool.reserveUserToken ∧ amountValidatorToken ≤ pool.reserveValidatorToken ∧
      Moves (fun _ => 0) (fun other => (if userToken = other then amountUserToken else 0) +
          if validatorToken = other then amountValidatorToken else 0)
        { manager.setPool pair
            ⟨pool.reserveUserToken - amountUserToken, pool.reserveValidatorToken - amountValidatorToken⟩ with
          totalSupply := update manager.totalSupply pair (manager.totalSupply pair - liquidity)
          liquidityBalances := setNested manager.liquidityBalances pair msgSender
            (manager.liquidityBalances pair msgSender - liquidity) } manager' := by
  obtain ⟨_, h⟩ := rest_ok h
  obtain ⟨hliquidity, h⟩ := check_ok h
  iterate 3 obtain ⟨_, h⟩ := rest_ok h
  obtain ⟨hbalance, h⟩ := check_ok h
  obtain ⟨_, huser, h⟩ := bind_ok h
  obtain ⟨_, hvalidator, h⟩ := bind_ok h
  obtain ⟨_, hv, h⟩ := bind_ok h
  rw [(toU128_eq_ok.mp hv).2] at h
  obtain ⟨_, hvsub, h⟩ := bind_ok h
  obtain ⟨hvle, rfl⟩ := checkedSub_eq_ok.mp hvsub
  obtain ⟨_, h⟩ := rest_ok h
  obtain ⟨_, hsupply, h⟩ := bind_ok h
  obtain ⟨hsle, rfl⟩ := checkedSub_eq_ok.mp hsupply
  obtain ⟨_, hu, h⟩ := bind_ok h
  rw [(toU128_eq_ok.mp hu).2] at h
  obtain ⟨_, husub, h⟩ := bind_ok h
  obtain ⟨hule, rfl⟩ := checkedSub_eq_ok.mp husub
  obtain ⟨_, hmid, h⟩ := bind_ok h
  obtain ⟨_, hafter, heq⟩ := map_ok h
  cases heq
  have hmoves := (deliver_moves hmid).trans (deliver_moves hafter)
  simp only [ite_self] at hmoves
  exact ⟨hliquidity, hbalance, hsle, (share_eq_ok huser).2, (share_eq_ok hvalidator).2, hule, hvle, hmoves.eq, hmoves.balance⟩

/-! ### The surplus -/

/-! ### The supply of liquidity -/

theorem initialised_burn
    (hbefore : manager.Uninitialised (userToken, validatorToken) ∨ manager.Initialised (userToken, validatorToken)) :
    manager.Initialised (userToken, validatorToken) ∧ manager'.Initialised (userToken, validatorToken) := by
  obtain ⟨hne, hle, -, huser, hvalidator, -, -, hmoves⟩ := burn_eq_ok h
  have hbalance : _ ≤ manager.held _ :=
    Finset.single_le_sum (f := manager.liquidityBalances (userToken, validatorToken)) (fun _ _ => zero_le _) (Finset.mem_univ msgSender)
  have hused : manager.Initialised (userToken, validatorToken) := by
    refine hbefore.resolve_left fun hnew => ?_
    have hzero := hnew.held
    omega
  refine ⟨hused, ?_⟩
  obtain ⟨-, -, hliquidity, -⟩ := hmoves.books
  have hwhole := hused.totalSupply
  have hlt : liquidity < manager.totalSupply (userToken, validatorToken) := by
    unfold minLiquidity at hwhole
    omega
  constructor
  · rw [hmoves.pool_self rfl]
    rintro ⟨huserZero, hvalidatorZero⟩
    simp only at huserZero hvalidatorZero
    apply hused.reserves
    constructor
    all_goals
      by_contra hpositive
      have hleft := share_lt hpositive hlt
      omega
  · have hsum := sum_setNested manager.liquidityBalances (userToken, validatorToken) msgSender
      (manager.liquidityBalances (userToken, validatorToken) msgSender - liquidity)
    have hheld : manager'.held (userToken, validatorToken) + liquidity = manager.held (userToken, validatorToken) := by
      unfold held
      rw [hliquidity]
      show ∑ account, setNested _ _ _ _ _ account + liquidity = _
      omega
    have htotal' : manager'.totalSupply (userToken, validatorToken) =
        manager.totalSupply (userToken, validatorToken) - liquidity := hmoves.totalSupply_self rfl
    omega
end

theorem initialised_rebalanceSwap (hadmissible : Admissible env msgSender)
    (h : manager.rebalanceSwap env msgSender userToken validatorToken amountOut dest = .ok (amountIn, manager'))
    (hbefore : manager.Uninitialised (userToken, validatorToken) ∨ manager.Initialised (userToken, validatorToken)) :
    manager.Initialised (userToken, validatorToken) ∧ manager'.Initialised (userToken, validatorToken) := by
  obtain ⟨hin, hout, hle, hmoves⟩ := rebalanceSwap_eq_ok hadmissible h
  obtain ⟨-, htotal, hliquidity, -⟩ := hmoves.books
  have hused : manager.Initialised (userToken, validatorToken) := by
    refine hbefore.resolve_left fun hnew => ?_
    rw [hnew.pool] at hle
    exact hout (le_zero.mp hle)
  refine ⟨hused, ?_, ?_⟩
  · rw [hmoves.pool_self rfl]
    rintro ⟨-, hzero⟩
    exact hin (Nat.add_eq_zero_iff.mp hzero).2
  · unfold held
    rw [htotal, hliquidity]
    exact hused.totalSupply

/-- A successful mint into an empty pool. -/
def initialises (manager : FeeManager) (key : PoolKey) (record : FeeRecord) : Bool :=
  match record.call with
  | .mint userToken validatorToken _ _ =>
    decide ((userToken, validatorToken) = key ∧ (manager.pools key).reserveUserToken = 0 ∧
      (manager.pools key).reserveValidatorToken = 0) && (manager.call record).isOk
  | _ => false

/-- How often the initialisation branch runs for a pool. -/
def initialisations (key : PoolKey) (manager : FeeManager) : List FeeRecord → Nat
  | [] => 0
  | record :: records => (manager.initialises key record).toNat + initialisations key (manager.apply record) records

theorem apply_of_ok (h : manager.call record = .ok manager') : manager.apply record = manager' := by
  unfold apply
  rw [h]

theorem apply_of_error (h : manager.call record = .error error) : manager.apply record = manager := by
  unfold apply
  rw [h]

theorem initialises_of_error (h : manager.call record = .error error) (key : PoolKey) :
    manager.initialises key record = false := by
  unfold initialises
  split
  · rw [h]
    simp [Except.toBool]
  · rfl

section
variable (hstands : manager.Stands key count)
include hstands
theorem Stands.mint (hadmissible : Admissible env msgSender)
    (h : manager.mint env msgSender userToken validatorToken amount dest = .ok (liquidity, manager')) :
    manager'.Stands key
      (count + (manager.initialises key ⟨env, msgSender, .mint userToken validatorToken amount dest⟩).toNat) := by
  have hcall : manager.call ⟨env, msgSender, .mint userToken validatorToken amount dest⟩ = .ok manager' :=
    map_eq_ok.mpr ⟨_, h, rfl⟩
  unfold initialises
  simp only [hcall]
  by_cases hkey : (userToken, validatorToken) = key
  · subst hkey
    have hused' := initialised_mint hadmissible h hstands.cases
    rcases hstands with ⟨rfl, hnew⟩ | ⟨rfl, hused⟩
    · refine .inr ⟨?_, hused'⟩
      rw [hnew.pool, decide_eq_true ⟨rfl, rfl, rfl⟩]
      rfl
    · refine .inr ⟨?_, hused'⟩
      rw [decide_eq_false fun hempty => hused.reserves hempty.2]
      rfl
  · obtain ⟨_, -, -, -, hmoves⟩ := mint_eq_ok hadmissible h
    obtain ⟨hpools, htotal, hliquidity, -⟩ := hmoves.books
    rw [decide_eq_false fun hempty => hkey hempty.1]
    refine hstands.congr ?_ ?_ ?_
    · rw [hpools]
      exact update_of_ne (Ne.symm hkey) ..
    · rw [htotal]
      exact update_of_ne (Ne.symm hkey) ..
    · rw [hliquidity]
      exact setNested_of_ne _ (Ne.symm hkey) _ _

theorem Stands.burn (h : manager.burn env msgSender userToken validatorToken liquidity dest =
      .ok ((amountUserToken, amountValidatorToken), manager')) : manager'.Stands key count := by
  by_cases hkey : (userToken, validatorToken) = key
  · subst hkey
    obtain ⟨hused, hused'⟩ := initialised_burn h hstands.cases
    exact hstands.of_initialised hused hused'
  obtain ⟨-, -, -, -, -, -, -, hmoves⟩ := burn_eq_ok h
  obtain ⟨hpools, htotal, hliquidity, -⟩ := hmoves.books
  refine hstands.congr ?_ ?_ ?_
  · rw [hpools]
    exact update_of_ne (Ne.symm hkey) ..
  · rw [htotal]
    exact update_of_ne (Ne.symm hkey) ..
  · rw [hliquidity]
    exact setNested_of_ne _ (Ne.symm hkey) _ _

theorem Stands.rebalanceSwap (hadmissible : Admissible env msgSender)
    (h : manager.rebalanceSwap env msgSender userToken validatorToken amountOut dest = .ok (amountIn, manager')) :
    manager'.Stands key count := by
  by_cases hkey : (userToken, validatorToken) = key
  · subst hkey
    obtain ⟨hused, hused'⟩ := initialised_rebalanceSwap hadmissible h hstands.cases
    exact hstands.of_initialised hused hused'
  obtain ⟨-, -, -, hmoves⟩ := rebalanceSwap_eq_ok hadmissible h
  obtain ⟨hpools, htotal, hliquidity, -⟩ := hmoves.books
  refine hstands.congr ?_ ?_ ?_
  · rw [hpools]
    exact update_of_ne (Ne.symm hkey) ..
  · rw [htotal]
    rfl
  · rw [hliquidity]
    rfl

theorem Stands.distributeFees (h : manager.distributeFees env validator token = .ok manager') : manager'.Stands key count := by
  rcases distributeFees_eq_ok h with rfl | hmoves
  · exact hstands
  · obtain ⟨hpools, htotal, hliquidity, -⟩ := hmoves.books
    exact hstands.congr (congrFun hpools _) (congrFun htotal _) (congrFun hliquidity _)

/-- **A call keeps each pool's account.** -/
theorem Stands.apply (hadmissible : Admissible record.env record.msgSender) :
    (manager.apply record).Stands key (count + (manager.initialises key record).toNat) := by
  rcases hcall : manager.call record with error | after
  · rw [apply_of_error hcall, initialises_of_error hcall]
    exact hstands
  rw [apply_of_ok hcall]
  obtain ⟨_, _, call⟩ := record
  cases call with
  | distributeFees => exact hstands.distributeFees hcall
  | rebalanceSwap =>
    obtain ⟨⟨_, _⟩, hswap, rfl⟩ := map_ok hcall
    exact hstands.rebalanceSwap hadmissible hswap
  | mint =>
    obtain ⟨⟨_, _⟩, hmint, rfl⟩ := map_ok hcall
    exact hstands.mint hadmissible hmint
  | burn =>
    obtain ⟨⟨⟨_, _⟩, _⟩, hburn, rfl⟩ := map_ok hcall
    exact hstands.burn hburn

theorem Stands.run (hadmissible : ∀ record ∈ records, Admissible record.env record.msgSender) :
    (manager.run records).Stands key (count + initialisations key manager records) := by
  induction records generalizing manager count with
  | nil => exact hstands
  | cons _ _ ih =>
    rw [forall_mem_cons] at hadmissible
    have hrest := ih (hstands.apply hadmissible.1) hadmissible.2
    rw [add_assoc] at hrest
    exact hrest
end

end LeafageEvm.Tempo.FeeManager
