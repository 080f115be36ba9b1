import LeafageEvm.Tempo.TokenSupply
import Mathlib.Algebra.BigOperators.Ring.Finset

/-! The rewards before T8 are funded by the balance of the token contract. What the contract owes is counted in
units of one over `ACC_PRECISION`: the reward balances, and for each holder that opted in its balance times
what the accumulator has risen since the holder was last settled. -/

namespace LeafageEvm.Tempo
open Ledger Function Nat Finset

def optedWeight (recipient : Address) : Nat := if recipient = 0 then 0 else 1

def UserRewardInfo.owed (rate balance : Nat) (info : UserRewardInfo) : Nat :=
  info.rewardBalance * accPrecision + optedWeight info.rewardRecipient * (balance * (rate - info.rewardPerToken))

/-- A record with a reward added. -/
def UserRewardInfo.credit (info : UserRewardInfo) (reward : Nat) : UserRewardInfo :=
  { info with rewardBalance := info.rewardBalance + reward }

/-- A record brought to a rate. -/
def UserRewardInfo.settle (info : UserRewardInfo) (rate : Nat) : UserRewardInfo := { info with rewardPerToken := rate }

/-- A record with another recipient. -/
def UserRewardInfo.redirect (info : UserRewardInfo) (recipient : Address) : UserRewardInfo :=
  { info with rewardRecipient := recipient }

/-- A record after a payout. -/
def UserRewardInfo.pay (info : UserRewardInfo) (amount : Nat) : UserRewardInfo :=
  { info with rewardBalance := info.rewardBalance - amount }

theorem UserRewardInfo.owed_credit (rate balance : Nat) (info : UserRewardInfo) (reward : Nat) :
    (info.credit reward).owed rate balance = info.owed rate balance + reward * accPrecision := by
  simp only [owed, credit, add_mul]
  omega

theorem UserRewardInfo.owed_settle (rate balance : Nat) (info : UserRewardInfo) :
    (info.settle rate).owed rate balance = info.rewardBalance * accPrecision := by
  simp [owed, settle]

variable {info : UserRewardInfo}

theorem UserRewardInfo.owed_of_settled {rate : Nat} (h : info.rewardPerToken = rate)
    (balance : Nat) : info.owed rate balance = info.rewardBalance * accPrecision := by
  simp [owed, h]

theorem UserRewardInfo.owed_of_out (h : info.rewardRecipient = 0) (rate balance : Nat) :
    info.owed rate balance = info.rewardBalance * accPrecision := by
  simp [owed, h, optedWeight]

theorem UserRewardInfo.owed_add {rate balance raise : Nat} (h : info.rewardPerToken ≤ rate) :
    info.owed (rate + raise) balance = info.owed rate balance + optedWeight info.rewardRecipient * balance * raise := by
  unfold owed
  rw [Nat.sub_add_comm h, mul_add, mul_add, ← add_assoc, mul_assoc]

open UserRewardInfo

namespace Token

variable {token token' : Token} {holder : Address} {reward amount : Nat} {spec : TempoHardfork}

def liability (token : Token) : Nat :=
  ∑ account, (token.userRewardInfo account).owed token.globalRewardPerToken (token.balances account)

def optedBalances (token : Token) : Nat :=
  ∑ account, optedWeight (token.userRewardInfo account).rewardRecipient * token.balances account

/-- The accounting of rewards is up to date: no account is ahead of the accumulator, the opted-in supply is
the sum it stands for, and neither the contract nor the zero address has opted in. -/
structure Tracked (contract : Address) (token : Token) : Prop where
  rate_le : ∀ account, (token.userRewardInfo account).rewardPerToken ≤ token.globalRewardPerToken
  optedIn : token.optedInSupply = token.optedBalances
  self_out : (token.userRewardInfo contract).rewardRecipient = 0
  zero_out : (token.userRewardInfo 0).rewardRecipient = 0

/-- What settling one account does. -/
structure Settles (holder : Address) (token token' : Token) : Prop where
  funds : SameFunds token token'
  rate : token'.globalRewardPerToken = token.globalRewardPerToken
  optedIn : token'.optedInSupply = token.optedInSupply
  recipient : ∀ account, (token'.userRewardInfo account).rewardRecipient = (token.userRewardInfo account).rewardRecipient
  settled : (token'.userRewardInfo holder).rewardPerToken = token.globalRewardPerToken
  others : ∀ account, account ≠ holder →
    (token'.userRewardInfo account).rewardPerToken = (token.userRewardInfo account).rewardPerToken
  liability_le : token'.liability ≤ token.liability

namespace Settles

variable {self : Address}

section
variable (h : Settles holder token token')
include h
theorem optedBalances_eq : token'.optedBalances = token.optedBalances := by
  unfold optedBalances
  rw [h.funds.balances]
  apply sum_congr rfl
  intro account _
  rw [h.recipient account]

theorem tracked (ht : token.Tracked self) : token'.Tracked self := by
  refine ⟨fun account => ?_, ?_, ?_, ?_⟩
  · rw [h.rate]
    by_cases haccount : account = holder
    · subst haccount
      exact h.settled.le
    · rw [h.others account haccount]
      exact ht.rate_le account
  · rw [h.optedIn, h.optedBalances_eq, ht.optedIn]
  · rw [h.recipient, ht.self_out]
  · rw [h.recipient, ht.zero_out]

theorem stays {account : Address}
    (hsettled : (token.userRewardInfo account).rewardPerToken = token.globalRewardPerToken) :
    (token'.userRewardInfo account).rewardPerToken = token'.globalRewardPerToken := by
  rw [h.rate]
  by_cases haccount : account = holder
  · subst haccount
    exact h.settled
  · rw [h.others account haccount, hsettled]
end

end Settles

section
variable (token : Token) (account : Address) (info : UserRewardInfo)

/-- The liability after the record of one account changes. -/
theorem liability_setRewardInfo : (token.setRewardInfo account info).liability +
        (token.userRewardInfo account).owed token.globalRewardPerToken (token.balances account) =
      token.liability + info.owed token.globalRewardPerToken (token.balances account) :=
  sum_update (fun x info => owed token.globalRewardPerToken (token.balances x) info)
    token.userRewardInfo account info

@[simp] theorem setRewardInfo_self : (token.setRewardInfo account info).userRewardInfo account = info := by
  simp [setRewardInfo]
end

@[simp] theorem setRewardInfo_of_ne (token : Token) {account other : Address} (h : other ≠ account)
    (info : UserRewardInfo) : (token.setRewardInfo account info).userRewardInfo other = token.userRewardInfo other := by
  simp [setRewardInfo, update_of_ne h]

theorem accrued_eq_ok {balance delta : Nat} (h : accrued balance delta = .ok reward) :
    reward = balance * delta / accPrecision := by
  obtain ⟨_, hproduct, rfl⟩ := map_ok h
  obtain ⟨-, rfl⟩ := checkedMul_eq_ok.mp hproduct
  rfl

section
variable (hreward : reward * accPrecision ≤ optedWeight (token.userRewardInfo holder).rewardRecipient *
    (token.balances holder * (token.globalRewardPerToken - (token.userRewardInfo holder).rewardPerToken)))
include hreward
/-- A record that moves to the current rate and gains at most what that is worth. -/
theorem settles_setRewardInfo :
    Settles holder token (token.setRewardInfo holder
      (((token.userRewardInfo holder).credit reward).settle token.globalRewardPerToken)) := by
  refine ⟨⟨rfl, rfl, rfl, rfl⟩, rfl, rfl, fun account => ?_, ?_, fun account h => ?_, ?_⟩
  · by_cases h : account = holder
    · subst h
      rw [setRewardInfo_self]
      rfl
    · rw [setRewardInfo_of_ne _ h]
  · rw [setRewardInfo_self]
    rfl
  · rw [setRewardInfo_of_ne _ h]
  · have hsum := token.liability_setRewardInfo holder
      (((token.userRewardInfo holder).credit reward).settle token.globalRewardPerToken)
    have hgain : ((token.userRewardInfo holder).credit reward).rewardBalance =
        (token.userRewardInfo holder).rewardBalance + reward := rfl
    rw [owed_settle, hgain, add_mul, owed] at hsum
    omega

/-- The delegate is credited first, then the holder is brought to the rate. -/
theorem settles_delegate (hother : (token.userRewardInfo holder).rewardRecipient ≠ holder) :
    Settles holder token ((token.setRewardInfo (token.userRewardInfo holder).rewardRecipient
      ((token.userRewardInfo (token.userRewardInfo holder).rewardRecipient).credit reward)).setRewardInfo holder
        ((token.userRewardInfo holder).settle token.globalRewardPerToken)) := by
  generalize hdelegate : (token.userRewardInfo holder).rewardRecipient = delegate at *
  have hcredited := token.liability_setRewardInfo delegate ((token.userRewardInfo delegate).credit reward)
  have hnoted := (token.setRewardInfo delegate ((token.userRewardInfo delegate).credit reward)).liability_setRewardInfo
    holder ((token.userRewardInfo holder).settle token.globalRewardPerToken)
  rw [setRewardInfo_of_ne _ hother.symm] at hnoted
  refine ⟨⟨rfl, rfl, rfl, rfl⟩, rfl, rfl, fun account => ?_, ?_, fun account h => ?_, ?_⟩
  · by_cases hholder : account = holder
    · subst hholder
      rw [setRewardInfo_self]
      rfl
    rw [setRewardInfo_of_ne _ hholder]
    by_cases haccount : account = delegate
    · subst haccount
      rw [setRewardInfo_self]
      rfl
    · rw [setRewardInfo_of_ne _ haccount]
  · rw [setRewardInfo_self]
    rfl
  · rw [setRewardInfo_of_ne _ h]
    by_cases haccount : account = delegate
    · subst haccount
      rw [setRewardInfo_self]
      rfl
    · rw [setRewardInfo_of_ne _ haccount]
  · have hold : (token.userRewardInfo holder).owed token.globalRewardPerToken (token.balances holder) =
        (token.userRewardInfo holder).rewardBalance * accPrecision + optedWeight delegate *
          (token.balances holder * (token.globalRewardPerToken - (token.userRewardInfo holder).rewardPerToken)) := by
      rw [owed, hdelegate]
    change _ + owed token.globalRewardPerToken (token.balances holder) _ =
      _ + owed token.globalRewardPerToken (token.balances holder) _ at hnoted
    rw [owed_settle] at hnoted
    rw [owed_credit] at hcredited
    omega
end

/-- **Settling.** Before T8 an update of an account settles it. -/
theorem updateRewards_settles {recipient : Address} (hfork : ¬ .t8 ≤ spec)
    (h : token.updateRewards spec holder = .ok (recipient, token')) :
    Settles holder token token' ∧ recipient = (token.userRewardInfo holder).rewardRecipient := by
  set held := token.userRewardInfo holder
  unfold updateRewards at h
  rw [if_neg hfork] at h
  obtain ⟨_, hdelta, h⟩ := bind_ok h
  obtain ⟨hle, rfl⟩ := checkedSub_eq_ok.mp hdelta
  split at h
  · cases h
    refine ⟨⟨.refl, rfl, rfl, fun _ => rfl, ?_, fun _ _ => rfl, le_rfl⟩, rfl⟩
    omega
  obtain ⟨⟨credited, _⟩, hcredit, heq⟩ := map_ok h
  cases heq
  refine ⟨?_, rfl⟩
  split at hcredit
  · -- nobody to credit: only the rate is noted
    cases hcredit
    have hnothing : 0 * accPrecision ≤ optedWeight held.rewardRecipient *
        (token.balances holder * (token.globalRewardPerToken - held.rewardPerToken)) := by
      rw [zero_mul]
      exact zero_le _
    exact settles_setRewardInfo hnothing
  rename_i hin
  obtain ⟨reward, hreward, hcredit⟩ := bind_ok hcredit
  have hvalue : reward * accPrecision ≤ optedWeight held.rewardRecipient *
      (token.balances holder * (token.globalRewardPerToken - held.rewardPerToken)) := by
    rw [accrued_eq_ok hreward, optedWeight, if_neg hin, one_mul]
    exact div_mul_le_self ..
  unfold creditReward at hcredit
  split at hcredit
  · obtain ⟨_, hbalance, heq⟩ := map_ok hcredit
    cases heq
    obtain ⟨-, rfl⟩ := checkedAdd_eq_ok.mp hbalance
    exact settles_setRewardInfo hvalue
  · -- the delegate is credited first, then the holder's rate is noted
    rename_i hother
    obtain ⟨_, hbalance, heq⟩ := map_ok hcredit
    cases heq
    obtain ⟨-, rfl⟩ := checkedAdd_eq_ok.mp hbalance
    exact settles_delegate hvalue hother

/-! ### Actions -/

theorem liability_of_settled (hinfo : token'.userRewardInfo = token.userRewardInfo)
    (hrate : token'.globalRewardPerToken = token.globalRewardPerToken)
    (h : ∀ account, token'.balances account = token.balances account ∨
      (token.userRewardInfo account).rewardPerToken = token.globalRewardPerToken ∨
      (token.userRewardInfo account).rewardRecipient = 0) : token'.liability = token.liability := by
  apply sum_congr rfl
  intro account _
  rw [hinfo, hrate]
  rcases h account with heq | hsettled | hout
  · rw [heq]
  · rw [owed_of_settled hsettled, owed_of_settled hsettled]
  · rw [owed_of_out hout, owed_of_out hout]

theorem moveOptedIn_eq_ok {old new : Address} (h : token.moveOptedIn old new amount = .ok token') :
    token' = { token with optedInSupply := token'.optedInSupply } ∧
      token'.optedInSupply + optedWeight old * amount = token.optedInSupply + optedWeight new * amount := by
  unfold moveOptedIn at h
  split at h
  · rename_i hold
    split at h
    · rename_i hnew
      obtain ⟨_, hsupply, h⟩ := bind_ok h
      obtain ⟨_, hsupply', rfl⟩ := map_ok h
      obtain ⟨hle, rfl⟩ := checkedSub_eq_ok.mp hsupply
      obtain ⟨-, rfl⟩ := toU128_eq_ok.mp hsupply'
      refine ⟨rfl, ?_⟩
      simp only [optedWeight, if_neg hold, if_pos hnew]
      omega
    · rename_i hnew
      cases h
      simp [optedWeight, hold, hnew]
  · rename_i hold
    split at h
    · rename_i hnew
      obtain ⟨_, hsupply, h⟩ := bind_ok h
      obtain ⟨_, hsupply', rfl⟩ := map_ok h
      obtain ⟨-, rfl⟩ := checkedAdd_eq_ok.mp hsupply
      obtain ⟨-, rfl⟩ := toU128_eq_ok.mp hsupply'
      refine ⟨rfl, ?_⟩
      simp only [optedWeight, if_neg hnew, if_pos (not_not.mp hold)]
      omega
    · rename_i hnew
      cases h
      simp [not_not.mp hold, not_not.mp hnew]

/-- The rewards of a transfer settle both of its sides and move the opted-in supply. -/
theorem handleRewardsOnTransfer_eq_ok {contract : Address} {source target : Address} (hfork : ¬ .t8 ≤ spec)
    (ht : token.Tracked contract) (h : token.handleRewardsOnTransfer spec source target amount = .ok token') :
    ∃ mid, mid.Tracked contract ∧ SameFunds token mid ∧ mid.liability ≤ token.liability ∧
      (mid.userRewardInfo source).rewardPerToken = mid.globalRewardPerToken ∧
      (mid.userRewardInfo target).rewardPerToken = mid.globalRewardPerToken ∧
      token' = { mid with optedInSupply := token'.optedInSupply } ∧
      token'.optedInSupply + optedWeight (mid.userRewardInfo source).rewardRecipient * amount =
        mid.optedInSupply + optedWeight (mid.userRewardInfo target).rewardRecipient * amount := by
  obtain ⟨⟨_, first⟩, hfrom, h⟩ := bind_ok h
  obtain ⟨⟨_, mid⟩, hto, h⟩ := bind_ok h
  obtain ⟨hsettles, rfl⟩ := updateRewards_settles hfork hfrom
  have hfirst := hsettles.tracked ht
  obtain ⟨hsettles', rfl⟩ := updateRewards_settles hfork hto
  have hmove : mid.moveOptedIn (token.userRewardInfo source).rewardRecipient (first.userRewardInfo target).rewardRecipient
      amount = .ok token' := h
  obtain ⟨heq, hsum⟩ := moveOptedIn_eq_ok hmove
  rw [← hsettles.recipient source, ← hsettles'.recipient source, ← hsettles'.recipient target] at hsum
  have hsource : (first.userRewardInfo source).rewardPerToken = first.globalRewardPerToken := by
    rw [hsettles.settled, hsettles.rate]
  have htarget : (mid.userRewardInfo target).rewardPerToken = mid.globalRewardPerToken := by
    rw [hsettles'.settled, hsettles'.rate]
  exact ⟨mid, hsettles'.tracked hfirst, hsettles.funds.trans hsettles'.funds,
    hsettles'.liability_le.trans hsettles.liability_le, hsettles'.stays hsource, htarget, heq, hsum⟩

namespace Tracked

variable {contract : Address}

section
variable {source target : Address} {env : Env}
variable (ht : token.Tracked contract)
include ht
section
variable (hfork : ¬ .t8 ≤ spec)
include hfork
theorem transferTo (htarget : target ≠ 0) (h : token.transferTo spec source target amount = .ok token') :
    token'.Tracked contract ∧ token'.liability ≤ token.liability := by
  obtain ⟨hamount, after, hafter, rfl⟩ := transferTo_eq_ok htarget h
  obtain ⟨mid, hmid, hfunds, hle, hsource, htarget', heq, hsum⟩ := handleRewardsOnTransfer_eq_ok hfork ht hafter
  let weight account := optedWeight (mid.userRewardInfo account).rewardRecipient
  have hmoved := token.ledger.sum_move_weight weight target hamount
  have hopted := hmid.optedIn
  unfold optedBalances at hopted
  rw [hfunds.balances] at hopted
  rw [heq]
  refine ⟨{ hmid with optedIn := ?_ }, ?_⟩
  · show after.optedInSupply = ∑ account, weight account * (token.ledger.move source target amount).balances account
    change _ = ∑ account, weight account * token.balances account + _ at hmoved
    simp only [weight] at hmoved ⊢
    omega
  · apply (le_of_eq ?_).trans hle
    apply liability_of_settled
    · rfl
    · rfl
    intro account
    by_cases hs : account = source
    · subst hs
      exact .inr (.inl hsource)
    by_cases ht : account = target
    · subst ht
      exact .inr (.inl htarget')
    refine .inl ?_
    show (token.ledger.move source target amount).balances account = mid.balances account
    rw [hfunds.balances, balances_move_of_ne_ne _ _ hs ht]
    rfl

theorem burn {mid : Token} (h : token.transferTo spec source 0 amount = .ok mid)
    (hreduce : mid.reduceSupply amount = .ok token') :
    token'.Tracked contract ∧ token'.liability ≤ token.liability := by
  obtain ⟨hamount, after, hafter, rfl⟩ := transferTo_zero_eq_ok h
  obtain ⟨-, rfl⟩ := reduceSupply_eq_ok hreduce
  obtain ⟨mid, hmid, hfunds, hle, hsource, -, heq, hsum⟩ := handleRewardsOnTransfer_eq_ok hfork ht hafter
  let weight account := optedWeight (mid.userRewardInfo account).rewardRecipient
  have hburned := token.ledger.sum_burn_weight weight hamount
  have hopted := hmid.optedIn
  unfold optedBalances at hopted
  rw [hfunds.balances] at hopted
  have hzero : optedWeight (mid.userRewardInfo 0).rewardRecipient = 0 := by
    rw [hmid.zero_out]
    rfl
  rw [hzero] at hsum
  rw [heq]
  refine ⟨{ hmid with optedIn := ?_ }, ?_⟩
  · show after.optedInSupply = ∑ account, weight account * (token.ledger.burn source amount).balances account
    change _ = ∑ account, weight account * token.balances account at hburned
    simp only [weight] at hburned ⊢
    omega
  · apply (le_of_eq ?_).trans hle
    apply liability_of_settled
    · rfl
    · rfl
    intro account
    by_cases hs : account = source
    · subst hs
      exact .inr (.inl hsource)
    refine .inl ?_
    show (token.ledger.burn source amount).balances account = mid.balances account
    rw [hfunds.balances, balances_burn_of_ne _ _ hs]
    rfl

theorem mintTo {totalSupply : Nat} (h : token.mintTo spec target totalSupply amount = .ok token') :
    token'.Tracked contract ∧ token'.liability ≤ token.liability := by
  obtain ⟨-, after, hafter, rfl⟩ := mintTo_eq_ok h
  obtain ⟨⟨_, mid⟩, hupdate, hafter⟩ := bind_ok hafter
  obtain ⟨hsettles, rfl⟩ := updateRewards_settles hfork hupdate
  have hmid := hsettles.tracked ht
  have hmove : mid.moveOptedIn 0 (token.userRewardInfo target).rewardRecipient amount = .ok after := hafter
  obtain ⟨heq, hsum⟩ := moveOptedIn_eq_ok hmove
  rw [← hsettles.recipient target] at hsum
  let weight account := optedWeight (mid.userRewardInfo account).rewardRecipient
  have hminted := token.ledger.sum_mint_weight weight target amount
  have hopted := hmid.optedIn
  unfold optedBalances at hopted
  rw [hsettles.funds.balances] at hopted
  have hzero : optedWeight 0 = 0 := rfl
  rw [hzero] at hsum
  rw [heq]
  refine ⟨{ hmid with optedIn := ?_ }, ?_⟩
  · show after.optedInSupply = ∑ account, weight account * (token.ledger.mint target amount).balances account
    change _ = ∑ account, weight account * token.balances account + _ at hminted
    simp only [weight] at hminted ⊢
    omega
  · apply (le_of_eq ?_).trans hsettles.liability_le
    apply liability_of_settled
    · rfl
    · rfl
    intro account
    by_cases htarget : account = target
    · subst htarget
      exact .inr (.inl (by rw [hsettles.settled, hsettles.rate]))
    refine .inl ?_
    show (token.ledger.mint target amount).balances account = mid.balances account
    rw [hsettles.funds.balances, balances_mint_of_ne _ _ htarget]
    rfl
end

/-- A distribution raises what is owed by at most its amount. -/
theorem raiseRewardPerToken (h : token.raiseRewardPerToken amount = .ok token') :
    token'.Tracked contract ∧ token'.liability ≤ token.liability + amount * accPrecision := by
  obtain ⟨-, rfl⟩ := raiseRewardPerToken_eq_ok h
  generalize hraise : amount * accPrecision / token.optedInSupply = raise
  refine ⟨⟨fun account => (ht.rate_le account).trans (Nat.le_add_right ..), ?_, ht.self_out, ht.zero_out⟩, ?_⟩
  · show token.optedInSupply = ∑ account, optedWeight (token.userRewardInfo account).rewardRecipient * token.balances account
    rw [ht.optedIn, optedBalances]
  have hsum : ∑ account, (token.userRewardInfo account).owed (token.globalRewardPerToken + raise) (token.balances account) =
      token.liability + token.optedBalances * raise := by
    rw [sum_congr rfl fun account _ => owed_add (ht.rate_le account), sum_add_distrib, ← sum_mul, liability,
      optedBalances]
  have hbound : token.optedBalances * raise ≤ amount * accPrecision := by
    rw [← ht.optedIn, ← hraise]
    exact mul_div_le ..
  exact hsum.trans_le (Nat.add_le_add_left hbound _)

/-- Only the recipient of the holder changes, who has been settled. -/
theorem setRewardRecipient (hfork : ¬ .t8 ≤ env.spec) {recipient : Address} (hcontract : holder ≠ contract)
    (hholder : holder ≠ 0) (h : token.setRewardRecipient env holder recipient = .ok token') :
    token'.Tracked contract ∧ token'.liability ≤ token.liability := by
  rcases setRewardRecipient_eq_ok h with rfl | ⟨_, mid, last, hupdate, hlast, rfl⟩
  · exact ⟨ht, le_rfl⟩
  obtain ⟨hsettles, rfl⟩ := updateRewards_settles hfork hupdate
  have hmid := hsettles.tracked ht
  obtain ⟨heq, hsum⟩ := moveOptedIn_eq_ok hlast
  rw [← hsettles.recipient holder] at hsum
  generalize last.optedInSupply = supply at heq hsum
  subst heq
  have hsettled : (mid.userRewardInfo holder).rewardPerToken = mid.globalRewardPerToken := by
    rw [hsettles.settled, hsettles.rate]
  change Tracked contract ({ mid with optedInSupply := supply }.setRewardInfo holder
    ((mid.userRewardInfo holder).redirect recipient)) ∧ (mid.setRewardInfo holder
      ((mid.userRewardInfo holder).redirect recipient)).liability ≤ token.liability
  generalize hinfo : (mid.userRewardInfo holder).redirect recipient = info
  have hweights := sum_update (fun account info => optedWeight (rewardRecipient info) * mid.balances account)
    mid.userRewardInfo holder info
  have hredirect : info.rewardRecipient = recipient := by
    rw [← hinfo]
    rfl
  rw [hredirect] at hweights
  have hopted := hmid.optedIn
  unfold optedBalances at hopted
  refine ⟨⟨fun account => ?_, ?_, ?_, ?_⟩, ?_⟩
  · by_cases haccount : account = holder
    · subst haccount
      rw [setRewardInfo_self, ← hinfo]
      exact hmid.rate_le account
    · rw [setRewardInfo_of_ne _ haccount]
      exact hmid.rate_le account
  · show supply = ∑ account, optedWeight (update mid.userRewardInfo holder info account).rewardRecipient *
      mid.balances account
    omega
  · rw [setRewardInfo_of_ne _ hcontract.symm]
    exact hmid.self_out
  · rw [setRewardInfo_of_ne _ hholder.symm]
    exact hmid.zero_out
  · have howed := mid.liability_setRewardInfo holder info
    have hnew : owed mid.globalRewardPerToken (mid.balances holder) info =
        (mid.userRewardInfo holder).rewardBalance * accPrecision := by
      simp [owed, redirect, ← hinfo, hsettled]
    rw [owed_of_settled hsettled] at howed
    have hle := hsettles.liability_le
    omega

/-- A claim pays off what it takes from the contract. -/
theorem claimRewards (hfork : ¬ .t8 ≤ env.spec) (h : token.claimRewards env contract holder = .ok (amount, token')) :
    token'.Tracked contract ∧ token'.liability + amount * accPrecision ≤ token.liability := by
  obtain ⟨recipient, mid, optedIn, hupdate, hamount, hoptedIn, rfl⟩ := claimRewards_eq_ok h
  obtain ⟨hsettles, rfl⟩ := updateRewards_settles hfork hupdate
  have hmid := hsettles.tracked ht
  have hsettled : (mid.userRewardInfo holder).rewardPerToken = mid.globalRewardPerToken := by
    rw [hsettles.settled, hsettles.rate]
  have hreward : amount ≤ (mid.userRewardInfo holder).rewardBalance := by
    rw [hamount]
    exact min_le_left ..
  have hbalance : amount ≤ mid.ledger.balances contract := by
    rw [hamount]
    exact min_le_right ..
  have hmoved := mid.ledger.sum_move_weight (fun account => optedWeight (mid.userRewardInfo account).rewardRecipient)
    holder hbalance
  have hcontract : optedWeight (mid.userRewardInfo contract).rewardRecipient = 0 := by
    rw [hmid.self_out]
    rfl
  rw [hcontract, zero_mul, add_zero] at hmoved
  obtain ⟨paid, hpaid⟩ : ∃ paid, paid = (mid.userRewardInfo holder).pay amount := ⟨_, rfl⟩
  suffices hafter : ∀ after, after = { mid with
      balances := (mid.ledger.move contract holder amount).balances
      optedInSupply := optedIn
      userRewardInfo := update mid.userRewardInfo holder paid } →
        after.Tracked contract ∧ after.liability + amount * accPrecision ≤ token.liability by
    rw [hpaid] at hafter
    exact hafter _ rfl
  intro after hafter
  -- only the reward balance of the holder changes in the records
  have hrecord : ∀ account,
      (update mid.userRewardInfo holder paid account).rewardRecipient = (mid.userRewardInfo account).rewardRecipient ∧
        (update mid.userRewardInfo holder paid account).rewardPerToken =
          (mid.userRewardInfo account).rewardPerToken := by
    intro account
    by_cases haccount : account = holder
    · subst haccount
      simp [hpaid, pay]
    · simp [update_of_ne haccount]
  have hsame : after.liability = (mid.setRewardInfo holder paid).liability := by
    subst hafter
    apply liability_of_settled
    · rfl
    · rfl
    intro account
    by_cases hholder : account = holder
    · subst hholder
      refine .inr (.inl ?_)
      rw [setRewardInfo_self, hpaid]
      exact hsettled
    by_cases haccount : account = contract
    · subst haccount
      refine .inr (.inr ?_)
      rw [setRewardInfo_of_ne _ hholder]
      exact hmid.self_out
    · exact .inl (balances_move_of_ne_ne _ _ haccount hholder)
  constructor
  · subst hafter
    refine ⟨fun account => ?_, ?_, ?_, ?_⟩
    · rw [(hrecord account).2]
      exact hmid.rate_le account
    · show optedIn = ∑ account, optedWeight (update mid.userRewardInfo holder paid account).rewardRecipient *
        (mid.ledger.move contract holder amount).balances account
      have hshare : optedIn = mid.optedInSupply + optedWeight (mid.userRewardInfo holder).rewardRecipient * amount := by
        rw [hoptedIn, hsettles.recipient holder]
        by_cases hout : (token.userRewardInfo holder).rewardRecipient = 0
        · simp [hout, optedWeight]
        · simp [hout, optedWeight]
      rw [sum_congr rfl fun account _ => by rw [(hrecord account).1], hmoved, hshare, hmid.optedIn]
      rfl
    · rw [(hrecord contract).1]
      exact hmid.self_out
    · rw [(hrecord 0).1]
      exact hmid.zero_out
  · have hset := mid.liability_setRewardInfo holder paid
    have hnew : owed mid.globalRewardPerToken (mid.balances holder) paid =
        ((mid.userRewardInfo holder).rewardBalance - amount) * accPrecision := by
      simp [owed, pay, hpaid, hsettled]
    rw [owed_of_settled hsettled] at hset
    have hsplit : (mid.userRewardInfo holder).rewardBalance * accPrecision =
        ((mid.userRewardInfo holder).rewardBalance - amount) * accPrecision + amount * accPrecision := by
      rw [← add_mul, Nat.sub_add_cancel hreward]
    have hle := hsettles.liability_le
    omega
end

end Tracked

/-! ### Every call -/

/-- The accounting is up to date, the contract's balance covers what is owed, and nobody may spend it. -/
structure Funded (contract : Address) (token : Token) : Prop where
  tracked : token.Tracked contract
  backed : token.liability ≤ token.balances contract * accPrecision
  allowances : ∀ spender, token.allowances contract spender = 0

def KeepsFunded (contract : Address) (action : TokenAction) : Prop :=
  action.Spares contract ∧ ∀ recipient, action ≠ .setRecipient 0 recipient

namespace Funded

variable {env : Env} {contract : Address} {action : TokenAction}

theorem empty (contract : Address) : Funded contract {} := by
  refine ⟨⟨fun _ => le_rfl, ?_, rfl, rfl⟩, ?_, fun _ => rfl⟩
  · exact (sum_eq_zero fun _ _ => mul_zero _).symm
  · apply le_of_eq
    rw [liability, sum_eq_zero]
    · exact (zero_mul _).symm
    · simp [owed]

/-- **One action keeps the rewards funded.** -/
theorem performs (h : token.Funded contract) (hfork : ¬ .t8 ≤ env.spec) (hcontract : contract ≠ 0)
    (hkeeps : KeepsFunded contract action) (haction : Performs env contract action token token') :
    token'.Funded contract := by
  obtain ⟨hspares, hrecipient⟩ := hkeeps
  have hallow : ∀ spender, token'.allowances contract spender = 0 := fun spender =>
    le_zero.mp ((haction.allowances_le hspares spender).trans ((h.allowances spender).le))
  have hbalance : (∀ holder amount, action ≠ .claim holder amount) →
      token.balances contract * accPrecision ≤ token'.balances contract * accPrecision := fun hclaim =>
    mul_le_mul_right _ (haction.le_balances hcontract hspares fun holder amount heq => absurd heq (hclaim holder amount))
  have hbacked := h.backed
  cases haction with
  | @administer _ _ approver hsame =>
    refine ⟨⟨?_, ?_, ?_, ?_⟩, ?_, hallow⟩
    · rw [hsame.userRewardInfo, hsame.globalRewardPerToken]
      exact h.tracked.rate_le
    · rw [hsame.optedInSupply, optedBalances, hsame.userRewardInfo, hsame.balances]
      exact h.tracked.optedIn
    · rw [hsame.userRewardInfo]
      exact h.tracked.self_out
    · rw [hsame.userRewardInfo]
      exact h.tracked.zero_out
    · rw [liability, hsame.userRewardInfo, hsame.globalRewardPerToken, hsame.balances]
      exact h.backed
  | move htarget hmove =>
    obtain ⟨htracked, hle⟩ := h.tracked.transferTo hfork htarget hmove
    exact ⟨htracked, (hle.trans hbacked).trans (hbalance (by simp)), hallow⟩
  | burn hburn hreduce =>
    obtain ⟨htracked, hle⟩ := h.tracked.burn hfork hburn hreduce
    exact ⟨htracked, (hle.trans hbacked).trans (hbalance (by simp)), hallow⟩
  | mint hmint =>
    obtain ⟨htracked, hle⟩ := h.tracked.mintTo hfork hmint
    exact ⟨htracked, (hle.trans hbacked).trans (hbalance (by simp)), hallow⟩
  | @distribute _ mid _ funder amount hmove hraise =>
    obtain ⟨htracked, hle⟩ := h.tracked.transferTo hfork hcontract hmove
    obtain ⟨htracked', hle'⟩ := htracked.raiseRewardPerToken hraise
    refine ⟨htracked', ?_, hallow⟩
    have hfunded : mid.balances contract = token.balances contract + amount := by
      obtain ⟨-, _, -, rfl⟩ := transferTo_eq_ok hcontract hmove
      exact token.ledger.balances_move_of_ne amount hspares.symm
    rw [(raiseRewardPerToken_sameFunds hraise).balances, hfunded, add_mul]
    omega
  | setRecipient hset =>
    obtain ⟨htracked, hle⟩ := h.tracked.setRewardRecipient hfork hspares (fun hzero => hrecipient _ (by rw [hzero])) hset
    exact ⟨htracked, (hle.trans hbacked).trans (le_of_eq (by rw [(setRewardRecipient_sameFunds hset).balances])), hallow⟩
  | @claim _ _ holder amount hclaim =>
    obtain ⟨htracked, hle⟩ := h.tracked.claimRewards hfork hclaim
    refine ⟨htracked, ?_, hallow⟩
    obtain ⟨_, mid, _, hupdate, -, -, rfl⟩ := claimRewards_eq_ok hclaim
    have hpaid := mid.ledger.balances_move_source_of_ne amount hspares
    change (mid.ledger.move contract holder amount).balances contract = mid.balances contract - amount at hpaid
    rw [(updateRewards_sameFunds hupdate).balances] at hpaid
    change _ ≤ (mid.ledger.move contract holder amount).balances contract * accPrecision
    rw [hpaid, Nat.sub_mul]
    omega

/-! ### What follows from it -/

section
variable (h : token.Funded contract)
include h
end

end Funded
end Token

namespace World

theorem ne_guard_of_isTip20Prefix {address : Address} (h : isTip20Prefix address = true) :
    address ≠ receivePolicyGuardAddress := by
  rintro rfl
  revert h
  decide

variable {record : CallRecord}

end World
end LeafageEvm.Tempo
