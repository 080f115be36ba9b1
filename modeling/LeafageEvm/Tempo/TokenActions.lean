import LeafageEvm.Ledger
import LeafageEvm.Tempo.Token

/-! What a successful call does to a token, as a list of a few kinds of actions: tokens move, are burned or
minted, rewards are distributed or claimed, a recipient is set. Each action is then an operation of the ledger
of balances. -/

namespace LeafageEvm.Tempo
open Recipient Ledger Token
variable {address : Address}

namespace Token

variable {holder recipient source target : Address} {amount : Nat}

def ledger (token : Token) : Ledger Address := ⟨token.balances, token.totalSupply⟩

/-- Nothing but the rewards differs. -/
structure SameFunds (token token' : Token) : Prop where
  balances : token'.balances = token.balances
  totalSupply : token'.totalSupply = token.totalSupply
  supplyCap : token'.supplyCap = token.supplyCap
  allowances : token'.allowances = token.allowances

namespace SameFunds

variable {token token' token'' : Token}

theorem refl : SameFunds token token := ⟨rfl, rfl, rfl, rfl⟩

theorem trans (h : SameFunds token token') (h' : SameFunds token' token'') : SameFunds token token'' :=
  ⟨h'.balances.trans h.balances, h'.totalSupply.trans h.totalSupply, h'.supplyCap.trans h.supplyCap,
    h'.allowances.trans h.allowances⟩

theorem ledger (h : SameFunds token token') : token'.ledger = token.ledger := by
  rw [Token.ledger, h.balances, h.totalSupply, Token.ledger]

end SameFunds

/-! ### Rewards leave the funds alone -/

variable {spec : TempoHardfork} {token token' : Token} {env : Env}

theorem creditReward_sameFunds {info info' : UserRewardInfo} {reward : Nat}
    (h : token.creditReward holder info reward = .ok (token', info')) : SameFunds token token' := by
  unfold creditReward at h
  split at h
  · obtain ⟨_, -, heq⟩ := map_ok h
    cases heq
    exact .refl
  · obtain ⟨_, -, heq⟩ := map_ok h
    cases heq
    exact ⟨rfl, rfl, rfl, rfl⟩

theorem updateRewards_sameFunds (h : token.updateRewards spec holder = .ok (recipient, token')) :
    SameFunds token token' := by
  unfold updateRewards at h
  split at h
  · cases h
    exact .refl
  obtain ⟨_, h⟩ := rest_ok h
  split at h
  · cases h
    exact .refl
  obtain ⟨⟨_, _⟩, hcredit, heq⟩ := map_ok h
  cases heq
  split at hcredit
  · cases hcredit
    exact ⟨rfl, rfl, rfl, rfl⟩
  · obtain ⟨_, hcredit⟩ := rest_ok hcredit
    have hsame := creditReward_sameFunds hcredit
    exact { hsame with }

theorem addOptedIn_sameFunds (h : token.addOptedIn amount = .ok token') : SameFunds token token' := by
  obtain ⟨_, h⟩ := rest_ok h
  obtain ⟨_, -, rfl⟩ := map_ok h
  exact ⟨rfl, rfl, rfl, rfl⟩

theorem subOptedIn_sameFunds (h : token.subOptedIn amount = .ok token') : SameFunds token token' := by
  obtain ⟨_, h⟩ := rest_ok h
  obtain ⟨_, -, rfl⟩ := map_ok h
  exact ⟨rfl, rfl, rfl, rfl⟩

theorem handleRewardsOnTransfer_sameFunds (h : token.handleRewardsOnTransfer spec source target amount = .ok token') :
    SameFunds token token' := by
  obtain ⟨⟨_, _⟩, hfrom, h⟩ := bind_ok h
  obtain ⟨⟨_, _⟩, hto, h⟩ := bind_ok h
  have hboth := (updateRewards_sameFunds hfrom).trans (updateRewards_sameFunds hto)
  split at h
  · split at h
    · exact hboth.trans (subOptedIn_sameFunds h)
    · cases h
      exact hboth
  split at h
  · exact hboth.trans (addOptedIn_sameFunds h)
  · cases h
    exact hboth

theorem handleRewardsOnMint_sameFunds (h : token.handleRewardsOnMint spec target amount = .ok token') :
    SameFunds token token' := by
  obtain ⟨⟨_, _⟩, hto, h⟩ := bind_ok h
  split at h
  · exact (updateRewards_sameFunds hto).trans (addOptedIn_sameFunds h)
  · cases h
    exact updateRewards_sameFunds hto

/-! ### What the helpers do -/

theorem transferTo_eq_ok (htarget : target ≠ 0) (h : token.transferTo spec source target amount = .ok token') :
    amount ≤ token.balances source ∧ ∃ mid, token.handleRewardsOnTransfer spec source target amount = .ok mid ∧
      token' = { mid with balances := (token.ledger.move source target amount).balances } := by
  unfold transferTo at h
  simp only at h
  split at h
  · cases h
  rename_i hamount
  obtain ⟨mid, hmid, h⟩ := bind_ok h
  obtain ⟨_, hsub, h⟩ := bind_ok h
  obtain ⟨_, hgiven, rfl⟩ := map_ok h
  have hsame := handleRewardsOnTransfer_sameFunds hmid
  obtain ⟨-, rfl⟩ := checkedSub_eq_ok.mp hsub
  obtain ⟨-, rfl⟩ := checkedAdd_eq_ok.mp hgiven
  refine ⟨not_lt.mp hamount, mid, hmid, ?_⟩
  simp [setBalance, Ledger.move, Ledger.set, ledger, hsame.balances]

theorem ledger_transferTo (htarget : target ≠ 0) (h : token.transferTo spec source target amount = .ok token') :
    token'.ledger = token.ledger.move source target amount := by
  obtain ⟨-, mid, hmid, rfl⟩ := transferTo_eq_ok htarget h
  show Ledger.mk _ mid.totalSupply = _
  rw [(handleRewardsOnTransfer_sameFunds hmid).totalSupply]
  rfl

theorem transferTo_zero_eq_ok (h : token.transferTo spec source 0 amount = .ok token') :
    amount ≤ token.balances source ∧ ∃ mid, token.handleRewardsOnTransfer spec source 0 amount = .ok mid ∧
      token' = { mid with balances := (token.ledger.burn source amount).balances } := by
  unfold transferTo at h
  simp only at h
  split at h
  · cases h
  rename_i hamount
  obtain ⟨mid, hmid, h⟩ := bind_ok h
  obtain ⟨_, hsub, h⟩ := bind_ok h
  cases h
  have hsame := handleRewardsOnTransfer_sameFunds hmid
  obtain ⟨-, rfl⟩ := checkedSub_eq_ok.mp hsub
  refine ⟨not_lt.mp hamount, mid, hmid, ?_⟩
  simp [setBalance, Ledger.burn, Ledger.set, ledger, hsame.balances]

theorem mintTo_eq_ok {totalSupply : Nat} (h : token.mintTo spec target totalSupply amount = .ok token') :
    totalSupply + amount ≤ token.supplyCap ∧ ∃ mid, token.handleRewardsOnMint spec target amount = .ok mid ∧
      token' = { mid with balances := (token.ledger.mint target amount).balances, totalSupply := totalSupply + amount } := by
  obtain ⟨_, hsupply, h⟩ := bind_ok h
  obtain ⟨-, rfl⟩ := checkedAdd_eq_ok.mp hsupply
  split at h
  · cases h
  rename_i hcap
  obtain ⟨mid, hmid, h⟩ := bind_ok h
  obtain ⟨_, hgiven, rfl⟩ := map_ok h
  have hsame := handleRewardsOnMint_sameFunds hmid
  obtain ⟨-, rfl⟩ := checkedAdd_eq_ok.mp hgiven
  refine ⟨not_lt.mp hcap, mid, hmid, ?_⟩
  simp [setBalance, Ledger.mint, Ledger.set, ledger, hsame.balances]

theorem reduceSupply_eq_ok (h : token.reduceSupply amount = .ok token') :
    amount ≤ token.totalSupply ∧ token' = { token with totalSupply := token.totalSupply - amount } := by
  obtain ⟨_, hsub, rfl⟩ := map_ok h
  obtain ⟨hle, rfl⟩ := checkedSub_eq_ok.mp hsub
  exact ⟨hle, rfl⟩

section
variable (h : token.raiseRewardPerToken amount = .ok token')
include h
theorem raiseRewardPerToken_eq_ok : token.optedInSupply ≠ 0 ∧ token' = { token with
      globalRewardPerToken := token.globalRewardPerToken + amount * accPrecision / token.optedInSupply } := by
  obtain ⟨hopted, h⟩ := check_ok h
  obtain ⟨_, hscaled, h⟩ := bind_ok h
  obtain ⟨_, hrate, rfl⟩ := map_ok h
  obtain ⟨-, rfl⟩ := checkedMul_eq_ok.mp hscaled
  obtain ⟨-, rfl⟩ := checkedAdd_eq_ok.mp hrate
  exact ⟨hopted, rfl⟩

theorem raiseRewardPerToken_sameFunds : SameFunds token token' := by
  obtain ⟨-, rfl⟩ := raiseRewardPerToken_eq_ok h
  exact ⟨rfl, rfl, rfl, rfl⟩
end

/-- The supply that opted in after the recipient of a balance changes from `old` to `new`. -/
def moveOptedIn (token : Token) (old new : Address) (amount : Nat) : Except TempoError Token :=
  if old ≠ 0 then
    if new = 0 then token.subOptedIn amount else .ok token
  else if new ≠ 0 then token.addOptedIn amount
  else .ok token

theorem moveOptedIn_sameFunds {old new : Address} (h : token.moveOptedIn old new amount = .ok token') :
    SameFunds token token' := by
  unfold moveOptedIn at h
  split at h
  · split at h
    · exact subOptedIn_sameFunds h
    · cases h
      exact .refl
  split at h
  · exact addOptedIn_sameFunds h
  · cases h
    exact .refl

section
variable (h : token.setRewardRecipient env holder recipient = .ok token')
include h
theorem setRewardRecipient_eq_ok :
    token' = token ∨ ∃ old mid last, token.updateRewards env.spec holder = .ok (old, mid) ∧
      mid.moveOptedIn old recipient (mid.balances holder) = .ok last ∧
      token' = last.setRewardInfo holder { last.userRewardInfo holder with rewardRecipient := recipient } := by
  unfold setRewardRecipient at h
  split at h
  · cases h
    exact .inl rfl
  iterate 3 obtain ⟨_, h⟩ := rest_ok h
  obtain ⟨⟨old, mid⟩, hupdate, h⟩ := bind_ok h
  obtain ⟨last, hlast, rfl⟩ := map_ok h
  exact .inr ⟨old, mid, last, hupdate, hlast, rfl⟩

theorem setRewardRecipient_sameFunds : SameFunds token token' := by
  rcases setRewardRecipient_eq_ok h with rfl | ⟨_, _, _, hupdate, hlast, rfl⟩
  · exact .refl
  · have hsame := (updateRewards_sameFunds hupdate).trans (moveOptedIn_sameFunds hlast)
    exact { hsame with }
end

/-- A claim settles the holder's rewards and pays what the contract's balance allows. -/
theorem claimRewards_eq_ok {self : Address} (h : token.claimRewards env self holder = .ok (amount, token')) :
    ∃ recipient mid optedIn, token.updateRewards env.spec holder = .ok (recipient, mid) ∧
      amount = min (mid.userRewardInfo holder).rewardBalance (mid.balances self) ∧
      optedIn = (if recipient ≠ 0 then mid.optedInSupply + amount else mid.optedInSupply) ∧
      token' = { mid with
        balances := (mid.ledger.move self holder amount).balances
        optedInSupply := optedIn
        userRewardInfo := Function.update mid.userRewardInfo holder
          { mid.userRewardInfo holder with rewardBalance := (mid.userRewardInfo holder).rewardBalance - amount } } := by
  iterate 2 obtain ⟨_, h⟩ := rest_ok h
  obtain ⟨⟨recipient, mid⟩, hupdate, h⟩ := bind_ok h
  obtain ⟨_, hrest, h⟩ := bind_ok h
  obtain ⟨-, rfl⟩ := checkedSub_eq_ok.mp hrest
  obtain ⟨_, hpaid, heq⟩ := map_ok h
  cases heq
  refine ⟨recipient, mid, _, hupdate, rfl, rfl, ?_⟩
  split at hpaid
  · obtain ⟨_, hcontract, hpaid⟩ := bind_ok hpaid
    obtain ⟨_, hbalance, hpaid⟩ := bind_ok hpaid
    obtain ⟨-, rfl⟩ := checkedSub_eq_ok.mp hcontract
    obtain ⟨-, rfl⟩ := checkedAdd_eq_ok.mp hbalance
    by_cases hrecipient : recipient = 0
    · rw [if_neg (by simpa using hrecipient)] at hpaid
      cases hpaid
      simp [hrecipient, setBalance, setRewardInfo, Ledger.move, Ledger.set, ledger]
    rw [if_pos hrecipient] at hpaid
    obtain ⟨_, hsupply, hpaid⟩ := bind_ok hpaid
    obtain ⟨_, hsupply', rfl⟩ := map_ok hpaid
    obtain ⟨-, rfl⟩ := checkedAdd_eq_ok.mp hsupply
    obtain ⟨-, rfl⟩ := toU128_eq_ok.mp hsupply'
    simp [hrecipient, setBalance, setRewardInfo, Ledger.move, Ledger.set, ledger]
  · rename_i hzero
    cases hpaid
    have hamount : min (mid.userRewardInfo holder).rewardBalance (mid.balances self) = 0 := Nat.eq_zero_of_not_pos hzero
    simp [hamount, setRewardInfo, Ledger.move_zero, ledger]

end Token

/-! ### Recipients -/

theorem not_isVirtual_zero : isVirtual 0 = false := by decide

theorem not_isVirtual_of_isTip20Prefix (h : isTip20Prefix address = true) : isVirtual address = false := by
  unfold isTip20Prefix at h
  unfold isVirtual
  simp only [decide_eq_true_eq, decide_eq_false_iff_not] at h ⊢
  omega

theorem resolveRecipient_of_not_isVirtual (env : Env) (h : isVirtual address = false) :
    resolveRecipient env address = .ok address := by
  simp [resolveRecipient, h]

theorem Recipient.resolve_of_not_isVirtual (env : Env) (h : isVirtual address = false) :
    resolve env address = .ok (.direct address) := by
  simp [resolve, resolveRecipient_of_not_isVirtual env h, Except.map]

theorem Recipient.validate_eq_ok {dest : Recipient} {u : Unit} (h : dest.validate = .ok u) :
    dest.target ≠ 0 ∧ isTip20Prefix dest.target = false := by
  have := require_eq_ok.mp h
  simpa using this

theorem ne_zero_of_isTip20Prefix (h : isTip20Prefix address = true) : address ≠ 0 := by
  rintro rfl
  revert h
  decide

/-! ### Actions -/

inductive TokenAction where
  | administer (approver : Option Address)
  | move (source target : Address) (amount : Nat)
  | burn (source : Address) (amount : Nat)
  | mint (target : Address) (amount : Nat)
  | distribute (funder : Address) (amount : Nat)
  | setRecipient (holder recipient : Address)
  | claim (holder : Address) (amount : Nat)
  deriving DecidableEq

namespace Token

variable {token token' : Token} {env : Env} {self : Address}

/-- Balances, supply and rewards are the same; the cap may change to one that the supply keeps, and only the
allowances of the approver may rise. -/
structure SameBooks (approver : Option Address) (token token' : Token) : Prop where
  balances : token'.balances = token.balances
  totalSupply : token'.totalSupply = token.totalSupply
  globalRewardPerToken : token'.globalRewardPerToken = token.globalRewardPerToken
  optedInSupply : token'.optedInSupply = token.optedInSupply
  userRewardInfo : token'.userRewardInfo = token.userRewardInfo
  supplyCap : token'.supplyCap = token.supplyCap ∨
    token'.supplyCap ≤ u128Max ∧ (token.totalSupply ≤ u128Max → token.totalSupply ≤ token'.supplyCap)
  allowances : ∀ owner spender, approver ≠ some owner → token'.allowances owner spender ≤ token.allowances owner spender

theorem SameBooks.ledger {approver : Option Address} (h : SameBooks approver token token') : token'.ledger = token.ledger := by
  rw [Token.ledger, h.balances, h.totalSupply, Token.ledger]

theorem SameBooks.refl {approver : Option Address} : SameBooks approver token token :=
  ⟨rfl, rfl, rfl, rfl, rfl, .inl rfl, fun _ _ _ => le_rfl⟩

/-- What an action does to the token at `self`. -/
inductive Performs (env : Env) (self : Address) : TokenAction → Token → Token → Prop where
  | administer {token token' : Token} {approver : Option Address} (h : SameBooks approver token token') :
      Performs env self (.administer approver) token token'
  | move {token token' : Token} {source target : Address} {amount : Nat} (htarget : target ≠ 0)
      (h : token.transferTo env.spec source target amount = .ok token') :
      Performs env self (.move source target amount) token token'
  | burn {token mid token' : Token} {source : Address} {amount : Nat}
      (h : token.transferTo env.spec source 0 amount = .ok mid) (hreduce : mid.reduceSupply amount = .ok token') :
      Performs env self (.burn source amount) token token'
  | mint {token token' : Token} {target : Address} {amount : Nat}
      (h : token.mintTo env.spec target token.totalSupply amount = .ok token') :
      Performs env self (.mint target amount) token token'
  | distribute {token mid token' : Token} {funder : Address} {amount : Nat}
      (h : token.transferTo env.spec funder self amount = .ok mid) (hraise : mid.raiseRewardPerToken amount = .ok token') :
      Performs env self (.distribute funder amount) token token'
  | setRecipient {token token' : Token} {holder recipient : Address}
      (h : token.setRewardRecipient env holder recipient = .ok token') :
      Performs env self (.setRecipient holder recipient) token token'
  | claim {token token' : Token} {holder : Address} {amount : Nat}
      (h : token.claimRewards env self holder = .ok (amount, token')) :
      Performs env self (.claim holder amount) token token'

/-- Actions one after another. -/
inductive PerformsAll (env : Env) (self : Address) : List TokenAction → Token → Token → Prop where
  | nil (token : Token) : PerformsAll env self [] token token
  | cons {action : TokenAction} {actions : List TokenAction} {token mid token' : Token}
      (h : Performs env self action token mid) (hrest : PerformsAll env self actions mid token') :
      PerformsAll env self (action :: actions) token token'

theorem PerformsAll.single {action : TokenAction} (h : Performs env self action token token') :
    PerformsAll env self [action] token token' :=
  .cons h (.nil token')

/-- What every action keeps, all of them keep. -/
theorem PerformsAll.induct (Allowed : TokenAction → Prop) {motive : Token → Prop}
    (hstep : ∀ action token token', Allowed action → Performs env self action token token' → motive token → motive token')
    {actions : List TokenAction} (h : PerformsAll env self actions token token')
    (hallowed : ∀ action ∈ actions, Allowed action) (hstart : motive token) : motive token' := by
  induction h with
  | nil => exact hstart
  | cons h _ ih =>
    apply ih fun action haction => hallowed action (.tail _ haction)
    exact hstep _ _ _ (hallowed _ (.head _)) h hstart

end Token

/-- The actions a call of `msgSender` may perform on the token at `self`, by whose balance they lower. -/
def TokenCall.Permits (env : Env) (self msgSender : Address) (token : Token) (call : TokenCall) : TokenAction → Prop
  | .administer approver => ∀ owner, approver = some owner → owner = msgSender ∨
      ∃ spender value nonce deadline, env.recoverSigner owner spender value nonce deadline = some owner
  | .move source _ amount => source = msgSender ∨
      (∃ dest memo, call = .transferFrom source dest amount memo ∧ amount ≤ token.allowances source msgSender) ∨
      (∃ dest receipt, call = .claim dest receipt ∧ source = receivePolicyGuardAddress)
  | .burn source amount => source = msgSender ∨
      (Token.checkBurnAddress env self source = .ok () ∧
        (call = .burnBlocked source amount ∨ call = .burnAt source amount ∧ .t12 ≤ env.spec)) ∨
      (∃ receipt, call = .burnBlockedReceipt receipt ∧ source = receivePolicyGuardAddress)
  | .mint _ _ => True
  | .distribute funder _ => funder = msgSender
  | .setRecipient holder _ => holder = msgSender
  | .claim holder _ => holder = msgSender

namespace Token

variable {owner source msgSender : Address} {amount : Nat} {env : Env} {self : Address} {token token' : Token}
variable {spender : Address}

theorem allowances_setAllowance_of_ne {owner' : Address} (h : owner' ≠ owner) (spender spender' : Address) (amount : Nat) :
    (token.setAllowance owner spender amount).allowances owner' spender' = token.allowances owner' spender' := by
  simp [setAllowance, Function.update_of_ne h]

theorem setAllowance_sameBooks (owner spender : Address) (amount : Nat) :
    SameBooks (some owner) token (token.setAllowance owner spender amount) := by
  refine ⟨rfl, rfl, rfl, rfl, rfl, .inl rfl, fun _ spender' h => ?_⟩
  exact le_of_eq (allowances_setAllowance_of_ne (fun heq => h (by rw [heq])) spender spender' amount)

theorem consumeAllowance_eq_ok (h : token.consumeAllowance owner spender amount = .ok token') :
    amount ≤ token.allowances owner spender ∧ SameBooks none token token' := by
  unfold consumeAllowance at h
  simp only at h
  split at h
  · cases h
  rename_i hallowed
  refine ⟨not_lt.mp hallowed, ?_⟩
  split at h
  · cases h
    exact .refl
  obtain ⟨_, hrest, rfl⟩ := map_ok h
  obtain ⟨-, rfl⟩ := checkedSub_eq_ok.mp hrest
  refine ⟨rfl, rfl, rfl, rfl, rfl, .inl rfl, fun owner' spender' _ => ?_⟩
  by_cases howner : owner' = owner
  · subst howner
    by_cases hspender : spender' = spender
    · subst hspender
      simp [setAllowance]
    · simp [setAllowance, Function.update_of_ne hspender]
  · exact (allowances_setAllowance_of_ne howner spender spender' _).le

theorem transferInner_eq_ok {target : Address} (hvirtual : isVirtual target = false)
    (h : token.transferInner env source target amount = .ok token') :
    token.transferTo env.spec source target amount = .ok token' := by
  obtain ⟨_, hdest, h⟩ := bind_ok h
  rw [resolve_of_not_isVirtual env hvirtual] at hdest
  cases hdest
  exact h

theorem burnFrom_performs (h : token.burnFrom env source amount = .ok token') :
    Performs env self (.burn source amount) token token' := by
  obtain ⟨_, hmid, h⟩ := bind_ok h
  exact .burn (transferInner_eq_ok not_isVirtual_zero hmid) h

theorem burn_performs (h : token.burn env msgSender amount = .ok token') :
    Performs env self (.burn msgSender amount) token token' := by
  iterate 2 obtain ⟨_, h⟩ := rest_ok h
  exact burnFrom_performs h

theorem burnBlockedInternal_performs {checkProtected : Bool}
    (h : token.burnBlockedInternal env self msgSender owner amount checkProtected = .ok token') :
    Performs env self (.burn (if checkProtected then owner else receivePolicyGuardAddress) amount) token token' ∧
      (checkProtected = true → checkBurnAddress env self owner = .ok ()) ∧ env.isAuthorizedAs .sender owner = .ok false := by
  iterate 2 obtain ⟨_, h⟩ := rest_ok h
  obtain ⟨_, hprotected, h⟩ := bind_ok h
  obtain ⟨_, hauthorized, h⟩ := bind_ok h
  obtain ⟨hfalse, h⟩ := check_ok h
  subst hfalse
  refine ⟨burnFrom_performs h, ?_, hauthorized⟩
  rintro rfl
  exact hprotected

theorem burnAt_performs (h : token.burnAt env self msgSender source amount = .ok token') :
    Performs env self (.burn source amount) token token' ∧ checkBurnAddress env self source = .ok () := by
  iterate 2 obtain ⟨_, h⟩ := rest_ok h
  obtain ⟨_, hprotected, h⟩ := bind_ok h
  obtain ⟨_, h⟩ := rest_ok h
  exact ⟨burnFrom_performs h, hprotected⟩

theorem releaseBlockedFunds_performs {originator receiver dest recoveryAuthority : Address} {mode : RecoveryMode}
    (h : token.releaseBlockedFunds env originator receiver dest amount mode recoveryAuthority = .ok token') :
    ∃ destination, Recipient.resolve env dest = .ok destination ∧
      Performs env self (.move receivePolicyGuardAddress destination.target amount) token token' := by
  obtain ⟨_, h⟩ := rest_ok h
  obtain ⟨destination, hdestination, h⟩ := bind_ok h
  obtain ⟨_, hvalid, h⟩ := bind_ok h
  obtain ⟨_, h⟩ := rest_ok h
  exact ⟨destination, hdestination, .move (validate_eq_ok hvalid).1 h⟩

theorem distributeReward_performs (hself : isTip20Prefix self = true)
    (h : token.distributeReward env self msgSender amount = .ok token') :
    token' = token ∨ Performs env self (.distribute msgSender amount) token token' := by
  unfold distributeReward at h
  split at h
  · cases h
    exact .inl rfl
  iterate 4 obtain ⟨_, h⟩ := rest_ok h
  obtain ⟨_, hmid, h⟩ := bind_ok h
  exact .inr (.distribute (transferInner_eq_ok (not_isVirtual_of_isTip20Prefix hself) hmid) h)

theorem permit_sameBooks {value deadline : Nat} (h : token.permit env owner spender value deadline = .ok token') :
    SameBooks (some owner) token token' ∧ env.recoverSigner owner spender value (token.permitNonces owner) deadline = some owner := by
  obtain ⟨_, h⟩ := rest_ok h
  obtain ⟨hsigner, h⟩ := check_ok h
  obtain ⟨_, -, rfl⟩ := map_ok h
  refine ⟨⟨rfl, rfl, rfl, rfl, rfl, .inl rfl, fun _ spender' h => ?_⟩, hsigner⟩
  exact le_of_eq (allowances_setAllowance_of_ne (fun heq => h (by rw [heq])) spender spender' value)

theorem setSupplyCap_sameBooks {newSupplyCap : Nat} (h : token.setSupplyCap env msgSender newSupplyCap = .ok token') :
    SameBooks none token token' := by
  obtain ⟨_, h⟩ := rest_ok h
  obtain ⟨hsupply, h⟩ := check_ok h
  obtain ⟨_, hcap, rfl⟩ := map_ok h
  exact ⟨rfl, rfl, rfl, rfl, rfl, .inr ⟨require_eq_ok.mp hcap, fun _ => hsupply⟩, fun _ _ _ => le_rfl⟩

end Token

namespace Custody

variable {dest source msgSender : Address} {amount memo : Nat} {env : Env} {self : Address} {state state' : Custody}
variable {spender : Option Address} {receipt : Receipt}

theorem validateInboundOrBlock_eq_ok {originator : Address} {dest : Recipient} {mintTotalSupply : Option Nat} {blocked : Bool}
    (h : state.validateInboundOrBlock env self originator dest amount mintTotalSupply memo = .ok (blocked, state')) :
    (blocked = false ∧ state' = state ∧ (.t6 ≤ env.spec → dest.target ≠ receivePolicyGuardAddress)) ∨
      (blocked = true ∧ .t6 ≤ env.spec ∧ env.checkReceivePolicy originator dest.target ≠ .ok none ∧
        (match mintTotalSupply with
          | some totalSupply => state.token.mintTo env.spec receivePolicyGuardAddress totalSupply amount
          | none => state.token.transferTo env.spec originator receivePolicyGuardAddress amount) = .ok state'.token ∧
        ∃ recoveryAuthority reason kind, state.guard.storeBlocked env self originator dest.eventAddress recoveryAuthority
          amount reason kind memo = .ok state'.guard) := by
  unfold validateInboundOrBlock at h
  split at h
  · rename_i hfork
    cases h
    exact .inl ⟨rfl, rfl, fun ht6 => absurd ht6 hfork⟩
  rename_i hfork
  obtain ⟨hguard, h⟩ := check_ok h
  obtain ⟨verdict, hverdict, h⟩ := bind_ok h
  cases verdict with
  | none =>
    cases h
    exact .inl ⟨rfl, rfl, fun _ => hguard⟩
  | some =>
    obtain ⟨_, htoken, h⟩ := bind_ok h
    obtain ⟨_, hguard, heq⟩ := map_ok h
    cases heq
    refine .inr ⟨rfl, not_not.mp hfork, ?_, htoken, _, _, _, hguard⟩
    rw [hverdict]
    simp

theorem guardAddress_ne_zero : receivePolicyGuardAddress ≠ 0 := by decide

section
variable (h : state.transferWith env self spender source dest amount memo = .ok state')
include h
/-- **A transfer**: after the charge the amount moves, to the recipient or, if the recipient does not accept
it, to the guard with a receipt. -/
theorem transferWith_eq_ok :
    ∃ (charged : Token) (recipient : Recipient) (target : Address), Token.SameBooks none state.token charged ∧
      (∀ account, spender = some account → amount ≤ state.token.allowances source account) ∧
      resolve env dest = .ok recipient ∧ target ≠ 0 ∧
      charged.transferTo env.spec source target amount = .ok state'.token ∧
      (target = recipient.target ∧ state'.guard = state.guard ∨
        target = receivePolicyGuardAddress ∧ .t6 ≤ env.spec ∧ env.checkReceivePolicy source recipient.target ≠ .ok none ∧
          ∃ authority reason kind, state.guard.storeBlocked env self source recipient.eventAddress authority amount
            reason kind memo = .ok state'.guard) := by
  obtain ⟨⟨_, _⟩, hvalidated, h⟩ := bind_ok h
  obtain ⟨recipient, hrecipient, hvalidated⟩ := bind_ok hvalidated
  obtain ⟨_, hvalidated⟩ := rest_ok hvalidated
  obtain ⟨_, hvalid, hvalidated⟩ := bind_ok hvalidated
  obtain ⟨_, hvalidated⟩ := rest_ok hvalidated
  obtain ⟨charged, hcharged, hvalidated⟩ := bind_ok hvalidated
  obtain ⟨⟨_, _⟩, hinbound, heq⟩ := map_ok hvalidated
  have hbooks : Token.SameBooks none state.token charged ∧
      ∀ account, spender = some account → amount ≤ state.token.allowances source account := by
    cases spender with
    | none =>
      obtain ⟨_, -, rfl⟩ := map_ok hcharged
      exact ⟨.refl, nofun⟩
    | some =>
      obtain ⟨hamount, hsame⟩ := consumeAllowance_eq_ok hcharged
      exact ⟨hsame, fun account h => by cases h; exact hamount⟩
  obtain ⟨hsame, hallowed⟩ := hbooks
  rcases validateInboundOrBlock_eq_ok hinbound with ⟨rfl, rfl, -⟩ | ⟨rfl, hfork, hpolicy, hmove, hstore⟩
  · cases heq
    obtain ⟨_, htoken, rfl⟩ := map_ok h
    exact ⟨charged, recipient, recipient.target, hsame, hallowed, hrecipient, (validate_eq_ok hvalid).1, htoken,
      .inl ⟨rfl, rfl⟩⟩
  cases heq
  cases h
  exact ⟨charged, recipient, receivePolicyGuardAddress, hsame, hallowed, hrecipient, guardAddress_ne_zero, hmove,
    .inr ⟨rfl, hfork, hpolicy, hstore⟩⟩

theorem transferWith_performs : ∃ target actions, Token.PerformsAll env self actions state.token state'.token ∧
      (∀ action ∈ actions, action = .administer none ∨ action = .move source target amount) ∧
      (∀ account, spender = some account → amount ≤ state.token.allowances source account) := by
  obtain ⟨_, _, target, hsame, hallowed, -, htarget, hmove, -⟩ := transferWith_eq_ok h
  refine ⟨target, [.administer none, .move source target amount], ?_, ?_, hallowed⟩
  · exact .cons (.administer hsame) (.single (.move htarget hmove))
  · simp
end

/-- A precompile that accepts what it is sent has what it takes. -/
theorem ledger_systemTransferFrom {caller : Address} (hvirtual : isVirtual caller = false)
    (hpolicy : env.checkReceivePolicy source caller = .ok none)
    (h : state.systemTransferFrom env self caller source amount = .ok state') :
    state'.token.ledger = state.token.ledger.move source caller amount := by
  obtain ⟨_, h⟩ := rest_ok h
  obtain ⟨charged, _, _, hcharge, -, hresolve, htarget, hmove, hguard⟩ := transferWith_eq_ok h
  rw [resolve_of_not_isVirtual env hvirtual] at hresolve
  cases hresolve
  rcases hguard with ⟨rfl, -⟩ | ⟨-, -, hrefused, -⟩
  · rw [ledger_transferTo htarget hmove, hcharge.ledger]
  · exact absurd hpolicy hrefused

theorem balances_systemTransferFrom {caller : Address} (hsource : source ≠ caller) (hvirtual : isVirtual caller = false)
    (hpolicy : env.checkReceivePolicy source caller = .ok none)
    (h : state.systemTransferFrom env self caller source amount = .ok state') :
    state'.token.balances caller = state.token.balances caller + amount := by
  have hledger := congrArg (·.balances caller) (ledger_systemTransferFrom hvirtual hpolicy h)
  exact hledger.trans (state.token.ledger.balances_move_of_ne amount hsource.symm)

theorem sub_le_balances_transfer (h : state.transfer env self source dest amount memo = .ok state') :
    state.token.balances source - amount ≤ state'.token.balances source := by
  obtain ⟨charged, _, _, hcharge, -, -, htarget, hmove, -⟩ := transferWith_eq_ok h
  obtain ⟨-, _, -, heq⟩ := transferTo_eq_ok htarget hmove
  rw [heq, ← hcharge.balances]
  exact charged.ledger.sub_le_balances_move _ _ _

theorem channelReserveTransfer_performs (self : Address) {receivePolicySender : Address} {dest : Recipient}
    (h : state.channelReserveTransfer env source dest amount receivePolicySender = .ok state') :
    Token.Performs env self (.move source dest.target amount) state.token state'.token ∧ state'.guard = state.guard := by
  iterate 2 obtain ⟨_, h⟩ := rest_ok h
  obtain ⟨_, hvalid, h⟩ := bind_ok h
  iterate 3 obtain ⟨_, h⟩ := rest_ok h
  obtain ⟨_, htoken, rfl⟩ := map_ok h
  exact ⟨.move (validate_eq_ok hvalid).1 htoken, rfl⟩

theorem withToken_eq_ok {result : Except TempoError Token} (h : state.withToken result = .ok state') :
    result = .ok state'.token ∧ state'.guard = state.guard := by
  obtain ⟨_, htoken, rfl⟩ := map_ok h
  exact ⟨htoken, rfl⟩

section
variable (h : state.mint env self msgSender dest amount memo = .ok state')
include h
theorem mint_guard :
    (state'.guard = state.guard ∧ ∃ target, Token.Performs env self (.mint target amount) state.token state'.token) ∨
      ∃ recipient authority reason kind, .t6 ≤ env.spec ∧
        state.token.mintTo env.spec receivePolicyGuardAddress state.token.totalSupply amount = .ok state'.token ∧
        state.guard.storeBlocked env self msgSender recipient authority amount reason kind memo = .ok state'.guard := by
  obtain ⟨recipient, h⟩ := rest_ok h
  iterate 3 obtain ⟨_, h⟩ := rest_ok h
  obtain ⟨⟨_, _⟩, hinbound, h⟩ := bind_ok h
  rcases validateInboundOrBlock_eq_ok hinbound with ⟨rfl, rfl, -⟩ | ⟨rfl, hfork, -, hmint, authority, reason, kind, hstore⟩
  · obtain ⟨_, htoken, rfl⟩ := map_ok h
    exact .inl ⟨rfl, recipient.target, .mint htoken⟩
  · cases h
    exact .inr ⟨_, authority, reason, kind, hfork, hmint, hstore⟩

theorem mint_performs : ∃ target, Token.Performs env self (.mint target amount) state.token state'.token := by
  rcases mint_guard h with ⟨-, hmint⟩ | ⟨_, _, _, _, -, hmint, -⟩
  · exact hmint
  · exact ⟨receivePolicyGuardAddress, .mint hmint⟩
end

theorem resolveReceipt_eq_ok {receiver : Address} {mode : RecoveryMode}
    (h : resolveReceipt env receipt = .ok (receiver, mode)) :
    resolveRecipient env receipt.recipient = .ok receiver ∧ mode = .ofReceipt receipt receiver := by
  unfold resolveReceipt at h
  split at h
  · next hreceiver =>
    cases h
    exact ⟨hreceiver, rfl⟩
  · cases h

/-- A payout of the guard, by its two ways. -/
theorem claim_eq_ok (self : Address) (h : state.claim env msgSender dest receipt = .ok state') :
    ∃ receiver recipient, resolveRecipient env receipt.recipient = .ok receiver ∧
      msgSender = (RecoveryMode.ofReceipt receipt receiver).authority receipt ∧ state.guard.balances receipt ≠ 0 ∧
      Recipient.resolve env dest = .ok recipient ∧
      Token.Performs env self (.move receivePolicyGuardAddress recipient.target (state.guard.balances receipt))
        state.token state'.token ∧
      state'.guard = (state.guard.setBalance receipt 0).emitEvent
        (.receiptClaimed receipt msgSender dest (state.guard.balances receipt)) := by
  obtain ⟨_, h⟩ := rest_ok h
  obtain ⟨⟨receiver, _⟩, hresolved, h⟩ := bind_ok h
  obtain ⟨hauthority, h⟩ := check_ok h
  obtain ⟨hamount, h⟩ := check_ok h
  obtain ⟨_, htoken, rfl⟩ := map_ok h
  obtain ⟨recipient, hrecipient, hmove⟩ := releaseBlockedFunds_performs htoken
  obtain ⟨hreceiver, rfl⟩ := resolveReceipt_eq_ok hresolved
  exact ⟨receiver, recipient, hreceiver, hauthority, hamount, hrecipient, hmove, rfl⟩

theorem burnBlockedReceipt_eq_ok (h : state.burnBlockedReceipt env self msgSender receipt = .ok state') :
    ∃ receiver, resolveRecipient env receipt.recipient = .ok receiver ∧ state.guard.balances receipt ≠ 0 ∧
      env.isAuthorizedAs .sender ((RecoveryMode.ofReceipt receipt receiver).policySubject receipt.originator receiver) =
        .ok false ∧
      Token.Performs env self (.burn receivePolicyGuardAddress (state.guard.balances receipt)) state.token state'.token ∧
      state'.guard = (state.guard.setBalance receipt 0).emitEvent
        (.receiptBurned receipt msgSender (state.guard.balances receipt)) := by
  obtain ⟨⟨receiver, _⟩, hresolved, h⟩ := bind_ok h
  obtain ⟨hamount, h⟩ := check_ok h
  obtain ⟨_, htoken, rfl⟩ := map_ok h
  obtain ⟨hburn, -, hsubject⟩ := burnBlockedInternal_performs htoken
  obtain ⟨hreceiver, rfl⟩ := resolveReceipt_eq_ok hresolved
  exact ⟨receiver, hreceiver, hamount, hsubject, hburn, rfl⟩

/-- **A successful call is a list of actions that it permits.** -/
theorem call_performs {call : TokenCall} (hself : isTip20Prefix self = true)
    (h : state.call env self msgSender call = .ok state') :
    ∃ actions, Token.PerformsAll env self actions state.token state'.token ∧
      ∀ action ∈ actions, call.Permits env self msgSender state.token action := by
  have single : ∀ {action}, Token.Performs env self action state.token state'.token →
      call.Permits env self msgSender state.token action →
      ∃ actions, Token.PerformsAll env self actions state.token state'.token ∧
        ∀ action ∈ actions, call.Permits env self msgSender state.token action := by
    intro action haction hpermits
    exact ⟨[action], .single haction, by simpa using hpermits⟩
  have nobody : ∀ {call : TokenCall}, call.Permits env self msgSender state.token (.administer none) := by
    nofun
  cases call with
  | initializeToken =>
    cases h
    exact single (.administer ⟨rfl, rfl, rfl, rfl, rfl, .inr ⟨le_rfl, id⟩, fun _ _ _ => le_rfl⟩) nobody
  | transfer =>
    obtain ⟨_, actions, hperforms, hactions, -⟩ := transferWith_performs h
    refine ⟨actions, hperforms, fun action haction => ?_⟩
    rcases hactions action haction with rfl | rfl
    · exact nobody
    · exact .inl rfl
  | transferFrom _ dest _ memo =>
    obtain ⟨_, actions, hperforms, hactions, hallowed⟩ := transferWith_performs h
    refine ⟨actions, hperforms, fun action haction => ?_⟩
    rcases hactions action haction with rfl | rfl
    · exact nobody
    · exact .inr (.inl ⟨dest, memo, rfl, hallowed msgSender rfl⟩)
  | systemTransferFrom =>
    obtain ⟨_, h⟩ := rest_ok h
    obtain ⟨_, actions, hperforms, hactions, -⟩ := transferWith_performs h
    refine ⟨actions, hperforms, fun action haction => ?_⟩
    rcases hactions action haction with rfl | rfl
    · exact nobody
    · exact .inl rfl
  | channelReserveTransfer =>
    exact single (channelReserveTransfer_performs self h).1 (.inl rfl)
  | permit =>
    obtain ⟨_, h⟩ := rest_ok h
    obtain ⟨hbooks, hsigner⟩ := permit_sameBooks (withToken_eq_ok h).1
    refine single (.administer hbooks) fun _ howner => ?_
    cases howner
    exact .inr ⟨_, _, _, _, hsigner⟩
  | approve spender amount =>
    obtain ⟨_, -, happrove⟩ := map_ok (withToken_eq_ok h).1
    rw [← happrove] at single ⊢
    refine single (.administer (setAllowance_sameBooks msgSender spender amount)) fun owner howner => ?_
    cases howner
    exact .inl rfl
  | mint =>
    obtain ⟨_, hmint⟩ := mint_performs h
    exact single hmint trivial
  | burn => exact single (burn_performs (withToken_eq_ok h).1) (.inl rfl)
  | burnBlocked =>
    obtain ⟨hburn, hprotected, -⟩ := burnBlockedInternal_performs (withToken_eq_ok h).1
    exact single hburn (.inr (.inl ⟨hprotected rfl, .inl rfl⟩))
  | burnAt =>
    obtain ⟨hfork, h⟩ := check_ok h
    obtain ⟨hburn, hprotected⟩ := burnAt_performs (withToken_eq_ok h).1
    exact single hburn (.inr (.inl ⟨hprotected, .inr ⟨rfl, hfork⟩⟩))
  | distributeReward =>
    rcases distributeReward_performs hself (withToken_eq_ok h).1 with hsame | hperforms
    · exact ⟨[], by rw [hsame]; exact .nil _, by simp⟩
    · exact single hperforms rfl
  | setRewardRecipient => exact single (.setRecipient (withToken_eq_ok h).1) rfl
  | claimRewards =>
    obtain ⟨⟨amount, _⟩, hclaim, heq⟩ := map_ok (withToken_eq_ok h).1
    exact single (.claim (by rw [hclaim]; exact congrArg (fun t => Except.ok (amount, t)) heq)) rfl
  | setSupplyCap => exact single (.administer (setSupplyCap_sameBooks (withToken_eq_ok h).1)) nobody
  | pause =>
    obtain ⟨_, -, hpause⟩ := map_ok (withToken_eq_ok h).1
    rw [← hpause] at single ⊢
    exact single (.administer ⟨rfl, rfl, rfl, rfl, rfl, .inl rfl, fun _ _ _ => le_rfl⟩) nobody
  | unpause =>
    obtain ⟨_, -, hunpause⟩ := map_ok (withToken_eq_ok h).1
    rw [← hunpause] at single ⊢
    exact single (.administer ⟨rfl, rfl, rfl, rfl, rfl, .inl rfl, fun _ _ _ => le_rfl⟩) nobody
  | claim dest receipt =>
    obtain ⟨_, h⟩ := rest_ok h
    obtain ⟨_, _, -, -, -, -, hmove, -⟩ := claim_eq_ok self h
    exact single hmove (.inr (.inr ⟨dest, receipt, rfl, rfl⟩))
  | burnBlockedReceipt receipt =>
    obtain ⟨_, h⟩ := rest_ok h
    obtain ⟨_, -, -, -, hburn, -⟩ := burnBlockedReceipt_eq_ok h
    exact single hburn (.inr (.inr ⟨receipt, rfl, rfl⟩))

end Custody

/-! ### An account that makes no calls -/

/-- The action takes nothing from the account, payouts of rewards by a contract apart. -/
def TokenAction.Spares (account : Address) : TokenAction → Prop
  | .administer approver => approver ≠ some account
  | .move source _ amount => source ≠ account ∨ amount = 0
  | .burn source _ => source ≠ account
  | .mint _ _ => True
  | .distribute funder _ => funder ≠ account
  | .setRecipient holder _ => holder ≠ account
  | .claim holder _ => holder ≠ account

namespace Token

variable {env : Env} {self account : Address} {action : TokenAction} {token token' : Token}

section
variable (h : Performs env self action token token')
include h
theorem Performs.allowances_le_of_approver (happrover : ∀ approver, action = .administer approver → approver ≠ some account)
    (spender : Address) : token'.allowances account spender ≤ token.allowances account spender := by
  have of_same : ∀ {mid}, SameFunds token mid → token'.allowances = mid.allowances →
      token'.allowances account spender ≤ token.allowances account spender := by
    intro _ hsame heq
    rw [heq, hsame.allowances]
  cases h with
  | administer hsame => exact hsame.allowances account spender (happrover _ rfl)
  | move htarget h =>
    obtain ⟨-, _, hmid, rfl⟩ := transferTo_eq_ok htarget h
    exact of_same (handleRewardsOnTransfer_sameFunds hmid) rfl
  | burn h hreduce =>
    obtain ⟨-, _, hmid, rfl⟩ := transferTo_zero_eq_ok h
    obtain ⟨-, rfl⟩ := reduceSupply_eq_ok hreduce
    exact of_same (handleRewardsOnTransfer_sameFunds hmid) rfl
  | mint h =>
    obtain ⟨-, _, hmid, rfl⟩ := mintTo_eq_ok h
    exact of_same (handleRewardsOnMint_sameFunds hmid) rfl
  | @distribute _ mid _ funder amount h hraise =>
    have hraised := (raiseRewardPerToken_sameFunds hraise).allowances
    by_cases hself : self = 0
    · subst hself
      obtain ⟨-, _, hsettled, rfl⟩ := transferTo_zero_eq_ok h
      exact of_same (handleRewardsOnTransfer_sameFunds hsettled) hraised
    · obtain ⟨-, _, hsettled, rfl⟩ := transferTo_eq_ok hself h
      exact of_same (handleRewardsOnTransfer_sameFunds hsettled) hraised
  | setRecipient h => exact of_same (setRewardRecipient_sameFunds h) rfl
  | claim h =>
    obtain ⟨_, _, _, hupdate, -, -, rfl⟩ := claimRewards_eq_ok h
    exact of_same (updateRewards_sameFunds hupdate) rfl

theorem Performs.allowances_le (hspares : action.Spares account) (spender : Address) :
    token'.allowances account spender ≤ token.allowances account spender := by
  apply h.allowances_le_of_approver
  rintro _ rfl
  exact hspares

theorem Performs.le_balances (hself : self ≠ 0) (hspares : action.Spares account)
    (hclaim : ∀ holder amount, action = .claim holder amount → self ≠ account) :
    token.balances account ≤ token'.balances account := by
  cases h with
  | administer hsame => rw [hsame.balances]
  | @move _ _ source target amount htarget h =>
    obtain ⟨-, _, -, rfl⟩ := transferTo_eq_ok htarget h
    rcases hspares with hne | rfl
    · exact token.ledger.le_balances_move amount hne.symm
    · rw [move_zero]
      exact le_rfl
  | @burn _ _ _ source amount h hreduce =>
    obtain ⟨-, _, -, rfl⟩ := transferTo_zero_eq_ok h
    obtain ⟨-, rfl⟩ := reduceSupply_eq_ok hreduce
    show token.balances account ≤ (token.ledger.burn source amount).balances account
    rw [balances_burn_of_ne _ _ hspares.symm]
    exact le_rfl
  | mint h =>
    obtain ⟨-, _, -, rfl⟩ := mintTo_eq_ok h
    exact token.ledger.le_balances_mint _ account _
  | distribute h hraise =>
    rw [(raiseRewardPerToken_sameFunds hraise).balances]
    obtain ⟨-, _, -, rfl⟩ := transferTo_eq_ok hself h
    exact token.ledger.le_balances_move _ hspares.symm
  | setRecipient h => rw [(setRewardRecipient_sameFunds h).balances]
  | claim h =>
    obtain ⟨_, mid, _, hupdate, -, -, rfl⟩ := claimRewards_eq_ok h
    rw [← (updateRewards_sameFunds hupdate).balances]
    exact mid.ledger.le_balances_move _ ((hclaim _ _ rfl).symm)
end

end Token

/-- The call is not made by the account, nor permitted by its signature. -/
structure CallRecord.NotBy (account : Address) (record : CallRecord) : Prop where
  msgSender : record.msgSender ≠ account
  signer : ∀ spender value nonce deadline, record.env.recoverSigner account spender value nonce deadline ≠ some account

/-- What a call does to an account that neither makes it nor has given allowances, apart from the payouts of
the guard and the burns by role. -/
theorem TokenCall.Permits.spares {record : CallRecord} {account : Address} {token : Token} {action : TokenAction}
    (h : record.call.Permits record.env record.self record.msgSender token action) (hnot : record.NotBy account)
    (hallow : ∀ spender, token.allowances account spender = 0)
    (hburn : ∀ amount, record.call = .burnBlocked account amount ∨ record.call = .burnAt account amount ∧ .t12 ≤ record.env.spec →
      checkBurnAddress record.env record.self account ≠ .ok ()) (hguard : account = receivePolicyGuardAddress →
      (∀ dest receipt, record.call ≠ .claim dest receipt) ∧ ∀ receipt, record.call ≠ .burnBlockedReceipt receipt) :
    action.Spares account := by
  cases action with
  | administer =>
    intro happrover
    rcases h account happrover with hsender | ⟨_, _, _, _, hsigner⟩
    · exact hnot.msgSender hsender.symm
    · exact hnot.signer _ _ _ _ hsigner
  | move source =>
    by_cases hsource : source = account
    · subst hsource
      rcases h with rfl | ⟨dest, _, -, hamount⟩ | ⟨dest, receipt, hcall, hg⟩
      · exact absurd rfl hnot.msgSender
      · rw [hallow] at hamount
        exact .inr (Nat.le_zero.mp hamount)
      · exact absurd hcall ((hguard hg).1 dest receipt)
    · exact .inl hsource
  | burn _ amount =>
    rintro rfl
    rcases h with rfl | ⟨hcheck, hcall⟩ | ⟨receipt, hcall, hg⟩
    · exact hnot.msgSender rfl
    · exact hburn amount hcall hcheck
    · exact (hguard hg).2 receipt hcall
  | mint => trivial
  | distribute | setRecipient | _ =>
    rintro rfl
    exact hnot.msgSender h.symm

end LeafageEvm.Tempo
