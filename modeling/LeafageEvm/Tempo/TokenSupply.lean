import LeafageEvm.Tempo.TokenActions

/-! The supply of a token is the sum of its balances, under every call. -/

namespace LeafageEvm.Tempo

namespace Token

/-- The supply is the sum of the balances and stays within the cap, which is a `u128`. -/
structure Conserved (token : Token) : Prop where
  balanced : token.ledger.Balanced
  supply_le : token.totalSupply ≤ token.supplyCap
  cap_le : token.supplyCap ≤ u128Max

namespace Conserved

variable {source target self : Address} {amount : Nat} {env : Env} {spec : TempoHardfork} {token token' : Token}

theorem empty : Conserved {} := ⟨⟨Finset.sum_const_zero⟩, le_rfl, Nat.zero_le _⟩

section
variable (h : token.Conserved)
include h
theorem of_sameFunds (hsame : SameFunds token token') : token'.Conserved := by
  refine ⟨?_, ?_, ?_⟩
  · rw [hsame.ledger]
    exact h.balanced
  · rw [hsame.totalSupply, hsame.supplyCap]
    exact h.supply_le
  · rw [hsame.supplyCap]
    exact h.cap_le

theorem of_sameBooks {approver : Option Address} (hsame : SameBooks approver token token') : token'.Conserved := by
  have hbalanced : token'.ledger.Balanced := by
    rw [ledger, hsame.balances, hsame.totalSupply]
    exact h.balanced
  have hsupply := h.supply_le
  have hcap := h.cap_le
  rcases hsame.supplyCap with heq | ⟨hle, hkeeps⟩
  · exact ⟨hbalanced, by rw [hsame.totalSupply, heq]; exact hsupply, by rw [heq]; exact hcap⟩
  · exact ⟨hbalanced, by rw [hsame.totalSupply]; exact hkeeps (hsupply.trans hcap), hle⟩

theorem transferTo (htarget : target ≠ 0) (htransfer : token.transferTo spec source target amount = .ok token') :
    token'.Conserved := by
  obtain ⟨hamount, _, hmid, rfl⟩ := transferTo_eq_ok htarget htransfer
  have hsame := handleRewardsOnTransfer_sameFunds hmid
  have hkept := h.of_sameFunds hsame
  refine { hkept with balanced := ⟨?_⟩ }
  rw [hsame.totalSupply]
  exact (h.balanced.move target hamount).sum_eq

theorem burn {mid : Token} (htransfer : token.transferTo spec source 0 amount = .ok mid)
    (hreduce : mid.reduceSupply amount = .ok token') : token'.Conserved := by
  obtain ⟨hamount, _, hsettled, rfl⟩ := transferTo_zero_eq_ok htransfer
  obtain ⟨-, rfl⟩ := reduceSupply_eq_ok hreduce
  have hsame := handleRewardsOnTransfer_sameFunds hsettled
  have hkept := h.of_sameFunds hsame
  refine ⟨⟨?_⟩, (Nat.sub_le ..).trans hkept.supply_le, hkept.cap_le⟩
  rw [hsame.totalSupply]
  exact (h.balanced.burn hamount).sum_eq

theorem mintTo (hmint : token.mintTo spec target token.totalSupply amount = .ok token') : token'.Conserved := by
  obtain ⟨hcap, _, hmid, rfl⟩ := mintTo_eq_ok hmint
  have hsame := handleRewardsOnMint_sameFunds hmid
  refine ⟨⟨(h.balanced.mint target amount).sum_eq⟩, ?_, (h.of_sameFunds hsame).cap_le⟩
  rw [hsame.supplyCap]
  exact hcap

theorem claimRewards {holder : Address} (hclaim : token.claimRewards env self holder = .ok (amount, token')) :
    token'.Conserved := by
  obtain ⟨_, mid, _, hupdate, hamount, -, rfl⟩ := claimRewards_eq_ok hclaim
  have hkept := h.of_sameFunds (updateRewards_sameFunds hupdate)
  have hle : amount ≤ mid.ledger.balances self := by
    rw [hamount]
    exact min_le_right ..
  have hmoved := hkept.balanced.move holder hle
  refine { hkept with balanced := ⟨?_⟩ }
  exact hmoved.sum_eq
end

theorem performs {action : TokenAction} (hself : self ≠ 0) (h : token.Conserved)
    (haction : Performs env self action token token') : token'.Conserved := by
  cases haction with
  | administer hsame => exact h.of_sameBooks hsame
  | move htarget hmove => exact h.transferTo htarget hmove
  | burn hburn hreduce => exact h.burn hburn hreduce
  | mint hmint => exact h.mintTo hmint
  | distribute hmove hraise =>
    exact (h.transferTo hself hmove).of_sameFunds (raiseRewardPerToken_sameFunds hraise)
  | setRecipient hset => exact h.of_sameFunds (setRewardRecipient_sameFunds hset)
  | claim hclaim => exact h.claimRewards hclaim

end Conserved
end Token

namespace World

variable {world world' : World} {record : CallRecord}

theorem call_eq_ok (h : world.call record = .ok world') : isTip20Prefix record.self = true ∧
    ∃ state, Custody.call record.env record.self ⟨world.tokens record.self, world.guard⟩ record.msgSender record.call = .ok state ∧
      world' = { tokens := Function.update world.tokens record.self state.token, guard := state.guard } := by
  obtain ⟨hself, h⟩ := check_ok h
  obtain ⟨state, hstate, rfl⟩ := map_ok h
  exact ⟨hself, state, hstate, rfl⟩

theorem run_induct {motive : World → Prop} {records : List CallRecord}
    (hstep : ∀ world record world', record ∈ records → world.call record = .ok world' → motive world → motive world')
    (hstart : motive world) : motive (world.run records) := by
  induction records generalizing world with
  | nil => exact hstart
  | cons record _ ih =>
    apply ih fun w r w' hr => hstep w r w' (.tail _ hr)
    unfold apply
    split
    · rename_i next hnext
      exact hstep world record next (.head _) hnext hstart
    · exact hstart

theorem conserved_call (hcall : world.call record = .ok world') (h : ∀ token, (world.tokens token).Conserved) :
    ∀ token, (world'.tokens token).Conserved := by
  obtain ⟨hself, state, hstate, rfl⟩ := call_eq_ok hcall
  obtain ⟨_, hperforms, -⟩ := Custody.call_performs hself hstate
  have hconserved : state.token.Conserved :=
    hperforms.induct (fun _ => True) (motive := Token.Conserved)
      (fun _ _ _ _ haction hconserved => hconserved.performs (ne_zero_of_isTip20Prefix hself) haction)
      (fun _ _ => trivial) (h record.self)
  intro token
  by_cases htoken : token = record.self
  · subst htoken
    simpa using hconserved
  · simpa [Function.update_of_ne htoken] using h token

theorem conserved_run (records : List CallRecord) (self : Address) : ((run {} records).tokens self).Conserved := by
  have hrun : ∀ token, ((run {} records).tokens token).Conserved := by
    refine run_induct (motive := fun world => ∀ token, (world.tokens token).Conserved) ?_ ?_
    · intro _ _ _ _ hcall h
      exact conserved_call hcall h
    · intro _
      exact Token.Conserved.empty
  exact hrun self

theorem apply_of_error {error : TempoError} (h : world.call record = .error error) : world.apply record = world := by
  rw [apply, h]

/-- **Supply conservation.** After every run of calls, in every hardfork and by any callers, the supply of
each token is the sum of all its balances, and within its cap, which is a `u128`. A call that fails leaves the
world as it was. -/
theorem run_conserves_supply (records : List CallRecord) (self : Address) :
    ∑ account, ((run {} records).tokens self).balances account = ((run {} records).tokens self).totalSupply ∧
      ((run {} records).tokens self).totalSupply ≤ ((run {} records).tokens self).supplyCap ∧
      ((run {} records).tokens self).supplyCap ≤ u128Max ∧
      ∀ record error, (run {} records).call record = .error error →
        (run {} records).apply record = run {} records := by
  have h := conserved_run records self
  have hsum := h.balanced.sum_eq
  exact ⟨hsum, h.supply_le, h.cap_le, fun record error herror => apply_of_error herror⟩

end World
end LeafageEvm.Tempo
