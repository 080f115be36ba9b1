import LeafageEvm.Tempo.ChannelReserve

/-! The reserve covers its open channels, and what leaves a channel is what went in. -/

namespace LeafageEvm.Tempo
open Custody Function

/-- There are finitely many channels. -/
noncomputable instance : Fintype ChannelDescriptor :=
  Fintype.ofInjective (fun descriptor => (descriptor.payer, descriptor.payee, descriptor.operator, descriptor.token,
    descriptor.salt, descriptor.authorizedSigner, descriptor.expiringNonceHash)) (by
      rintro ⟨⟩ ⟨⟩ h
      simpa using h)

/-- What an open channel still holds. -/
def PackedChannelState.locked (state : PackedChannelState) : Nat := state.deposit - state.settled

namespace ChannelReserve

variable {reserve reserve' : ChannelReserve} {into paid back cumulativeAmount signature : Nat} {env : Env}
  {descriptor : ChannelDescriptor}
variable {token sender : Address} {amount : Nat}

def balance (reserve : ChannelReserve) (token : Address) : Nat :=
  (reserve.world.tokens token).balances tip20ChannelReserveAddress

/-- The sum that the open channels of a token hold. -/
noncomputable def locked (reserve : ChannelReserve) (token : Address) : Nat :=
  ∑ descriptor : ChannelDescriptor, if descriptor.token = token then (reserve.channelStates descriptor).locked else 0

/-- Where a delivery to an address ends: at the account that stands behind it or, before T12 and if that account
refuses it, at the guard. -/
def Reaches (env : Env) (dest target : Address) : Prop :=
  ∃ recipient, Recipient.resolve env dest = .ok recipient ∧ (target = recipient.target ∨
    target = receivePolicyGuardAddress ∧ ¬ .t12 ≤ env.spec ∧
      env.checkReceivePolicy tip20ChannelReserveAddress recipient.target ≠ .ok none)

/-- The payer pays into the reserve, and the reserve pays the payee and then the payer; no other tokens move. -/
structure Pays (env : Env) (descriptor : ChannelDescriptor) (into paid back : Nat) (reserve reserve' : ChannelReserve) :
    Prop where
  others : ∀ token ≠ descriptor.token, reserve'.world.tokens token = reserve.world.tokens token
  ledger : ∃ payee payer, (paid ≠ 0 → Reaches env descriptor.payee payee) ∧
    (back ≠ 0 → Reaches env descriptor.payer payer) ∧ (reserve'.world.tokens descriptor.token).ledger =
      (((reserve.world.tokens descriptor.token).ledger.move descriptor.payer tip20ChannelReserveAddress into).move
        tip20ChannelReserveAddress payee paid).move tip20ChannelReserveAddress payer back

theorem Pays.balance (h : Pays env descriptor into paid back reserve reserve')
    (hpayer : into = 0 ∨ descriptor.payer ≠ tip20ChannelReserveAddress) (token : Address) :
    reserve.balance token + (if token = descriptor.token then into else 0) ≤
      reserve'.balance token + if token = descriptor.token then paid + back else 0 := by
  by_cases htoken : token = descriptor.token
  · subst htoken
    obtain ⟨payee, payer, -, -, hledger⟩ := h.ledger
    set ledger := (reserve.world.tokens descriptor.token).ledger
    set funded := ledger.move descriptor.payer tip20ChannelReserveAddress into
    have hfunded : funded.balances tip20ChannelReserveAddress = reserve.balance descriptor.token + into := by
      rcases hpayer with rfl | hne
      · exact congrArg (·.balances tip20ChannelReserveAddress) (ledger.move_zero ..)
      · exact ledger.balances_move_of_ne into hne.symm
    have hpaid := funded.sub_le_balances_move paid tip20ChannelReserveAddress payee
    have hback := (funded.move tip20ChannelReserveAddress payee paid).sub_le_balances_move back
      tip20ChannelReserveAddress payer
    have hend : reserve'.balance descriptor.token = _ := congrArg (·.balances tip20ChannelReserveAddress) hledger
    rw [if_pos rfl, if_pos rfl]
    omega
  · rw [if_neg htoken, if_neg htoken, ChannelReserve.balance, ChannelReserve.balance, h.others token htoken]

/-- Tokens of a channel move in and out of the reserve, and the history of the channel is told. -/
structure Flows (env : Env) (descriptor : ChannelDescriptor) (told : ChannelHistory → ChannelHistory)
    (into paid back : Nat) (reserve reserve' : ChannelReserve) : Prop where
  states : reserve'.channelStates = reserve.channelStates
  history : reserve'.history = update reserve.history descriptor (told (reserve.history descriptor))
  payer : into = 0 ∨ descriptor.payer ≠ tip20ChannelReserveAddress
  pays : Pays env descriptor into paid back reserve reserve'

namespace Flows

variable {told told' : ChannelHistory → ChannelHistory} {mid : ChannelReserve}

theorem refl : Flows env descriptor id 0 0 0 reserve reserve := by
  refine ⟨rfl, (update_eq_self ..).symm, .inl rfl, fun _ _ => rfl, 0, 0, absurd rfl, absurd rfl, ?_⟩
  simp only [Ledger.move_zero]

/-- A payment to the payee, then a refund. -/
theorem trans (h : Flows env descriptor told 0 paid 0 reserve mid) (h' : Flows env descriptor told' 0 0 back mid reserve') :
    Flows env descriptor (told' ∘ told) 0 paid back reserve reserve' := by
  refine ⟨h'.states.trans h.states, ?_, .inl rfl, fun token hne => (h'.pays.others token hne).trans (h.pays.others token hne), ?_⟩
  · rw [h'.history, h.history, update_self, update_idem]
    rfl
  · obtain ⟨payee, _, hpayee, -, hledger⟩ := h.pays.ledger
    obtain ⟨_, payer, -, hpayer, hledger'⟩ := h'.pays.ledger
    refine ⟨payee, payer, hpayee, hpayer, ?_⟩
    simp only [Ledger.move_zero] at hledger hledger' ⊢
    rw [hledger', hledger]

theorem tell (h : Flows env descriptor id into paid back reserve mid) (told : ChannelHistory → ChannelHistory) :
    Flows env descriptor told into paid back reserve (mid.note descriptor told) := by
  refine { h with history := ?_, pays := ⟨h.pays.others, h.pays.ledger⟩ }
  have hsame : mid.history = reserve.history := by
    rw [h.history]
    exact update_eq_self ..
  rw [note, hsame]

end Flows

theorem onToken_eq_ok {operation : Custody → Except TempoError Custody} (h : reserve.onToken token operation = .ok reserve') :
    isTip20Prefix token = true ∧
      ∃ state, operation ⟨reserve.world.tokens token, reserve.world.guard⟩ = .ok state ∧
        reserve' = { reserve with world :=
          { tokens := update reserve.world.tokens token state.token, guard := state.guard } } := by
  obtain ⟨htoken, h⟩ := check_ok h
  obtain ⟨state, hstate, rfl⟩ := map_ok h
  exact ⟨htoken, state, hstate, rfl⟩

/-- A transfer on the token of a channel. -/
theorem flows_onToken {state : Custody} (payee payer : Address) (hsource : into = 0 ∨ descriptor.payer ≠ tip20ChannelReserveAddress)
    (hpayee : paid ≠ 0 → Reaches env descriptor.payee payee) (hpayer : back ≠ 0 → Reaches env descriptor.payer payer)
    (h : state.token.ledger =
      (((reserve.world.tokens descriptor.token).ledger.move descriptor.payer tip20ChannelReserveAddress into).move
        tip20ChannelReserveAddress payee paid).move tip20ChannelReserveAddress payer back) :
    Flows env descriptor id into paid back reserve { reserve with
      world := { tokens := update reserve.world.tokens descriptor.token state.token, guard := state.guard } } := by
  refine ⟨rfl, (update_eq_self ..).symm, hsource, fun _ hne => update_of_ne hne .., payee, payer, hpayee, hpayer, ?_⟩
  show (update reserve.world.tokens descriptor.token state.token descriptor.token).ledger = _
  rw [update_self, h]

theorem reserveAddress_not_isVirtual : isVirtual tip20ChannelReserveAddress = false := by decide

theorem collect_flows (hpayer : descriptor.payer ≠ tip20ChannelReserveAddress)
    (hpolicy : ∀ sender, env.checkReceivePolicy sender tip20ChannelReserveAddress = .ok none)
    (h : reserve.collect env descriptor amount = .ok reserve') : Flows env descriptor
      (fun history => { history with deposited := history.deposited + amount }) amount 0 0 reserve reserve' := by
  obtain ⟨_, hmid, rfl⟩ := map_ok h
  obtain ⟨-, state, hstate, rfl⟩ := onToken_eq_ok hmid
  suffices hmoved : state.token.ledger =
      (reserve.world.tokens descriptor.token).ledger.move descriptor.payer tip20ChannelReserveAddress amount by
    refine (flows_onToken 0 0 (.inr hpayer) (absurd rfl) (absurd rfl) ?_).tell _
    rw [hmoved, Ledger.move_zero, Ledger.move_zero]
  split at hstate
  · obtain ⟨hmove, -⟩ := channelReserveTransfer_performs descriptor.token hstate
    cases hmove with
    | move htarget hmove => exact Token.ledger_transferTo htarget hmove
  · exact ledger_systemTransferFrom reserveAddress_not_isVirtual (hpolicy descriptor.payer) hstate

theorem deliver_eq_ok {dest : Address} (h : reserve.deliver env descriptor dest amount sender = .ok reserve') :
    ∃ (state : Custody) (target : Address), Reaches env dest target ∧ state.token.ledger =
        (reserve.world.tokens descriptor.token).ledger.move tip20ChannelReserveAddress target amount ∧
      reserve' = { reserve with world :=
        { tokens := update reserve.world.tokens descriptor.token state.token, guard := state.guard } } := by
  obtain ⟨-, state, hstate, rfl⟩ := onToken_eq_ok h
  refine ⟨state, ?_⟩
  split at hstate
  · obtain ⟨recipient, hrecipient, hstate⟩ := bind_ok hstate
    obtain ⟨hmove, -⟩ := channelReserveTransfer_performs descriptor.token hstate
    cases hmove with
    | move htarget hmove =>
      exact ⟨_, ⟨recipient, hrecipient, .inl rfl⟩, Token.ledger_transferTo htarget hmove, rfl⟩
  · next hfork =>
    obtain ⟨charged, recipient, target, hcharge, -, hrecipient, htarget, hmove, hguard⟩ := transferWith_eq_ok hstate
    refine ⟨target, ⟨recipient, hrecipient, ?_⟩, ?_, rfl⟩
    · rcases hguard with ⟨htarget, -⟩ | ⟨htarget, -, hrefused, -⟩
      · exact .inl htarget
      · exact .inr ⟨htarget, hfork, hrefused⟩
    · rw [Token.ledger_transferTo htarget hmove, hcharge.ledger]

theorem payPayee_flows (h : reserve.payPayee env descriptor amount sender = .ok reserve') : Flows env descriptor
      (fun history => { history with received := history.received + amount }) 0 amount 0 reserve reserve' := by
  obtain ⟨_, h⟩ := rest_ok h
  obtain ⟨_, hmid, rfl⟩ := map_ok h
  obtain ⟨state, target, hreaches, hledger, rfl⟩ := deliver_eq_ok hmid
  refine (flows_onToken target 0 (.inl rfl) (fun _ => hreaches) (absurd rfl) ?_).tell _
  rw [hledger, Ledger.move_zero, Ledger.move_zero]

theorem refundPayer_flows (h : reserve.refundPayer env descriptor amount = .ok reserve') : Flows env descriptor
      (fun history => { history with refunded := history.refunded + amount }) 0 0 amount reserve reserve' := by
  obtain ⟨_, hmid, rfl⟩ := map_ok h
  obtain ⟨state, target, hreaches, hledger, rfl⟩ := deliver_eq_ok hmid
  refine (flows_onToken 0 target (.inl rfl) (absurd rfl) (fun _ => hreaches) ?_).tell _
  rw [hledger, Ledger.move_zero, Ledger.move_zero]

theorem unlessZero_eq_ok {operation : ChannelReserve → Except TempoError ChannelReserve}
    (h : unlessZero amount reserve operation = .ok reserve') :
    amount ≠ 0 ∧ operation reserve = .ok reserve' ∨ amount = 0 ∧ reserve' = reserve := by
  unfold unlessZero at h
  split at h
  · rename_i hne
    exact .inl ⟨hne, h⟩
  · rename_i hzero
    cases h
    exact .inr ⟨not_not.mp hzero, rfl⟩

theorem payPayee_unlessZero
    (h : unlessZero amount reserve (fun reserve => reserve.payPayee env descriptor amount sender) = .ok reserve') :
    Flows env descriptor (fun history => { history with received := history.received + amount }) 0 amount 0 reserve reserve' := by
  rcases unlessZero_eq_ok h with ⟨-, h⟩ | ⟨rfl, rfl⟩
  · exact payPayee_flows h
  · exact Flows.refl

theorem refundPayer_unlessZero
    (h : unlessZero amount reserve (fun reserve => reserve.refundPayer env descriptor amount) = .ok reserve') :
    Flows env descriptor (fun history => { history with refunded := history.refunded + amount }) 0 0 amount reserve reserve' := by
  rcases unlessZero_eq_ok h with ⟨-, h⟩ | ⟨rfl, rfl⟩
  · exact refundPayer_flows h
  · exact Flows.refl

/-! ### The channels after a call -/

/-- A call changes one channel: its state, its history and what the reserve holds for it. -/
structure Turns (env : Env) (descriptor : ChannelDescriptor) (state' : PackedChannelState) (history' : ChannelHistory)
    (into paid back : Nat) (reserve reserve' : ChannelReserve) : Prop where
  states : reserve'.channelStates = update reserve.channelStates descriptor state'
  history : reserve'.history = update reserve.history descriptor history'
  payer : into = 0 ∨ descriptor.payer ≠ tip20ChannelReserveAddress
  pays : Pays env descriptor into paid back reserve reserve'

theorem Flows.turns {told : ChannelHistory → ChannelHistory} (h : Flows env descriptor told into paid back reserve reserve')
    (state : PackedChannelState) :
    Turns env descriptor state (told (reserve.history descriptor)) into paid back reserve (reserve'.setState descriptor state) :=
  ⟨by rw [ChannelReserve.setState, h.states], h.history, h.payer, h.pays.others, h.pays.ledger⟩

/-- Before T12 the channel is deleted first, from T12 on last; what is left is the same. -/
theorem deleteAround_turns (told : ChannelHistory → ChannelHistory)
    {deliveries : ChannelReserve → Except TempoError ChannelReserve}
    (hflows : ∀ before after, deliveries before = .ok after → Flows env descriptor told 0 paid back before after)
    (h : reserve.deleteAround env descriptor deliveries = .ok reserve') :
    Turns env descriptor {} (told (reserve.history descriptor)) 0 paid back reserve reserve' := by
  unfold deleteAround at h
  split at h
  · obtain ⟨_, hafter, rfl⟩ := map_ok h
    exact (hflows _ _ hafter).turns {}
  · have hafter := hflows _ _ h
    exact ⟨hafter.states, hafter.history, hafter.payer, hafter.pays.others, hafter.pays.ledger⟩

theorem loadExistingState_eq_ok {state : PackedChannelState} (h : reserve.loadExistingState descriptor = .ok state) :
    state = reserve.channelStates descriptor ∧ state.deposit ≠ 0 := by
  obtain ⟨_, hexists, rfl⟩ := map_ok h
  exact ⟨rfl, of_decide_eq_true (require_eq_ok.mp hexists)⟩

variable {recover : VoucherScheme} {msgSender : Address}

theorem settle_turns (h : reserve.settle recover env msgSender descriptor cumulativeAmount signature = .ok reserve') :
    let state := reserve.channelStates descriptor
    state.deposit ≠ 0 ∧ state.settled < cumulativeAmount ∧
      cumulativeAmount ≤ state.deposit ∧
      recover descriptor cumulativeAmount signature = some descriptor.expectedSigner ∧
      Turns env descriptor { state with settled := cumulativeAmount }
        { reserve.history descriptor with received := (reserve.history descriptor).received +
          (cumulativeAmount - state.settled) }
        0 (cumulativeAmount - state.settled) 0 reserve reserve' := by
  obtain ⟨_, hloaded, h⟩ := bind_ok h
  obtain ⟨rfl, hexists⟩ := loadExistingState_eq_ok hloaded
  obtain ⟨_, h⟩ := rest_ok h
  obtain ⟨hdeposit, h⟩ := check_ok h
  obtain ⟨hincreasing, h⟩ := check_ok h
  obtain ⟨hvoucher, h⟩ := check_ok h
  refine ⟨hexists, hincreasing, hdeposit, hvoucher, ?_⟩
  split at h
  · obtain ⟨_, hafter, rfl⟩ := map_ok h
    exact (payPayee_flows hafter).turns _
  · have hflows := payPayee_flows h
    exact ⟨hflows.states, hflows.history, hflows.payer, hflows.pays.others, hflows.pays.ledger⟩

section
variable (hpolicy : ∀ sender, env.checkReceivePolicy sender tip20ChannelReserveAddress = .ok none)
  (hsender : msgSender ≠ tip20ChannelReserveAddress)
include hpolicy hsender
theorem open_turns {payee operator authorizedSigner : Address} {salt : Word} {deposit : Nat}
    (h : reserve.open env msgSender payee operator token salt authorizedSigner deposit = .ok reserve') :
    ∃ descriptor state', deposit ≠ 0 ∧ (reserve.channelStates descriptor).deposit = 0 ∧ state'.settled = 0 ∧
      state'.deposit = deposit ∧ state'.closeRequestedAt = 0 ∧
      Turns env descriptor state' { deposited := deposit } deposit 0 0 reserve reserve' := by
  iterate 2 obtain ⟨_, h⟩ := rest_ok h
  obtain ⟨hdeposit, h⟩ := check_ok h
  obtain ⟨_, h⟩ := rest_ok h
  obtain ⟨⟨hnew, -⟩, h⟩ := check_ok h
  obtain ⟨_, h⟩ := rest_ok h
  obtain ⟨after, hafter, rfl⟩ := map_ok h
  generalize hdescriptor : ChannelDescriptor.mk msgSender payee operator token salt authorizedSigner
    reserve.channelOpenContextHash = descriptor at hnew hafter ⊢
  have hpayer : descriptor.payer ≠ tip20ChannelReserveAddress := by
    rw [← hdescriptor]
    exact hsender
  have hflows := collect_flows hpayer hpolicy hafter
  refine ⟨descriptor, { deposit := deposit, usesLogicalReceivePolicySender := .t12 ≤ env.spec }, hdeposit, ?_, rfl, rfl, rfl, ?_⟩
  · exact Classical.not_not.mp (of_decide_eq_false hnew)
  · refine ⟨?_, ?_, hflows.payer, hflows.pays.others, hflows.pays.ledger⟩
    · show update after.channelStates descriptor _ = _
      rw [hflows.states]
      rfl
    · show after.history = _
      rw [hflows.history]
      simp [note]

theorem topUp_turns {additionalDeposit : Nat}
    (h : reserve.topUp env msgSender descriptor additionalDeposit = .ok reserve') :
    reserve' = reserve ∨ (reserve.channelStates descriptor).deposit ≠ 0 ∧
      Turns env descriptor
        { reserve.channelStates descriptor with
          deposit := (reserve.channelStates descriptor).deposit + additionalDeposit, closeRequestedAt := 0 }
        { reserve.history descriptor with
          deposited := (reserve.history descriptor).deposited + additionalDeposit, requestedAt := none }
        additionalDeposit 0 0 reserve reserve' := by
  obtain ⟨_, hstate, h⟩ := bind_ok h
  obtain ⟨rfl, hexists⟩ := loadExistingState_eq_ok hstate
  obtain ⟨hpayer, h⟩ := check_ok h
  split at h
  · cases h
    exact .inl rfl
  refine .inr ⟨hexists, ?_⟩
  obtain ⟨after, hafter, rfl⟩ := map_ok h
  have hflows : Flows env descriptor (fun history => { history with deposited := history.deposited + additionalDeposit })
      additionalDeposit 0 0 reserve after := by
    rcases unlessZero_eq_ok hafter with ⟨-, hafter⟩ | ⟨rfl, rfl⟩
    · obtain ⟨_, hafter⟩ := rest_ok hafter
      obtain ⟨_, hafter⟩ := rest_ok hafter
      exact collect_flows (hpayer ▸ hsender) hpolicy hafter
    · exact Flows.refl
  refine ⟨?_, ?_, hflows.payer, hflows.pays.others, hflows.pays.ledger⟩
  · show update after.channelStates _ _ = _
    rw [hflows.states]
  · have hsame : (after.history descriptor) = { reserve.history descriptor with
        deposited := (reserve.history descriptor).deposited + additionalDeposit } := by
      rw [hflows.history, update_self]
    show update after.history descriptor { after.history descriptor with requestedAt := none } = _
    rw [hsame, hflows.history, update_idem]
end

theorem requestClose_turns (h : reserve.requestClose env msgSender descriptor = .ok reserve') :
    reserve' = reserve ∨ (reserve.channelStates descriptor).deposit ≠ 0 ∧
      Turns env descriptor { reserve.channelStates descriptor with closeRequestedAt := nowU32 env }
        { reserve.history descriptor with requestedAt := some env.timestamp } 0 0 0 reserve reserve' := by
  obtain ⟨_, hstate, h⟩ := bind_ok h
  obtain ⟨rfl, hexists⟩ := loadExistingState_eq_ok hstate
  obtain ⟨-, h⟩ := check_ok h
  split at h
  · cases h
    exact .inl rfl
  · cases h
    have hpays : Pays env descriptor 0 0 0 reserve reserve := Flows.refl.pays
    exact .inr ⟨hexists, rfl, rfl, .inl rfl, hpays.others, hpays.ledger⟩

theorem close_turns {captureAmount : Nat}
    (h : reserve.close recover env msgSender descriptor cumulativeAmount captureAmount signature = .ok reserve') :
    let state := reserve.channelStates descriptor
    state.deposit ≠ 0 ∧ state.settled ≤ captureAmount ∧ captureAmount ≤ state.deposit ∧
      (state.settled < captureAmount → captureAmount ≤ cumulativeAmount ∧
        recover descriptor cumulativeAmount signature = some descriptor.expectedSigner) ∧
      Turns env descriptor {} { reserve.history descriptor with
          received := (reserve.history descriptor).received + (captureAmount - state.settled)
          refunded := (reserve.history descriptor).refunded + (state.deposit - captureAmount) }
        0 (captureAmount - state.settled) (state.deposit - captureAmount) reserve reserve' := by
  intro state
  obtain ⟨_, hloaded, h⟩ := bind_ok h
  obtain ⟨rfl, hexists⟩ := loadExistingState_eq_ok hloaded
  obtain ⟨_, h⟩ := rest_ok h
  obtain ⟨⟨hsettled, hcumulative⟩, h⟩ := check_ok h
  obtain ⟨hcapture, h⟩ := check_ok h
  obtain ⟨_, hvoucher, h⟩ := bind_ok h
  refine ⟨hexists, hsettled, hcapture, fun hlt => ?_, ?_⟩
  · rw [if_pos hlt] at hvoucher
    exact ⟨hcumulative, require_eq_ok.mp hvoucher⟩
  · refine deleteAround_turns (fun history => { history with
      received := history.received + (captureAmount - state.settled)
      refunded := history.refunded + (state.deposit - captureAmount) }) ?_ h
    intro _ _ hdeliveries
    obtain ⟨_, hmid, hafter⟩ := bind_ok hdeliveries
    exact (payPayee_unlessZero hmid).trans (refundPayer_unlessZero hafter)

theorem withdraw_turns (h : reserve.withdraw env msgSender descriptor = .ok reserve') :
    let state := reserve.channelStates descriptor
    state.deposit ≠ 0 ∧ msgSender = descriptor.payer ∧ state.closeRequestedAt ≠ 0 ∧
      state.closeRequestedAt + closeGracePeriod ≤ now env ∧
      Turns env descriptor {} { reserve.history descriptor with refunded := (reserve.history descriptor).refunded +
          (state.deposit - state.settled) }
        0 0 (state.deposit - state.settled) reserve reserve' := by
  intro state
  obtain ⟨_, hloaded, h⟩ := bind_ok h
  obtain ⟨rfl, hexists⟩ := loadExistingState_eq_ok hloaded
  obtain ⟨hpayer, h⟩ := check_ok h
  obtain ⟨⟨hrequested, hready⟩, h⟩ := check_ok h
  refine ⟨hexists, hpayer, hrequested, hready, ?_⟩
  refine deleteAround_turns (fun history => { history with refunded := history.refunded +
    (state.deposit - state.settled) }) ?_ h
  intro _ _ hdeliveries
  exact refundPayer_unlessZero hdeliveries

/-! ### The invariant -/

def Covered (recover : VoucherScheme) (descriptor : ChannelDescriptor) (amount : Nat) : Prop :=
  amount = 0 ∨ ∃ cumulativeAmount signature, amount ≤ cumulativeAmount ∧
    recover descriptor cumulativeAmount signature = some descriptor.expectedSigner

/-- The state of a channel against its history. -/
structure Accounted (recover : VoucherScheme) (descriptor : ChannelDescriptor) (state : PackedChannelState)
    (history : ChannelHistory) : Prop where
  settled_le : state.settled ≤ state.deposit
  live : state.deposit ≠ 0 → history.deposited = state.deposit ∧ history.received = state.settled ∧ history.refunded = 0
  ended : state.deposit = 0 → history.received + history.refunded = history.deposited
  covered : Covered recover descriptor history.received
  request : state.closeRequestedAt ≠ 0 → ∃ requested, history.requestedAt = some requested ∧
    state.closeRequestedAt = min requested (2 ^ 32 - 1)

/-- Every channel is accounted for, and the reserve covers what the channels hold. -/
structure Safe (recover : VoucherScheme) (reserve : ChannelReserve) : Prop where
  accounted : ∀ descriptor, Accounted recover descriptor (reserve.channelStates descriptor) (reserve.history descriptor)
  backed : ∀ token, reserve.locked token ≤ reserve.balance token

theorem locked_update (reserve : ChannelReserve) (descriptor : ChannelDescriptor) (state : PackedChannelState)
    (h : reserve'.channelStates = update reserve.channelStates descriptor state) (token : Address) :
    reserve'.locked token + (if descriptor.token = token then (reserve.channelStates descriptor).locked else 0) =
      reserve.locked token + if descriptor.token = token then state.locked else 0 := by
  unfold locked
  rw [h]
  exact sum_update (fun descriptor state => if descriptor.token = token then PackedChannelState.locked state else 0)
    reserve.channelStates descriptor state

/-- The calls on the reserve: nobody calls from its own address, and it accepts what it is sent, having no
receive policy. -/
structure Admissible (env : Env) (msgSender : Address) : Prop where
  sender : msgSender ≠ tip20ChannelReserveAddress
  policy : ∀ sender, env.checkReceivePolicy sender tip20ChannelReserveAddress = .ok none

theorem Safe.start (recover : VoucherScheme) (world : World) : Safe recover { world := world } := by
  refine ⟨fun descriptor => ⟨le_rfl, absurd rfl, fun _ => rfl, .inl rfl, absurd rfl⟩, fun _ => ?_⟩
  apply (le_of_eq _).trans (Nat.zero_le _)
  apply Finset.sum_eq_zero
  intro _ _
  exact ite_self 0

section
variable (h : reserve.Safe recover)
include h
theorem Safe.turns {state' : PackedChannelState} {history' : ChannelHistory}
    (hturns : Turns env descriptor state' history' into paid back reserve reserve')
    (haccounted : Accounted recover descriptor state' history')
    (hlocked : state'.locked + (paid + back) ≤ (reserve.channelStates descriptor).locked + into) : reserve'.Safe recover := by
  refine ⟨fun other => ?_, fun token => ?_⟩
  · rw [hturns.states, hturns.history]
    by_cases hother : other = descriptor
    · subst hother
      rw [update_self, update_self]
      exact haccounted
    · rw [update_of_ne hother, update_of_ne hother]
      exact h.accounted other
  · have hsum := locked_update reserve descriptor state' hturns.states token
    have hbalance := hturns.pays.balance hturns.payer token
    have hbacked := h.backed token
    by_cases htoken : descriptor.token = token
    · subst htoken
      simp only [if_true] at hsum hbalance
      omega
    · simp only [if_neg htoken, if_neg (Ne.symm htoken)] at hsum hbalance
      omega

section
variable {act : ChannelCall} (hadmissible : Admissible env msgSender)
  (hcall : reserve.call recover env msgSender act = .ok reserve')
include hadmissible hcall
/-- **One call keeps the reserve safe.** -/
theorem Safe.call : reserve'.Safe recover := by
  obtain ⟨_, hcall⟩ := rest_ok hcall
  cases act with
  | «open» payee operator token salt authorizedSigner deposit =>
    obtain ⟨_, _, hdeposit, -, hsettled, hstate, hclose, hturns⟩ :=
      open_turns hadmissible.policy hadmissible.sender hcall
    refine h.turns hturns ⟨by omega, fun _ => ⟨hstate.symm, hsettled.symm, rfl⟩, fun hzero => ?_, .inl rfl, ?_⟩ ?_
    · exact absurd (hstate.symm.trans hzero) hdeposit
    · exact fun hrequest => absurd hclose hrequest
    · unfold PackedChannelState.locked
      omega
  | settle descriptor cumulativeAmount signature =>
    obtain ⟨hexists, hincreasing, hdeposit, hvoucher, hturns⟩ := settle_turns hcall
    have hold := h.accounted descriptor
    obtain ⟨hdeposited, hreceived, hrefunded⟩ := hold.live hexists
    refine h.turns hturns ⟨hdeposit, fun _ => ⟨hdeposited, ?_, hrefunded⟩, fun hzero => absurd hzero hexists, ?_,
      hold.request⟩ ?_
    · show (reserve.history descriptor).received + _ = cumulativeAmount
      omega
    · refine .inr ⟨cumulativeAmount, signature, ?_, hvoucher⟩
      show (reserve.history descriptor).received + _ ≤ cumulativeAmount
      omega
    · unfold PackedChannelState.locked
      show (reserve.channelStates descriptor).deposit - cumulativeAmount + _ ≤ _
      omega
  | topUp descriptor additionalDeposit =>
    rcases topUp_turns hadmissible.policy hadmissible.sender hcall with rfl | ⟨hexists, hturns⟩
    · exact h
    have hold := h.accounted descriptor
    obtain ⟨hdeposited, hreceived, hrefunded⟩ := hold.live hexists
    have hsettled := hold.settled_le
    refine h.turns hturns ⟨Nat.le_add_right_of_le hsettled, fun _ => ⟨?_, hreceived, hrefunded⟩, fun hzero => ?_, hold.covered,
      absurd rfl⟩ ?_
    · rw [hdeposited]
    · exact absurd (Nat.eq_zero_of_add_eq_zero hzero).1 hexists
    · unfold PackedChannelState.locked
      show (reserve.channelStates descriptor).deposit + additionalDeposit - (reserve.channelStates descriptor).settled + 0 ≤ _
      omega
  | requestClose descriptor =>
    rcases requestClose_turns hcall with rfl | ⟨-, hturns⟩
    · exact h
    have hold := h.accounted descriptor
    exact h.turns hturns { hold with request := fun _ => ⟨env.timestamp, rfl, rfl⟩ } le_rfl
  | close descriptor cumulativeAmount captureAmount signature =>
    obtain ⟨hexists, hsettled, hcapture, hvoucher, hturns⟩ := close_turns hcall
    have hold := h.accounted descriptor
    obtain ⟨hdeposited, hreceived, hrefunded⟩ := hold.live hexists
    refine h.turns hturns ⟨le_rfl, absurd rfl, fun _ => ?_, ?_, absurd rfl⟩ ?_
    · show (reserve.history descriptor).received + _ + ((reserve.history descriptor).refunded + _) =
        (reserve.history descriptor).deposited
      omega
    · by_cases hlt : (reserve.channelStates descriptor).settled < captureAmount
      · obtain ⟨-, hsigned⟩ := hvoucher hlt
        refine .inr ⟨cumulativeAmount, signature, ?_, hsigned⟩
        show (reserve.history descriptor).received + _ ≤ cumulativeAmount
        omega
      · have hzero : captureAmount - (reserve.channelStates descriptor).settled = 0 := by omega
        rw [hzero]
        exact hold.covered
    · unfold PackedChannelState.locked
      show 0 - 0 + _ ≤ _
      omega
  | withdraw descriptor =>
    obtain ⟨hexists, -, -, -, hturns⟩ := withdraw_turns hcall
    have hold := h.accounted descriptor
    obtain ⟨hdeposited, hreceived, hrefunded⟩ := hold.live hexists
    have hsettled := hold.settled_le
    refine h.turns hturns ⟨le_rfl, absurd rfl, fun _ => ?_, hold.covered, absurd rfl⟩ ?_
    · show (reserve.history descriptor).received + ((reserve.history descriptor).refunded + _) =
        (reserve.history descriptor).deposited
      omega
    · unfold PackedChannelState.locked
      show 0 - 0 + _ ≤ _
      omega

end

theorem Safe.run {events : List ChannelEvent}
    (hadmissible : ∀ env msgSender call, .call env msgSender call ∈ events → Admissible env msgSender) :
    (reserve.run recover events).Safe recover := by
  induction events generalizing reserve with
  | nil => exact h
  | cons event _ ih =>
    refine ih ?_ fun env msgSender call hmem => hadmissible env msgSender call (.tail _ hmem)
    cases event with
    | transaction => exact ⟨h.accounted, h.backed⟩
    | call env msgSender call =>
      cases hcall : reserve.call recover env msgSender call with
      | ok next =>
        have hstep : reserve.step recover (.call env msgSender call) = next := by simp [step, hcall]
        rw [hstep]
        exact h.call (hadmissible env msgSender call (.head _)) hcall
      | error =>
        have hstep : reserve.step recover (.call env msgSender call) = reserve := by simp [step, hcall]
        rw [hstep]
        exact h

end

end ChannelReserve
end LeafageEvm.Tempo
