import LeafageEvm.Tempo.TokenRewards

/-! The receive-policy guard from T6 on: its receipts and the balances behind them. -/

namespace LeafageEvm.Tempo
open RecoveryMode Ledger Token Prod Nat Function List

def GuardEvent.blocked? : GuardEvent → Option (Receipt × Nat)
  | .transferBlocked receipt amount => some (receipt, amount)
  | .receiptClaimed .. | .receiptBurned .. => none

def GuardEvent.paid? : GuardEvent → Option (Receipt × Nat)
  | .transferBlocked .. => none
  | .receiptClaimed receipt _ _ amount | .receiptBurned receipt _ amount => some (receipt, amount)

/-- Who may claim a receipt. -/
def Receipt.authority (receipt : Receipt) : Address :=
  if receipt.recoveryAuthority = 0 then receipt.originator else receipt.recoveryAuthority

/-- The receiver a virtual recipient stands for plays no part in who may claim. -/
theorem RecoveryMode.authority_ofReceipt (receipt : Receipt) (receiver : Address) :
    (ofReceipt receipt receiver).authority receipt = receipt.authority := by
  unfold ofReceipt Receipt.authority
  split
  · rfl
  · split <;> rfl

namespace Guard

/-- All inbounds blocked so far. -/
def blocked (guard : Guard) : List (Receipt × Nat) := guard.events.filterMap GuardEvent.blocked?

/-- All payouts so far. -/
def paid (guard : Guard) : List (Receipt × Nat) := guard.events.filterMap GuardEvent.paid?

def receipts (guard : Guard) : List Receipt := guard.blocked.map Prod.fst

def outstanding (guard : Guard) (token : Address) : Nat :=
  ((guard.receipts.filter (·.token = token)).map guard.balances).sum

/-- The books of the guard: receipts are numbered and issued once, a receipt is worth what was blocked until
it is paid out in full, which happens once, and a claim is made by the one who may. -/
structure Booked (guard : Guard) : Prop where
  nonce_lt : ∀ receipt ∈ guard.receipts, receipt.blockedNonce < guard.nonce
  nodup : guard.receipts.Nodup
  worth : ∀ receipt amount, (receipt, amount) ∈ guard.blocked →
    guard.balances receipt = amount ∨ guard.balances receipt = 0
  unknown : ∀ receipt, receipt ∉ guard.receipts → guard.balances receipt = 0
  paid_nodup : (guard.paid.map Prod.fst).Nodup
  paid_blocked : ∀ payout ∈ guard.paid, payout ∈ guard.blocked
  paid_zero : ∀ receipt ∈ guard.paid.map Prod.fst, guard.balances receipt = 0
  claimed_by : ∀ receipt caller dest amount, .receiptClaimed receipt caller dest amount ∈ guard.events →
    caller = receipt.authority

/-- A new receipt, numbered with the next nonce. -/
structure Blocks (guard : Guard) (receipt : Receipt) (amount : Nat) (guard' : Guard) : Prop where
  nonce : receipt.blockedNonce = max guard.nonce 1
  eq : guard' = (({ guard with nonce := max guard.nonce 1 + 1 } : Guard).setBalance receipt amount).emitEvent
    (.transferBlocked receipt amount)

/-- A receipt is paid out. -/
structure Pays (guard : Guard) (receipt : Receipt) (event : GuardEvent) (guard' : Guard) : Prop where
  ne_zero : guard.balances receipt ≠ 0
  paid : event.paid? = some (receipt, guard.balances receipt)
  claimed_by : ∀ caller dest amount, event = .receiptClaimed receipt caller dest amount → caller = receipt.authority
  eq : guard' = (guard.setBalance receipt 0).emitEvent event

theorem storeBlocked_blocks {env : Env} {guard guard' : Guard} {token originator recipient recoveryAuthority : Address}
    {amount memo : Nat} {reason : BlockedReason} {kind : InboundKind}
    (h : guard.storeBlocked env token originator recipient recoveryAuthority amount reason kind memo = .ok guard') :
    ∃ receipt, receipt.token = token ∧ Blocks guard receipt amount guard' := by
  obtain ⟨_, h⟩ := rest_ok h
  obtain ⟨⟨_, _⟩, hnext, rfl⟩ := map_ok h
  unfold nextReceiptNonce at hnext
  simp only at hnext
  split at hnext
  · cases hnext
    refine ⟨_, ?_, ?_, rfl⟩
    · rfl
    · rfl
  · cases hnext

variable {receipts : List Receipt} {receipt : Receipt}

theorem sum_map_update_of_notMem (h : receipt ∉ receipts) (balances : Receipt → Nat) (amount : Nat) :
    (receipts.map (update balances receipt amount)).sum = (receipts.map balances).sum := by
  congr 1
  apply map_congr_left
  intro other hother
  have hne : other ≠ receipt := ne_of_mem_of_not_mem hother h
  exact update_of_ne hne _ _

theorem sum_map_update_of_mem (hnodup : receipts.Nodup)
    (h : receipt ∈ receipts) (balances : Receipt → Nat) (amount : Nat) :
    (receipts.map (update balances receipt amount)).sum + balances receipt =
      (receipts.map balances).sum + amount := by
  induction receipts with
  | nil => simp at h
  | cons head rest ih =>
    obtain ⟨hhead, hrest⟩ := nodup_cons.mp hnodup
    by_cases heq : receipt = head
    · subst heq
      rw [map_cons, map_cons, sum_cons, sum_cons, update_self, sum_map_update_of_notMem hhead]
      omega
    have hmem : receipt ∈ rest := (mem_cons.mp h).resolve_left heq
    have := ih hrest hmem
    rw [map_cons, map_cons, sum_cons, sum_cons, update_of_ne (Ne.symm heq)]
    omega

namespace Booked

variable {guard guard' : Guard} {receipt : Receipt} {amount : Nat} {event : GuardEvent}

theorem empty : Booked {} := by
  constructor <;> simp [receipts, Guard.blocked, Guard.paid]

/-- The new receipt is none of the old ones. -/
theorem fresh (h : guard.Booked) (hblocks : Blocks guard receipt amount guard') : receipt ∉ guard.receipts := by
  intro hmem
  have hlt := h.nonce_lt receipt hmem
  rw [hblocks.nonce] at hlt
  omega

theorem receipts_of_blocks (hblocks : Blocks guard receipt amount guard') :
    guard'.receipts = receipt :: guard.receipts ∧ guard'.blocked = (receipt, amount) :: guard.blocked ∧
      guard'.paid = guard.paid ∧ guard'.balances = update guard.balances receipt amount := by
  rw [hblocks.eq]
  refine ⟨rfl, rfl, rfl, rfl⟩

theorem receipts_of_pays (hpays : Pays guard receipt event guard') :
    guard'.receipts = guard.receipts ∧ guard'.blocked = guard.blocked ∧
      guard'.paid = (receipt, guard.balances receipt) :: guard.paid ∧
      guard'.balances = update guard.balances receipt 0 := by
  have hpaid := hpays.paid
  rw [hpays.eq]
  cases event with
  | transferBlocked r a => cases hpaid
  | receiptClaimed | _ =>
    cases hpaid
    exact ⟨rfl, rfl, rfl, rfl⟩

section
variable (h : guard.Booked)
include h
theorem block (hblocks : Blocks guard receipt amount guard') : guard'.Booked := by
  have hfresh := h.fresh hblocks
  obtain ⟨hreceipts, hblocked, hpaid, hbalances⟩ := receipts_of_blocks hblocks
  have hnonce : guard'.nonce = max guard.nonce 1 + 1 := by rw [hblocks.eq]; rfl
  have hold : ∀ other ∈ guard.receipts, guard'.balances other = guard.balances other := by
    intro other hother
    have hne : other ≠ receipt := ne_of_mem_of_not_mem hother hfresh
    rw [hbalances, update_of_ne hne]
  have hpaidMem : ∀ other ∈ guard.paid.map fst, other ∈ guard.receipts := by
    intro _ hother
    obtain ⟨payout, hpayout, rfl⟩ := mem_map.mp hother
    exact mem_map_of_mem (h.paid_blocked payout hpayout)
  refine ⟨?_, ?_, ?_, ?_, ?_, ?_, ?_, ?_⟩
  · intro other hother
    rw [hreceipts] at hother
    rcases mem_cons.mp hother with rfl | hother
    · rw [hblocks.nonce]
      omega
    · have := h.nonce_lt other hother
      omega
  · rw [hreceipts]
    exact nodup_cons.mpr ⟨hfresh, h.nodup⟩
  · intro other a hother
    rw [hblocked] at hother
    rcases mem_cons.mp hother with heq | hother
    · cases heq
      exact .inl (by rw [hbalances, update_self])
    · rw [hold other (mem_map_of_mem hother)]
      exact h.worth other a hother
  · intro other hother
    rw [hreceipts] at hother
    have hne : other ≠ receipt := fun heq => hother (heq ▸ mem_cons_self)
    rw [hbalances, update_of_ne hne]
    exact h.unknown other fun hmem => hother (.tail _ hmem)
  · rw [hpaid]
    exact h.paid_nodup
  · intro payout hpayout
    rw [hpaid] at hpayout
    rw [hblocked]
    exact .tail _ (h.paid_blocked payout hpayout)
  · intro other hother
    rw [hpaid] at hother
    rw [hold other (hpaidMem other hother)]
    exact h.paid_zero other hother
  · intro r caller dest a hevent
    rw [hblocks.eq] at hevent
    rcases mem_cons.mp hevent with heq | hevent
    · cases heq
    · exact h.claimed_by r caller dest a hevent

theorem mem_of_ne_zero (hne : guard.balances receipt ≠ 0) :
    receipt ∈ guard.receipts ∧ (receipt, guard.balances receipt) ∈ guard.blocked ∧ receipt ∉ guard.paid.map fst := by
  have hmem : receipt ∈ guard.receipts := by
    by_contra hnot
    exact hne (h.unknown receipt hnot)
  obtain ⟨⟨r, a⟩, hblocked, rfl⟩ := mem_map.mp hmem
  refine ⟨hmem, ?_, fun hpaid => hne (h.paid_zero _ hpaid)⟩
  rcases h.worth r a hblocked with heq | heq
  · rw [heq]
    exact hblocked
  · exact absurd heq hne

theorem pay (hpays : Pays guard receipt event guard') : guard'.Booked := by
  obtain ⟨hreceipts, hblocked, hpaid, hbalances⟩ := receipts_of_pays hpays
  obtain ⟨-, hworth, hunpaid⟩ := h.mem_of_ne_zero hpays.ne_zero
  have hnonce : guard'.nonce = guard.nonce := by rw [hpays.eq]; rfl
  have hkept : ∀ other, guard'.balances other = guard.balances other ∨ guard'.balances other = 0 := by
    intro other
    rw [hbalances]
    by_cases heq : other = receipt
    · subst heq
      exact .inr (update_self ..)
    · exact .inl (update_of_ne heq ..)
  refine ⟨?_, ?_, ?_, ?_, ?_, ?_, ?_, ?_⟩
  · rw [hreceipts, hnonce]
    exact h.nonce_lt
  · rw [hreceipts]
    exact h.nodup
  · intro other a hother
    rw [hblocked] at hother
    rcases hkept other with heq | heq
    · rw [heq]
      exact h.worth other a hother
    · exact .inr heq
  · intro other hother
    rw [hreceipts] at hother
    rcases hkept other with heq | heq
    · rw [heq]
      exact h.unknown other hother
    · exact heq
  · rw [hpaid]
    exact nodup_cons.mpr ⟨hunpaid, h.paid_nodup⟩
  · intro payout hpayout
    rw [hpaid] at hpayout
    rw [hblocked]
    rcases mem_cons.mp hpayout with rfl | hpayout
    · exact hworth
    · exact h.paid_blocked payout hpayout
  · intro other hother
    rw [hpaid] at hother
    rcases mem_cons.mp hother with rfl | hother
    · rw [hbalances, update_self]
    rcases hkept other with heq | heq
    · rw [heq]
      exact h.paid_zero other hother
    · exact heq
  · intro r caller dest a hevent
    rw [hpays.eq] at hevent
    rcases mem_cons.mp hevent with heq | hevent
    · have hpaid := hpays.paid
      rw [← heq] at hpaid
      cases hpaid
      exact hpays.claimed_by caller dest _ heq.symm
    · exact h.claimed_by r caller dest a hevent

theorem outstanding_block (hblocks : Blocks guard receipt amount guard') (token : Address) :
    guard'.outstanding token = guard.outstanding token + if receipt.token = token then amount else 0 := by
  obtain ⟨hreceipts, -, -, hbalances⟩ := receipts_of_blocks hblocks
  have hnot : receipt ∉ guard.receipts.filter (·.token = token) := fun hmem =>
    h.fresh hblocks (mem_of_mem_filter hmem)
  have hrest := sum_map_update_of_notMem hnot guard.balances amount
  unfold outstanding
  rw [hreceipts, hbalances, filter_cons]
  split
  · rename_i htoken
    rw [map_cons, sum_cons, update_self, if_pos (of_decide_eq_true htoken)]
    omega
  · rename_i htoken
    rw [if_neg (by simpa using htoken)]
    omega

theorem outstanding_pay (hpays : Pays guard receipt event guard') (token : Address) :
    guard'.outstanding token + (if receipt.token = token then guard.balances receipt else 0) = guard.outstanding token := by
  obtain ⟨hreceipts, -, -, hbalances⟩ := receipts_of_pays hpays
  have hmem := (h.mem_of_ne_zero hpays.ne_zero).1
  unfold outstanding
  rw [hreceipts, hbalances]
  by_cases htoken : receipt.token = token
  · rw [if_pos htoken]
    have hfiltered : receipt ∈ guard.receipts.filter (·.token = token) :=
      mem_filter.mpr ⟨hmem, decide_eq_true htoken⟩
    exact sum_map_update_of_mem (h.nodup.filter _) hfiltered guard.balances 0
  rw [if_neg htoken]
  apply sum_map_update_of_notMem
  intro hfiltered
  exact htoken (of_decide_eq_true (mem_filter.mp hfiltered).2)
end

end Booked
end Guard

/-! ### Calls -/

def TokenCall.NoPayout (call : TokenCall) : Prop :=
  (∀ dest receipt, call ≠ .claim dest receipt) ∧ ∀ receipt, call ≠ .burnBlockedReceipt receipt

/-- What a call does to the guard of the token at `self`. -/
inductive Custody.GuardEffect (record : CallRecord) (state state' : Custody) : Prop where
  | none (hguard : state'.guard = state.guard) (hcall : record.call.NoPayout)
  | blocks {receipt : Receipt} {amount : Nat} (hcall : record.call.NoPayout) (hfork : .t6 ≤ record.env.spec)
      (htoken : receipt.token = record.self) (hblocks : Guard.Blocks state.guard receipt amount state'.guard)
      (hfunded : state.token.balances receivePolicyGuardAddress + amount ≤ state'.token.balances receivePolicyGuardAddress)
  | claims {receipt : Receipt} {dest : Address} {recipient : Recipient} (hcall : record.call = .claim dest receipt)
      (htoken : receipt.token = record.self) (hauthority : record.msgSender = receipt.authority)
      (hdest : Recipient.resolve record.env dest = .ok recipient)
      (hpays : Guard.Pays state.guard receipt
        (.receiptClaimed receipt record.msgSender dest (state.guard.balances receipt)) state'.guard)
      (hmove : Token.Performs record.env record.self
        (.move receivePolicyGuardAddress recipient.target (state.guard.balances receipt)) state.token state'.token)
  | burns {receipt : Receipt} {receiver : Address} (hcall : record.call = .burnBlockedReceipt receipt)
      (htoken : receipt.token = record.self) (hreceiver : resolveRecipient record.env receipt.recipient = .ok receiver)
      (hsubject : record.env.isAuthorizedAs .sender
        ((RecoveryMode.ofReceipt receipt receiver).policySubject receipt.originator receiver) = .ok false)
      (hpays : Guard.Pays state.guard receipt
        (.receiptBurned receipt record.msgSender (state.guard.balances receipt)) state'.guard)
      (hburn : Token.Performs record.env record.self
        (.burn receivePolicyGuardAddress (state.guard.balances receipt)) state.token state'.token)

namespace Custody

variable {record : CallRecord} {state state' : Custody}

theorem GuardEffect.of_transferWith {spender : Option Address} {source dest : Address} {amount memo : Nat}
    (h : state.transferWith record.env record.self spender source dest amount memo = .ok state')
    (hcall : record.call.NoPayout) (hsource : source ≠ receivePolicyGuardAddress ∨ amount = 0) :
    GuardEffect record state state' := by
  obtain ⟨charged, _, _, hcharge, -, -, -, hmove, hguard⟩ := transferWith_eq_ok h
  have hbalances := hcharge.balances
  rcases hguard with ⟨-, hsame⟩ | ⟨rfl, hfork, -, _, _, _, hstore⟩
  · exact .none hsame hcall
  obtain ⟨_, htoken, hblocks⟩ := Guard.storeBlocked_blocks hstore
  refine .blocks hcall hfork htoken hblocks ?_
  obtain ⟨-, _, -, htoken'⟩ := transferTo_eq_ok guardAddress_ne_zero hmove
  have hbalance : state'.token.balances = (charged.ledger.move source receivePolicyGuardAddress amount).balances := by
    rw [htoken']
  rw [hbalance, ← hbalances]
  rcases hsource with hne | rfl
  · rw [balances_move_of_ne _ _ hne.symm]
    exact le_rfl
  · rw [move_zero]
    exact le_rfl

theorem call_guardEffect (hnot : record.NotBy receivePolicyGuardAddress)
    (hallow : ∀ spender, state.token.allowances receivePolicyGuardAddress spender = 0)
    (h : state.call record.env record.self record.msgSender record.call = .ok state') :
    GuardEffect record state state' := by
  obtain ⟨env, self, msgSender, call⟩ := record
  have of_token : ∀ {call : TokenCall} {result}, state.withToken result = .ok state' → call.NoPayout →
      GuardEffect ⟨env, self, msgSender, call⟩ state state' := fun hresult hcall => .none (withToken_eq_ok hresult).2 hcall
  cases call with
  | initializeToken =>
    cases h
    exact .none rfl (by simp [TokenCall.NoPayout])
  | transfer =>
    exact .of_transferWith h (by simp [TokenCall.NoPayout]) (.inl hnot.msgSender)
  | transferFrom source =>
    refine .of_transferWith h (by simp [TokenCall.NoPayout]) ?_
    by_cases hsource : source = receivePolicyGuardAddress
    · subst hsource
      obtain ⟨_, _, -, -, hamount⟩ := transferWith_performs h
      have hle := hamount msgSender rfl
      rw [hallow] at hle
      exact .inr (le_zero.mp hle)
    · exact .inl hsource
  | systemTransferFrom =>
    obtain ⟨_, h⟩ := rest_ok h
    exact .of_transferWith h (by simp [TokenCall.NoPayout]) (.inl hnot.msgSender)
  | channelReserveTransfer =>
    exact .none (channelReserveTransfer_performs self h).2 (by simp [TokenCall.NoPayout])
  | permit | burnAt =>
    obtain ⟨_, h⟩ := rest_ok h
    exact of_token h (by simp [TokenCall.NoPayout])
  | approve | burn | burnBlocked | distributeReward | setRewardRecipient | claimRewards | setSupplyCap | pause | unpause =>
    exact of_token h (by simp [TokenCall.NoPayout])
  | mint dest amount memo =>
    have hcall : (TokenCall.mint dest amount memo).NoPayout := by simp [TokenCall.NoPayout]
    rcases mint_guard h with ⟨hsame, -⟩ | ⟨_, _, _, _, hfork, hmint, hstore⟩
    · exact .none hsame hcall
    obtain ⟨_, htoken, hblocks⟩ := Guard.storeBlocked_blocks hstore
    refine .blocks hcall hfork htoken hblocks ?_
    obtain ⟨-, _, -, htoken'⟩ := mintTo_eq_ok hmint
    rw [htoken']
    exact le_of_eq (balances_mint_self state.token.ledger amount receivePolicyGuardAddress).symm
  | claim =>
    obtain ⟨⟨-, htoken⟩, h⟩ := check_ok h
    obtain ⟨_, _, -, hauthority, hne, hdest, hmove, hguard⟩ := claim_eq_ok self h
    rw [authority_ofReceipt] at hauthority
    refine .claims rfl htoken hauthority hdest ⟨hne, rfl, ?_, hguard⟩ hmove
    rintro _ _ _ heq
    cases heq
    exact hauthority
  | burnBlockedReceipt =>
    obtain ⟨⟨-, htoken⟩, h⟩ := check_ok h
    obtain ⟨_, hreceiver, hne, hsubject, hburn, hguard⟩ := burnBlockedReceipt_eq_ok h
    refine .burns rfl htoken hreceiver hsubject ⟨hne, rfl, ?_, hguard⟩ hburn
    nofun

end Custody

namespace World

variable {token : Token} {self : Address} {world world' : World} {record : CallRecord}

/-- The books are in order, nobody may spend for the guard, and its balances cover the receipts. -/
structure Custodian (world : World) : Prop where
  booked : world.guard.Booked
  allowances : ∀ token spender, (world.tokens token).allowances receivePolicyGuardAddress spender = 0
  backed : ∀ token, world.guard.outstanding token ≤ (world.tokens token).balances receivePolicyGuardAddress

theorem Custodian.empty : Custodian {} := ⟨Guard.Booked.empty, fun _ _ => rfl, fun _ => le_rfl⟩

section
variable (hnot : record.NotBy receivePolicyGuardAddress)
include hnot
theorem spares_guard (hcall : record.call.NoPayout)
    (hfork : .t6 ≤ record.env.spec) (hallow : ∀ spender, token.allowances receivePolicyGuardAddress spender = 0)
    {action : TokenAction} (hpermits : record.call.Permits record.env record.self record.msgSender token action) :
    action.Spares receivePolicyGuardAddress := by
  refine hpermits.spares hnot hallow ?_ fun _ => hcall
  intro _ _ hcheck
  exact (require_eq_ok.mp hcheck).2.2.2.1 hfork rfl

/-- Before T6 and for payouts the allowances of the guard stay zero too. -/
theorem allowances_call (hcall : world.call record = .ok world')
    (h : ∀ token spender, (world.tokens token).allowances receivePolicyGuardAddress spender = 0) :
    ∀ token spender, (world'.tokens token).allowances receivePolicyGuardAddress spender = 0 := by
  obtain ⟨hself, state, hstate, rfl⟩ := call_eq_ok hcall
  obtain ⟨_, hperforms, hpermits⟩ := Custody.call_performs hself hstate
  have hallow : ∀ spender, state.token.allowances receivePolicyGuardAddress spender = 0 := by
    refine hperforms.induct (fun action => ∀ approver, action = .administer approver → approver ≠ some receivePolicyGuardAddress)
      (motive := fun token => ∀ spender, token.allowances receivePolicyGuardAddress spender = 0) ?_ ?_ (h record.self)
    · intro _ _ _ happrover haction hallow spender
      have hle := haction.allowances_le_of_approver happrover spender
      rw [hallow] at hle
      exact le_zero.mp hle
    · rintro _ haction _ rfl happrover
      rcases hpermits _ haction _ happrover with hsender | ⟨_, _, _, _, hsigner⟩
      · exact hnot.msgSender hsender.symm
      · exact hnot.signer _ _ _ _ hsigner
  intro token
  by_cases htoken : token = record.self
  · subst htoken
    simpa using hallow
  · simpa [update_of_ne htoken] using h token

theorem le_balances_guard {state : Custody} (hself : isTip20Prefix record.self = true) (hcall : record.call.NoPayout) (hfork : .t6 ≤ record.env.spec)
    (hallow : ∀ spender, (world.tokens record.self).allowances receivePolicyGuardAddress spender = 0)
    (hstate : Custody.call record.env record.self ⟨world.tokens record.self, world.guard⟩ record.msgSender record.call = .ok state) :
    (world.tokens record.self).balances receivePolicyGuardAddress ≤ state.token.balances receivePolicyGuardAddress := by
  obtain ⟨_, hperforms, hpermits⟩ := Custody.call_performs hself hstate
  refine hperforms.induct (TokenAction.Spares receivePolicyGuardAddress)
    (motive := fun token => (world.tokens record.self).balances receivePolicyGuardAddress ≤
      token.balances receivePolicyGuardAddress) ?_ ?_ le_rfl
  · intro _ _ _ hspares haction hle
    exact hle.trans (haction.le_balances (ne_zero_of_isTip20Prefix hself) hspares
      fun _ _ _ => ne_guard_of_isTip20Prefix hself)
  · intro action haction
    exact spares_guard hnot hcall hfork hallow (hpermits action haction)
end

theorem ledger_claimed {env : Env} {token' : Token} {source target : Address} {amount : Nat}
    (h : Token.Performs env self (.move source target amount) token token') :
    token'.ledger = token.ledger.move source target amount := by
  cases h with
  | move htarget h => exact ledger_transferTo htarget h

theorem ledger_burned {env : Env} {token' : Token} {source : Address} {amount : Nat}
    (h : Token.Performs env self (.burn source amount) token token') : token'.ledger = token.ledger.burn source amount := by
  cases h with
  | burn h hreduce =>
    obtain ⟨-, mid, hmid, rfl⟩ := transferTo_zero_eq_ok h
    obtain ⟨-, rfl⟩ := reduceSupply_eq_ok hreduce
    show Ledger.mk _ (mid.totalSupply - amount) = _
    rw [(handleRewardsOnTransfer_sameFunds hmid).totalSupply]
    rfl

section
variable (h : world.Custodian) {guard : Guard} {receipt : Receipt} {event : GuardEvent}
include h
theorem Custodian.update (hbooked : guard.Booked)
    (hallow : ∀ other spender, (update world.tokens self token other).allowances receivePolicyGuardAddress spender = 0)
    (hself : guard.outstanding self ≤ token.balances receivePolicyGuardAddress)
    (hothers : ∀ other, other ≠ self → guard.outstanding other ≤ world.guard.outstanding other) :
    Custodian { tokens := update world.tokens self token, guard := guard } := by
  refine ⟨hbooked, hallow, fun other => ?_⟩
  show guard.outstanding other ≤ (Function.update world.tokens self token other).balances receivePolicyGuardAddress
  by_cases hother : other = self
  · subst hother
    rw [update_self]
    exact hself
  · rw [update_of_ne hother]
    exact (hothers other hother).trans (h.backed other)

section
variable (hpays : Guard.Pays world.guard receipt event guard)
include hpays
theorem Custodian.pay (htoken : receipt.token = self)
    (hallow : ∀ other spender, (Function.update world.tokens self token other).allowances receivePolicyGuardAddress spender = 0)
    (hle : (world.tokens self).balances receivePolicyGuardAddress - world.guard.balances receipt ≤
      token.balances receivePolicyGuardAddress) :
    Custodian { tokens := Function.update world.tokens self token, guard := guard } := by
  refine h.update (h.booked.pay hpays) hallow ?_ fun other _ => le.intro (h.booked.outstanding_pay hpays _)
  have hpaid := h.booked.outstanding_pay hpays self
  have hbacked := h.backed self
  rw [if_pos htoken] at hpaid
  omega

theorem Custodian.events_ne_nil : world.guard.events ≠ [] := by
  intro hevents
  have hmem := (h.booked.mem_of_ne_zero hpays.ne_zero).1
  simp [Guard.receipts, Guard.blocked, hevents] at hmem
end

/-- **One call keeps the guard backed.** Before T6 there are no receipts. -/
theorem Custodian.call (hnot : record.NotBy receivePolicyGuardAddress)
    (hfork : .t6 ≤ record.env.spec ∨ world.guard.events = []) (hcall : world.call record = .ok world') :
    world'.Custodian ∧ (¬ .t6 ≤ record.env.spec → world'.guard.events = world.guard.events) := by
  have hallow := allowances_call hnot hcall h.allowances
  obtain ⟨hself, _, hstate, rfl⟩ := call_eq_ok hcall
  have hbacked := h.backed record.self
  cases Custody.call_guardEffect hnot (h.allowances record.self) hstate with
  | none hguard hnone =>
    rw [hguard]
    refine ⟨h.update h.booked hallow ?_ fun _ _ => le_rfl, fun _ => rfl⟩
    rcases hfork with hfork | hevents
    · exact hbacked.trans (le_balances_guard hnot hself hnone hfork (h.allowances record.self) hstate)
    · simp [Guard.outstanding, Guard.receipts, Guard.blocked, hevents]
  | @blocks receipt amount hnone ht6 htoken hblocks hfunded =>
    refine ⟨h.update (h.booked.block hblocks) hallow ?_ fun _ hother => ?_, fun hnot6 => absurd ht6 hnot6⟩
    · rw [h.booked.outstanding_block hblocks, if_pos htoken]
      exact (Nat.add_le_add_right hbacked amount).trans hfunded
    · rw [h.booked.outstanding_block hblocks, if_neg (fun hreceipt => hother (hreceipt.symm.trans htoken))]
      exact le_rfl
  | @claims receipt dest recipient hclaim htoken hauthority hdest hpays hmove =>
    have hledger := congrArg (·.balances receivePolicyGuardAddress) (ledger_claimed hmove)
    refine ⟨h.pay hpays htoken hallow ((sub_le_balances_move ..).trans_eq hledger.symm), fun hnot6 => ?_⟩
    exact absurd (hfork.resolve_left hnot6) (h.events_ne_nil hpays)
  | @burns receipt receiver hburned htoken hreceiver hsubject hpays hburn =>
    have hledger := congrArg (·.balances receivePolicyGuardAddress) (ledger_burned hburn)
    refine ⟨h.pay hpays htoken hallow ((balances_burn_self ..).symm.trans hledger.symm).le, fun hnot6 => ?_⟩
    exact absurd (hfork.resolve_left hnot6) (h.events_ne_nil hpays)

theorem Custodian.run {records : List CallRecord}
    (hforks : records.Pairwise fun earlier later => earlier.env.spec ≤ later.env.spec)
    (hnot : ∀ record ∈ records, record.NotBy receivePolicyGuardAddress)
    (hstart : (∀ record ∈ records, .t6 ≤ record.env.spec) ∨ world.guard.events = []) :
    (world.run records).Custodian := by
  -- induction on the calls: until T6 the guard has no events, from then on every call is one of T6
  induction records generalizing world with
  | nil => exact h
  | cons record records ih =>
    obtain ⟨hlater, hforks⟩ := pairwise_cons.mp hforks
    have hhead : .t6 ≤ record.env.spec ∨ world.guard.events = [] :=
      hstart.imp (fun hall => hall record (.head _)) id
    have hrest : (∀ later ∈ records, .t6 ≤ later.env.spec) ∨ ¬ .t6 ≤ record.env.spec := by
      by_cases ht6 : .t6 ≤ record.env.spec
      · exact .inl fun later hmem => Nat.le_trans ht6 (hlater later hmem)
      · exact .inr ht6
    have hnotRest : ∀ later ∈ records, later.NotBy receivePolicyGuardAddress := fun later hmem =>
      hnot later (.tail _ hmem)
    show (run (world.apply record) records).Custodian
    unfold apply
    split
    · rename_i next hnext
      obtain ⟨hnextCustodian, hevents⟩ := h.call (hnot record (.head _)) hhead hnext
      refine ih hnextCustodian hforks hnotRest (hrest.imp id fun hnot6 => ?_)
      rw [hevents hnot6]
      exact hhead.resolve_left hnot6
    · exact ih h hforks hnotRest (hrest.imp id fun hnot6 => hhead.resolve_left hnot6)
end

/-- **The guard is backed and pays once.** After every run of calls whose forks only go up, none of them made
by the guard itself: its balance of each token covers the outstanding receipts; receipts are distinct; each is
paid out at most once, for what was blocked, and claimed by its recovery authority only. From T6 on, a call
lowers the balance only as the payout of one receipt, of what it is worth: a claim by the recovery authority, which goes
to the account behind the destination that it names, or a burn when the receipt's policy subject may not send. -/
theorem run_backs_guard {records : List CallRecord}
    (hforks : records.Pairwise fun earlier later => earlier.env.spec ≤ later.env.spec)
    (hnot : ∀ record ∈ records, record.NotBy receivePolicyGuardAddress) :
    let world := run {} records
    (∀ token, world.guard.outstanding token ≤ (world.tokens token).balances receivePolicyGuardAddress) ∧
      (∀ receipt, receipt ∉ world.guard.receipts → world.guard.balances receipt = 0) ∧
      world.guard.receipts.Nodup ∧ (world.guard.paid.map fst).Nodup ∧
      (∀ payout ∈ world.guard.paid, payout ∈ world.guard.blocked) ∧
      (∀ receipt caller dest amount, .receiptClaimed receipt caller dest amount ∈ world.guard.events →
        caller = receipt.authority) ∧
      ∀ record world' token, .t6 ≤ record.env.spec → record.NotBy receivePolicyGuardAddress →
        world.call record = .ok world' →
        (world.tokens token).balances receivePolicyGuardAddress ≤ (world'.tokens token).balances receivePolicyGuardAddress ∨
          ∃ receipt, receipt.token = token ∧ world.guard.balances receipt ≠ 0 ∧ world'.guard.balances receipt = 0 ∧
            ((∃ dest recipient, record.call = .claim dest receipt ∧ record.msgSender = receipt.authority ∧
                Recipient.resolve record.env dest = .ok recipient ∧ (world'.tokens token).ledger =
                  (world.tokens token).ledger.move receivePolicyGuardAddress recipient.target
                    (world.guard.balances receipt)) ∨
              record.call = .burnBlockedReceipt receipt ∧ (world'.tokens token).ledger =
                (world.tokens token).ledger.burn receivePolicyGuardAddress (world.guard.balances receipt) ∧ ∃ receiver,
                resolveRecipient record.env receipt.recipient = .ok receiver ∧
                record.env.isAuthorizedAs .sender
                  ((ofReceipt receipt receiver).policySubject receipt.originator receiver) = .ok false) := by
  intro world
  have h : world.Custodian := Custodian.empty.run hforks hnot (.inr rfl)
  refine ⟨h.backed, h.booked.unknown, h.booked.nodup, h.booked.paid_nodup, h.booked.paid_blocked, h.booked.claimed_by, ?_⟩
  intro record _ token ht6 hrecord hcall
  obtain ⟨hself, state, hstate, rfl⟩ := call_eq_ok hcall
  by_cases htoken : token = record.self
  · subst htoken
    simp only [update_self]
    cases Custody.call_guardEffect hrecord (h.allowances record.self) hstate with
    | none _ hnone => exact .inl (le_balances_guard hrecord hself hnone ht6 (h.allowances record.self) hstate)
    | blocks _ _ _ _ hfunded => exact .inl ((le_add_right ..).trans hfunded)
    | @claims receipt dest recipient hclaim htoken hauthority hdest hpays hmove =>
      have hzero := (Guard.Booked.receipts_of_pays hpays).2.2.2
      refine .inr ⟨receipt, htoken, hpays.ne_zero, ?_, .inl ⟨dest, recipient, hclaim, hauthority, hdest, ledger_claimed hmove⟩⟩
      rw [hzero, update_self]
    | @burns receipt receiver hburned htoken hreceiver hsubject hpays hburn =>
      have hzero := (Guard.Booked.receipts_of_pays hpays).2.2.2
      refine .inr ⟨receipt, htoken, hpays.ne_zero, ?_,
        .inr ⟨hburned, ledger_burned hburn, receiver, hreceiver, hsubject⟩⟩
      rw [hzero, update_self]
  · left
    show _ ≤ (update world.tokens record.self state.token token).balances receivePolicyGuardAddress
    rw [update_of_ne htoken]

/-- Two transfers blocked at T6, and the claim of one by its originator, who sends it elsewhere. -/
theorem run_backs_guard_claimed :
    let blocking : Env := { Env.permissive .t6 with
      checkReceivePolicy := fun _ receiver => if receiver = 9 then .ok (some (.receivePolicy, 0)) else .ok none }
    let receipt : Receipt := ⟨blockedReceiptVersion, pathUsdAddress, 0, 8, 9, 0, 1, 2, .transfer, 0⟩
    let records := [CallRecord.mk blocking pathUsdAddress 7 .initializeToken,
      ⟨blocking, pathUsdAddress, 7, .mint 8 1000 0⟩, ⟨blocking, pathUsdAddress, 8, .transfer 9 300 0⟩,
      ⟨blocking, pathUsdAddress, 8, .transfer 9 200 0⟩, ⟨blocking, pathUsdAddress, 8, .claim 10 receipt⟩]
    let world := run {} records
    (world.guard.paid = [(receipt, 300)] ∧ (world.tokens pathUsdAddress).balances 10 = 300 ∧
        world.guard.outstanding pathUsdAddress = 200) ∧
      world.guard.outstanding pathUsdAddress ≤ (world.tokens pathUsdAddress).balances receivePolicyGuardAddress := by
  intro _ _ records _
  refine ⟨by decide +kernel, (run_backs_guard ?_ fun _ hrecord => ?_).1 pathUsdAddress⟩
  · simp only [records, pairwise_cons, mem_cons, not_mem_nil, or_false, forall_eq_or_imp, forall_eq,
      Pairwise.nil, and_true, false_imp_iff, implies_true]
    exact ⟨⟨Nat.le_refl _, Nat.le_refl _, Nat.le_refl _, Nat.le_refl _⟩, ⟨Nat.le_refl _, Nat.le_refl _, Nat.le_refl _⟩,
      ⟨Nat.le_refl _, Nat.le_refl _⟩, Nat.le_refl _⟩
  · simp only [records, mem_cons, not_mem_nil, or_false] at hrecord
    rcases hrecord with rfl | rfl | rfl | rfl | rfl <;> exact ⟨by decide, nofun⟩

/-- The guard may give away itself what it holds for a receipt. -/
theorem guard_transfers_own_balance :
    let blocking : Env := { Env.permissive .t6 with
      checkReceivePolicy := fun _ receiver => if receiver = 9 then .ok (some (.receivePolicy, 0)) else .ok none }
    let world := run {} [CallRecord.mk blocking pathUsdAddress 7 .initializeToken,
      ⟨blocking, pathUsdAddress, 7, .mint 8 1000 0⟩, ⟨blocking, pathUsdAddress, 8, .transfer 9 300 0⟩,
      ⟨blocking, pathUsdAddress, receivePolicyGuardAddress, .transfer 10 300 0⟩]
    (world.tokens pathUsdAddress).balances receivePolicyGuardAddress < world.guard.outstanding pathUsdAddress := by
  decide +kernel

end World
end LeafageEvm.Tempo
