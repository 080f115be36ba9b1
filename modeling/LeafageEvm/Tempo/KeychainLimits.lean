import LeafageEvm.Tempo.KeychainAuthority

/-! Limits of spending: how much an access key spends of a token within a window, and what the view says about it. -/

namespace LeafageEvm.Tempo.AccountKeychain
open Function Nat List
variable {env : KeychainEnv} {spec spec' : TempoHardfork} {row row' : SpendingLimitState} {amount window : Nat}

/-! ### One row -/

/-- What a spend can take. -/
def available (env : KeychainEnv) (row : SpendingLimitState) : Nat := (rollOver env row).1

def windowEnd (row : SpendingLimitState) (now : Nat) : Nat :=
  if row.period = 0 ∨ now < row.periodEnd then row.periodEnd else row.computeNextPeriodEnd now

/-- What is left in the window a row was last used in. -/
def left (spec : TempoHardfork) (row : SpendingLimitState) : Nat :=
  if row.period ≠ 0 ∧ .t7 ≤ spec ∧ row.remaining = zeroPeriodicRemainingSentinel then 0 else row.remaining

/-- The rows there are from T3 on: one-shot rows, of which those from before T3 have no maximum, and periodic rows,
which hold the sentinel only from T7 on. -/
structure WellFormed (spec : TempoHardfork) (row : SpendingLimitState) : Prop where
  max : row.max ≤ u128Max
  once : row.period = 0 → row.periodEnd = 0 ∧ (row.max = 0 ∨ row.remaining ≤ row.max)
  periodic : row.period ≠ 0 → row.remaining ≤ row.max ∨ .t7 ≤ spec ∧ row.remaining = zeroPeriodicRemainingSentinel

theorem u128Max_lt_sentinel : u128Max < zeroPeriodicRemainingSentinel := by decide

section
variable (h : WellFormed spec row)
include h
theorem WellFormed.mono (hspec : spec ≤ spec') : WellFormed spec' row :=
  ⟨h.max, h.once, fun hperiod => (h.periodic hperiod).imp_right fun hsentinel => ⟨Nat.le_trans hsentinel.1 hspec, hsentinel.2⟩⟩

/-- The fork does not change what is left. -/
theorem WellFormed.left_eq (hspec : spec ≤ spec') : left spec' row = left spec row := by
  have hlarge := u128Max_lt_sentinel
  have hmax := h.max
  refine if_congr ⟨fun hnew => ⟨hnew.1, ?_, hnew.2.2⟩, fun hold => ⟨hold.1, Nat.le_trans hold.2.1 hspec, hold.2.2⟩⟩ rfl rfl
  rcases h.periodic hnew.1 with hle | hsentinel
  · omega
  · exact hsentinel.1

theorem WellFormed.left_le (hperiod : row.period ≠ 0) : left spec row ≤ row.max := by
  unfold left
  rcases h.periodic hperiod with hle | hsentinel
  · split <;> omega
  · rw [if_pos ⟨hperiod, hsentinel⟩]
    exact zero_le _
end

theorem available_eq (env : KeychainEnv) (row : SpendingLimitState) :
    available env row = if row.period ≠ 0 ∧ row.periodEnd ≤ env.now then row.max else left env.spec row := by
  unfold available rollOver left
  by_cases hperiod : row.period ≠ 0
  · rw [if_pos hperiod]
    by_cases hover : row.periodEnd ≤ env.now
    · rw [if_pos hover, if_pos ⟨hperiod, hover⟩]
    have hin : ¬ (row.period ≠ 0 ∧ row.periodEnd ≤ env.now) := (hover ·.2)
    rw [if_neg hover, if_neg hin]
    by_cases hsentinel : .t7 ≤ env.spec ∧ row.remaining = zeroPeriodicRemainingSentinel
    · rw [if_pos hsentinel, if_pos ⟨hperiod, hsentinel⟩]
    · rw [if_neg hsentinel, if_neg fun hboth => hsentinel hboth.2]
  · have hout : ¬ (row.period ≠ 0 ∧ row.periodEnd ≤ env.now) := (hperiod ·.1)
    rw [if_neg hperiod, if_neg hout, if_neg fun hboth => hperiod hboth.1]

theorem rollOver_snd (env : KeychainEnv) (row : SpendingLimitState) :
    (rollOver env row).2.periodEnd = windowEnd row env.now ∧ (rollOver env row).2.max = row.max ∧
      (rollOver env row).2.period = row.period := by
  unfold rollOver windowEnd
  by_cases hperiod : row.period ≠ 0
  · rw [if_pos hperiod]
    by_cases hover : row.periodEnd ≤ env.now
    · have hnot : ¬ (row.period = 0 ∨ env.now < row.periodEnd) := by omega
      rw [if_pos hover, if_neg hnot]
      exact ⟨rfl, rfl, rfl⟩
    · have hin : row.period = 0 ∨ env.now < row.periodEnd := by omega
      rw [if_neg hover]
      split <;> exact ⟨rfl, rfl, rfl⟩
  · rw [if_neg hperiod, if_pos (.inl (by omega))]
    exact ⟨rfl, rfl, rfl⟩

theorem WellFormed.available_le (h : WellFormed env.spec row) (hperiod : row.period ≠ 0) : available env row ≤ row.max := by
  rw [available_eq]
  split
  · exact le_rfl
  · exact h.left_le hperiod

/-- What a spend leaves. -/
structure SpendsRow (env : KeychainEnv) (row : SpendingLimitState) (amount : Nat) (row' : SpendingLimitState) : Prop where
  fits : amount ≤ available env row
  max : row'.max = row.max
  period : row'.period = row.period
  periodEnd : row'.periodEnd = windowEnd row env.now
  left : left env.spec row' = available env row - amount
  wellFormed : WellFormed env.spec row'

/-- What a refund leaves. -/
structure RefundsRow (env : KeychainEnv) (row : SpendingLimitState) (amount : Nat) (row' : SpendingLimitState) : Prop where
  max : row'.max = row.max
  period : row'.period = row.period
  periodEnd : row'.periodEnd = row.periodEnd
  left : left env.spec row' ≤ left env.spec row + amount

section
variable (hspec : .t3 ≤ env.spec)
include hspec
theorem spendRow_eq_ok (hrow : WellFormed env.spec row) (h : spendRow env row amount = .ok row') :
    SpendsRow env row amount row' := by
  have hlarge := u128Max_lt_sentinel
  have hmax := hrow.max
  unfold spendRow at h
  rw [if_pos hspec] at h
  obtain ⟨_, hfits, hrow'⟩ := map_ok h
  have hfits : amount ≤ available env row := require_eq_ok.mp hfits
  by_cases hperiod : row.period ≠ 0
  · have hle := hrow.available_le hperiod
    rw [if_pos hperiod] at hrow'
    have hend : row'.periodEnd = windowEnd row env.now ∧ row'.max = row.max ∧ row'.period = row.period := by
      rw [← hrow']
      exact rollOver_snd env row
    have hremaining : row'.remaining = if .t7 ≤ env.spec ∧ available env row - amount = 0 then zeroPeriodicRemainingSentinel
        else available env row - amount := by
      rw [← hrow']
      rfl
    obtain ⟨hend, hsame, hsamePeriod⟩ := hend
    refine ⟨hfits, hsame, hsamePeriod, hend, ?_, ?_, ?_, ?_⟩
    · unfold left
      rw [hsamePeriod, hremaining]
      by_cases hzero : .t7 ≤ env.spec ∧ available env row - amount = 0
      · rw [if_pos hzero, if_pos ⟨hperiod, hzero.1, rfl⟩, hzero.2]
      · rw [if_neg hzero, if_neg]
        omega
    · omega
    · intro hzero
      exact absurd (hsamePeriod ▸ hzero) hperiod
    · intro _
      rw [hremaining]
      split
      · rename_i hzero
        exact .inr ⟨hzero.1, rfl⟩
      · left
        omega
  · have hzero : row.period = 0 := by omega
    rw [if_neg hperiod] at hrow'
    obtain ⟨hend, hcap⟩ := hrow.once hzero
    have havailable : available env row = row.remaining := by
      rw [available_eq, if_neg fun hboth => hperiod hboth.1]
      exact if_neg (hperiod ·.1)
    have hremaining : row'.remaining = available env row - amount := by
      rw [← hrow']
      rfl
    have hsame : row'.max = row.max ∧ row'.period = row.period ∧ row'.periodEnd = row.periodEnd := by
      rw [← hrow']
      exact ⟨rfl, rfl, rfl⟩
    refine ⟨hfits, hsame.1, hsame.2.1, ?_, ?_, ?_, ?_, ?_⟩
    · unfold windowEnd
      rw [if_pos (.inl hzero), hsame.2.2]
    · unfold left
      rw [hsame.2.1, if_neg (hperiod ·.1), hremaining]
    · omega
    · intro _
      rw [hsame.2.2]
      exact ⟨hend, by omega⟩
    · intro hnonzero
      exact absurd hzero (hsame.2.1 ▸ hnonzero)

theorem spendRow_ok_iff : (∃ row', spendRow env row amount = .ok row') ↔ amount ≤ available env row := by
  unfold spendRow
  rw [if_pos hspec]
  constructor
  · rintro ⟨_, h⟩
    obtain ⟨_, hfits, -⟩ := map_ok h
    exact require_eq_ok.mp hfits
  · intro hfits
    refine ⟨_, map_eq_ok.mpr ⟨(), require_eq_ok.mpr hfits, rfl⟩⟩

theorem refundRow_refunds (row : SpendingLimitState) (amount : Nat) :
    RefundsRow env row amount (refundRow env row amount) := by
  unfold refundRow
  rw [if_pos hspec]
  refine ⟨rfl, rfl, rfl, ?_⟩
  have hle : ∀ remaining, left env.spec { row with remaining := remaining } ≤ remaining := by
    intro remaining
    show (if _ then 0 else remaining) ≤ remaining
    split
    · exact zero_le _
    · exact le_rfl
  refine (hle _).trans ?_
  unfold left saturatingAdd
  by_cases hsentinel : .t7 ≤ env.spec ∧ row.period ≠ 0 ∧ row.remaining = zeroPeriodicRemainingSentinel
  · have hempty : row.period ≠ 0 ∧ .t7 ≤ env.spec ∧ row.remaining = zeroPeriodicRemainingSentinel :=
      ⟨hsentinel.2.1, hsentinel.1, hsentinel.2.2⟩
    split <;> omega
  · have hplain : ¬ (row.period ≠ 0 ∧ .t7 ≤ env.spec ∧ row.remaining = zeroPeriodicRemainingSentinel) :=
      fun hboth => hsentinel ⟨hboth.2.1, hboth.1, hboth.2.2⟩
    split <;> omega

theorem WellFormed.refund (h : WellFormed env.spec row)
    (hcovered : row.period ≠ 0 → row.max = 0 → amount = 0) : WellFormed env.spec (refundRow env row amount) := by
  obtain ⟨hmax, hperiod, hend, -⟩ := refundRow_refunds hspec row amount
  have hremaining : (refundRow env row amount).remaining ≤ row.max ∨ row.max = 0 ∧
      (refundRow env row amount).remaining = if .t7 ≤ env.spec ∧ row.period ≠ 0 ∧ row.remaining = zeroPeriodicRemainingSentinel
        then amount else saturatingAdd row.remaining amount u256Max := by
    unfold refundRow
    rw [if_pos hspec]
    by_cases hzero : row.max = 0
    · exact .inr ⟨hzero, if_pos hzero⟩
    · left
      simp only [if_neg hzero]
      exact min_le_right ..
  refine ⟨by rw [hmax]; exact h.max, fun hone => ?_, fun hmany => ?_⟩
  · rw [hperiod] at hone
    rw [hend, hmax]
    refine ⟨(h.once hone).1, ?_⟩
    rcases hremaining with hle | ⟨hzero, -⟩
    · exact .inr hle
    · exact .inl hzero
  · rw [hperiod] at hmany
    rw [hmax]
    left
    rcases hremaining with hle | ⟨hzero, heq⟩
    · exact hle
    rw [heq]
    rcases h.periodic hmany with hle | hsentinel
    · unfold saturatingAdd
      split <;> omega
    · rw [if_pos ⟨hsentinel.1, hmany, hsentinel.2⟩]
      omega
end

/-! ### Windows -/

theorem lt_windowEnd (hperiod : row.period ≠ 0) {now : Nat} (htime : now < u64Max) : now < windowEnd row now := by
  unfold windowEnd
  split
  · omega
  unfold SpendingLimitState.computeNextPeriodEnd saturatingAdd
  set late := now - row.periodEnd
  have hdiv : now - row.periodEnd < row.period * (late / row.period + 1) := by
    have hmod := mod_lt late (pos_of_ne_zero hperiod)
    have hsplit := div_add_mod late row.period
    rw [mul_add]
    omega
  have hcount : late / row.period + 1 ≤ u64Max := by
    have hle := div_le_self late row.period
    omega
  simp only [min_eq_left hcount]
  omega

/-- What can still be spent in a window that ends at the given time: what is left if the row is in it already, else the
maximum. -/
def budget (spec : TempoHardfork) (window : Nat) (row : SpendingLimitState) : Nat :=
  if row.period = 0 ∨ row.periodEnd = window then left spec row else row.max

theorem available_eq_budget (htime : env.now < u64Max) (hwindow : row.period ≠ 0 → windowEnd row env.now = window) :
    available env row = budget env.spec window row := by
  rw [available_eq]
  unfold budget
  by_cases hperiod : row.period = 0
  · rw [if_neg fun hboth => hboth.1 hperiod, if_pos (.inl hperiod)]
  by_cases hover : row.periodEnd ≤ env.now
  · have hlt := lt_windowEnd hperiod htime
    rw [if_pos ⟨hperiod, hover⟩, if_neg (by omega)]
  · have hin : windowEnd row env.now = row.periodEnd := if_pos (.inr (by omega))
    rw [if_neg (hover ·.2), if_pos (.inr (by omega))]

/-! ### Uses of a limit -/

/-- What happens to a limit: a transaction of the key begins, it spends, it is refunded, or an admin sets the limit. -/
inductive LimitEvent where
  | transaction
  | spend (amount : Nat)
  | refund (amount : Nat)
  | update (newLimit : Nat)

/-- A row with what the running transaction has spent; a step also says what it adds to the net spending. -/
def rowStep (state : SpendingLimitState × Nat) (record : KeychainEnv × LimitEvent) : (SpendingLimitState × Nat) × Int :=
  match record.2 with
  | .transaction => ((state.1, 0), 0)
  | .spend amount =>
    match spendRow record.1 state.1 amount with
    | .ok next => ((next, state.2 + amount), amount)
    | .error _ => (state, 0)
  | .refund amount => ((refundRow record.1 state.1 amount, state.2), -amount)
  | .update newLimit =>
    if newLimit ≤ u128Max then (({ state.1 with remaining := newLimit, max := newLimit }, 0), 0) else ((state.1, 0), 0)

def LimitEvent.isUpdate : LimitEvent → Bool
  | .update _ => true
  | _ => false

def Covered (spent : Nat) (event : LimitEvent) : Prop := ∀ amount, event = .refund amount → amount ≤ spent

/-- A row between steps. A limit of zero lets nothing be spent, so there is nothing to refund. -/
structure Kept (spec : TempoHardfork) (state : SpendingLimitState × Nat) : Prop where
  row : WellFormed spec state.1
  spent : state.1.period ≠ 0 → state.1.max = 0 → state.2 = 0

variable {state : SpendingLimitState × Nat} {event : LimitEvent}

theorem rowStep_spend_ok (h : spendRow env state.1 amount = .ok row') :
    rowStep state (env, .spend amount) = ((row', state.2 + amount), (amount : Int)) := by
  simp only [rowStep, h]

theorem rowStep_spend_error {error : KeychainError} (h : spendRow env state.1 amount = .error error) :
    rowStep state (env, .spend amount) = (state, 0) := by
  simp only [rowStep, h]

theorem Kept.step (h : Kept env.spec state) (hspec : .t3 ≤ env.spec) (hcovered : Covered state.2 event) :
    Kept env.spec (rowStep state (env, event)).1 := by
  cases event with
  | transaction => exact ⟨h.row, fun _ _ => rfl⟩
  | spend amount =>
    cases hspend : spendRow env state.1 amount with
    | error =>
      rw [rowStep_spend_error hspend]
      exact h
    | ok =>
      rw [rowStep_spend_ok hspend]
      have hspends := spendRow_eq_ok hspec h.row hspend
      refine ⟨hspends.wellFormed, fun hperiod hzero => ?_⟩
      have hperiod : state.1.period ≠ 0 := hspends.period ▸ hperiod
      have hzero : state.1.max = 0 := hspends.max ▸ hzero
      have hle := h.row.available_le hperiod
      have hfits := hspends.fits
      have hspent := h.spent hperiod hzero
      show state.2 + amount = 0
      omega
  | refund amount =>
    have hle := hcovered amount rfl
    refine ⟨h.row.refund hspec fun hperiod hzero => ?_, fun hperiod hzero => ?_⟩
    · have hspent := h.spent hperiod hzero
      omega
    · obtain ⟨hmax, hsame, -⟩ := refundRow_refunds hspec state.1 amount
      exact h.spent (hsame ▸ hperiod) (hmax ▸ hzero)
  | update =>
    unfold rowStep
    simp only
    split
    · rename_i hcap
      refine ⟨⟨hcap, fun hzero => ⟨(h.row.once hzero).1, .inr le_rfl⟩, fun _ => .inl le_rfl⟩, fun _ _ => rfl⟩
    · exact ⟨h.row, fun _ _ => rfl⟩

theorem Kept.mono (h : Kept spec state) (hspec : spec ≤ spec') : Kept spec' state := ⟨h.row.mono hspec, h.spent⟩

/-- A step takes from the budget of its window what it adds to the net spending. -/
theorem rowStep_budget (h : Kept env.spec state) (hspec : .t3 ≤ env.spec) (htime : env.now < u64Max)
    (hwindow : state.1.period ≠ 0 → windowEnd state.1 env.now = window) (hevent : event.isUpdate = false) :
    (budget env.spec window (rowStep state (env, event)).1.1 : Int) + (rowStep state (env, event)).2 ≤
        budget env.spec window state.1 ∧
      (rowStep state (env, event)).1.1.period = state.1.period ∧
      ((rowStep state (env, event)).1.1.periodEnd = state.1.periodEnd ∨
        (rowStep state (env, event)).1.1.periodEnd = window) := by
  cases event with
  | transaction => exact ⟨Int.le_of_eq (Int.add_zero _), rfl, .inl rfl⟩
  | spend amount =>
    cases hspend : spendRow env state.1 amount with
    | error =>
      rw [rowStep_spend_error hspend]
      exact ⟨Int.le_of_eq (Int.add_zero _), rfl, .inl rfl⟩
    | ok next =>
      rw [rowStep_spend_ok hspend]
      obtain ⟨hfits, -, hperiod, hend, hleft, -⟩ := spendRow_eq_ok hspec h.row hspend
      have hbudget := available_eq_budget htime hwindow
      have hnext : budget env.spec window next = available env state.1 - amount := by
        rw [← hleft]
        refine if_pos ?_
        by_cases hzero : state.1.period = 0
        · exact .inl (hperiod.trans hzero)
        · exact .inr (hend.trans (hwindow hzero))
      refine ⟨?_, hperiod, ?_⟩
      · simp only
        omega
      · by_cases hzero : state.1.period = 0
        · left
          rw [hend]
          exact if_pos (.inl hzero)
        · exact .inr (hend.trans (hwindow hzero))
  | refund amount =>
    obtain ⟨hmax, hperiod, hend, hleft⟩ := refundRow_refunds hspec state.1 amount
    refine ⟨?_, hperiod, .inl hend⟩
    show (budget env.spec window (refundRow env state.1 amount) : Int) + -amount ≤ _
    unfold budget
    rw [hperiod, hend]
    split <;> omega
  | update => cases hevent

/-! ### The contract -/

/-- A key of an account, and the token it spends. -/
structure Access where
  account : Address
  keyId : Address
  token : Address

/-- The key is active and its limits are enforced. -/
structure Live (access : Access) (keychain : AccountKeychain) (now : Nat) : Prop where
  nonzero : access.keyId ≠ 0
  unrevoked : (keychain.keys access.account access.keyId).isRevoked = false
  present : (keychain.keys access.account access.keyId).expiry ≠ 0
  unexpired : now < (keychain.keys access.account access.keyId).expiry.val
  limited : (keychain.keys access.account access.keyId).enforceLimits = true
  plain : (keychain.keys access.account access.keyId).isAdmin = false

def rowOf (access : Access) (keychain : AccountKeychain) : SpendingLimitState :=
  keychain.spendingLimits (access.account, access.keyId) access.token

/-- One step of the contract: spends and refunds are made in a transaction of the key, the limit is set in one of the
root key. -/
def limitStep (access : Access) (state : AccountKeychain × Nat) (record : KeychainEnv × LimitEvent) :
    (AccountKeychain × Nat) × Int :=
  let ofKey : AccountKeychain := { state.1 with txOrigin := access.account, transactionKey := access.keyId }
  let ofRoot : AccountKeychain := { state.1 with txOrigin := access.account, transactionKey := 0 }
  match record.2 with
  | .transaction => ((ofKey, 0), 0)
  | .spend amount =>
    match ofKey.authorizeTransfer record.1 access.account access.token amount with
    | .ok next => ((next, state.2 + amount), amount)
    | .error _ => (state, 0)
  | .refund amount => ((ofKey.refundSpendingLimit record.1 access.account access.token amount, state.2), -amount)
  | .update newLimit =>
    match ofRoot.updateSpendingLimit record.1 access.account access.keyId access.token newLimit with
    | .ok next => ((next, 0), 0)
    | .error _ => ((state.1, 0), 0)

section Contract
variable {access : Access} {keychain : AccountKeychain} {spent : Nat} {now : Nat} {keychain' : AccountKeychain}

theorem Live.load (h : Live access keychain now) :
    keychain.loadActiveKey access.account access.keyId now = .ok (keychain.keys access.account access.keyId) := by
  simp only [loadActiveKey, require, if_pos h.unrevoked, if_pos h.present, if_pos h.unexpired]
  rfl

section
variable (h : Live access keychain env.now)
include h
theorem Live.verify (amount : Nat) :
    keychain.verifyAndUpdateSpending env access.account access.keyId access.token amount =
      (spendRow env (rowOf access keychain) amount).map (keychain.writeLimit access.account access.keyId access.token) := by
  unfold verifyAndUpdateSpending
  rw [if_neg h.nonzero, h.load]
  show (if (keychain.keys access.account access.keyId).enforceLimits = false then _ else _) = _
  rw [h.limited]
  rfl

section
variable (amount : Nat) (hkey : keychain.transactionKey = access.keyId)
  (horigin : keychain.txOrigin = access.account)
include hkey horigin
theorem Live.authorize : keychain.authorizeTransfer env access.account access.token amount =
      (spendRow env (rowOf access keychain) amount).map (keychain.writeLimit access.account access.keyId access.token) := by
  unfold authorizeTransfer
  rw [if_neg, hkey, h.verify]
  rw [hkey, horigin]
  exact fun hor => hor.elim h.nonzero fun hne => hne rfl

theorem Live.refund : keychain.refundSpendingLimit env access.account access.token amount =
      keychain.writeLimit access.account access.keyId access.token (refundRow env (rowOf access keychain) amount) := by
  unfold refundSpendingLimit
  rw [if_neg, hkey, h.load]
  · show (if (keychain.keys access.account access.keyId).enforceLimits = false then _ else _) = _
    rw [h.limited]
    rfl
  · rw [hkey, horigin]
    exact fun hor => hor.elim h.nonzero fun hne => hne rfl
end

theorem Live.update (hspec : .t3 ≤ env.spec) (newLimit : Nat)
    (hadmin : keychain.ensureAdminCaller env access.account = .ok ()) :
    keychain.updateSpendingLimit env access.account access.keyId access.token newLimit =
      (t3SpendingLimitCap newLimit).map fun max => keychain.writeLimit access.account access.keyId access.token
        { rowOf access keychain with remaining := newLimit, max := max } := by
  unfold updateSpendingLimit
  rw [hadmin]
  rw [h.load]
  show (require ..).bind _ = _
  unfold require
  rw [if_pos h.plain]
  simp only [if_pos hspec, h.limited]
  rfl
end

theorem rowOf_writeLimit (access : Access) (keychain : AccountKeychain) (row : SpendingLimitState) :
    rowOf access (keychain.writeLimit access.account access.keyId access.token row) = row := by
  show update keychain.spendingLimits (access.account, access.keyId)
    (update (keychain.spendingLimits (access.account, access.keyId)) access.token row)
    (access.account, access.keyId) access.token = row
  rw [update_self, update_self]

/-- **The contract acts on its row as the row's rules say**, and leaves the keys alone. -/
theorem limitStep_eq (h : Live access keychain env.now) (hspec : .t3 ≤ env.spec) (hzero : access.account ≠ 0) (spent : Nat)
    (event : LimitEvent) :
    let next := limitStep access (keychain, spent) (env, event)
    let rowNext := rowStep (rowOf access keychain, spent) (env, event)
    (rowOf access next.1.1, next.1.2) = rowNext.1 ∧ next.2 = rowNext.2 ∧ next.1.1.keys = keychain.keys := by
  have hlive transactionKey :
      Live access { keychain with txOrigin := access.account, transactionKey } env.now :=
    { h with }
  cases event with
  | transaction => exact ⟨rfl, rfl, rfl⟩
  | spend amount =>
    have hrow : rowOf access { keychain with txOrigin := access.account, transactionKey := access.keyId } =
      rowOf access keychain := rfl
    unfold limitStep rowStep
    simp only [(hlive access.keyId).authorize amount rfl rfl, hrow]
    cases spendRow env (rowOf access keychain) amount with
    | error => exact ⟨rfl, rfl, rfl⟩
    | ok next =>
      refine ⟨?_, rfl, rfl⟩
      show (rowOf access (writeLimit _ access.account access.keyId access.token next), _) = (next, _)
      rw [rowOf_writeLimit]
      rfl
  | refund amount =>
    unfold limitStep rowStep
    simp only [(hlive access.keyId).refund amount rfl rfl]
    refine ⟨?_, trivial, rfl⟩
    rw [rowOf_writeLimit]
    rfl
  | update newLimit =>
    have hadmin : ensureAdminCaller env { keychain with txOrigin := access.account, transactionKey := 0 } access.account =
        .ok () := bind_eq_ok.mpr ⟨(), require_eq_ok.mpr (.inl rfl), require_eq_ok.mpr fun _ => ⟨hzero, rfl⟩⟩
    unfold limitStep rowStep
    simp only [(hlive 0).update hspec newLimit hadmin]
    unfold t3SpendingLimitCap require
    by_cases hcap : newLimit ≤ u128Max
    · rw [if_pos hcap, if_pos hcap]
      exact ⟨by simp only [Except.map]; rw [rowOf_writeLimit]; rfl, rfl, rfl⟩
    · rw [if_neg hcap, if_neg hcap]
      exact ⟨rfl, rfl, rfl⟩

def limitRun (access : Access) (state : AccountKeychain × Nat) (records : List (KeychainEnv × LimitEvent)) :
    AccountKeychain × Nat :=
  records.foldl (fun state record => (limitStep access state record).1) state

/-- Spends less refunds, over the steps of a run. -/
def netSpent (access : Access) : AccountKeychain × Nat → List (KeychainEnv × LimitEvent) → Int
  | _, [] => 0
  | state, record :: records => (limitStep access state record).2 + netSpent access (limitStep access state record).1 records

/-- Refunds are of what the transaction has spent, all along. -/
def Admissible (access : Access) : AccountKeychain × Nat → List (KeychainEnv × LimitEvent) → Prop
  | _, [] => True
  | state, record :: records => Covered state.2 record.2 ∧ Admissible access (limitStep access state record).1 records

/-- The steps that are considered: from T3 on, in order, while the key is active. -/
structure Orderly (access : Access) (keychain : AccountKeychain) (records : List (KeychainEnv × LimitEvent)) : Prop where
  t3 : ∀ record ∈ records, .t3 ≤ record.1.spec
  live : ∀ record ∈ records, Live access keychain record.1.now
  order : records.Pairwise fun a b => a.1.spec ≤ b.1.spec ∧ a.1.timestamp ≤ b.1.timestamp

variable {records uses : List (KeychainEnv × LimitEvent)} {record : KeychainEnv × LimitEvent}

theorem Live.congr (h : Live access keychain now)
    (hkeys : keychain'.keys = keychain.keys) : Live access keychain' now := by
  constructor
  · exact h.nonzero
  · rw [hkeys]
    exact h.unrevoked
  · rw [hkeys]
    exact h.present
  · rw [hkeys]
    exact h.unexpired
  · rw [hkeys]
    exact h.limited
  · rw [hkeys]
    exact h.plain

/-- An expiry is a machine word, so no key is active in the last second of the clock. -/
theorem Live.lt_u64Max (h : Live access keychain now) : now < u64Max := by
  have hexpiry := (keychain.keys access.account access.keyId).expiry.isLt
  have hnow := h.unexpired
  show now < 2 ^ 64 - 1
  omega

theorem Orderly.tail (h : Orderly access keychain (record :: records)) : Orderly access keychain records :=
  ⟨fun other hmem => h.t3 other (.tail _ hmem), fun other hmem => h.live other (.tail _ hmem),
    (pairwise_cons.mp h.order).2⟩

theorem Orderly.congr (h : Orderly access keychain records)
    (hkeys : keychain'.keys = keychain.keys) : Orderly access keychain' records :=
  { h with live := fun record hmem => (h.live record hmem).congr hkeys }

section
variable (hkept : Kept spec (rowOf access keychain, spent))
include hkept
theorem limitRun_kept (haccount : access.account ≠ 0) (horderly : Orderly access keychain records)
    (hadmissible : Admissible access (keychain, spent) records)
    (hforks : ∀ record ∈ records, spec ≤ record.1.spec) (hspec : ∀ record ∈ records, record.1.spec ≤ spec') (hle : spec ≤ spec') :
    Kept spec' (rowOf access (limitRun access (keychain, spent) records).1, (limitRun access (keychain, spent) records).2) ∧
      (limitRun access (keychain, spent) records).1.keys = keychain.keys := by
  induction records generalizing keychain spent spec with
  | nil => exact ⟨hkept.mono hle, rfl⟩
  | cons record _ ih =>
    obtain ⟨env, event⟩ := record
    rw [forall_mem_cons] at hforks hspec
    have ht3 : .t3 ≤ env.spec := horderly.t3 _ (.head _)
    obtain ⟨hrow, -, hkeys⟩ := limitStep_eq (horderly.live _ (.head _)) ht3 haccount spent event
    have hstep : Kept env.spec (rowStep (rowOf access keychain, spent) (env, event)).1 :=
      (hkept.mono hforks.1).step ht3 hadmissible.1
    rw [← hrow] at hstep
    have hlater := (pairwise_cons.mp horderly.order).1
    have hrest := ih hstep (horderly.tail.congr hkeys) hadmissible.2 (fun other hmem => (hlater other hmem).1) hspec.2 hspec.1
    exact ⟨hrest.1, hrest.2.trans hkeys⟩

/-- **Within a window the net spending stays in the budget.** -/
theorem netSpent_le_budget (haccount : access.account ≠ 0) {start : SpendingLimitState} (horderly : Orderly access keychain uses)
    (hadmissible : Admissible access (keychain, spent) uses)
    (hforks : ∀ use ∈ uses, spec ≤ use.1.spec) (hplain : ∀ use ∈ uses, use.2.isUpdate = false)
    (hwindow : start.period ≠ 0 → ∀ use ∈ uses, windowEnd start use.1.now = window)
    (hperiod : (rowOf access keychain).period = start.period)
    (hend : (rowOf access keychain).periodEnd = start.periodEnd ∨ (rowOf access keychain).periodEnd = window) :
    netSpent access (keychain, spent) uses ≤ budget spec window (rowOf access keychain) := by
  induction uses generalizing keychain spent spec with
  | nil => exact Int.natCast_nonneg _
  | cons use uses ih =>
    obtain ⟨env, event⟩ := use
    rw [forall_mem_cons] at hforks hplain
    have ht3 : .t3 ≤ env.spec := horderly.t3 _ (.head _)
    have htime : env.now < u64Max := (horderly.live _ (.head _)).lt_u64Max
    have hlater := (pairwise_cons.mp horderly.order).1
    obtain ⟨hrow, hnet, hkeys⟩ := limitStep_eq (horderly.live _ (.head _)) ht3 haccount spent event
    have hkept' := hkept.mono hforks.1
    have hfork : budget env.spec window (rowOf access keychain) = budget spec window (rowOf access keychain) := by
      unfold budget
      rw [hkept.row.left_eq hforks.1]
    -- the window is the same whether the row has been moved on to it or not
    have hin : (rowOf access keychain).period ≠ 0 → windowEnd (rowOf access keychain) env.now = window := by
      intro hnonzero
      rw [hperiod] at hnonzero
      have hin : windowEnd start env.now = window := hwindow hnonzero _ (.head _)
      rcases hend with hend | hend
      · rw [← hin]
        unfold windowEnd SpendingLimitState.computeNextPeriodEnd
        rw [hperiod, hend]
      · have hlt := lt_windowEnd hnonzero htime
        refine (if_pos (.inr ?_)).trans hend
        omega
    obtain ⟨hstep, hperiod', hend'⟩ := rowStep_budget hkept' ht3 htime hin hplain.1
    have hnext : Kept env.spec (rowStep (rowOf access keychain, spent) (env, event)).1 := hkept'.step ht3 hadmissible.1
    have hadmissible' := hadmissible.2
    rw [← hrow] at hnext hstep hperiod' hend'
    rw [← hnet] at hstep
    show (limitStep access (keychain, spent) (env, event)).2 +
      netSpent access (limitStep access (keychain, spent) (env, event)).1 uses ≤ _
    generalize limitStep access (keychain, spent) (env, event) = result at hkeys hstep hnext hperiod' hend' hadmissible' ⊢
    obtain ⟨⟨_, _⟩, _⟩ := result
    have hrest := ih hnext (horderly.tail.congr hkeys) hadmissible' (fun use hmem => (hlater use hmem).1) hplain.2
      (fun hnonzero use hmem => hwindow hnonzero use (.tail _ hmem)) (hperiod'.trans hperiod) ?_
    · simp only at hstep hrest ⊢
      omega
    · rcases hend' with heq | heq
      · exact hend.imp heq.trans heq.trans
      · exact .inr heq
end

def maximumInForce (row : SpendingLimitState) : Nat := if row.period = 0 ∧ row.max = 0 then row.remaining else row.max

theorem WellFormed.budget_le (h : WellFormed spec row) (window : Nat) : budget spec window row ≤ maximumInForce row := by
  unfold budget maximumInForce
  by_cases hperiod : row.period = 0
  · have hleft : left spec row = row.remaining := if_neg fun hboth => hboth.1 hperiod
    rw [if_pos (.inl hperiod), hleft]
    split
    · exact le_rfl
    · have hcap := (h.once hperiod).2
      omega
  have hmax : (if row.period = 0 ∧ row.max = 0 then row.remaining else row.max) = row.max :=
    if_neg (hperiod ·.1)
  rw [hmax]
  split
  · exact h.left_le hperiod
  · exact le_rfl

/-- The view of a live key: what a spend finds, and the end of its window. -/
theorem Live.effectiveLimitState (h : Live access keychain env.now) (hspec : .t3 ≤ env.spec)
    (hrow : WellFormed env.spec (rowOf access keychain)) :
    keychain.effectiveLimitState env access.account access.keyId access.token =
      (available env (rowOf access keychain), windowEnd (rowOf access keychain) env.now) := by
  have hunexpired := h.unexpired
  have hexpiry : ¬ ((keychain.keys access.account access.keyId).expiry = 0 ∨
      (keychain.keys access.account access.keyId).isRevoked = true) := by
    rw [h.unrevoked]
    simp [h.present]
  have hstale : ¬ (.t3 ≤ env.spec ∧ (keychain.keys access.account access.keyId).expiry.val ≤ env.now) := by omega
  have hid : ¬ (access.keyId = 0 ∧ .t3 ≤ env.spec) := (h.nonzero ·.1)
  have hstate : keychain.spendingLimits (access.account, access.keyId) access.token = rowOf access keychain := rfl
  unfold AccountKeychain.effectiveLimitState
  simp only [hstate]
  rw [if_neg hid, if_neg hexpiry, if_neg hstale, if_neg (not_not.mpr hspec), available_eq]
  generalize rowOf access keychain = row at hrow
  by_cases hperiod : row.period = 0
  · have hleft : left env.spec row = row.remaining := if_neg fun hboth => hboth.1 hperiod
    have hend : windowEnd row env.now = 0 := (if_pos (.inl hperiod)).trans (hrow.once hperiod).1
    rw [if_pos hperiod, if_neg fun hboth => hboth.1 hperiod, hleft, hend]
  rw [if_neg hperiod]
  by_cases hin : env.now < row.periodEnd
  · have hend : windowEnd row env.now = row.periodEnd := if_pos (.inr hin)
    have hout : ¬ (row.period ≠ 0 ∧ row.periodEnd ≤ env.now) := by omega
    have hleft : left env.spec row =
        if .t7 ≤ env.spec ∧ row.remaining = zeroPeriodicRemainingSentinel then 0 else row.remaining :=
      if_congr (and_iff_right hperiod) rfl rfl
    rw [if_pos hin, if_neg hout, hend, hleft]
  · have hend : windowEnd row env.now = row.computeNextPeriodEnd env.now := if_neg (by omega)
    rw [if_neg hin, if_pos ⟨hperiod, by omega⟩, hend]
    rfl

/-- **Limits bind.** After any run of spends, refunds and updates of a live key, from T3 on: a periodic row holds at most its maximum or, from T7 on, the sentinel, which counts as nothing left; the
view says exactly what a spend accepts and which window end it stores; and within a window, or over any stretch for
a one-shot limit, spends less refunds stay within the maximum in force until the limit is set again. -/
theorem limits_bind (access : Access) (haccount : access.account ≠ 0) (keychain : AccountKeychain)
    (records uses : List (KeychainEnv × LimitEvent)) (spec : TempoHardfork) (hrow : WellFormed spec (rowOf access keychain))
    (hforks : ∀ record ∈ records ++ uses, spec ≤ record.1.spec) (horderly : Orderly access keychain (records ++ uses))
    (hrecords : Admissible access (keychain, 0) records)
    (huses : Admissible access (limitRun access (keychain, 0) records) uses) :
    (∀ env, spec ≤ env.spec → .t3 ≤ env.spec → (∀ record ∈ records, record.1.spec ≤ env.spec) → Live access keychain env.now →
      let state := limitRun access (keychain, 0) records
      let view := state.1.effectiveLimitState env access.account access.keyId access.token
      ((rowOf access state.1).period ≠ 0 → view.1 ≤ (rowOf access state.1).max ∧
        ((rowOf access state.1).remaining ≤ (rowOf access state.1).max ∨
          .t7 ≤ env.spec ∧ (rowOf access state.1).remaining = zeroPeriodicRemainingSentinel)) ∧
      (∀ amount, (∃ next, state.1.verifyAndUpdateSpending env access.account access.keyId access.token amount = .ok next) ↔
        amount ≤ view.1) ∧
      (∀ amount next, state.1.verifyAndUpdateSpending env access.account access.keyId access.token amount = .ok next →
        (rowOf access next).periodEnd = view.2)) ∧
    (∀ window, (∀ use ∈ uses, use.2.isUpdate = false) →
      ((rowOf access (limitRun access (keychain, 0) records).1).period ≠ 0 → ∀ use ∈ uses,
        windowEnd (rowOf access (limitRun access (keychain, 0) records).1) use.1.now = window) →
      netSpent access (limitRun access (keychain, 0) records) uses ≤
        maximumInForce (rowOf access (limitRun access (keychain, 0) records).1)) := by
  have hfirst : Orderly access keychain records :=
    ⟨fun record hmem => horderly.t3 record (mem_append_left _ hmem),
      fun record hmem => horderly.live record (mem_append_left _ hmem),
      (pairwise_append.mp horderly.order).1⟩
  have hsecond : Orderly access keychain uses :=
    ⟨fun record hmem => horderly.t3 record (mem_append_right _ hmem),
      fun record hmem => horderly.live record (mem_append_right _ hmem),
      (pairwise_append.mp horderly.order).2.1⟩
  have hbefore : ∀ record ∈ records, spec ≤ record.1.spec := fun record hmem => hforks record (mem_append_left _ hmem)
  have hstart : Kept spec (rowOf access keychain, 0) := ⟨hrow, fun _ _ => rfl⟩
  constructor
  · intro _ hspec ht3 hpast hlive
    obtain ⟨hkept, hkeys⟩ := limitRun_kept hstart haccount hfirst hrecords hbefore hpast hspec
    have hlive' := hlive.congr hkeys
    simp only
    rw [hlive'.effectiveLimitState ht3 hkept.row]
    refine ⟨fun hperiod => ⟨hkept.row.available_le hperiod, hkept.row.periodic hperiod⟩, fun amount => ?_, fun amount next hverify => ?_⟩
    · rw [← spendRow_ok_iff ht3, hlive'.verify]
      constructor
      · rintro ⟨_, h⟩
        obtain ⟨row, hspend, -⟩ := map_ok h
        exact ⟨row, hspend⟩
      · rintro ⟨row, hspend⟩
        exact ⟨_, map_eq_ok.mpr ⟨row, hspend, rfl⟩⟩
    · rw [hlive'.verify] at hverify
      obtain ⟨row, hspend, rfl⟩ := map_ok hverify
      rw [rowOf_writeLimit]
      exact (spendRow_eq_ok ht3 hkept.row hspend).periodEnd
  · intro window hplain hwindow
    cases uses with
    | nil => exact Int.natCast_nonneg _
    | cons use =>
      have horder := (pairwise_append.mp horderly.order).2.2
      obtain ⟨hkept, hkeys⟩ := limitRun_kept hstart haccount hfirst hrecords hbefore
        (fun record hmem => (horder record hmem use (.head _)).1)
        (hforks use (mem_append_right _ (.head _)))
      have hlater := (pairwise_cons.mp hsecond.order).1
      have hbound := netSpent_le_budget hkept haccount (hsecond.congr hkeys) huses (fun other hmem => ?_) hplain hwindow rfl
        (.inl rfl)
      · exact Int.le_trans hbound (Int.ofNat_le.mpr (hkept.row.budget_le window))
      · rcases mem_cons.mp hmem with rfl | hmem
        · exact Nat.le_refl _
        · exact (hlater other hmem).1

end Contract

def periodicKeychain : AccountKeychain where
  keys _ keyId := if keyId = 7 then { expiry := 1000, enforceLimits := true } else {}
  spendingLimits _ _ := { remaining := 100, max := 100, period := 50, periodEnd := 150 }

/-- The limit is set, and spends and a refund follow in one window. -/
theorem limits_bind_spend :
    let env (timestamp : Nat) : KeychainEnv := ⟨.t7, timestamp, fun _ => false⟩
    netSpent ⟨5, 7, 9⟩ (limitRun ⟨5, 7, 9⟩ (periodicKeychain, 0) [(env 110, .update 90)])
        [(env 120, .spend 60), (env 120, .refund 20), (env 140, .spend 50)] ≤ 90 := by
  intro env
  have hlive : ∀ record ∈ [(env 110, LimitEvent.update 90)] ++ [(env 120, .spend 60), (env 120, .refund 20), (env 140, .spend 50)],
      .t7 ≤ record.1.spec ∧ .t3 ≤ record.1.spec ∧ Live ⟨5, 7, 9⟩ periodicKeychain record.1.now := by
    simp only [List.cons_append, List.nil_append, forall_mem_cons]
    refine ⟨⟨by decide, by decide, ?_⟩, ⟨by decide, by decide, ?_⟩, ⟨by decide, by decide, ?_⟩, ⟨by decide, by decide, ?_⟩,
      fun _ hmem => (nomatch hmem)⟩ <;>
      exact ⟨by decide, rfl, by decide, by decide, rfl, rfl⟩
  exact (limits_bind ⟨5, 7, 9⟩ (by decide) periodicKeychain [(env 110, .update 90)]
    [(env 120, .spend 60), (env 120, .refund 20), (env 140, .spend 50)] .t7
    ⟨by decide, fun hzero => absurd hzero (by decide), fun _ => .inl (by decide)⟩ (fun record hmem => (hlive record hmem).1)
    ⟨fun record hmem => (hlive record hmem).2.1, fun record hmem => (hlive record hmem).2.2, by decide⟩
    ⟨fun _ hrefund => (nomatch hrefund), trivial⟩
    ⟨fun _ hrefund => (nomatch hrefund), fun _ hrefund => by cases hrefund; decide, fun _ hrefund => (nomatch hrefund), trivial⟩).2
    150 (by decide) (fun _ => by decide)

/-- Twice the maximum is spent in one window when the limit is set again in it. -/
theorem spends_exceed_maximum :
    let now : KeychainEnv := ⟨.t7, 120, fun _ => false⟩
    let records := [(now, LimitEvent.spend 100), (now, .update 100), (now, .spend 100)]
    windowEnd (rowOf ⟨5, 7, 9⟩ periodicKeychain) 120 = 150 ∧ netSpent ⟨5, 7, 9⟩ (periodicKeychain, 0) records = 200 ∧
      (rowOf ⟨5, 7, 9⟩ (limitRun ⟨5, 7, 9⟩ (periodicKeychain, 0) records).1).max = 100 := by
  decide +kernel

end LeafageEvm.Tempo.AccountKeychain
