import LeafageEvm.Ledger
import LeafageEvm.Tokens.Token

/-! The supply of a token, over the frames that call it. -/

namespace LeafageEvm.Tokens.Token
open Option

section Frames
variable (env : TokenEnv) (token : Token)

/-- The journal of a failed frame is undone. -/
def step (frame : Address × Request) : Token := (token.handle env frame.1 frame.2).getD token

def run (frames : List (Address × Request)) : Token := frames.foldl (fun token => token.step env) token

end Frames

/-- The accounts hold the supply, which is within the cap. -/
structure Supplied (token : Token) : Prop where
  sum_eq : ∑ account, token.balances account = token.totalSupply
  le_cap : token.totalSupply ≤ token.supplyCap
  cap_le : token.supplyCap ≤ 2 ^ 128 - 1

variable {env : TokenEnv} {caller source target : Address} {amount : Nat} {token next : Token}

/-- Within the bound no port wraps: a balance is at most the sum of all. -/
theorem credit_sum (hfits : ∑ a, token.balances a + amount < 2 ^ 256) (h : token.credit env target amount = some next) :
    ∃ balances, next = { token with balances := balances } ∧ ∑ a, balances a = ∑ a, token.balances a + amount := by
  have hle := Finset.single_le_sum (fun a _ => Nat.zero_le (token.balances a)) (Finset.mem_univ target)
  have hsum := sum_update (fun _ => id) token.balances target (token.balances target + amount)
  simp only [id] at hsum
  simp only [credit, if_pos (show token.balances target + amount < 2 ^ 256 by omega)] at h
  cases h
  exact ⟨_, rfl, by omega⟩

theorem debit_sum (h : token.debit source amount = some next) :
    ∃ balances, next = { token with balances := balances } ∧ ∑ a, balances a + amount = ∑ a, token.balances a := by
  have hsum := sum_update (fun _ => id) token.balances source (token.balances source - amount)
  simp only [id] at hsum
  unfold debit at h
  split at h <;> cases h
  exact ⟨_, rfl, by omega⟩

section
variable (h : token.Supplied) (hmove : token.moveBalance env source target amount = some next)
include h hmove
/-- The target, which may be the source, is credited after the debit. -/
theorem moveBalance_sum :
    ∃ balances, next = { token with balances := balances } ∧ ∑ a, balances a = token.totalSupply := by
  obtain ⟨_, hdebit, hcredit⟩ := bind_eq_some_iff.mp hmove
  obtain ⟨_, rfl, hdebited⟩ := debit_sum hdebit
  obtain ⟨hsum, hle, hcap⟩ := h
  -- What was taken comes back, so the sum stays within the supply and the credit fits.
  obtain ⟨credited, rfl, hcredited⟩ := credit_sum (by simp only; omega) hcredit
  exact ⟨credited, rfl, by simp only at hcredited; omega⟩

theorem moveBalance_supplied : next.Supplied := by
  obtain ⟨_, rfl, hsum⟩ := moveBalance_sum h hmove
  exact { h with sum_eq := hsum }
end

theorem mint_supplied (hmint : token.mint env target amount = some next) (h : token.Supplied) : next.Supplied := by
  unfold mint at hmint
  split at hmint
  · next hcap =>
    obtain ⟨_, hcredit, rfl⟩ := map_eq_some_iff.mp hmint
    have hsum := h.sum_eq
    have hmax := h.cap_le
    obtain ⟨_, rfl, hcredited⟩ := credit_sum (by omega) hcredit
    exact ⟨hcredited.trans (by rw [hsum]), hcap, hmax⟩
  · cases hmint

theorem burn_supplied (hburn : token.burn source amount = some next) (h : token.Supplied) : next.Supplied := by
  obtain ⟨_, hdebit, hburn⟩ := bind_eq_some_iff.mp hburn
  obtain ⟨_, rfl, hdebited⟩ := debit_sum hdebit
  split at hburn <;> cases hburn
  refine ⟨?_, (Nat.sub_le ..).trans h.le_cap, h.cap_le⟩
  rw [← h.sum_eq, ← hdebited, Nat.add_sub_cancel]

theorem transferFrom_spends (h : token.Supplied) (hexec : token.exec env caller (.transferFrom source target amount) = some next) :
    next.Supplied ∧
    if token.allowances source caller = 2 ^ 256 - 1 then next.allowances = token.allowances
    else next.allowances source caller + amount = token.allowances source caller := by
  simp only [exec] at hexec
  split at hexec
  · next hmax =>
    obtain ⟨_, rfl, hsum⟩ := moveBalance_sum h hexec
    exact ⟨{ h with sum_eq := hsum }, by rw [if_pos hmax]⟩
  · next hmax =>
    split at hexec
    · next hle =>
      obtain ⟨_, hmove, rfl⟩ := map_eq_some_iff.mp hexec
      obtain ⟨_, rfl, hsum⟩ := moveBalance_sum h hmove
      refine ⟨{ h with sum_eq := hsum }, ?_⟩
      rw [if_neg hmax]
      simp [setAllowance, Nat.sub_add_cancel hle]
    · cases hexec

/-- **One operation** keeps the accounts holding the supply. Only mints and burns change it, by what they credit or debit. -/
theorem exec_supplied {op : Op} (hexec : token.exec env caller op = some next) (h : token.Supplied) : next.Supplied := by
  cases op with
  | transfer => exact moveBalance_supplied h hexec
  | transferFrom => exact (transferFrom_spends h hexec).1
  | permit =>
    simp only [exec] at hexec
    split at hexec <;> cases hexec
    exact { h with }
  | mint => exact mint_supplied (withRole_eq_some.mp hexec).2 h
  | batchMint => exact foldlM_some_induction (withRole_eq_some.mp hexec).2 h fun _ _ _ _ hmint => mint_supplied hmint
  | burn => exact burn_supplied (withRole_eq_some.mp hexec).2 h
  | burnBlocked =>
    simp only [exec] at hexec
    split at hexec
    · exact burn_supplied (withRole_eq_some.mp hexec).2 h
    · cases hexec
  | seizeWithMemo => exact moveBalance_supplied h (withRole_eq_some.mp hexec).2
  | updateSupplyCap =>
    have hexec := (withRole_eq_some.mp hexec).2
    split at hexec <;> cases hexec
    next hcap =>
      rw [not_or, not_lt, not_lt] at hcap
      exact ⟨h.sum_eq, hcap.1, hcap.2⟩
  | role =>
    obtain ⟨_, -, rfl⟩ := map_eq_some_iff.mp hexec
    exact { h with }
  | gated =>
    cases (withRole_eq_some.mp hexec).2
    exact h
  | approve | _ =>
    cases hexec
    exact { h with }

theorem execCall_supplied {call : Call} (hcall : token.execCall env caller call = some next) (h : token.Supplied) : next.Supplied := by
  unfold execCall at hcall
  split at hcall
  · exact exec_supplied hcall h
  · cases hcall

theorem handle_supplied {request : Request} (hhandle : token.handle env caller request = some next) (h : token.Supplied) :
    next.Supplied := by
  unfold handle at hhandle
  split at hhandle
  · exact execCall_supplied hhandle h
  have hcalls := (withRole_eq_some.mp hhandle).2
  split at hcalls
  · cases hcalls
  · -- Marking the id touches neither balances nor supply; the internal calls are operations like any other.
    exact foldlM_some_induction hcalls { h with } fun _ _ _ _ => execCall_supplied

theorem step_supplied (h : token.Supplied) (frame : Address × Request) : (token.step env frame).Supplied := by
  unfold step
  cases hhandle : token.handle env frame.1 frame.2 with
  | none => exact h
  | some => exact handle_supplied hhandle h

theorem foldlM_eq_none {α β : Type} {f : α → β → Option α} {before : List β} {start middle : α} {item : β}
    (hbefore : before.foldlM f start = some middle) (hfails : f middle item = none) (after : List β) :
    (before ++ item :: after).foldlM f start = none := by
  rw [List.foldlM_append, hbefore]
  exact congrArg (·.bind fun next => after.foldlM f next) hfails

theorem step_of_handle_none {frame : Address × Request} (h : token.handle env frame.1 frame.2 = none) :
    token.step env frame = token := by
  rw [step, h, getD_none]

/-- **The accounts hold the supply, within the cap**, after any frames. An operation that fails, alone, as one of the
internal calls of an announcement or as one of the mints of a batch, fails the whole frame, which then changes nothing.
And `transferFrom` spends the allowance for what it moves, whoever the spender is. -/
theorem supply_is_held (env : TokenEnv) (token : Token) (h : token.Supplied) (frames : List (Address × Request)) :
    (token.run env frames).Supplied ∧
    (∀ (token : Token) (caller : Address) (call : Call), call.passes = false ∨ token.exec env caller call.op = none →
      token.step env (caller, .plain call) = token) ∧
    (∀ (token middle : Token) (caller : Address) (id : String) (before after : List Call) (call : Call),
      before.foldlM (fun token call => token.execCall env caller call)
        { token with roles := { token.roles with announced := id :: token.roles.announced } } = some middle →
      call.passes = false ∨ middle.exec env caller call.op = none →
      token.step env (caller, .announce id (before ++ call :: after)) = token) ∧
    (∀ (token middle : Token) (caller : Address) (before after : List (Address × Nat)) (mint : Address × Nat) (passes : Bool),
      before.foldlM (fun token mint => token.mint env mint.1 mint.2) token = some middle →
      middle.mint env mint.1 mint.2 = none →
      token.step env (caller, .plain ⟨.batchMint (before ++ mint :: after), passes⟩) = token) ∧
    ∀ (token next : Token) (caller source target : Address) (amount : Nat), token.Supplied →
      token.exec env caller (.transferFrom source target amount) = some next →
      if token.allowances source caller = 2 ^ 256 - 1 then next.allowances = token.allowances
      else next.allowances source caller + amount = token.allowances source caller := by
  have hcall : ∀ (token : Token) (caller : Address) (call : Call), call.passes = false ∨ token.exec env caller call.op = none →
      token.execCall env caller call = none := by
    rintro _ _ _ (hpasses | hfails)
    · rw [execCall, hpasses, if_neg Bool.false_ne_true]
    · rw [execCall, hfails, ite_self]
  refine ⟨List.foldlRecOn frames _ h fun _ h frame _ => step_supplied h frame,
    fun token caller call hfails => step_of_handle_none (hcall token caller call hfails),
    fun token middle caller id before after call hbefore hfails => step_of_handle_none ?_,
    fun token middle caller before after mint passes hbefore hfails => step_of_handle_none ?_,
    fun _ _ _ _ _ _ h hexec => (transferFrom_spends h hexec).2⟩
  · simp only [handle, foldlM_eq_none hbefore (hcall middle caller call hfails) after, withRole, ite_self]
  · refine hcall token caller _ (.inr ?_)
    simp only [exec, foldlM_eq_none hbefore hfails after, withRole, ite_self]

def sampleEnv : TokenEnv := ⟨.b20, fun address => address = 9, 1, 2, 3, 4, 5⟩
def sampleSupply : Token := ⟨fun _ => 0, fun _ _ => 0, ⟨fun _ _ => true, 1, fun _ => 0, []⟩, 0, 100⟩

/-- A mint; a batch whose second mint is over the cap; an announcement with a mint and a transfer. -/
theorem supply_is_held_minted :
    let token := sampleSupply.run sampleEnv [(1, .plain ⟨.mint 1 60, true⟩),
      (1, .plain ⟨.batchMint [(2, 30), (3, 20)], true⟩), (1, .announce "id" [⟨.mint 2 30, true⟩, ⟨.transfer 3 10, true⟩])]
    token.Supplied ∧ token.totalSupply = 90 ∧ [1, 2, 3].map token.balances = [50, 30, 10] := by
  intro token
  exact ⟨(supply_is_held sampleEnv sampleSupply ⟨Finset.sum_const_zero, by decide, by decide⟩ _).1,
    by decide +kernel, by decide +kernel⟩

end LeafageEvm.Tokens.Token
