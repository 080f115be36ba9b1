import LeafageEvm.Tokens.Supply

/-! Whose rights a token call uses. The EVM gives every frame its caller: a contract that delegates to a token hands on the
caller it was called by. CAS20 refuses such calls, B20 takes them. -/

namespace LeafageEvm.Tokens
open Option Function

inductive Scheme where
  | call | callCode | delegateCall | staticCall
  deriving DecidableEq

structure CallFrame where
  self : Address
  caller : Address
  readOnly : Bool

namespace Scheme

variable (scheme : Scheme) (frame : CallFrame)

def caller : Address := if scheme = .delegateCall then frame.caller else frame.self
def target (address : Address) : Address := if scheme = .call ∨ scheme = .staticCall then address else frame.self

def enter (contract : Address) : CallFrame :=
  ⟨scheme.target frame contract, scheme.caller frame, frame.readOnly || scheme = .staticCall⟩

/-- The account that a token call acts for, if the token takes the call: CAS20 asks that it runs at its own address. -/
def actor (env : TokenEnv) (address : Address) : Option Address :=
  match env.port with
  | .b20 => some (scheme.caller frame)
  | .cas20 => if scheme.target frame address = address then some (scheme.caller frame) else none

end Scheme

/-- The calls that a frame makes, one after the other: of tokens, and of contracts with the calls they make in turn. -/
inductive CallTree where
  | done
  | token (scheme : Scheme) (address : Address) (request : Request) (rest : CallTree)
  | contract (scheme : Scheme) (address : Address) (succeeds : Bool) (body rest : CallTree)

namespace CallTree

variable (env : TokenEnv)

def callToken (frame : CallFrame) (tokens : Address → Token) (scheme : Scheme) (address : Address) (request : Request) :
    Option Token :=
  if env.isToken address = false ∨ frame.readOnly = true ∨ scheme = .staticCall then none
  else (scheme.actor frame env address).bind fun caller => (tokens address).handle env caller request

/-- A token runs no code, and what a failed contract did is undone. -/
def run : CallTree → CallFrame → (Address → Token) → Address → Token
  | .done, _, tokens => tokens
  | .token scheme address request rest, frame, tokens =>
    rest.run frame (update tokens address ((callToken env frame tokens scheme address request).getD (tokens address)))
  | .contract scheme address succeeds body rest, frame, tokens =>
    rest.run frame (if env.isToken address = false ∧ succeeds = true then body.run (scheme.enter frame address) tokens else tokens)

/-- What holds of every token call of the tree. -/
def Each (P : CallFrame → Scheme → Address → Request → Prop) : CallTree → CallFrame → Prop
  | .done, _ => True
  | .token scheme address request rest, frame => P frame scheme address request ∧ rest.Each P frame
  | .contract scheme address _ body rest, frame =>
    (env.isToken address = false → body.Each P (scheme.enter frame address)) ∧ rest.Each P frame

end CallTree

/-! ### What others can do to an account -/

def Op.SignedBy (account : Address) : Op → Prop
  | .permit _ _ _ recovered => recovered = some account
  | _ => False

def Request.calls : Request → List Call
  | .plain call => [call]
  | .announce _ internalCalls => internalCalls

namespace Token

variable (env : TokenEnv) (account caller : Address)

/-- What an operation takes from the account by force, for a caller that holds its role. -/
def forced (token : Token) : Op → Nat
  | .burnBlocked source amount => if source = account ∧ token.roles.hasRole env.burnBlockedRole caller = true then amount else 0
  | .seizeWithMemo source _ amount => if source = account ∧ token.roles.hasRole env.seizeRole caller = true then amount else 0
  | _ => 0

def forcedAll : List Call → Token → Nat
  | [], _ => 0
  | call :: calls, token =>
    token.forced env account caller call.op + ((token.execCall env caller call).map (forcedAll calls)).getD 0

def forcedBy (token : Token) : Request → Nat
  | .plain call => token.forced env account caller call.op
  | .announce id internalCalls =>
    forcedAll env account caller internalCalls { token with roles := { token.roles with announced := id :: token.roles.announced } }

/-- The account has lost no more than what was taken, and grants what it granted. -/
structure Spares (account : Address) (taken : Nat) (token next : Token) : Prop where
  balance : token.balances account ≤ next.balances account + taken
  allowance : next.allowances account = token.allowances account

variable {env account caller} {token mid next : Token} {source target : Address} {amount taken : Nat}

theorem Spares.refl (token : Token) : Spares account 0 token token := ⟨le_rfl, rfl⟩

theorem Spares.trans {taken' : Nat} (h : Spares account taken token mid) (h' : Spares account taken' mid next) :
    Spares account (taken + taken') token next :=
  ⟨by have hfirst := h.balance; have hlast := h'.balance; omega, h'.allowance.trans h.allowance⟩

theorem credit_spares (hfits : env.port = .cas20 → ∑ a, token.balances a + amount < 2 ^ 256)
    (h : token.credit env target amount = some next) : Spares account 0 token next := by
  have hle := Finset.single_le_sum (fun a _ => Nat.zero_le (token.balances a)) (Finset.mem_univ target)
  simp only [credit] at h
  split at h
  · cases h
    refine ⟨?_, rfl⟩
    simp only [update_apply]
    split
    · next heq => simp [heq]
    · exact le_rfl
  · split at h <;> cases h
    next hfull hport =>
      have hfits := hfits hport
      omega

theorem debit_spares (htaken : account = source → amount ≤ taken) (h : token.debit source amount = some next) :
    Spares account taken token next := by
  simp only [debit] at h
  split at h <;> cases h
  refine ⟨?_, rfl⟩
  simp only [update_apply]
  split
  · next heq =>
    have hle := htaken heq
    rw [heq]
    omega
  · exact Nat.le_add_right ..

section
variable (hsupplied : env.port = .cas20 → token.Supplied)
include hsupplied

theorem mint_spares (h : token.mint env target amount = some next) : Spares account 0 token next := by
  unfold mint at h
  split at h
  · next hcap =>
    obtain ⟨mid, hcredit, rfl⟩ := map_eq_some_iff.mp h
    have hmid : Spares account 0 token mid := credit_spares (fun hport => by
      obtain ⟨hsum, _, hmax⟩ := hsupplied hport
      omega) hcredit
    exact ⟨hmid.balance, hmid.allowance⟩
  · cases h

theorem moveBalance_spares (htaken : account = source → amount ≤ taken)
    (h : token.moveBalance env source target amount = some next) : Spares account taken token next := by
  obtain ⟨_, hdebit, hcredit⟩ := bind_eq_some_iff.mp h
  refine (debit_spares htaken hdebit).trans (credit_spares (fun hport => ?_) hcredit)
  obtain ⟨_, rfl, hdebited⟩ := debit_sum hdebit
  obtain ⟨hsum, hle, hmax⟩ := hsupplied hport
  simp only
  omega
end

theorem burn_spares (htaken : account = source → amount ≤ taken) (h : token.burn source amount = some next) :
    Spares account taken token next := by
  obtain ⟨mid, hdebit, h⟩ := bind_eq_some_iff.mp h
  split at h <;> cases h
  have hmid : Spares account taken token mid := debit_spares htaken hdebit
  exact ⟨hmid.balance, hmid.allowance⟩

theorem setAllowance_spares {owner spender : Address} (hsame : account = owner → amount = token.allowances owner spender) :
    Spares account 0 token (token.setAllowance owner spender amount) := by
  refine ⟨le_rfl, ?_⟩
  by_cases heq : account = owner
  · simp [setAllowance, hsame heq]
  · exact update_of_ne heq _ _

section
variable (hcaller : account ≠ caller)
include hcaller

/-- **One operation** by another account, where the account has approved nobody and not signed. -/
theorem exec_spares (hunapproved : ∀ spender, token.allowances account spender = 0)
    (hsupplied : env.port = .cas20 → token.Supplied) {op : Op} (hunsigned : ¬ op.SignedBy account)
    (h : token.exec env caller op = some next) : Spares account (token.forced env account caller op) token next := by
  cases op with
  | transfer => exact moveBalance_spares hsupplied (fun heq => absurd heq hcaller) h
  | transferFrom source _ amount =>
    simp only [exec] at h
    split at h
    · next hmax =>
      refine moveBalance_spares hsupplied (fun heq => ?_) h
      rw [← heq, hunapproved caller] at hmax
      exact absurd hmax (by decide)
    split at h
    · next hle =>
      obtain ⟨_, hmove, rfl⟩ := map_eq_some_iff.mp h
      have hspares : Spares account 0 token _ := moveBalance_spares hsupplied
        (fun heq => by rw [← heq, hunapproved caller] at hle; exact hle) hmove
      refine hspares.trans (setAllowance_spares fun heq => ?_)
      subst heq
      rw [hspares.allowance, hunapproved caller, Nat.zero_sub]
    · cases h
  | approve =>
    cases h
    exact setAllowance_spares fun heq => absurd heq hcaller
  | permit =>
    simp only [exec] at h
    split at h <;> cases h
    next howner => exact setAllowance_spares fun heq => absurd (heq ▸ howner) hunsigned
  | mint => exact mint_spares hsupplied (withRole_eq_some.mp h).2
  | batchMint =>
    have hspares := foldlM_some_induction (P := fun mid => (env.port = .cas20 → mid.Supplied) ∧ Spares account 0 token mid)
      (withRole_eq_some.mp h).2 ⟨hsupplied, Spares.refl token⟩ fun _ _ _ _ hmint hmid =>
        ⟨fun hport => mint_supplied hmint (hmid.1 hport), hmid.2.trans (mint_spares hmid.1 hmint)⟩
    exact hspares.2
  | burn => exact burn_spares (fun heq => absurd heq hcaller) (withRole_eq_some.mp h).2
  | burnBlocked source =>
    simp only [exec] at h
    split at h
    · obtain ⟨hrole, h⟩ := withRole_eq_some.mp h
      exact burn_spares (fun heq => (if_pos ⟨heq.symm, hrole⟩).ge) h
    · cases h
  | seizeWithMemo source =>
    obtain ⟨hrole, h⟩ := withRole_eq_some.mp h
    exact moveBalance_spares hsupplied (fun heq => (if_pos ⟨heq.symm, hrole⟩).ge) h
  | updateSupplyCap =>
    have h := (withRole_eq_some.mp h).2
    split at h <;> cases h
    exact ⟨le_rfl, rfl⟩
  | role =>
    obtain ⟨_, -, rfl⟩ := map_eq_some_iff.mp h
    exact ⟨le_rfl, rfl⟩
  | gated =>
    cases (withRole_eq_some.mp h).2
    exact Spares.refl token
  | view =>
    cases h
    exact Spares.refl token

/-- The calls of a frame one after the other: the account still has approved nobody when the next one runs. -/
theorem foldlM_spares {calls : List Call} (hunapproved : ∀ spender, token.allowances account spender = 0)
    (hsupplied : env.port = .cas20 → token.Supplied) (hunsigned : ∀ call ∈ calls, ¬ call.op.SignedBy account)
    (h : calls.foldlM (fun token call => token.execCall env caller call) token = some next) :
    Spares account (forcedAll env account caller calls token) token next := by
  induction calls generalizing token with
  | nil =>
    cases h
    exact Spares.refl _
  | cons call calls ih =>
    obtain ⟨mid, hcall, hrest⟩ := bind_eq_some_iff.mp h
    change token.execCall env caller call = some mid at hcall
    have hexec : token.exec env caller call.op = some mid := (Option.ite_none_right_eq_some.mp hcall).2
    have hfirst := exec_spares hcaller hunapproved hsupplied (hunsigned call (.head _)) hexec
    have hlast := ih (fun spender => (congrFun hfirst.allowance spender).trans (hunapproved spender))
      (fun hport => exec_supplied hexec (hsupplied hport)) (fun call hmem => hunsigned call (.tail _ hmem)) hrest
    rw [forcedAll, hcall]
    exact hfirst.trans hlast

theorem handle_spares (hunapproved : ∀ spender, token.allowances account spender = 0)
    (hsupplied : env.port = .cas20 → token.Supplied) {request : Request}
    (hunsigned : ∀ call ∈ request.calls, ¬ call.op.SignedBy account) (h : token.handle env caller request = some next) :
    Spares account (token.forcedBy env account caller request) token next := by
  cases request with
  | plain call =>
    exact exec_spares hcaller hunapproved hsupplied (hunsigned call (.head _)) (Option.ite_none_right_eq_some.mp h).2
  | announce id internalCalls =>
    have h := (withRole_eq_some.mp h).2
    split at h
    · cases h
    · have hspares : Spares account (token.forcedBy env account caller (.announce id internalCalls))
          { token with roles := { token.roles with announced := id :: token.roles.announced } } next :=
        foldlM_spares hcaller hunapproved (fun hport => { hsupplied hport with }) hunsigned h
      exact ⟨hspares.balance, hspares.allowance⟩
end

end Token

/-! ### Call trees -/

namespace CallTree

/-- What the direct callers of a token take from the account by force in the calls that are not undone. -/
def forced (env : TokenEnv) (account : Address) : CallTree → CallFrame → (Address → Token) → Address → Nat
  | .done, _, _, _ => 0
  | .token scheme called request rest, frame, tokens, address =>
    (if address = called ∧ (callToken env frame tokens scheme called request).isSome = true then
      (tokens called).forcedBy env account frame.self request else 0) +
    rest.forced env account frame
      (update tokens called ((callToken env frame tokens scheme called request).getD (tokens called))) address
  | .contract scheme called succeeds body rest, frame, tokens, address =>
    (if env.isToken called = false ∧ succeeds = true then body.forced env account (scheme.enter frame called) tokens address else 0) +
    rest.forced env account frame (if env.isToken called = false ∧ succeeds = true then
      body.run env (scheme.enter frame called) tokens else tokens) address

/-- The account makes no CALL to the token, and signs no permit. -/
def Silent (account : Address) (frame : CallFrame) (scheme : Scheme) (_ : Address) (request : Request) : Prop :=
  (scheme = .call → frame.self ≠ account) ∧ ∀ call ∈ request.calls, ¬ call.op.SignedBy account

/-- A B20 token is not reached by DELEGATECALL or CALLCODE. -/
def Direct (env : TokenEnv) (_ : CallFrame) (scheme : Scheme) (_ : Address) (_ : Request) : Prop :=
  env.port = .b20 → scheme = .call ∨ scheme = .staticCall

/-- Whom the call acts for, if it may write, is who makes it, and not the account. -/
def ActsDirectly (env : TokenEnv) (account : Address) (frame : CallFrame) (scheme : Scheme) (address : Address) (_ : Request) : Prop :=
  env.isToken address = true → scheme ≠ .staticCall → ∀ caller,
    scheme.actor frame env address = some caller → scheme = .call ∧ caller = frame.self ∧ account ≠ caller

variable {env : TokenEnv} {account : Address} {frame : CallFrame} {scheme : Scheme} {address : Address} {request : Request} {tokens : Address → Token} {tree : CallTree}

section
variable (hself : env.isToken frame.self = false)
include hself
theorem actsDirectly (hsilent : Silent account frame scheme address request)
    (hdirect : Direct env frame scheme address request) : ActsDirectly env account frame scheme address request := by
  intro htoken hstatic caller hactor
  have hcall : scheme = .call ∧ scheme.caller frame = caller := by
    unfold Scheme.actor at hactor
    split at hactor
    · next hport => exact ⟨(hdirect hport).resolve_right hstatic, some.inj hactor⟩
    split at hactor
    · next htarget =>
      refine ⟨by_contra fun hcall => ?_, some.inj hactor⟩
      rw [Scheme.target, if_neg (not_or.mpr ⟨hcall, hstatic⟩)] at htarget
      rw [← htarget, hself] at htoken
      cases htoken
    · cases hactor
  obtain ⟨rfl, rfl⟩ := hcall
  exact ⟨rfl, rfl, (hsilent.1 rfl).symm⟩

theorem isToken_enter (hcontract : env.isToken address = false) :
    env.isToken (scheme.enter frame address).self = false := by
  simp only [Scheme.enter, Scheme.target]
  split
  · exact hcontract
  · exact hself

theorem each_actsDirectly (hsilent : tree.Each env (Silent account) frame)
    (hdirect : tree.Each env (Direct env) frame) : tree.Each env (ActsDirectly env account) frame := by
  induction tree generalizing frame with
  | done => trivial
  | token _ _ _ _ ih => exact ⟨actsDirectly hself hsilent.1 hdirect.1, ih hself hsilent.2 hdirect.2⟩
  | contract _ _ _ _ _ ihbody ih =>
    refine ⟨fun hcontract => ?_, ih hself hsilent.2 hdirect.2⟩
    exact ihbody (isToken_enter hself hcontract) (hsilent.1 hcontract) (hdirect.1 hcontract)

end

theorem callToken_eq_some {next : Token} (hcall : callToken env frame tokens scheme address request = some next) :
    env.isToken address = true ∧ scheme ≠ .staticCall ∧ ∃ caller, scheme.actor frame env address = some caller ∧
      (tokens address).handle env caller request = some next := by
  unfold callToken at hcall
  split at hcall
  · cases hcall
  · next hwrites =>
    simp only [not_or, Bool.not_eq_false] at hwrites
    exact ⟨hwrites.1, hwrites.2.2, bind_eq_some_iff.mp hcall⟩

theorem callToken_supplied (h : ∀ address, (tokens address).Supplied) (called : Address) :
    (update tokens address ((callToken env frame tokens scheme address request).getD (tokens address)) called).Supplied := by
  rw [update_apply]
  split
  · cases hcall : callToken env frame tokens scheme address request with
    | none => exact h address
    | some =>
      obtain ⟨_, _, _, _, hhandle⟩ := callToken_eq_some hcall
      exact Token.handle_supplied hhandle (h address)
  · exact h called

theorem run_supplied (h : ∀ address, (tokens address).Supplied) (address : Address) :
    (tree.run env frame tokens address).Supplied := by
  induction tree generalizing frame tokens address with
  | done => exact h address
  | token _ _ _ _ ih => exact ih (callToken_supplied h) address
  | contract _ _ _ _ _ ihbody ih =>
    refine ih (fun address => ?_) address
    split
    · exact ihbody h address
    · exact h address

section
variable (hself : env.isToken frame.self = false)
include hself

theorem callToken_spares (hunapproved : ∀ spender, (tokens address).allowances account spender = 0)
    (hsupplied : env.port = .cas20 → (tokens address).Supplied) (hsilent : Silent account frame scheme address request)
    (hdirect : Direct env frame scheme address request) :
    Token.Spares account (if (callToken env frame tokens scheme address request).isSome = true then
        (tokens address).forcedBy env account frame.self request else 0)
      (tokens address) ((callToken env frame tokens scheme address request).getD (tokens address)) := by
  cases hcall : callToken env frame tokens scheme address request with
  | none => exact Token.Spares.refl _
  | some =>
    obtain ⟨htoken, hwrites, caller, hactor, hhandle⟩ := callToken_eq_some hcall
    obtain ⟨-, rfl, hother⟩ := actsDirectly hself hsilent hdirect htoken hwrites caller hactor
    exact Token.handle_spares hother hunapproved hsupplied hsilent.2 hhandle

/-- **One call tree**, by induction on its calls. -/
theorem run_spares (hunapproved : ∀ address spender, (tokens address).allowances account spender = 0)
    (hsupplied : env.port = .cas20 → ∀ address, (tokens address).Supplied)
    (hsilent : tree.Each env (Silent account) frame) (hdirect : tree.Each env (Direct env) frame) (address : Address) :
    Token.Spares account (tree.forced env account frame tokens address) (tokens address) (tree.run env frame tokens address) := by
  induction tree generalizing frame tokens address with
  | done => exact Token.Spares.refl _
  | token scheme called request _ ih =>
    have hfirst address : Token.Spares account (if address = called ∧
          (callToken env frame tokens scheme called request).isSome = true then
          (tokens called).forcedBy env account frame.self request else 0) (tokens address)
        (update tokens called ((callToken env frame tokens scheme called request).getD (tokens called)) address) := by
      rw [update_apply]
      by_cases heq : address = called
      · subst heq
        simp only [true_and, if_true]
        exact callToken_spares hself (hunapproved address) (fun hport => hsupplied hport address) hsilent.1 hdirect.1
      · rw [if_neg heq, if_neg fun h => heq h.1]
        exact Token.Spares.refl _
    have hnone (address spender : Address) := (congrFun (hfirst address).allowance spender).trans (hunapproved address spender)
    exact (hfirst address).trans (ih hself hnone (fun hport => callToken_supplied (hsupplied hport)) hsilent.2 hdirect.2 address)
  | contract scheme called succeeds body _ ihbody ih =>
    have hfirst address : Token.Spares account (if env.isToken called = false ∧ succeeds = true then
          body.forced env account (scheme.enter frame called) tokens address else 0) (tokens address)
        ((if env.isToken called = false ∧ succeeds = true then body.run env (scheme.enter frame called) tokens else tokens)
          address) := by
      split
      · next hruns =>
        exact ihbody (isToken_enter hself hruns.1) hunapproved hsupplied (hsilent.1 hruns.1) (hdirect.1 hruns.1) address
      · exact Token.Spares.refl _
    have hnone (address spender : Address) := (congrFun (hfirst address).allowance spender).trans (hunapproved address spender)
    refine (hfirst address).trans (ih hself hnone (fun hport address => ?_) hsilent.2 hdirect.2 address)
    split
    · exact run_supplied (hsupplied hport) address
    · exact hsupplied hport address
end

/-- **A token call acts for the account that makes it.** In a call tree in which the account calls no token and signs nothing,
having approved nobody, and in which B20 tokens are called directly, no token call acts for the account, it still has approved
nobody in the end, and nothing is taken from it but by `burnBlocked` and `seizeWithMemo` of direct callers that hold their
roles. -/
theorem acts_for_direct_caller (env : TokenEnv) (account : Address) (frame : CallFrame) (tokens : Address → Token) (tree : CallTree)
    (hself : env.isToken frame.self = false) (hunapproved : ∀ address spender, (tokens address).allowances account spender = 0)
    (hsupplied : env.port = .cas20 → ∀ address, (tokens address).Supplied)
    (hsilent : tree.Each env (Silent account) frame) (hdirect : tree.Each env (Direct env) frame) :
    tree.Each env (ActsDirectly env account) frame ∧
    ∀ address, Token.Spares account (tree.forced env account frame tokens address) (tokens address)
      (tree.run env frame tokens address) :=
  ⟨each_actsDirectly hself hsilent hdirect, run_spares hself hunapproved hsupplied hsilent hdirect⟩

/-- Account 1 has 100 of token 9, and contract 2 may burn what blocked accounts have. -/
def sampleToken : Token :=
  ⟨update (fun _ => 0) 1 100, fun _ _ => 0, ⟨fun role account => role = 3 ∧ account = 2, 0, fun _ => 0, []⟩, 100, 100⟩

/-- Account 1 calls contract 2, which makes calls of the token. -/
def sampleTree (scheme : Scheme) (ops : List Op) : CallTree :=
  .contract .call 2 true (ops.foldr (fun op => .token scheme 9 (.plain ⟨op, true⟩)) .done) .done

theorem acts_for_direct_caller_contract :
    let tree := sampleTree .call [.transfer 2 100, .burnBlocked 1 40, .transferFrom 1 2 10, .seizeWithMemo 1 2 10]
    (tree.run Token.sampleEnv ⟨1, 1, false⟩ (fun _ => sampleToken) 9).balances 1 = 60 ∧
    tree.forced Token.sampleEnv 1 ⟨1, 1, false⟩ (fun _ => sampleToken) 9 = 40 ∧
    Token.Spares 1 40 sampleToken (tree.run Token.sampleEnv ⟨1, 1, false⟩ (fun _ => sampleToken) 9) := by
  intro tree
  have h := acts_for_direct_caller Token.sampleEnv 1 ⟨1, 1, false⟩ (fun _ => sampleToken) tree (by decide) (fun _ _ => rfl) nofun
    (by simp [tree, sampleTree, Each, Silent, Request.calls, Op.SignedBy, Scheme.enter, Scheme.target])
    (by simp [tree, sampleTree, Each, Direct])
  exact ⟨by decide +kernel, by decide +kernel, h.2 9⟩

/-- The same contract delegates to the token: account 1 makes no call to it and loses its balance. And a CAS20 credit wraps
where the accounts hold more than the supply. -/
theorem delegated_call_takes_balance :
    (let tree := sampleTree .delegateCall [.transfer 2 100]
     tree.Each Token.sampleEnv (Silent 1) ⟨1, 1, false⟩ ∧ sampleToken.balances 1 = 100 ∧
     (tree.run Token.sampleEnv ⟨1, 1, false⟩ (fun _ => sampleToken) 9).balances 1 = 0) ∧
    let unbacked := { sampleToken with balances := update (update (fun _ => 0) 1 (2 ^ 256 - 1)) 2 5 }
    ((sampleTree .call [.transfer 1 5]).run { Token.sampleEnv with port := .cas20 } ⟨1, 1, false⟩ (fun _ => unbacked) 9).balances 1 = 4 :=
  ⟨⟨⟨fun _ => ⟨⟨nofun, by simp [Request.calls, Op.SignedBy]⟩, trivial⟩, trivial⟩, by decide, by decide⟩, by decide +kernel⟩

end CallTree
end LeafageEvm.Tokens
