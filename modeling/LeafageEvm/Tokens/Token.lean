import LeafageEvm.Tokens.Roles

/-! The state of a token of either port, and what a call does to it. -/

namespace LeafageEvm.Tokens
open Option Function

/-- A token without its configuration. -/
structure Token where
  balances : Address → Nat
  allowances : Address → Address → Nat
  roles : Roles
  totalSupply : Nat
  supplyCap : Nat

/-- The operations, each with or without a memo. A `permit` comes with the account its signature recovers to. `gated`
stands for those that need a role and change none of the above: pause, policies, metadata, multiplier. -/
inductive Op where
  | transfer (target : Address) (amount : Nat)
  | transferFrom (source target : Address) (amount : Nat)
  | approve (spender : Address) (amount : Nat)
  | permit (owner spender : Address) (amount : Nat) (recovered : Option Address)
  | mint (target : Address) (amount : Nat)
  | batchMint (mints : List (Address × Nat))
  | burn (amount : Nat)
  | burnBlocked (source : Address) (amount : Nat)
  | seizeWithMemo (source target : Address) (amount : Nat)
  | updateSupplyCap (newCap : Nat)
  | role (call : RoleCall)
  | gated (role : Role)
  | view

/-- An operation, and whether it passes the checks that are not about rights or amounts: pause flags, policies, zero
addresses, deadlines, its encoding and the gas. These are what the versions of B20 differ in. -/
structure Call where
  op : Op
  passes : Bool

inductive Request where
  | plain (call : Call)
  | announce (id : String) (internalCalls : List Call)

structure TokenEnv where
  port : Port
  isToken : Address → Bool
  mintRole : Role
  burnRole : Role
  burnBlockedRole : Role
  seizeRole : Role
  operatorRole : Role

namespace Token

variable (env : TokenEnv) (token : Token) (caller : Address)

/-- B20 adds with a check, CAS20 with wrapping. -/
def credit (target : Address) (amount : Nat) : Option Token :=
  let sum := token.balances target + amount
  if sum < 2 ^ 256 then some { token with balances := update token.balances target sum }
  else match env.port with
    | .b20 => none
    | .cas20 => some { token with balances := update token.balances target (sum % 2 ^ 256) }

def debit (source : Address) (amount : Nat) : Option Token :=
  if amount ≤ token.balances source then
    some { token with balances := update token.balances source (token.balances source - amount) }
  else none

def moveBalance (source target : Address) (amount : Nat) : Option Token :=
  (token.debit source amount).bind fun token => token.credit env target amount

def setAllowance (owner spender : Address) (amount : Nat) : Token :=
  { token with allowances := update token.allowances owner (update (token.allowances owner) spender amount) }

def mint (target : Address) (amount : Nat) : Option Token :=
  if token.totalSupply + amount ≤ token.supplyCap then
    (token.credit env target amount).map fun token => { token with totalSupply := token.totalSupply + amount }
  else none

def burn (source : Address) (amount : Nat) : Option Token :=
  (token.debit source amount).bind fun token =>
    if amount ≤ token.totalSupply then some { token with totalSupply := token.totalSupply - amount } else none

def withRole (role : Role) (next : Option Token) : Option Token := if token.roles.hasRole role caller then next else none

def exec : Op → Option Token
  | .transfer target amount => token.moveBalance env caller target amount
  | .transferFrom source target amount =>
    let allowed := token.allowances source caller
    if allowed = 2 ^ 256 - 1 then token.moveBalance env source target amount
    else if amount ≤ allowed then
      (token.moveBalance env source target amount).map fun token => token.setAllowance source caller (allowed - amount)
    else none
  | .approve spender amount => some (token.setAllowance caller spender amount)
  | .permit owner spender amount recovered => if recovered = some owner then some (token.setAllowance owner spender amount) else none
  | .mint target amount => token.withRole caller env.mintRole (token.mint env target amount)
  | .batchMint mints =>
    token.withRole caller env.mintRole (mints.foldlM (fun token mint => token.mint env mint.1 mint.2) token)
  | .burn amount => token.withRole caller env.burnRole (token.burn caller amount)
  | .burnBlocked source amount =>
    match env.port with
    | .b20 => token.withRole caller env.burnBlockedRole (token.burn source amount)
    | .cas20 => none
  | .seizeWithMemo source target amount => token.withRole caller env.seizeRole (token.moveBalance env source target amount)
  | .updateSupplyCap newCap =>
    token.withRole caller defaultAdminRole
      (if newCap < token.totalSupply ∨ 2 ^ 128 - 1 < newCap then none else some { token with supplyCap := newCap })
  | .role call => (token.roles.exec env.port caller call).toOption.map fun roles => { token with roles := roles }
  | .gated role => token.withRole caller role (some token)
  | .view => some token

def execCall (call : Call) : Option Token := if call.passes then token.exec env caller call.op else none

def handle : Request → Option Token
  | .plain call => token.execCall env caller call
  | .announce id internalCalls =>
    token.withRole caller env.operatorRole (if id ∈ token.roles.announced then none else
      internalCalls.foldlM (fun token call => token.execCall env caller call)
        { token with roles := { token.roles with announced := id :: token.roles.announced } })

theorem withRole_eq_some {token next : Token} {caller : Address} {role : Role} {result : Option Token} :
    token.withRole caller role result = some next ↔ token.roles.hasRole role caller = true ∧ result = some next := by
  unfold withRole
  split <;> simp [*]

end Token
end LeafageEvm.Tokens
