import LeafageEvm.Outcome
import Mathlib.Algebra.Order.Ring.Nat
import Mathlib.Data.Fintype.Card

/-! Roles of the B20 and CAS20 tokens. The two ports differ in how they count the default admins and in the role an error
names. A call that does not succeed, for whatever reason, is undone by its frame. -/

namespace LeafageEvm.Tokens

abbrev Address := Fin (2 ^ 160)
abbrev Role := Fin (2 ^ 256)

scoped instance addressNeZero : NeZero (2 ^ 160) := ⟨by decide⟩
scoped instance roleNeZero : NeZero (2 ^ 256) := ⟨by decide⟩

def defaultAdminRole : Role := 0

inductive Port where
  | b20 | cas20

inductive RoleError where
  | unauthorizedAccount (account : Address) (neededRole : Role)
  | badConfirmation
  | lastAdminCannotRenounce
  | notSoleAdmin
  | countOverflow
  | announcementIdAlreadyUsed
  | internalCallMalformed
  | announcementInProgress
  | internalCallFailed
  | otherFailed

/-- A call as far as roles go. `other` is a call that does not touch them. -/
inductive RoleCall where
  | grantRole (role : Role) (account : Address)
  | revokeRole (role : Role) (account : Address)
  | renounceRole (role : Role) (confirmation : Address)
  | renounceLastAdmin
  | setRoleAdmin (role newAdminRole : Role)
  | other (succeeds : Bool)

inductive InternalCall where
  | malformed
  | announce
  | call (call : RoleCall)

inductive TokenCall where
  | plain (call : RoleCall)
  | announce (id : String) (internalCalls : List InternalCall)

structure Roles where
  hasRole : Role → Address → Bool
  adminCount : Nat
  roleAdmin : Role → Role
  announced : List String := []

namespace Roles

variable (port : Port) (roles : Roles) (caller : Address)
variable (role operatorRole : Role) (account : Address)

def setRole (enabled : Bool) : Roles :=
  { roles with hasRole := Function.update roles.hasRole role (Function.update (roles.hasRole role) account enabled) }

def ensureRole : Except RoleError Unit :=
  require (roles.hasRole role caller = true) (.unauthorizedAccount caller role)

/-- Role administration needs a default admin, and the admin role of the role. -/
def ensureRoleMutable : Except RoleError Unit :=
  (require (roles.adminCount ≠ 0) (.unauthorizedAccount caller (match port with
    | .b20 => defaultAdminRole
    | .cas20 => roles.roleAdmin role))).bind fun _ => roles.ensureRole caller (roles.roleAdmin role)

/-- B20 adds with a check, CAS20 with wrapping. -/
def countAdmin : Except RoleError Roles :=
  match port with
  | .b20 => (require (roles.adminCount + 1 < 2 ^ 256) .countOverflow).map fun _ => { roles with adminCount := roles.adminCount + 1 }
  | .cas20 => .ok { roles with adminCount := (roles.adminCount + 1) % 2 ^ 256 }

def uncountAdmin : Except RoleError Roles :=
  match port with
  | .b20 => (require (1 ≤ roles.adminCount) .countOverflow).map fun _ => { roles with adminCount := roles.adminCount - 1 }
  | .cas20 => .ok { roles with adminCount := (roles.adminCount + (2 ^ 256 - 1)) % 2 ^ 256 }

def grantRoleUnchecked : Except RoleError Roles :=
  if roles.hasRole role account then .ok roles
  else if role = defaultAdminRole then (roles.setRole role account true).countAdmin port
  else .ok (roles.setRole role account true)

/-- `revoke_role_unchecked` and `remove_role`. -/
def revokeRoleUnchecked : Except RoleError Roles :=
  if roles.hasRole role account = false then .ok roles
  else if role = defaultAdminRole then (roles.setRole role account false).uncountAdmin port
  else .ok (roles.setRole role account false)

/-- The last default admin is not removed like others. -/
def ensureNotLastAdmin : Except RoleError Unit :=
  require (¬ (role = defaultAdminRole ∧ roles.hasRole role account = true ∧ roles.adminCount = 1)) .lastAdminCannotRenounce

def exec : RoleCall → Except RoleError Roles
  | .grantRole role account =>
    (roles.ensureRoleMutable port caller role).bind fun _ => roles.grantRoleUnchecked port role account
  | .revokeRole role account =>
    (roles.ensureRoleMutable port caller role).bind fun _ =>
    (roles.ensureNotLastAdmin role account).bind fun _ => roles.revokeRoleUnchecked port role account
  | .renounceRole role confirmation =>
    (require (confirmation = caller) .badConfirmation).bind fun _ =>
    (roles.ensureNotLastAdmin role caller).bind fun _ => roles.revokeRoleUnchecked port role caller
  | .renounceLastAdmin =>
    (roles.ensureRole caller defaultAdminRole).bind fun _ =>
    (require (roles.adminCount = 1) .notSoleAdmin).bind fun _ =>
    match port with
    | .b20 => roles.revokeRoleUnchecked port defaultAdminRole caller
    | .cas20 => .ok { roles.setRole defaultAdminRole caller false with adminCount := 0 }
  | .setRoleAdmin role newAdminRole =>
    (roles.ensureRoleMutable port caller role).map fun _ =>
      { roles with roleAdmin := Function.update roles.roleAdmin role newAdminRole }
  | .other succeeds => (require (succeeds = true) .otherFailed).map fun _ => roles

def execInternal : InternalCall → Except RoleError Roles
  | .malformed => .error .internalCallMalformed
  | .announce => .error (match port with
      | .b20 => .announcementInProgress
      | .cas20 => .internalCallFailed)
  | .call call => (roles.exec port caller call).mapError fun
      | .countOverflow => .countOverflow
      | _ => .internalCallFailed

/-- `announce` needs the operator role, marks its id, and runs its calls one after the other. -/
def execToken : TokenCall → Except RoleError Roles
  | .plain call => roles.exec port caller call
  | .announce id internalCalls =>
    (roles.ensureRole caller operatorRole).bind fun _ =>
    (require (id ∉ roles.announced) .announcementIdAlreadyUsed).bind fun _ =>
      internalCalls.foldlM (fun roles call => roles.execInternal port caller call) { roles with announced := id :: roles.announced }

/-- A frame: who calls what, and whether it has the gas for it and may write. -/
structure Frame where
  caller : Address
  call : TokenCall
  completes : Bool

def step (frame : Frame) : Roles :=
  if frame.completes then ((roles.execToken port frame.caller operatorRole frame.call).toOption).getD roles else roles

def run (frames : List Frame) : Roles := frames.foldl (fun roles => roles.step port operatorRole) roles

end Roles
end LeafageEvm.Tokens
