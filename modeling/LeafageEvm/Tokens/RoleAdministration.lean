import LeafageEvm.Tokens.Roles

/-! Administration of the tokens' roles is neither lost by accident nor brought back. -/

namespace LeafageEvm.Tokens.Roles
open Bool Finset
variable {port : Port} {roles next : Roles} {caller account : Address} {role : Role} {call : RoleCall} {enabled : Bool}

def admins (roles : Roles) : Finset Address := Finset.univ.filter fun account => roles.hasRole defaultAdminRole account = true

/-- The stored count is the number of default admins. -/
def Counted (roles : Roles) : Prop := roles.adminCount = roles.admins.card

theorem mem_admins : account ∈ roles.admins ↔ roles.hasRole defaultAdminRole account = true := by
  simp [admins]

theorem setRole_apply (roles : Roles) (role : Role) (account : Address) (enabled : Bool) (role' : Role) (account' : Address) :
    (roles.setRole role account enabled).hasRole role' account' =
      if role' = role ∧ account' = account then enabled else roles.hasRole role' account' := by
  simp only [setRole]
  by_cases hrole : role' = role
  · subst hrole
    simp [Function.update_apply]
  · simp [hrole]

theorem setRole_of_eq (h : roles.hasRole role account = enabled) :
    (roles.setRole role account enabled).hasRole = roles.hasRole := by
  funext _ _
  rw [setRole_apply]
  split
  · next heq => rw [heq.1, heq.2, h]
  · rfl

theorem admins_congr (h : ∀ account, next.hasRole defaultAdminRole account = roles.hasRole defaultAdminRole account) :
    next.admins = roles.admins := by
  ext account
  rw [mem_admins, mem_admins, h]

theorem Counted.lt (h : roles.Counted) : roles.adminCount < 2 ^ 256 - 1 := by
  have hcard := card_le_univ roles.admins
  rw [Fintype.card_fin, ← h] at hcard
  exact hcard.trans_lt (by decide)

/-- What a role becomes, by a grant or a removal. -/
structure Sets (roles : Roles) (role : Role) (account : Address) (enabled : Bool) (next : Roles) : Prop where
  counted : next.Counted
  roleAdmin : next.roleAdmin = roles.roleAdmin
  hasRole : next.hasRole = (roles.setRole role account enabled).hasRole

theorem sets_of_card {count : Nat} (hcount : count = (roles.setRole role account enabled).admins.card) :
    roles.Sets role account enabled { roles.setRole role account enabled with adminCount := count } :=
  ⟨hcount, rfl, rfl⟩

/-- The caller administers the role, and there is a default admin. -/
def Administers (roles : Roles) (caller : Address) (role : Role) : Prop :=
  roles.adminCount ≠ 0 ∧ roles.hasRole (roles.roleAdmin role) caller = true

theorem ensureRoleMutable_eq_ok {u : Unit} (h : roles.ensureRoleMutable port caller role = .ok u) :
    roles.Administers caller role := by
  obtain ⟨hcount, h⟩ := check_ok h
  exact ⟨hcount, require_eq_ok.mp h⟩

/-- What role administration guarantees of one successful call. -/
structure Governed (roles : Roles) (caller : Address) (call : RoleCall) (next : Roles) : Prop where
  counted : next.Counted
  /-- Only the sole admin gives up the administration, and only by the call made for it. -/
  surrendered : roles.adminCount ≠ 0 → next.adminCount = 0 → call = .renounceLastAdmin ∧ roles.admins = {caller}
  authorised : ∀ role account, call = .grantRole role account ∨ call = .revokeRole role account → roles.Administers caller role
  changed : ∀ role account, next.hasRole role account ≠ roles.hasRole role account →
    (call = .grantRole role account ∨ call = .revokeRole role account) ∨ (account = caller ∧ next.hasRole role account = false)
  roleAdmin : roles.adminCount = 0 → next.roleAdmin = roles.roleAdmin

theorem Sets.changed (hsets : roles.Sets role account enabled next) {role' : Role} {account' : Address}
    (h : next.hasRole role' account' ≠ roles.hasRole role' account') :
    role' = role ∧ account' = account ∧ next.hasRole role' account' = enabled := by
  rw [hsets.hasRole, setRole_apply] at h ⊢
  split at h
  · next heq => exact ⟨heq.1, heq.2, if_pos heq⟩
  · exact absurd rfl h

theorem Governed.changed_of_none (hgoverned : roles.Governed caller call next) (hnone : roles.adminCount = 0) (role : Role)
    (account : Address) (hne : next.hasRole role account ≠ roles.hasRole role account) :
    account = caller ∧ next.hasRole role account = false := by
  cases hgoverned.changed role account hne with
  | inl hcall => exact absurd hnone (hgoverned.authorised role account hcall).1
  | inr hown => exact hown

section
variable (hcounted : roles.Counted)
include hcounted
theorem sets_of_ne (hrole : role ≠ defaultAdminRole) :
    roles.Sets role account enabled (roles.setRole role account enabled) := by
  refine ⟨hcounted.trans (congrArg _ (admins_congr fun _ => ?_).symm), rfl, rfl⟩
  rw [setRole_apply, if_neg fun heq => hrole heq.1.symm]

theorem grantRoleUnchecked_sets (h : roles.grantRoleUnchecked port role account = .ok next) :
    roles.Sets role account true next := by
  unfold grantRoleUnchecked at h
  split at h
  · next hhas =>
      cases h
      exact ⟨hcounted, rfl, (setRole_of_eq hhas).symm⟩
  next hnot =>
  split at h
  · next hrole =>
      subst hrole
      have hcard : (roles.setRole defaultAdminRole account true).admins.card = roles.adminCount + 1 := by
        have hinsert : (roles.setRole defaultAdminRole account true).admins = insert account roles.admins := by
          ext other
          rw [mem_admins, setRole_apply, mem_insert, mem_admins]
          by_cases heq : other = account <;> simp [heq]
        rw [hinsert, card_insert_of_notMem (mt mem_admins.mp hnot), hcounted]
      cases port with
      | b20 =>
        obtain ⟨_, -, rfl⟩ := map_ok h
        exact sets_of_card hcard.symm
      | cas20 =>
        cases h
        have hlt := hcounted.lt
        refine sets_of_card ?_
        show (roles.adminCount + 1) % 2 ^ 256 = _
        omega
  · next hrole =>
      cases h
      exact sets_of_ne hcounted hrole

theorem revokeRoleUnchecked_sets (h : roles.revokeRoleUnchecked port role account = .ok next) :
    roles.Sets role account false next := by
  unfold revokeRoleUnchecked at h
  split at h
  · next hnot =>
      cases h
      exact ⟨hcounted, rfl, (setRole_of_eq hnot).symm⟩
  next hhas =>
  split at h
  · next hrole =>
      subst hrole
      have hcard : (roles.setRole defaultAdminRole account false).admins.card + 1 = roles.adminCount := by
        have herase : (roles.setRole defaultAdminRole account false).admins = roles.admins.erase account := by
          ext other
          rw [mem_admins, setRole_apply, mem_erase, mem_admins]
          by_cases heq : other = account <;> simp [heq]
        rw [herase, card_erase_add_one (mem_admins.mpr (not_eq_false _ ▸ hhas)), hcounted]
      cases port with
      | b20 =>
        obtain ⟨_, -, rfl⟩ := map_ok h
        exact sets_of_card (Nat.sub_eq_of_eq_add hcard.symm)
      | cas20 =>
        cases h
        have hlt := hcounted.lt
        refine sets_of_card ?_
        show (roles.adminCount + (2 ^ 256 - 1)) % 2 ^ 256 = _
        omega
  · next hrole =>
      cases h
      exact sets_of_ne hcounted hrole

/-! ### One call -/

theorem renounceLastAdmin_sets (h : roles.exec port caller .renounceLastAdmin = .ok next) :
    roles.admins = {caller} ∧ roles.Sets defaultAdminRole caller false next := by
  obtain ⟨hadmin, h⟩ := check_ok h
  obtain ⟨hone, h⟩ := check_ok h
  obtain ⟨sole, hsole⟩ := card_eq_one.mp (hcounted.symm.trans hone)
  obtain rfl : caller = sole := mem_singleton.mp (hsole ▸ mem_admins.mpr hadmin)
  refine ⟨hsole, ?_⟩
  cases port with
  | b20 => exact revokeRoleUnchecked_sets hcounted h
  | cas20 =>
    cases h
    refine sets_of_card (Eq.symm (card_eq_zero.mpr (eq_empty_of_forall_notMem fun _ hother => ?_)))
    rw [mem_admins, setRole_apply] at hother
    split at hother
    · exact absurd hother false_ne_true
    · next hne => exact hne ⟨rfl, mem_singleton.mp (hsole ▸ mem_admins.mpr hother)⟩

theorem Sets.removes_last (hsets : roles.Sets role account false next) (hsome : roles.adminCount ≠ 0)
    (hnone : next.adminCount = 0) :
    role = defaultAdminRole ∧ roles.hasRole role account = true ∧ roles.adminCount = 1 := by
  have hleft other (hadmin : roles.hasRole defaultAdminRole other = true) : defaultAdminRole = role ∧ other = account := by
    by_contra hother
    have hstill : other ∈ next.admins := by rw [mem_admins, hsets.hasRole, setRole_apply, if_neg hother, hadmin]
    rw [card_eq_zero.mp (hsets.counted.symm.trans hnone)] at hstill
    exact notMem_empty other hstill
  obtain ⟨admin, hadmin⟩ := card_pos.mp (pos_of_ne_zero (hcounted ▸ hsome))
  obtain ⟨rfl, rfl⟩ := hleft admin (mem_admins.mp hadmin)
  have hsole : roles.admins = {admin} :=
    eq_singleton_iff_unique_mem.mpr ⟨hadmin, fun other hother => (hleft other (mem_admins.mp hother)).2⟩
  exact ⟨rfl, mem_admins.mp hadmin, by rw [hcounted, hsole, card_singleton]⟩

theorem eq_false_of_adminCount (hnone : roles.adminCount = 0) (account : Address) :
    roles.hasRole defaultAdminRole account = false := by
  refine eq_false_iff.mpr fun hadmin => ?_
  have hmem := mem_admins.mpr hadmin
  rw [card_eq_zero.mp (hcounted.symm.trans hnone)] at hmem
  exact notMem_empty account hmem

theorem exists_admin (hsome : roles.adminCount ≠ 0) :
    ∃ account, roles.hasRole defaultAdminRole account = true := by
  obtain ⟨admin, hmem⟩ := card_pos.mp (pos_of_ne_zero (hcounted ▸ hsome))
  exact ⟨admin, mem_admins.mp hmem⟩

theorem exec_governed (h : roles.exec port caller call = .ok next) : roles.Governed caller call next := by
  cases call with
  | grantRole =>
    obtain ⟨_, hmutable, h⟩ := bind_ok h
    have hadmin := ensureRoleMutable_eq_ok hmutable
    have hsets := grantRoleUnchecked_sets hcounted h
    refine ⟨hsets.counted, fun hsome hnone => ?_, ?_, fun _ _ hne => ?_, fun hnone => absurd hnone hadmin.1⟩
    · obtain ⟨admin, hhas⟩ := exists_admin hcounted hsome
      have hgone := eq_false_of_adminCount hsets.counted hnone admin
      rw [hsets.hasRole, setRole_apply, hhas, ite_self] at hgone
      exact Bool.noConfusion hgone
    · rintro _ _ (heq | heq) <;> cases heq
      exact hadmin
    · obtain ⟨rfl, rfl, -⟩ := hsets.changed hne
      exact .inl (.inl rfl)
  | revokeRole =>
    obtain ⟨_, hmutable, h⟩ := bind_ok h
    obtain ⟨hlast, h⟩ := check_ok h
    have hadmin := ensureRoleMutable_eq_ok hmutable
    have hsets := revokeRoleUnchecked_sets hcounted h
    refine ⟨hsets.counted, fun hsome hnone => absurd (hsets.removes_last hcounted hsome hnone) hlast, ?_, fun _ _ hne => ?_,
      fun hnone => absurd hnone hadmin.1⟩
    · rintro _ _ (heq | heq) <;> cases heq
      exact hadmin
    · obtain ⟨rfl, rfl, -⟩ := hsets.changed hne
      exact .inl (.inr rfl)
  | renounceRole =>
    obtain ⟨_, h⟩ := rest_ok h
    obtain ⟨hlast, h⟩ := check_ok h
    have hsets := revokeRoleUnchecked_sets hcounted h
    exact ⟨hsets.counted, fun hsome hnone => absurd (hsets.removes_last hcounted hsome hnone) hlast, by simp,
      fun _ _ hne => .inr (hsets.changed hne).2, fun _ => hsets.roleAdmin⟩
  | renounceLastAdmin =>
    obtain ⟨hsole, hsets⟩ := renounceLastAdmin_sets hcounted h
    exact ⟨hsets.counted, fun _ _ => ⟨rfl, hsole⟩, by simp, fun _ _ hne => .inr (hsets.changed hne).2, fun _ => hsets.roleAdmin⟩
  | setRoleAdmin =>
    obtain ⟨_, hmutable, rfl⟩ := map_ok h
    exact ⟨hcounted, fun hsome hnone => absurd hnone hsome, by simp, fun _ _ hne => absurd rfl hne,
      fun hnone => absurd hnone (ensureRoleMutable_eq_ok hmutable).1⟩
  | other =>
    obtain ⟨_, -, rfl⟩ := map_ok h
    exact ⟨hcounted, fun hsome hnone => absurd hnone hsome, by simp, fun _ _ hne => absurd rfl hne, fun _ => rfl⟩

theorem Governed.adminCount_eq_zero (hgoverned : roles.Governed caller call next)
    (hnone : roles.adminCount = 0) : next.adminCount = 0 := by
  by_contra hsome
  obtain ⟨admin, hhas⟩ := exists_admin hgoverned.counted hsome
  have hnot := eq_false_of_adminCount hcounted hnone admin
  have hgone := (hgoverned.changed_of_none hnone defaultAdminRole admin (by rw [hhas, hnot]; decide)).2
  exact absurd (hhas.symm.trans hgone) Bool.noConfusion
end

/-! ### Runs -/

/-- What any callers' successful calls lead to, the states inside an announcement among them. -/
inductive Reachable (port : Port) (start : Roles) : Roles → Prop
  | start : Reachable port start start
  | call {roles next : Roles} {caller : Address} {call : RoleCall} (hreach : Reachable port start roles)
      (h : roles.exec port caller call = .ok next) : Reachable port start next
  | mark {roles : Roles} (announced : List String) (hreach : Reachable port start roles) :
      Reachable port start { roles with announced := announced }

variable {start : Roles}

theorem Reachable.internalCalls (calls : List InternalCall) : ∀ {roles : Roles}, Reachable port start roles →
    calls.foldlM (fun roles call => roles.execInternal port caller call) roles = .ok next → Reachable port start next := by
  induction calls with
  | nil =>
    intro _ hreach h
    cases h
    exact hreach
  | cons call _ ih =>
    intro roles hreach h
    obtain ⟨_, hcall, h⟩ := bind_ok h
    refine ih ?_ h
    cases call with
    | malformed => cases hcall
    | announce => cases hcall
    | call call =>
      change (roles.exec port caller call).mapError _ = _ at hcall
      cases hexec : roles.exec port caller call with
      | error e =>
        rw [hexec] at hcall
        cases hcall
      | ok =>
        rw [hexec] at hcall
        cases hcall
        exact hreach.call hexec

theorem Reachable.run (operatorRole : Role) (frames : List Frame) :
    ∀ {roles : Roles}, Reachable port start roles → Reachable port start (roles.run port operatorRole frames) := by
  induction frames with
  | nil => exact id
  | cons frame _ ih =>
    intro roles hreach
    refine ih (?_ : Reachable port start (roles.step port operatorRole frame))
    unfold step
    split
    · cases h : roles.execToken port frame.caller operatorRole frame.call with
      | error => exact hreach
      | ok =>
        cases hcall : frame.call with
        | plain call =>
          rw [hcall] at h
          exact hreach.call h
        | announce id internalCalls =>
          rw [hcall] at h
          iterate 2 obtain ⟨_, h⟩ := rest_ok h
          exact (hreach.mark _).internalCalls internalCalls h
    · exact hreach

theorem Reachable.counted (hstart : start.Counted) (hreach : Reachable port start roles) : roles.Counted := by
  induction hreach with
  | start => exact hstart
  | call _ h ih => exact (exec_governed ih h).counted
  | mark _ _ ih => exact ih

theorem Reachable.stays (hstart : start.Counted) (hnone : start.adminCount = 0) (hreach : Reachable port start roles) :
    roles.adminCount = 0 ∧ roles.roleAdmin = start.roleAdmin ∧
      ∀ role account, roles.hasRole role account = true → start.hasRole role account = true := by
  induction hreach with
  | start => exact ⟨hnone, rfl, fun _ _ hhas => hhas⟩
  | @call before next _ _ hbefore h ih =>
    have hcounted := hbefore.counted hstart
    have hgoverned := exec_governed hcounted h
    refine ⟨hgoverned.adminCount_eq_zero hcounted ih.1, (hgoverned.roleAdmin ih.1).trans ih.2.1, fun role account hhas => ?_⟩
    refine ih.2.2 role account (by_contra fun hnot => ?_)
    have hgone := (hgoverned.changed_of_none ih.1 role account fun heq => hnot (heq.symm.trans hhas)).2
    exact absurd (hhas.symm.trans hgone) Bool.noConfusion
  | mark _ _ ih => exact ih

/-- Over all runs of either port: the count is right, each call is governed, and nothing brings a surrendered administration
back. -/
theorem administration_kept (port : Port) (start : Roles) (hstart : start.Counted) :
    (∀ operatorRole frames, Reachable port start (start.run port operatorRole frames)) ∧
    ∀ roles, Reachable port start roles → roles.Counted ∧
      (∀ caller call next, roles.exec port caller call = .ok next → roles.Governed caller call next) ∧
      (roles.adminCount = 0 → ∀ later, Reachable port roles later →
        later.adminCount = 0 ∧ (∀ account, later.hasRole defaultAdminRole account = false) ∧ later.roleAdmin = roles.roleAdmin ∧
          ∀ role account, later.hasRole role account = true → roles.hasRole role account = true) := by
  refine ⟨Reachable.start.run, fun roles hreach => ?_⟩
  have hcounted := hreach.counted hstart
  refine ⟨hcounted, fun _ _ _ h => exec_governed hcounted h, fun hnone later hlater => ?_⟩
  obtain ⟨hcount, hadmins, hgained⟩ := hlater.stays hcounted hnone
  exact ⟨hcount, eq_false_of_adminCount (hlater.counted hcounted) hcount, hadmins, hgained⟩

def sampleRoles : Roles := { hasRole := fun role account => role = defaultAdminRole ∧ account = 1, adminCount := 1, roleAdmin := fun _ => 0 }

/-- The admin hands out roles, also in an announcement, a second admin comes and goes, and the administration is given up. -/
theorem administration_kept_surrendered :
    let surrendered := sampleRoles.run .b20 1 [⟨1, .plain (.grantRole 1 1), true⟩, ⟨1, .plain (.grantRole defaultAdminRole 3), true⟩,
      ⟨3, .announce "id" [.call (.grantRole 6 2)], true⟩, ⟨1, .announce "id" [.call (.grantRole 5 2)], true⟩,
      ⟨3, .plain (.renounceRole defaultAdminRole 3), true⟩, ⟨1, .plain .renounceLastAdmin, true⟩]
    surrendered.Counted ∧ surrendered.adminCount = 0 ∧ surrendered.hasRole 5 2 = true ∧ surrendered.hasRole 6 2 = false ∧
    ∀ frames, let later := surrendered.run .b20 1 frames
      later.adminCount = 0 ∧ (∀ account, later.hasRole defaultAdminRole account = false) ∧
        ∀ role account, later.hasRole role account = true → surrendered.hasRole role account = true := by
  have hadmins : sampleRoles.admins = {1} := by
    ext account
    simp [mem_admins, sampleRoles]
  have hcounted : sampleRoles.Counted := by rw [Counted, hadmins]; rfl
  intro surrendered
  obtain ⟨hreach, hkept⟩ := administration_kept .b20 sampleRoles hcounted
  obtain ⟨hlast, -, hgone⟩ := hkept surrendered (hreach 1 _)
  have hnone : surrendered.adminCount = 0 := by decide +kernel
  refine ⟨hlast, hnone, by decide +kernel, by decide +kernel, fun frames => ?_⟩
  obtain ⟨hcount, hadmins, -, hgained⟩ := hgone hnone _ (Reachable.start.run 1 frames)
  exact ⟨hcount, hadmins, hgained⟩

end LeafageEvm.Tokens.Roles
