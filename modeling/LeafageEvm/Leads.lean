import Mathlib.Data.List.Nodup

/-! Following a partial function to its end: the path from a point, that it is simple, and what redirecting one
point does to it. -/

namespace LeafageEvm
open List Function
variable {A : Type}

/-- The points met from a point on until there is no next one. -/
inductive Leads (next : A → Option A) : A → List A → Prop
  | last {a : A} : next a = none → Leads next a [a]
  | cons {a b : A} {path : List A} : next a = some b → Leads next b path → Leads next a (a :: path)

namespace Leads

variable {next : A → Option A} {a b : A} {path path' : List A}

section
variable (h : Leads next a path)
include h
theorem head?_eq : path.head? = some a := by
  cases h <;> rfl

theorem unique (h' : Leads next a path') : path = path' := by
  induction h generalizing path' with
  | last hnone =>
    cases h' with
    | last => rfl
    | cons hsome => rw [hnone] at hsome; cases hsome
  | cons hsome _ ih =>
    cases h' with
    | last hnone => rw [hnone] at hsome; cases hsome
    | cons hsome' hrest =>
      rw [hsome] at hsome'
      cases hsome'
      rw [ih hrest]

theorem of_mem (hmem : b ∈ path) : ∃ rest, rest <:+ path ∧ Leads next b rest := by
  induction h with
  | last hnone =>
    cases mem_singleton.mp hmem
    exact ⟨_, suffix_refl _, .last hnone⟩
  | cons hsome hpath ih =>
    rcases mem_cons.mp hmem with rfl | hmem
    · exact ⟨_, suffix_refl _, .cons hsome hpath⟩
    · obtain ⟨rest, hsuffix, hrest⟩ := ih hmem
      exact ⟨rest, hsuffix.trans (suffix_cons ..), hrest⟩

/-- No point is met twice. -/
theorem nodup : path.Nodup := by
  induction h with
  | last => exact nodup_singleton _
  | cons hsome hpath ih =>
    refine nodup_cons.mpr ⟨fun hmem => ?_, ih⟩
    -- a second visit would start the same path over, inside itself
    obtain ⟨_, hsuffix, hrest⟩ := hpath.of_mem hmem
    have hlength := hsuffix.length_le
    rw [hrest.unique (.cons hsome hpath), length_cons] at hlength
    omega

theorem last_eq_none : ∃ root, path.getLast? = some root ∧ next root = none := by
  induction h with
  | last hnone => exact ⟨_, rfl, hnone⟩
  | cons _ _ ih =>
    obtain ⟨root, hroot, hnone⟩ := ih
    refine ⟨root, ?_, hnone⟩
    rw [getLast?_cons, hroot]
    rfl
end

/-- A property that passes from a point to the next holds along the path. -/
theorem forall_mem {P : A → Prop} (hstep : ∀ a b, P a → next a = some b → P b) (h : Leads next a path) (ha : P a) :
    ∀ b ∈ path, P b := by
  induction h with
  | last => simpa using ha
  | cons hsome _ ih => exact forall_mem_cons.mpr ⟨ha, ih (hstep _ _ ha hsome)⟩

variable [DecidableEq A] {point : A} {target : Option A}

theorem update_of_not_mem (h : Leads next a path) (hpoint : point ∉ path) :
    Leads (update next point target) a path := by
  induction h with
  | last =>
    refine .last ?_
    rwa [update_of_ne (Ne.symm (by simpa using hpoint))]
  | cons _ _ ih =>
    rw [mem_cons, not_or] at hpoint
    refine .cons ?_ (ih hpoint.2)
    rwa [update_of_ne (Ne.symm hpoint.1)]

/-- A point may be redirected to where the path does not come back to it: all paths still end. -/
theorem exists_update (htarget : ∀ b, target = some b → ∃ path, Leads next b path ∧ point ∉ path)
    (h : Leads next a path) : ∃ path, Leads (update next point target) a path := by
  have hpoint : ∃ path, Leads (update next point target) point path := by
    cases htarget' : target with
    | none => exact ⟨_, .last (update_self ..)⟩
    | some b =>
      obtain ⟨_, hpath, hnot⟩ := htarget b htarget'
      exact ⟨_, .cons (update_self ..) (hpath.update_of_not_mem hnot)⟩
  induction h with
  | @last a hnone =>
    by_cases ha : a = point
    · rwa [ha]
    · exact ⟨_, .last ((update_of_ne ha ..).trans hnone)⟩
  | @cons a b path hsome _ ih =>
    by_cases ha : a = point
    · rwa [ha]
    · obtain ⟨_, hpath⟩ := ih
      exact ⟨_, .cons ((update_of_ne ha ..).trans hsome) hpath⟩

end Leads
end LeafageEvm
