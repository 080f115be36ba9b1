import Mathlib.Algebra.Order.BigOperators.Group.Finset
import Mathlib.Data.Fintype.BigOperators

/-! Balances of finitely many accounts and their total, under moving, minting and burning. -/

namespace LeafageEvm
open Finset Function

/-- A sum over all accounts after one entry changes. -/
theorem sum_update {A V : Type} [Fintype A] [DecidableEq A] (weight : A → V → Nat) (f : A → V) (a : A) (v : V) :
    ∑ x, weight x (update f a v x) + weight a (f a) = ∑ x, weight x (f x) + weight a v := by
  have hrest : ∑ x ∈ univ.erase a, weight x (update f a v x) = ∑ x ∈ univ.erase a, weight x (f x) := by
    apply sum_congr rfl
    intro x hx
    rw [update_of_ne (ne_of_mem_erase hx)]
  have hnew := add_sum_erase univ (fun x => weight x (update f a v x)) (mem_univ a)
  have hold := add_sum_erase univ (fun x => weight x (f x)) (mem_univ a)
  simp only [update_self] at hnew
  omega

structure Ledger (A : Type) where
  balances : A → Nat
  total : Nat

namespace Ledger

variable {A : Type} [DecidableEq A] {source target account : A} {amount : Nat} {ledger : Ledger A}

def set (ledger : Ledger A) (account : A) (amount : Nat) : Ledger A :=
  { ledger with balances := update ledger.balances account amount }

/-- Take from one account and give to another, which may be the same. -/
def move (ledger : Ledger A) (source target : A) (amount : Nat) : Ledger A :=
  let taken := ledger.set source (ledger.balances source - amount)
  taken.set target (taken.balances target + amount)

def burn (ledger : Ledger A) (source : A) (amount : Nat) : Ledger A :=
  { ledger.set source (ledger.balances source - amount) with total := ledger.total - amount }

def mint (ledger : Ledger A) (target : A) (amount : Nat) : Ledger A :=
  { ledger.set target (ledger.balances target + amount) with total := ledger.total + amount }

section
variable (ledger : Ledger A)

theorem move_zero (source target : A) : ledger.move source target 0 = ledger := by
  simp [move, set]

section
variable (amount : Nat)

theorem le_balances_move (h : account ≠ source) :
    ledger.balances account ≤ (ledger.move source target amount).balances account := by
  by_cases ht : account = target
  · subst ht
    simp [move, set, update_of_ne h]
  · simp [move, set, update_of_ne h, update_of_ne ht]

theorem balances_move_of_ne_ne (hs : account ≠ source)
    (ht : account ≠ target) : (ledger.move source target amount).balances account = ledger.balances account := by
  simp [move, set, update_of_ne hs, update_of_ne ht]

theorem balances_move_of_ne (h : target ≠ source) :
    (ledger.move source target amount).balances target = ledger.balances target + amount := by
  simp [move, set, update_of_ne h]

theorem balances_move_source_of_ne (h : target ≠ source) :
    (ledger.move source target amount).balances source = ledger.balances source - amount := by
  simp [move, set, update_of_ne h.symm]

theorem sub_le_balances_move (source target : A) :
    ledger.balances source - amount ≤ (ledger.move source target amount).balances source := by
  by_cases ht : source = target
  · subst ht
    simp [move, set]
  · simp [move, set, update_of_ne ht]

theorem balances_burn_self (source : A) :
    (ledger.burn source amount).balances source = ledger.balances source - amount := by
  simp [burn, set]

theorem balances_mint_self (target : A) :
    (ledger.mint target amount).balances target = ledger.balances target + amount := by
  simp [mint, set]

theorem balances_burn_of_ne (h : account ≠ source) :
    (ledger.burn source amount).balances account = ledger.balances account := by
  simp [burn, set, update_of_ne h]

theorem balances_mint_of_ne (h : account ≠ target) :
    (ledger.mint target amount).balances account = ledger.balances account := by
  simp [mint, set, update_of_ne h]
end

theorem le_balances_mint (target account : A) (amount : Nat) :
    ledger.balances account ≤ (ledger.mint target amount).balances account := by
  by_cases ht : account = target
  · subst ht
    simp [mint, set]
  · simp [mint, set, update_of_ne ht]
end

variable [Fintype A] (weight : A → Nat)

/-! ### Weighted sums of the balances -/

section
variable (ledger : Ledger A)

theorem sum_set_weight (account : A) (amount : Nat) :
    ∑ x, weight x * (ledger.set account amount).balances x + weight account * ledger.balances account =
      ∑ x, weight x * ledger.balances x + weight account * amount :=
  sum_update (fun x v => weight x * v) ledger.balances account amount

theorem sum_burn_weight (h : amount ≤ ledger.balances source) :
    ∑ x, weight x * (ledger.burn source amount).balances x + weight source * amount = ∑ x, weight x * ledger.balances x := by
  have htaken := ledger.sum_set_weight weight source (ledger.balances source - amount)
  have hsplit : weight source * ledger.balances source =
      weight source * (ledger.balances source - amount) + weight source * amount := by
    rw [← Nat.mul_add, Nat.sub_add_cancel h]
  show ∑ x, weight x * (ledger.set source (ledger.balances source - amount)).balances x + _ = _
  omega

theorem sum_mint_weight (target : A) (amount : Nat) :
    ∑ x, weight x * (ledger.mint target amount).balances x = ∑ x, weight x * ledger.balances x + weight target * amount := by
  have hgiven := ledger.sum_set_weight weight target (ledger.balances target + amount)
  rw [Nat.mul_add] at hgiven
  show ∑ x, weight x * (ledger.set target (ledger.balances target + amount)).balances x = _
  omega

theorem sum_move_weight (target : A) (h : amount ≤ ledger.balances source) :
    ∑ x, weight x * (ledger.move source target amount).balances x + weight source * amount =
      ∑ x, weight x * ledger.balances x + weight target * amount := by
  have htaken := ledger.sum_burn_weight weight h
  have hgiven := (ledger.burn source amount).sum_mint_weight weight target amount
  have heq : ((ledger.burn source amount).mint target amount).balances = (ledger.move source target amount).balances := rfl
  rw [heq] at hgiven
  omega
end

/-- The total is the sum of all balances. -/
structure Balanced (ledger : Ledger A) : Prop where
  sum_eq : ∑ account, ledger.balances account = ledger.total

theorem Balanced.move (h : ledger.Balanced) (target : A)
    (hamount : amount ≤ ledger.balances source) : (ledger.move source target amount).Balanced := by
  have hmoved := ledger.sum_move_weight (fun _ => 1) target hamount
  have hsum := h.sum_eq
  simp only [one_mul] at hmoved
  constructor
  show ∑ account, (ledger.move source target amount).balances account = ledger.total
  omega

theorem Balanced.burn (h : ledger.Balanced) (hamount : amount ≤ ledger.balances source) : (ledger.burn source amount).Balanced := by
  have hburned := ledger.sum_burn_weight (fun _ => 1) hamount
  have hsum := h.sum_eq
  simp only [one_mul] at hburned
  constructor
  show ∑ account, (ledger.burn source amount).balances account = ledger.total - amount
  omega

theorem Balanced.mint (h : ledger.Balanced) (target : A) (amount : Nat) : (ledger.mint target amount).Balanced := by
  have hminted := ledger.sum_mint_weight (fun _ => 1) target amount
  have hsum := h.sum_eq
  simp only [one_mul] at hminted
  constructor
  show ∑ account, (ledger.mint target amount).balances account = ledger.total + amount
  omega

end Ledger
end LeafageEvm
