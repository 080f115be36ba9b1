import LeafageEvm.Ledger
import LeafageEvm.Outcome
import Mathlib.Algebra.Order.Ring.Nat

/-! The balances of the accounts of an Arbitrum chain, and the journal's operations on them. A balance is a 256-bit
word: where an addition would not fit, the journal leaves it out, and a transfer has taken the amount by then. -/

namespace LeafageEvm.Arbitrum
open Function

scoped instance byteNeZero : NeZero 256 := ⟨by decide⟩
scoped instance addressNeZero : NeZero (2 ^ 160) := ⟨by decide⟩

abbrev Address := Fin (2 ^ 160)
abbrev Balances := Address → Nat

def u256Max : Nat := 2 ^ 256 - 1

def saturatingAdd (bits a b : Nat) : Nat := min (a + b) (2 ^ bits - 1)
def saturatingMul (bits a b : Nat) : Nat := min (a * b) (2 ^ bits - 1)

theorem saturatingMul_eq {bits a b : Nat} (h : a * b < 2 ^ bits) : saturatingMul bits a b = a * b :=
  min_eq_left (by omega)

namespace Balances

variable (balances : Balances) (account source target : Address) (amount : Nat)

def add : Balances := update balances account (balances account + amount)
def sub : Balances := update balances account (balances account - amount)

def incrBalance : Option Balances := if balances account + amount ≤ u256Max then some (balances.add account amount) else none

def decrBalance : Option Balances := if amount ≤ balances account then some (balances.sub account amount) else none

/-- `try_transfer`, with what is left where it fails. -/
def tryTransfer : Balances × Bool :=
  if amount = 0 ∨ source = target then (balances, true)
  else match balances.decrBalance source amount with
    | none => (balances, false)
    | some taken =>
      match taken.incrBalance target amount with
      | some paid => (paid, true)
      | none => (taken, false)

def total : Nat := ∑ account, balances account

variable {balances account source target amount}

theorem add_apply (other : Address) :
    balances.add account amount other = balances other + if other = account then amount else 0 := by
  rw [add, update_apply]
  split
  · next h => rw [h]
  · rfl

theorem sub_apply (h : amount ≤ balances account) (other : Address) :
    balances.sub account amount other + (if other = account then amount else 0) = balances other := by
  rw [sub, update_apply]
  split
  · next heq =>
      rw [heq]
      omega
  · rfl

theorem total_add (balances : Balances) (account : Address) (amount : Nat) :
    (balances.add account amount).total = balances.total + amount := by
  have hsum := sum_update (fun _ n => n) balances account (balances account + amount)
  simp only [total, add]
  omega

theorem total_sub (h : amount ≤ balances account) : (balances.sub account amount).total + amount = balances.total := by
  have hsum := sum_update (fun _ n => n) balances account (balances account - amount)
  simp only [total, sub]
  omega

/-- What a transfer does where the target has room for the amount. -/
structure Moved (balances : Balances) (source target : Address) (amount : Nat) (after : Balances) (ok : Bool) : Prop where
  total : after.total = balances.total
  debit : after source ≤ balances source
  other : ∀ account, account ≠ source → account ≠ target → after account = balances account
  failed : ok = false → after = balances ∧ balances source < amount
  paid : ok = true → source ≠ target → after target = balances target + amount ∧ after source + amount = balances source

theorem moved_tryTransfer (hroom : source ≠ target → balances target + amount ≤ u256Max) :
    balances.Moved source target amount (balances.tryTransfer source target amount).1
      (balances.tryTransfer source target amount).2 := by
  unfold tryTransfer
  split
  · next htrivial =>
      refine ⟨rfl, le_rfl, fun _ _ _ => rfl, nofun, fun _ hne => ?_⟩
      rw [htrivial.resolve_right hne]
      exact ⟨rfl, rfl⟩
  · next hnot =>
      have hne : source ≠ target := fun heq => hnot (.inr heq)
      by_cases hfunds : amount ≤ balances source
      · have htarget : balances.sub source amount target = balances target := update_of_ne hne.symm ..
        rw [decrBalance, if_pos hfunds]
        simp only
        rw [incrBalance, if_pos (htarget ▸ hroom hne)]
        refine ⟨?_, ?_, fun _ hs ht => ?_, nofun, fun _ _ => ⟨?_, ?_⟩⟩
        · rw [total_add, total_sub hfunds]
        · simp only [add, sub, update_self, update_of_ne hne]
          omega
        · simp only [add, sub, update_of_ne ht, update_of_ne hs]
        · simp only [add, update_self, htarget]
        · simp only [add, sub, update_self, update_of_ne hne]
          omega
      · rw [decrBalance, if_neg hfunds]
        exact ⟨rfl, le_rfl, fun _ _ _ => rfl, fun _ => ⟨rfl, by omega⟩, nofun⟩

section
variable {after : Balances} {ok : Bool} {account : Address} (h : balances.Moved source target amount after ok)
  (hne : account ≠ source)
include h hne

theorem Moved.bounds : balances account ≤ after account ∧
    after account ≤ balances account + if account = target then amount else 0 := by
  by_cases htarget : account = target
  · rw [if_pos htarget]
    cases ok with
    | true =>
      rw [htarget, (h.paid rfl (htarget ▸ hne.symm)).1]
      omega
    | false =>
      rw [(h.failed rfl).1]
      omega
  · rw [h.other account hne htarget]
    omega

theorem Moved.le : balances account ≤ after account := (h.bounds hne).1

end

end Balances
end LeafageEvm.Arbitrum
