import Mathlib.Algebra.Order.Ring.Nat
import Mathlib.Data.List.Lex
import Mathlib.Order.Fin.Basic

/-! Big-endian byte strings. Strings of one length are ordered as the numbers they encode, and a
string of fixed length put in front is compared first. -/

namespace LeafageEvm
open Nat List
variable {n base a b x : Nat} {bytes bytes' : List (Fin 256)} {A : Type} {front : List A} (width : Nat)

/-- The lowest `width` bytes of a number, the most significant first. -/
def toBE : Nat → Nat → List (Fin 256)
  | 0, _ => []
  | width + 1, n => Fin.ofNat 256 (n / 256 ^ width) :: toBE width n

/-- The number a byte string encodes. -/
def ofBE : List (Fin 256) → Nat
  | [] => 0
  | byte :: bytes => byte * 256 ^ bytes.length + ofBE bytes

@[simp] theorem length_toBE (n : Nat) : (toBE width n).length = width := by
  induction width with
  | zero => rfl
  | succ _ ih => rw [toBE, length_cons, ih]

theorem ofBE_toBE_mod (n : Nat) : ofBE (toBE width n) = n % 256 ^ width := by
  induction width with
  | zero => rw [toBE, ofBE, pow_zero, mod_one]
  | succ _ ih =>
    rw [toBE, ofBE, length_toBE, ih, Fin.val_ofNat, pow_succ, mod_mul, mul_comm, add_comm]

theorem ofBE_toBE (h : n < 256 ^ width) : ofBE (toBE width n) = n := by
  rw [ofBE_toBE_mod, mod_eq_of_lt h]

theorem ofBE_lt (bytes : List (Fin 256)) : ofBE bytes < 256 ^ bytes.length := by
  induction bytes with
  | nil => exact one_pos
  | cons byte bytes ih =>
    have hbyte : (byte : Nat) + 1 ≤ 256 := byte.isLt
    calc ofBE (byte :: bytes) = byte * 256 ^ bytes.length + ofBE bytes := rfl
      _ < byte * 256 ^ bytes.length + 256 ^ bytes.length := Nat.add_lt_add_left ih _
      _ = (byte + 1) * 256 ^ bytes.length := by rw [succ_mul]
      _ ≤ 256 * 256 ^ bytes.length := mul_le_mul_right _ hbyte
      _ = 256 ^ (byte :: bytes).length := by rw [length_cons, pow_succ, mul_comm]

theorem ofBE_dropWhile_zero (bytes : List (Fin 256)) : ofBE (bytes.dropWhile (· = 0)) = ofBE bytes := by
  induction bytes with
  | nil => rfl
  | cons byte _ ih =>
    by_cases hzero : byte = 0
    · subst hzero
      rw [dropWhile_cons_of_pos (by decide), ih, ofBE]
      simp
    · rw [dropWhile_cons_of_neg (by simpa using hzero)]

theorem mul_add_lt_of_lt (hab : a < b) (hx : x < base) (y : Nat) : a * base + x < b * base + y := by
  have hle : (a + 1) * base ≤ b * base := mul_le_mul_right base hab
  rw [succ_mul] at hle
  omega

/-- The leading digit decides, then the rest. -/
theorem mul_add_lt_mul_add_iff {y : Nat} (hx : x < base) (hy : y < base) :
    a * base + x < b * base + y ↔ a < b ∨ a = b ∧ x < y := by
  rcases lt_trichotomy a b with hlt | rfl | hgt
  · exact iff_of_true (mul_add_lt_of_lt hlt hx y) (.inl hlt)
  · omega
  · have hle := mul_add_lt_of_lt hgt hy x
    omega

/-- Strings of one length are ordered as their numbers. -/
theorem ofBE_lt_iff (hlength : bytes.length = bytes'.length) : ofBE bytes < ofBE bytes' ↔ bytes < bytes' := by
  induction bytes generalizing bytes' with
  | nil =>
    obtain rfl := length_eq_zero_iff.mp hlength.symm
    simp [ofBE]
  | cons _ bytes ih =>
    cases bytes' with
    | nil => simp at hlength
    | cons _ bytes' =>
      have htail : bytes.length = bytes'.length := succ.inj hlength
      have hlt := ofBE_lt bytes
      have hlt' := ofBE_lt bytes'
      rw [cons_lt_cons_iff, ← ih htail, ofBE, ofBE, htail]
      rw [htail] at hlt
      rw [mul_add_lt_mul_add_iff hlt hlt', Fin.lt_def, Fin.ext_iff]

theorem toBE_lt_toBE_iff {m : Nat} (hn : n < 256 ^ width) (hm : m < 256 ^ width) :
    toBE width n < toBE width m ↔ n < m := by
  rw [← ofBE_lt_iff (by rw [length_toBE, length_toBE]), ofBE_toBE width hn, ofBE_toBE width hm]

theorem ofBE_injective (hlength : bytes.length = bytes'.length) (h : ofBE bytes = ofBE bytes') : bytes = bytes' := by
  rcases lt_trichotomy bytes bytes' with hlt | heq | hgt
  · rw [← ofBE_lt_iff hlength] at hlt
    omega
  · exact heq
  · rw [← ofBE_lt_iff hlength.symm] at hgt
    omega

theorem toBE_ofBE (bytes : List (Fin 256)) : toBE bytes.length (ofBE bytes) = bytes := by
  apply ofBE_injective (length_toBE ..)
  exact ofBE_toBE _ (ofBE_lt bytes)

theorem lt_of_take_lt [LinearOrder A] {back : List A} (h : front.take n < back.take n) : front < back := by
  induction n generalizing front back with
  | zero => exact absurd h (lt_irrefl _)
  | succ n ih =>
    cases front with
    | nil =>
      cases back with
      | nil => exact absurd h (lt_irrefl _)
      | cons b => exact nil_lt_cons ..
    | cons a =>
      cases back with
      | nil => exact absurd h (not_lt_nil _)
      | cons b =>
        rw [take_succ_cons, take_succ_cons, cons_lt_cons_iff] at h
        rw [cons_lt_cons_iff]
        exact h.imp_right fun heq => ⟨heq.1, ih heq.2⟩

theorem take_le_take [LinearOrder A] (n : Nat) {back : List A} (h : front ≤ back) : front.take n ≤ back.take n :=
  not_lt.mp fun hlt => (lt_of_take_lt hlt).not_ge h

section
variable {front' : List A} (hlength : front.length = front'.length)
include hlength
theorem append_lt_append_iff [LinearOrder A] {back back' : List A} :
    front ++ back < front' ++ back' ↔ front < front' ∨ front = front' ∧ back < back' := by
  induction front generalizing front' with
  | nil =>
    obtain rfl := length_eq_zero_iff.mp hlength.symm
    simp
  | cons a _ ih =>
    cases front' with
    | nil => simp at hlength
    | cons a' =>
      have htail := ih (succ.inj hlength)
      rw [cons_append, cons_append, cons_lt_cons_iff, cons_lt_cons_iff]
      simp only [cons.injEq]
      tauto

theorem append_le_append_iff [LinearOrder A] {back back' : List A} :
    front ++ back ≤ front' ++ back' ↔ front < front' ∨ front = front' ∧ back ≤ back' := by
  rw [← not_lt, append_lt_append_iff hlength.symm]
  rcases lt_trichotomy front front' with hlt | rfl | hgt
  · simp [hlt, hlt.not_gt, hlt.ne']
  · simp
  · simp [hgt, hgt.not_gt, hgt.ne']

theorem front_eq_of_between [LinearOrder A] {low mid high : List A} (hlow : front ++ low ≤ front' ++ mid)
    (hhigh : front' ++ mid ≤ front ++ high) : front' = front := by
  rw [append_le_append_iff hlength] at hlow
  rw [append_le_append_iff hlength.symm] at hhigh
  rcases hlow with hlt | ⟨heq, -⟩
  · rcases hhigh with hgt | ⟨heq, -⟩
    · exact absurd hgt hlt.not_gt
    · exact heq
  · exact heq.symm
end

end LeafageEvm
