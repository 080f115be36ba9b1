import Mathlib.Data.List.Nodup

/-! Indexes kept beside a list of records: the places of the values of a list, removed by swap and pop, the set of the
keys that records hold and the map from a key to its holder. -/

namespace LeafageEvm
open Option List Function
variable {A K : Type}

/-! ### Places -/

/-- The place of every value in the list, counted from one, and zero outside it. -/
def Placed (l : List A) (place : A → Nat) : Prop := ∀ a p, l[p]? = some a ↔ place a = p + 1

namespace Placed

variable {l : List A} {place : A → Nat} {a b : A} {p : Nat}

theorem mem_iff (h : Placed l place) : a ∈ l ↔ place a ≠ 0 := by
  rw [mem_iff_getElem?]
  constructor
  · rintro ⟨p, hp⟩
    rw [(h a p).mp hp]
    exact Nat.succ_ne_zero p
  · intro hne
    obtain ⟨p, hp⟩ := Nat.exists_eq_succ_of_ne_zero hne
    exact ⟨p, (h a p).mpr hp⟩

theorem nodup (h : Placed l place) : l.Nodup := by
  rw [nodup_iff_injective_get]
  intro i j heq
  have hi := (h (l.get i) i).mp (by simp)
  have hj := (h (l.get j) j).mp (by simp)
  rw [heq] at hi
  exact Fin.ext (by omega)

theorem le_length (h : Placed l place) : place a ≤ l.length := by
  rcases Nat.eq_zero_or_eq_succ_pred (place a) with hzero | hsucc
  · omega
  · have hget := (h a (place a).pred).mpr hsucc
    have := (List.getElem?_eq_some_iff.mp hget).1
    omega

variable [DecidableEq A]

theorem push (h : Placed l place) (ha : place a = 0) : Placed (l ++ [a]) (update place a (l.length + 1)) := by
  intro x p
  have hx := h x p
  by_cases heq : x = a
  · subst heq
    grind
  · grind

theorem pop (h : Placed l place) (ha : place a = l.length) (hne : l ≠ []) : Placed l.dropLast (update place a 0) := by
  intro x p
  have hx := h x p
  have hlast := h a (l.length - 1)
  have hpos := List.length_pos_iff.mpr hne
  grind

theorem swap_pop (h : Placed l place) (ha : place a = p + 1) (hb : place b = l.length) (hne : p + 1 ≠ l.length) :
    Placed (l.set p b).dropLast (update (update place b (p + 1)) a 0) := by
  intro x q
  have hx := h x q
  have hap := h a p
  have hlast := h b (l.length - 1)
  grind

end Placed

/-! ### Keys of records -/

/-- The key of the record at a position, where it has one. -/
def pick (f : A → Option K) (l : List A) (i : Nat) : Option K := l[i]?.bind f

section Pick
variable {f : A → Option K} {g : A → A} {l : List A} {a : A} {i : Nat} {k : K}

theorem pick_eq_some : pick f l i = some k ↔ ∃ a, l[i]? = some a ∧ f a = some k := bind_eq_some_iff

theorem pick_length : pick f l l.length = none := by simp [pick]

theorem pick_push : pick f (l ++ [a]) = update (pick f l) l.length (f a) := by
  funext j
  rw [pick, getElem?_append, update_apply]
  split
  · rw [if_neg (by omega), pick]
  · by_cases hj : j = l.length
    · simp [hj]
    · rw [if_neg hj, pick, getElem?_eq_none (by simp; omega), getElem?_eq_none (by omega)]

theorem pick_push_none (h : f a = none) : pick f (l ++ [a]) = pick f l := by
  rw [pick_push, h]
  exact update_eq_self_iff.mpr pick_length.symm

section
variable (h : l[i]? = some a)
include h
theorem pick_of_get : pick f l i = f a := by rw [pick, h, bind_some]

theorem pick_modify : pick f (l.modify i g) = update (pick f l) i (f (g a)) := by
  funext j
  rw [pick]
  by_cases hj : j = i
  · simp [hj, h]
  · simp [hj, Ne.symm hj, pick]

theorem pick_set {b : A} : pick f (l.set i b) = update (pick f l) i (f b) := by
  funext j
  have hlt := (List.getElem?_eq_some_iff.mp h).1
  rw [pick]
  by_cases hj : j = i
  · simp [hj, hlt]
  · simp [hj, Ne.symm hj, pick]

theorem pick_set_same {b : A} (hb : f b = f a) : pick f (l.set i b) = pick f l := by
  rw [pick_set h, hb, ← pick_of_get (f := f) h, update_eq_self]
end

theorem pick_modify_same (h : ∀ a, f (g a) = f a) : pick f (l.modify i g) = pick f l := by
  funext j
  rw [pick, pick, getElem?_modify]
  cases l[j]? with
  | none => rfl
  | some a =>
    by_cases hj : i = j
    · simp [hj, h]
    · simp [hj]

end Pick

/-! ### The set of the keys held -/

/-- The set holds the keys that some record holds, each of which one record holds. -/
structure Reserved (holder : Nat → Option K) (taken : K → Bool) : Prop where
  taken_iff : ∀ k, taken k = true ↔ ∃ i, holder i = some k
  unique : ∀ i j k, holder i = some k → holder j = some k → i = j

/-- The map leads from a key to the record that holds it, counted from one. -/
def Pointed (holder : Nat → Option K) (index : K → Nat) : Prop := ∀ i k, holder i = some k → index k = i + 1

section Keys
variable [DecidableEq K] {holder : Nat → Option K} {taken : K → Bool} {index : K → Nat} {i : Nat} {k : K}

theorem Reserved.reserve (h : Reserved holder taken) (hfree : taken k = false) (hi : holder i = none) :
    Reserved (update holder i (some k)) (update taken k true) := by
  have hnone : ∀ j, holder j ≠ some k := by
    intro j hj
    have := (h.taken_iff k).mpr ⟨j, hj⟩
    rw [hfree] at this
    cases this
  refine ⟨fun x => ?_, fun j j' x hj _ => ?_⟩
  · by_cases hx : x = k
    · subst hx
      simp only [update_self, true_iff]
      exact ⟨i, update_self ..⟩
    rw [update_of_ne hx, h.taken_iff x]
    constructor
    · rintro ⟨j, hj⟩
      refine ⟨j, ?_⟩
      rw [update_of_ne _, hj]
      rintro rfl
      rw [hi] at hj
      cases hj
    · rintro ⟨j, hj⟩
      rw [update_apply] at hj
      split at hj
      · exact absurd (some.inj hj).symm hx
      · exact ⟨j, hj⟩
  · have := h.unique j j' x
    grind

theorem Reserved.release (h : Reserved holder taken) (hi : holder i = some k) :
    Reserved (update holder i none) (update taken k false) := by
  refine ⟨fun x => ?_, fun j j' x hj _ => ?_⟩
  · by_cases hx : x = k
    · subst hx
      simp only [update_self, Bool.false_eq_true, false_iff]
      rintro ⟨j, hj⟩
      rw [update_apply] at hj
      split at hj
      · cases hj
      · next hne => exact hne (h.unique j i x hj hi)
    rw [update_of_ne hx, h.taken_iff x]
    constructor
    · rintro ⟨j, hj⟩
      refine ⟨j, ?_⟩
      rw [update_of_ne _, hj]
      rintro rfl
      exact hx (some.inj (hj.symm.trans hi))
    · rintro ⟨j, hj⟩
      rw [update_apply] at hj
      split at hj
      · cases hj
      · exact ⟨j, hj⟩
  · have := h.unique j j' x
    grind

omit [DecidableEq K] in
theorem Pointed.unique (h : Pointed holder index) {j : Nat} (hi : holder i = some k) (hj : holder j = some k) : i = j := by
  have := h i k hi
  have := h j k hj
  omega

theorem Pointed.write (h : Pointed holder index) (hfree : ∀ j, j ≠ i → holder j ≠ some k) :
    Pointed (update holder i (some k)) (update index k (i + 1)) := by
  intro j x hj
  have := h j x
  grind

section
variable (h : Pointed holder index)
include h
omit [DecidableEq K] in
theorem Pointed.drop : Pointed (update holder i none) index := by
  intro j x hj
  rw [update_apply] at hj
  split at hj
  · cases hj
  · exact h j x hj

/-- The entry of a key that no record holds may be anything. -/
theorem Pointed.redirect (hfree : ∀ j, holder j ≠ some k) {n : Nat} : Pointed holder (update index k n) := by
  intro j x hj
  rw [update_of_ne _]
  · exact h j x hj
  · rintro rfl
    exact hfree j hj

theorem Pointed.erase (hi : holder i = some k) : Pointed (update holder i none) (update index k 0) := by
  intro j x hj
  have hne : j ≠ i := by
    rintro rfl
    rw [update_self] at hj
    cases hj
  rw [update_of_ne hne] at hj
  rw [update_of_ne _]
  · exact h j x hj
  · rintro rfl
    exact hne (h.unique hj hi)

/-- A record hands its key over to one that holds none, and takes a new key. -/
theorem Pointed.handOver {n : Nat} {k' : K} (hi : holder i = some k) (hne : i ≠ n)
    (hkey : k ≠ k') (hfree : ∀ j, holder j ≠ some k') :
    Pointed (update (update holder n (some k)) i (some k')) (update (update index k (n + 1)) k' (i + 1)) := by
  have hhanded := (h.drop (i := i)).write (i := n) (k := k) fun j _ hj => by
    by_cases hji : j = i
    · rw [hji, update_self] at hj
      cases hj
    · rw [update_of_ne hji] at hj
      exact hji (h.unique hj hi)
  have hwritten := hhanded.write (i := i) (k := k') fun j hj hj' => by
    by_cases hjn : j = n
    · rw [hjn, update_self] at hj'
      exact hkey (some.inj hj')
    · rw [update_of_ne hjn, update_of_ne hj] at hj'
      exact hfree j hj'
  rw [update_comm hne, update_idem] at hwritten
  exact hwritten
end

end Keys
end LeafageEvm
