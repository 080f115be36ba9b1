import Mathlib.Logic.Function.Basic

/-! Finite maps as partial functions: what a hash map answers to a lookup, with the insertions and
retentions a program performs on it. The order of iteration is not observable. -/

namespace LeafageEvm
open List

/-- A hash map, seen through its lookups. -/
abbrev HashMap (K V : Type) := K → Option V

namespace HashMap

variable {K V : Type} [DecidableEq K] {k : K} {m : HashMap K V} {v : V} {A : Type} {value : A → V} {items : List A}
variable (key : A → K)

def empty : HashMap K V := fun _ => none

/-- `insert` replaces the value of a key that is already there. -/
def insert (m : HashMap K V) (k : K) (v : V) : HashMap K V := Function.update m k (some v)

/-- Keep the entries that satisfy `p`. -/
def retain (m : HashMap K V) (p : K → V → Bool) : HashMap K V := fun k => (m k).filter (p k)

@[simp] theorem insert_self (m : HashMap K V) (k : K) (v : V) : m.insert k v k = some v := by
  simp [insert]

theorem insert_of_ne (m : HashMap K V) {k' : K} (v : V) (h : k' ≠ k) : m.insert k v k' = m k' := by
  simp [insert, Function.update_of_ne h]

theorem insert_eq_some {k' : K} {w : V} : m.insert k v k' = some w ↔ (k' = k ∧ v = w) ∨ (k' ≠ k ∧ m k' = some w) := by
  by_cases h : k' = k
  · subst h
    simp
  · simp [insert_of_ne m v h, h]

/-- What a sequence of insertions leaves under a key was there before or is one of them. -/
theorem foldl_insert_eq_some {key : A → K} (h : items.foldl (fun m item => m.insert (key item) (value item)) m k = some v) :
    (∃ item ∈ items, key item = k ∧ value item = v) ∨ m k = some v := by
  induction items generalizing m with
  | nil => exact .inr h
  | cons item _ ih =>
    rcases ih h with ⟨other, hmem, hother⟩ | hinsert
    · exact .inl ⟨other, .tail _ hmem, hother⟩
    · rcases insert_eq_some.mp hinsert with ⟨rfl, rfl⟩ | ⟨-, hold⟩
      · exact .inl ⟨item, .head _, rfl, rfl⟩
      · exact .inr hold

theorem foldl_insert_ne_none (value : A → V) (h : k ∈ items.map key ∨ m k ≠ none) :
    items.foldl (fun m item => m.insert (key item) (value item)) m k ≠ none := by
  induction items generalizing m with
  | nil => exact h.resolve_left not_mem_nil
  | cons item items ih =>
    apply ih
    show k ∈ items.map key ∨ m.insert (key item) (value item) k ≠ none
    by_cases hk : k = key item
    · exact .inr (by rw [hk, insert_self]; exact Option.some_ne_none _)
    · refine h.imp (fun hmem => (mem_cons.mp hmem).resolve_left hk) fun _ => ?_
      rwa [insert_of_ne m _ hk]

theorem foldl_insert_or (value : A → V) (items : List A) (m : HashMap K V) (k : K) :
    items.foldl (fun m item => m.insert (key item) (value item)) m k =
      (items.foldl (fun m item => m.insert (key item) (value item)) empty k).or (m k) := by
  induction items generalizing m with
  | nil => rfl
  | cons item _ ih =>
    rw [foldl_cons, foldl_cons, ih, ih (empty.insert _ _)]
    by_cases hk : k = key item
    · subst hk
      simp
    · rw [insert_of_ne m _ hk, insert_of_ne empty _ hk]
      simp [empty]

theorem foldl_insert_const (hvalue : ∀ item ∈ items, value item = v) (k : K) :
    items.foldl (fun m item => m.insert (key item) (value item)) empty k =
      if k ∈ items.map key then some v else none := by
  induction items with
  | nil => rfl
  | cons item _ ih =>
    obtain ⟨hfirst, hrest⟩ := forall_mem_cons.mp hvalue
    rw [foldl_cons, foldl_insert_or, ih hrest, hfirst]
    by_cases hk : k = key item
    · subst hk
      split <;> simp
    · rw [insert_of_ne empty _ hk]
      simp [hk, empty]

/-- The last insertion under a key stays. -/
theorem foldl_insert_eq_find? (value : A → V) (items : List A) (k : K) :
    items.foldl (fun m item => m.insert (key item) (value item)) empty k =
      (items.reverse.find? fun item => key item = k).map value := by
  induction items with
  | nil => rfl
  | cons item items ih =>
    rw [foldl_cons, foldl_insert_or, ih, reverse_cons, find?_append, Option.map_or]
    by_cases hk : key item = k
    · subst hk
      simp
    · simp [insert_of_ne empty _ (Ne.symm hk), hk, empty]

omit [DecidableEq K] in
theorem retain_eq_some {p : K → V → Bool} : m.retain p k = some v ↔ m k = some v ∧ p k v = true := by
  simp [retain]

end HashMap
end LeafageEvm
