import LeafageEvm.HashMap
import Mathlib.Data.List.Sort

/-! A batch of writes that is sorted by key before it is applied. The sort keeps the order of writes
to one key, so the last of them, which is the one that goes out, is the last one made. -/

namespace LeafageEvm
open List
variable {K V : Type}

section
variable [DecidableEq K] (found : Option V)

/-- What a key holds after the writes: the last one to it, or `found` if there is none. -/
def lastWrite (found : Option V) (writes : List (K × V)) (k : K) : Option V :=
  writes.foldl (fun found write => if write.1 = k then some write.2 else found) found

def lastPerKey : List (K × V) → List (K × V)
  | [] => []
  | [write] => [write]
  | write :: write' :: writes =>
    if write.1 = write'.1 then lastPerKey (write' :: writes)
    else write :: lastPerKey (write' :: writes)

section
variable (writes : List (K × V)) (k : K)

theorem lastWrite_cons (write : K × V) : lastWrite found (write :: writes) k =
      lastWrite (if write.1 = k then some write.2 else found) writes k := rfl

theorem lastWrite_lastPerKey : lastWrite found (lastPerKey writes) k = lastWrite found writes k := by
  induction writes using lastPerKey.induct generalizing found with
  | case1 => rfl
  | case2 => rfl
  | case3 _ _ _ heq ih =>
    rw [lastPerKey, if_pos heq, ih, lastWrite_cons, lastWrite_cons, lastWrite_cons, heq]
    split <;> rfl
  | case4 _ _ _ hne ih => rw [lastPerKey, if_neg hne, lastWrite_cons, ih, ← lastWrite_cons]

/-- Only the writes to the key matter. -/
theorem lastWrite_filter : lastWrite found (writes.filter fun write => write.1 = k) k = lastWrite found writes k := by
  induction writes generalizing found with
  | nil => rfl
  | cons write _ ih =>
    by_cases hk : write.1 = k
    · rw [filter_cons_of_pos (by simpa using hk), lastWrite_cons, ih, ← lastWrite_cons]
    · rw [filter_cons_of_neg (by simpa using hk), ih, lastWrite_cons, if_neg hk]

theorem lastWrite_mapValue {W : Type} (f : V → W) (found : Option V) :
    lastWrite (found.map f) (writes.map fun write => (write.1, f write.2)) k =
      (lastWrite found writes k).map f := by
  induction writes generalizing found with
  | nil => rfl
  | cons _ _ ih =>
    rw [map_cons, lastWrite_cons, lastWrite_cons, ← ih]
    split <;> rfl
end

/-- Writes to other keys leave it alone. -/
theorem lastWrite_of_forall_ne {writes : List (K × V)} {k : K}
    (h : ∀ write ∈ writes, write.1 ≠ k) : lastWrite found writes k = found := by
  have hnil : writes.filter (fun write => write.1 = k) = [] := by
    simpa [filter_eq_nil_iff] using h
  rw [← lastWrite_filter, hnil]
  rfl

theorem lastWrite_map {I W : Type} [DecidableEq I] {key : I → K} (hkey : Function.Injective key)
    (value : W → V) (m : HashMap I W) (writes : List (I × W)) (i : I) :
    lastWrite ((m i).map value) (writes.map fun write => (key write.1, value write.2)) (key i) =
      ((writes.foldl (fun m write => m.insert write.1 write.2) m) i).map value := by
  induction writes generalizing m with
  | nil => rfl
  | cons write _ ih =>
    rw [map_cons, lastWrite_cons, foldl_cons, ← ih]
    congr 1
    by_cases hi : i = write.1
    · subst hi
      simp
    · rw [if_neg fun heq => hi (hkey heq).symm, HashMap.insert_of_ne m write.2 hi]
end

section
variable [LinearOrder K] {write : K × V} {writes : List (K × V)}

/-- The writes a commit makes. -/
def batched (writes : List (K × V)) : List (K × V) :=
  lastPerKey (writes.insertionSort fun a b => a.1 ≤ b.1)

theorem filter_orderedInsert (hsorted : writes.Pairwise fun a b => a.1 ≤ b.1) (k : K) :
    (writes.orderedInsert (fun a b => a.1 ≤ b.1) write).filter (fun w => w.1 = k) =
      (write :: writes).filter fun w => w.1 = k := by
  induction writes with
  | nil => rfl
  | cons first _ ih =>
    rw [orderedInsert]
    split
    · rfl
    · next hgt =>
      have hlt : first.1 < write.1 := not_le.mp hgt
      rw [filter_cons, ih (pairwise_cons.mp hsorted).2]
      by_cases hk : first.1 = k
      · subst hk
        simp [hlt.ne']
      · simp [filter_cons, hk]

theorem filter_insertionSort (writes : List (K × V)) (k : K) :
    (writes.insertionSort fun a b => a.1 ≤ b.1).filter (fun w => w.1 = k) = writes.filter fun w => w.1 = k := by
  induction writes with
  | nil => rfl
  | cons _ _ ih =>
    rw [insertionSort_cons, filter_orderedInsert (pairwise_insertionSort ..), filter_cons, filter_cons, ih]

/-- **A commit leaves under every key the last write to it.** -/
theorem lastWrite_batched [inst : DecidableEq K] (found : Option V) (writes : List (K × V)) (k : K) :
    lastWrite found (batched writes) k = lastWrite found writes k := by
  -- the key type may decide equality in its own way, besides that of its order
  obtain rfl : inst = LinearOrder.toDecidableEq := Subsingleton.elim ..
  rw [batched, lastWrite_lastPerKey, ← lastWrite_filter, filter_insertionSort, lastWrite_filter]

theorem mem_of_mem_lastPerKey (h : write ∈ lastPerKey writes) : write ∈ writes := by
  induction writes using lastPerKey.induct with
  | case1 => exact h
  | case2 => exact h
  | case3 _ _ _ heq ih =>
    rw [lastPerKey, if_pos heq] at h
    exact .tail _ (ih h)
  | case4 _ _ _ hne ih =>
    rw [lastPerKey, if_neg hne] at h
    rcases mem_cons.mp h with rfl | hrest
    · exact .head _
    · exact .tail _ (ih hrest)

theorem mem_of_mem_batched (h : write ∈ batched writes) : write ∈ writes :=
  (mem_insertionSort _).mp (mem_of_mem_lastPerKey h)
end

end LeafageEvm
