import LeafageEvm.ArchiveEncoding
import LeafageEvm.Buckets
import LeafageEvm.Outcome

/-! The shards of a scan over a table with hashed keys, by the first byte of the key. Whatever the number
of jobs, the shards one after the other are the table. -/

namespace LeafageEvm
open Nat List
variable {byte first : Byte} {rest : Bytes} {rows : List (Bytes × Bytes)}

/-- `shard_bounds`: the first bytes `[lo, hi)` of each shard, the last one being open. -/
def shardBounds (jobs : Nat) : List (Byte × Option Byte) :=
  let jobs := max 1 (min jobs 256)
  (List.range jobs).map fun i =>
    let lo := Fin.ofNat 256 (i * 256 / jobs)
    let hiIdx := (i + 1) * 256 / jobs
    (lo, if 256 ≤ hiIdx then none else some (Fin.ofNat 256 hiIdx))

/-- The rows between the bounds of an iterator: `set_iterate_lower_bound`, `set_iterate_upper_bound`. -/
def shardRows (rows : List (Bytes × Bytes)) (bound : Byte × Option Byte) : List (Bytes × Bytes) :=
  rows.filter fun row => [bound.1] ≤ row.1 ∧ (bound.2.all fun hi => row.1 < [hi])

def firstByte (row : Bytes × Bytes) : Nat := (row.1.headD 0).val

theorem cons_lt_singleton : first :: rest < [byte] ↔ first < byte := by
  rw [cons_lt_cons_iff]
  simp

theorem singleton_le_cons : [byte] ≤ first :: rest ↔ byte ≤ first := by
  rw [← not_lt, cons_lt_singleton, not_lt]

def shardCut (jobs i : Nat) : Nat := i * 256 / jobs

theorem shardCut_mono (jobs : Nat) : Monotone (shardCut jobs) :=
  fun _ _ hle => Nat.div_le_div_right (Nat.mul_le_mul_right 256 hle)

theorem shardRows_eq (hkeys : ∀ row ∈ rows, row.1 ≠ []) {jobs i : Nat} (hi : i < jobs) (hjobs : jobs ≤ 256) :
    shardRows rows (Fin.ofNat 256 (i * 256 / jobs),
        if 256 ≤ (i + 1) * 256 / jobs then none else some (Fin.ofNat 256 ((i + 1) * 256 / jobs))) =
      rows.filter fun row => shardCut jobs i ≤ firstByte row ∧ firstByte row < shardCut jobs (i + 1) := by
  apply filter_congr
  intro row hrow
  obtain ⟨first, _, hkey⟩ := exists_cons_of_ne_nil (hkeys row hrow)
  have hlo : i * 256 / jobs < 256 := by
    rw [div_lt_iff_lt_mul (by omega)]
    exact (mul_lt_mul_of_pos_right hi (by decide)).trans_le (mul_comm ..).le
  have hbyte : firstByte row = first.val := by rw [firstByte, hkey, headD_cons]
  rw [decide_eq_decide, hkey, singleton_le_cons, Fin.le_def, Fin.val_ofNat, mod_eq_of_lt hlo, hbyte]
  refine and_congr Iff.rfl ?_
  rw [shardCut]
  split
  · next _ =>
    simp only [Option.all_none, true_iff]
    omega
  · next hclosed =>
    rw [Option.all_some, decide_eq_true_eq, cons_lt_singleton, Fin.lt_def, Fin.val_ofNat,
      mod_eq_of_lt (not_le.mp hclosed)]

/-- **The shards are the table.** -/
theorem flatMap_shardRows {rows : OrderedMap Bytes Bytes} (hkeys : ∀ row ∈ rows.entries, row.1 ≠ []) (jobs : Nat) :
    (shardBounds jobs).flatMap (shardRows rows.entries) = rows.entries := by
  set workers := max 1 (min jobs 256)
  have hpos : 0 < workers := one_pos.trans_le (le_max_left ..)
  have hle : workers ≤ 256 := max_le (by decide) (min_le_right ..)
  have hsorted : rows.entries.Pairwise fun a b => firstByte a ≤ firstByte b := by
    refine rows.sorted.imp_of_mem fun {a b} ha hb hlt => ?_
    obtain ⟨_, _, hkey⟩ := exists_cons_of_ne_nil (hkeys a ha)
    obtain ⟨_, _, hkey'⟩ := exists_cons_of_ne_nil (hkeys b hb)
    rw [hkey, hkey', cons_lt_cons_iff] at hlt
    rw [firstByte, firstByte, hkey, hkey']
    rcases hlt with hfirst | ⟨rfl, -⟩
    · exact (Fin.lt_def.mp hfirst).le
    · exact le_refl _
  have hbetween := flatMap_between hsorted (shardCut_mono (workers)) (workers)
  have hall : (rows.entries.filter fun row => shardCut (workers) 0 ≤ firstByte row ∧
      firstByte row < shardCut (workers) (workers)) = rows.entries := by
    rw [filter_eq_self]
    intro row _
    rw [shardCut, shardCut, Nat.zero_div, Nat.mul_div_cancel_left _ hpos]
    exact decide_eq_true ⟨zero_le _, (row.1.headD 0).isLt⟩
  rw [hall] at hbetween
  refine Eq.trans ?_ hbetween
  rw [shardBounds, flatMap_map]
  apply flatMap_congr
  intro i hi
  exact shardRows_eq hkeys (mem_range.mp hi) hle

theorem pairwise_shardRows (hkeys : ∀ row ∈ rows, row.1 ≠ []) (jobs : Nat) :
    (shardBounds jobs).Pairwise fun bound bound' =>
      ∀ row ∈ shardRows rows bound, ∀ row' ∈ shardRows rows bound', firstByte row < firstByte row' := by
  have hle : max 1 (min jobs 256) ≤ 256 := max_le (by decide) (min_le_right ..)
  rw [shardBounds, pairwise_map]
  refine pairwise_lt_range.imp_of_mem fun {i j} hi hj hlt row hrow row' hrow' => ?_
  rw [shardRows_eq hkeys (mem_range.mp hi) hle, mem_filter, decide_eq_true_eq] at hrow
  rw [shardRows_eq hkeys (mem_range.mp hj) hle, mem_filter, decide_eq_true_eq] at hrow'
  exact hrow.2.2.trans_le ((shardCut_mono _ hlt).trans hrow'.2.1)

/-- The height in the last eight bytes of a key, as it is stored. -/
def rowBlock (key : Bytes) : U64 := Fin.ofNat (2 ^ 64) (ofBE (key.drop (key.length - 8)))

/-- The height of the rows that older versions wrote beside each version of v1, as pointers to the latest. -/
def sentinelHeight : U64 := Fin.last _

/-- A height as it is stored in a key. -/
def storedBlock (inverted : Bool) (n : U64) : U64 := if inverted then n.rev else n

section Rows
variable {len : Nat} {inverted : Bool} (owner : Owner len)

theorem length_versionKey (n : U64) : (versionKey inverted owner n).length = len + 32 := by
  rw [versionKey, length_append, owner.2, length_encodeVersionTail]

theorem versionKey_eq (n : U64) :
    versionKey inverted owner n = (owner.1 ++ replicate 24 0) ++ toBE 8 (storedBlock inverted n) := by
  rw [append_assoc]
  cases inverted <;> rfl

theorem take_versionKey_tail (n : U64) :
    (versionKey inverted owner n).take ((versionKey inverted owner n).length - 8) = owner.1 ++ replicate 24 0 := by
  rw [length_versionKey, versionKey_eq]
  apply take_left'
  rw [length_append, length_replicate]
  omega

theorem rowBlock_versionKey (n : U64) : rowBlock (versionKey inverted owner n) = storedBlock inverted n := by
  have hdrop : (versionKey inverted owner n).drop (len + 24) = toBE 8 (storedBlock inverted n) := by
    rw [versionKey_eq]
    apply drop_left'
    rw [length_append, owner.2, length_replicate]
  rw [rowBlock, length_versionKey, show len + 32 - 8 = len + 24 by omega, hdrop, ofBE_toBE 8 (Fin.isLt _),
    Fin.ofNat_val_eq_self]

def VersionRows (inverted : Bool) (len : Nat) (rows : List (Bytes × Bytes)) : Prop :=
  ∀ row ∈ rows, ∃ (owner : Owner len) (n : U64), row.1 = versionKey inverted owner n

theorem VersionRows.of_wellFormed {rows : OrderedMap Bytes Bytes}
    (hwf : HoldsVersions (versionKey inverted : Owner len → U64 → Bytes) rows) : VersionRows inverted len rows.entries :=
  fun row hrow => hwf row.1 row.2 (OrderedMap.get_eq_some.mpr hrow)

theorem VersionRows.ne_nil {rows : List (Bytes × Bytes)} (h : VersionRows inverted len rows) :
    ∀ row ∈ rows, row.1 ≠ [] := by
  intro row hrow hnil
  obtain ⟨_, n, hkey⟩ := h row hrow
  have hlength := congrArg length hkey
  rw [length_versionKey, hnil, length_nil] at hlength
  omega

end Rows
end LeafageEvm
