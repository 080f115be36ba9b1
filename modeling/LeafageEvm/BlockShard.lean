import LeafageEvm.ArchiveEncoding
import LeafageEvm.Buckets
import Mathlib.Data.Finset.Card
import Mathlib.Data.Nat.Size
import Mathlib.Data.Prod.Lex

/-! One shard of the index that finds a block's number by its hash. A block is reduced to a code, some
bits of its hash that pick a bucket and eight more as a fingerprint, and its number. The entries are
stored by bucket in three arrays; offsets are 32 bits wide, so a shard is right as long as it holds
fewer entries than that. -/

namespace LeafageEvm
open Buckets Nat List

abbrev U32 := Fin (2 ^ 32)

/-- The first 8 bytes of a hash. -/
def hashPrefix (hash : H256) : U64 := ⟨hash.val / 2 ^ 192, by
  have := hash.isLt
  omega⟩

/-- The shard is the first byte. -/
def shardOf (p : U64) : Fin 256 := ⟨p.val / 2 ^ 56, by
  have := p.isLt
  omega⟩

/-- `bucket << 8 | fingerprint`, with `k` bucket bits. -/
def code (p : U64) (k : Nat) : Nat := p.val / 2 ^ 24 % 2 ^ 32 / 2 ^ (24 - k)

def minBucketBits : Nat := 16

def bucketBits (blocks : Nat) : Nat := max minBucketBits (min 24 (Nat.size (blocks - 1) - 11))

/-- A code and a block number. -/
abbrev ShardEntry := Nat ×ₗ U32

structure Shard where
  k : Nat
  offsets : List Nat
  fingerprints : List Nat
  numbers : List U32
  deriving DecidableEq

namespace Shard

def entryBucket (entry : ShardEntry) : Nat := (ofLex entry).1 / 256

/-- `from_sorted`. Offsets are cast to `u32`. -/
def fromSorted (k : Nat) (entries : List ShardEntry) : Shard where
  k := k
  offsets := Buckets.offsets entryBucket (· % 2 ^ 32) (2 ^ k) entries
  fingerprints := entries.map fun entry => (ofLex entry).1 % 256
  numbers := entries.map fun entry => (ofLex entry).2

/-- What the arrays hold from one index to another. -/
def between (shard : Shard) (start stop : Nat) : List (Nat × U32) :=
  ((shard.fingerprints.zip shard.numbers).drop start).take (stop - start)

def entries (shard : Shard) : List ShardEntry :=
  (List.range (shard.offsets.length - 1)).flatMap fun b =>
    (shard.between (shard.offsets.getD b 0) (shard.offsets.getD (b + 1) 0)).map fun pair =>
      toLex (b * 256 + pair.1, pair.2)

/-- The loop of `merged`: before each old entry the new ones up to it, without one that equals it. -/
def mergeNew : List ShardEntry → List ShardEntry → List ShardEntry
  | [], new => new
  | entry :: old, new =>
    (new.takeWhile (· ≤ entry)).filter (· < entry) ++ entry :: mergeNew old (new.dropWhile (· ≤ entry))

def merged (shard : Shard) (new : List ShardEntry) : Shard := fromSorted shard.k (mergeNew shard.entries new)

/-- The numbers under a hash. A slice that ends before it starts is a panic. -/
def candidates (shard : Shard) (p : U64) : Option (List U32) :=
  let code := code p shard.k
  let start := shard.offsets.getD (code / 256) 0
  let stop := shard.offsets.getD (code / 256 + 1) 0
  if start ≤ stop then
    some (((shard.between start stop).filter fun pair => pair.1 = code % 256).map (·.2))
  else none

/-- The shard stores these entries. -/
structure Holds (shard : Shard) (entries : List ShardEntry) : Prop where
  eq : shard = fromSorted shard.k entries
  sorted : entries.Pairwise (· < ·)
  bucket_lt : ∀ entry ∈ entries, entryBucket entry < 2 ^ shard.k
  length_lt : entries.length < 2 ^ 32

/-! ### The arrays -/

theorem code_lt (p : U64) {k : Nat} (hk : k ≤ 24) : code p k / 256 < 2 ^ k := by
  have hsplit : 2 ^ 32 = 2 ^ k * 256 * 2 ^ (24 - k) := by
    rw [show 256 = 2 ^ 8 from rfl, ← pow_add, ← pow_add]
    congr 1
    omega
  have hlt : p.val / 2 ^ 24 % 2 ^ 32 < 2 ^ k * 256 * 2 ^ (24 - k) := by
    rw [← hsplit]
    exact mod_lt _ (by decide)
  have hcode : code p k < 2 ^ k * 256 := Nat.div_lt_of_lt_mul (by rwa [mul_comm])
  exact Nat.div_lt_of_lt_mul (by rwa [mul_comm])

theorem Ordered.of_sorted {entries : List ShardEntry} (hsorted : entries.Pairwise (· < ·)) :
    Buckets.Ordered entryBucket entries := by
  refine hsorted.imp fun {a b} hlt => ?_
  have hcode : (ofLex a).1 ≤ (ofLex b).1 := by
    rcases (Prod.Lex.lt_iff).mp hlt with h | ⟨h, -⟩ <;> exact h.le
  exact Nat.div_le_div_right hcode

variable {shard : Shard} {entries : List ShardEntry}

section
variable (h : shard.Holds entries)
include h
theorem Holds.offsets_eq :
    shard.offsets = (range (2 ^ shard.k + 1)).map fun b => below entryBucket entries b % 2 ^ 32 := by
  have hoffsets : shard.offsets = Buckets.offsets entryBucket (· % 2 ^ 32) (2 ^ shard.k) entries :=
    congrArg Shard.offsets h.eq
  rw [hoffsets, Buckets.offsets_eq rfl (Ordered.of_sorted h.sorted)]

theorem Holds.offset {b : Nat} (hb : b ≤ 2 ^ shard.k) :
    shard.offsets.getD b 0 = below entryBucket entries b := by
  rw [h.offsets_eq, getD_eq_getElem?_getD, getElem?_map, getElem?_range (lt_succ_of_le hb)]
  exact mod_eq_of_lt (countP_le_length.trans_lt h.length_lt)

theorem Holds.between (start stop : Nat) : shard.between start stop =
      ((entries.drop start).take (stop - start)).map fun entry => ((ofLex entry).1 % 256, (ofLex entry).2) := by
  have hfingerprints : shard.fingerprints = entries.map fun entry => (ofLex entry).1 % 256 :=
    congrArg Shard.fingerprints h.eq
  have hnumbers : shard.numbers = entries.map fun entry => (ofLex entry).2 := congrArg Shard.numbers h.eq
  rw [Shard.between, hfingerprints, hnumbers, zip_map', ← map_drop, ← map_take]

theorem Holds.bucket {b : Nat} (hb : b < 2 ^ shard.k) :
    shard.between (shard.offsets.getD b 0) (shard.offsets.getD (b + 1) 0) =
      (slice entryBucket entries b).map fun entry => ((ofLex entry).1 % 256, (ofLex entry).2) := by
  rw [h.offset hb.le, h.offset hb, h.between]
  rfl

/-- **Reading the entries back.** -/
theorem Holds.entries_eq : shard.entries = entries := by
  have hlength : shard.offsets.length - 1 = 2 ^ shard.k := by
    rw [h.offsets_eq, length_map, length_range]
    rfl
  have hbucket : ∀ b ∈ range (2 ^ shard.k),
      ((shard.between (shard.offsets.getD b 0) (shard.offsets.getD (b + 1) 0)).map fun pair =>
        (toLex (b * 256 + pair.1, pair.2) : ShardEntry)) = slice entryBucket entries b := by
    intro b hb
    rw [h.bucket (mem_range.mp hb), map_map, slice_eq_filter (Ordered.of_sorted h.sorted)]
    refine (map_congr_left ?_).trans (map_id _)
    intro entry hentry
    have hb' : (ofLex entry).1 / 256 = b := of_decide_eq_true (mem_filter.mp hentry).2
    have hcode : b * 256 + (ofLex entry).1 % 256 = (ofLex entry).1 := by omega
    show toLex (b * 256 + (ofLex entry).1 % 256, (ofLex entry).2) = entry
    rw [hcode]
    rfl
  rw [Shard.entries, hlength, flatMap_congr hbucket, flatMap_slice h.bucket_lt]

/-- **The candidates** are the numbers with the code of the hash. -/
theorem Holds.candidates (hk : shard.k ≤ 24) (p : U64) : shard.candidates p =
      some ((entries.filter fun entry => (ofLex entry).1 = code p shard.k).map fun entry => (ofLex entry).2) := by
  have hb := code_lt p hk
  have hle : shard.offsets.getD (code p shard.k / 256) 0 ≤ shard.offsets.getD (code p shard.k / 256 + 1) 0 := by
    rw [h.offset hb.le, h.offset hb]
    exact below_mono entries (le_succ _)
  simp only [Shard.candidates]
  rw [if_pos hle, h.bucket hb, filter_map, map_map, slice_eq_filter (Ordered.of_sorted h.sorted), filter_filter]
  congr 2
  apply filter_congr
  intro entry _
  simp only [Function.comp_apply, ← Bool.decide_and, decide_eq_decide]
  show _ ∧ (ofLex entry).1 / 256 = _ ↔ _
  omega
end

/-! ### Merging -/

theorem mem_mergeNew {old new : List ShardEntry} {entry : ShardEntry} :
    entry ∈ mergeNew old new ↔ entry ∈ old ∨ entry ∈ new := by
  induction old generalizing new with
  | nil => simp [mergeNew]
  | cons first _ ih =>
    have hsplit : entry ∈ new ↔ entry ∈ new.takeWhile (· ≤ first) ∨ entry ∈ new.dropWhile (· ≤ first) := by
      rw [← mem_append, takeWhile_append_dropWhile]
    have hle : entry ∈ new.takeWhile (· ≤ first) → entry ≤ first := by
      intro hmem
      exact of_decide_eq_true (all_eq_true.mp all_takeWhile entry hmem)
    rw [mergeNew, mem_append, mem_cons, mem_cons, ih, mem_filter, hsplit]
    constructor
    · rintro (⟨htake, -⟩ | hfirst | hold | hdrop)
      · exact .inr (.inl htake)
      · exact .inl (.inl hfirst)
      · exact .inl (.inr hold)
      · exact .inr (.inr hdrop)
    · rintro ((hfirst | hold) | htake | hdrop)
      · exact .inr (.inl hfirst)
      · exact .inr (.inr (.inl hold))
      · rcases (hle htake).lt_or_eq with hlt | heq
        · exact .inl ⟨htake, decide_eq_true hlt⟩
        · exact .inr (.inl heq)
      · exact .inr (.inr (.inr hdrop))

theorem sorted_mergeNew {old new : List ShardEntry} (hold : old.Pairwise (· < ·)) (hnew : new.Pairwise (· < ·)) :
    (mergeNew old new).Pairwise (· < ·) := by
  induction old generalizing new with
  | nil => exact hnew
  | cons first _ ih =>
    obtain ⟨hfirst, hold⟩ := pairwise_cons.mp hold
    have hdrop : ∀ entry ∈ new.dropWhile (· ≤ first), first < entry := by
      intro _ hentry
      rw [dropWhile_eq_filter (hnew.imp fun hlt hle => by simpa using hlt.le.trans (of_decide_eq_true hle))] at hentry
      simpa using (mem_filter.mp hentry).2
    rw [mergeNew, pairwise_append]
    refine ⟨(hnew.sublist (takeWhile_sublist _)).filter _, ?_, ?_⟩
    · refine pairwise_cons.mpr ⟨?_, ih hold (hnew.sublist (dropWhile_sublist _))⟩
      intro entry hentry
      rcases mem_mergeNew.mp hentry with hmem | hmem
      · exact hfirst entry hmem
      · exact hdrop entry hmem
    · intro entry hentry entry' hentry'
      have hlt : entry < first := of_decide_eq_true (mem_filter.mp hentry).2
      rcases mem_cons.mp hentry' with rfl | hmem
      · exact hlt
      · rcases mem_mergeNew.mp hmem with hmem | hmem
        · exact hlt.trans (hfirst entry' hmem)
        · exact hlt.trans (hdrop entry' hmem)

end Shard
end LeafageEvm
