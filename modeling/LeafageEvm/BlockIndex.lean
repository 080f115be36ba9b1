import LeafageEvm.BlockShard
import LeafageEvm.Runs
import Mathlib.Data.Fintype.Card
import Mathlib.Data.List.TakeWhile

/-! The index of block numbers by hash, under its locks. New blocks are noted in a set; a merge takes
the set, works it into the shards one by one while lookups go on, and only then lets go of it. A
lookup collects from the sets and then from its shard, holding the lock of the sets in between. -/

namespace LeafageEvm
open Buckets Shard OrderedMap Function List

/-- A `BTreeSet` of hash prefixes and numbers. -/
abbrev BlockSet := OrderedMap (U64 ×ₗ U32) Unit

/-- The numbers in the set under a hash prefix. -/
def BlockSet.numbers (set : BlockSet) (p : U64) : List U32 :=
  (set.entries.filter fun entry => (ofLex entry.1).1 = p).map fun entry => (ofLex entry.1).2

/-- `entry`: a block to index, unless its number does not fit. -/
def indexEntry (hash : H256) (number : U64) : Option (H256 × U32) :=
  if h : number.val < 2 ^ 32 then some (hash, ⟨number, h⟩) else none

structure Recent where
  new : BlockSet
  merging : BlockSet
  last : Option (U32 × H256)

structure BlockIndex where
  shards : Fin 256 → Shard
  recent : Recent
  last : Option (U32 × H256)

/-- A merge under way: the entries not worked in yet, the shard that is next, and the last block. -/
structure Merge where
  remaining : List (U64 ×ₗ U32)
  next : Nat
  last : Option (U32 × H256)

def blockEntry (k : Nat) (block : U64 ×ₗ U32) : ShardEntry := toLex (code (ofLex block).1 k, (ofLex block).2)

/-- `sort_unstable` and `dedup`. -/
def sortDedup {A : Type} [LinearOrder A] (l : List A) : List A := (l.insertionSort (· ≤ ·)).dedup

namespace BlockIndex

/-- Whether blocks are written below the last merged one, or another in its place. -/
def rewrites (index : BlockIndex) (blocks : List (H256 × U32)) : Bool :=
  index.last.any fun last => blocks.any fun block => block.2 < last.1 ∨ block.2 = last.1 ∧ block.1 ≠ last.2

def noteBlock (recent : Recent) (block : H256 × U32) : Recent :=
  { recent with new := recent.new.put (toLex (hashPrefix block.1, block.2)) (), last := some (block.2, block.1) }

/-- `note`, its file dropped if it has to be. -/
def note (index : BlockIndex) (blocks : List (H256 × U32)) : BlockIndex :=
  { index with
    recent := blocks.foldl noteBlock index.recent
    last := if index.rewrites blocks then none else index.last }

def startMerge (index : BlockIndex) : BlockIndex × Merge :=
  ({ index with recent := ⟨.empty, index.recent.new, none⟩ },
    ⟨index.recent.new.entries.map (·.1), 0, index.recent.last⟩)

def mergeTaken (old : Shard) (taken : List (U64 ×ₗ U32)) : Shard :=
  if taken = [] then old else old.merged (sortDedup (taken.map (blockEntry old.k)))

/-- One shard of a merge: the entries at the front that are its own. -/
def mergeShard (index : BlockIndex) (merge : Merge) (s : Fin 256) : BlockIndex × Merge :=
  let taken := merge.remaining.takeWhile fun block => shardOf (ofLex block).1 = s
  let rest := merge.remaining.dropWhile fun block => shardOf (ofLex block).1 = s
  ({ index with shards := Function.update index.shards s (mergeTaken (index.shards s) taken) },
    { merge with remaining := rest, next := s + 1 })

def endMerge (index : BlockIndex) (merge : Merge) : BlockIndex :=
  { index with recent := { index.recent with merging := .empty }, last := merge.last.or index.last }

end BlockIndex

/-- A lookup that holds the sets: its hash prefix and what it found there. -/
structure Lookup where
  p : U64
  numbers : List U32

/-- What a lookup returns, once it reads its shard. -/
def Lookup.answer (lookup : Lookup) (index : BlockIndex) : Option (List U32) :=
  ((index.shards (shardOf lookup.p)).candidates lookup.p).map fun numbers =>
    if lookup.numbers = [] then numbers else sortDedup (lookup.numbers ++ numbers)

def BlockIndex.lookup (index : BlockIndex) (hash : H256) : Lookup :=
  ⟨hashPrefix hash, index.recent.new.numbers (hashPrefix hash) ++ index.recent.merging.numbers (hashPrefix hash)⟩

/-- `candidates`, with nothing in between. -/
def BlockIndex.candidates (index : BlockIndex) (hash : H256) : Option (List U32) :=
  (index.lookup hash).answer index

/-- The index with the merge and the lookups under way. -/
structure IndexSystem where
  index : BlockIndex
  merge : Option Merge
  lookups : List (Nat × Lookup)

inductive IndexEvent where
  | note (blocks : List (H256 × U32))
  | startMerge
  | mergeShard
  | endMerge
  | lookup (id : Nat) (hash : H256)
  | answer (id : Nat)

namespace IndexSystem

/-- A step, where the locks allow it: notes and the ends of a merge write the sets, so no lookup holds
them, and a note waits for a merge. -/
def step (system : IndexSystem) : IndexEvent → Option IndexSystem
  | .note blocks =>
    if system.merge.isNone ∧ system.lookups = [] then some { system with index := system.index.note blocks }
    else none
  | .startMerge =>
    if system.merge.isNone ∧ system.lookups = [] then
      some { system with index := system.index.startMerge.1, merge := some system.index.startMerge.2 }
    else none
  | .mergeShard =>
    system.merge.bind fun merge =>
      if h : merge.next < 256 then
        let merged := system.index.mergeShard merge ⟨merge.next, h⟩
        some { system with index := merged.1, merge := some merged.2 }
      else none
  | .endMerge =>
    system.merge.bind fun merge =>
      if merge.next = 256 ∧ system.lookups = [] then
        some { system with index := system.index.endMerge merge, merge := none }
      else none
  | .lookup id hash => some { system with lookups := (id, system.index.lookup hash) :: system.lookups }
  | .answer id => some { system with lookups := system.lookups.filter fun lookup => lookup.1 ≠ id }

end IndexSystem

/-! ### Shards among the blocks of a chain -/

theorem mem_sortDedup {A : Type} [LinearOrder A] {l : List A} {a : A} : a ∈ sortDedup l ↔ a ∈ l := by
  rw [sortDedup, mem_dedup, mem_insertionSort]

theorem sorted_sortDedup {A : Type} [LinearOrder A] (l : List A) : (sortDedup l).Pairwise (· < ·) := by
  have hle : (sortDedup l).Pairwise (· ≤ ·) := (pairwise_insertionSort _ l).sublist (dedup_sublist _)
  have hne : (sortDedup l).Pairwise (· ≠ ·) := nodup_dedup _
  exact (hle.and hne).imp fun h => lt_of_le_of_ne h.1 h.2

def shardBlocks (blocks : Finset (U64 ×ₗ U32)) (s : Fin 256) : Finset (U64 ×ₗ U32) :=
  blocks.filter fun block => shardOf (ofLex block).1 = s

namespace Shard

variable {blocks : Finset (U64 ×ₗ U32)} {s : Fin 256} {shard : Shard} {entries : List ShardEntry} {k : Nat}

/-- The shard is well-formed and its entries are those of some of the blocks. -/
structure Within (blocks : Finset (U64 ×ₗ U32)) (s : Fin 256) (shard : Shard) : Prop where
  k_le : shard.k ≤ 24
  holds : shard.Holds shard.entries
  mem : ∀ entry ∈ shard.entries, ∃ block ∈ shardBlocks blocks s, entry = blockEntry shard.k block

theorem length_le_card (hsorted : entries.Pairwise (· < ·))
    (hmem : ∀ entry ∈ entries, ∃ block ∈ shardBlocks blocks s, entry = blockEntry k block) :
    entries.length ≤ (shardBlocks blocks s).card := by
  have hnodup : entries.Nodup := hsorted.imp (·.ne)
  calc entries.length = entries.toFinset.card := (toFinset_card_of_nodup hnodup).symm
    _ ≤ ((shardBlocks blocks s).image (blockEntry k)).card := by
        apply Finset.card_le_card
        intro entry hentry
        obtain ⟨_, hblock, rfl⟩ := hmem entry (mem_toFinset.mp hentry)
        exact Finset.mem_image_of_mem _ hblock
    _ ≤ (shardBlocks blocks s).card := Finset.card_image_le

theorem within_fromSorted (hk : k ≤ 24) (hfew : (shardBlocks blocks s).card < 2 ^ 32)
    (hsorted : entries.Pairwise (· < ·))
    (hmem : ∀ entry ∈ entries, ∃ block ∈ shardBlocks blocks s, entry = blockEntry k block) :
    (fromSorted k entries).Within blocks s ∧ (fromSorted k entries).entries = entries := by
  have hholds : (fromSorted k entries).Holds entries := by
    refine ⟨rfl, hsorted, ?_, (length_le_card hsorted hmem).trans_lt hfew⟩
    intro entry hentry
    obtain ⟨block, -, rfl⟩ := hmem entry hentry
    exact code_lt (ofLex block).1 hk
  have heq := hholds.entries_eq
  refine ⟨⟨hk, ?_, ?_⟩, heq⟩
  · rw [heq]
    exact hholds
  · rw [heq]
    exact hmem

section
variable (h : shard.Within blocks s)
include h
/-- **A merge** into a shard adds the entries of the new blocks. -/
theorem Within.merged (hfew : (shardBlocks blocks s).card < 2 ^ 32)
    {new : List (U64 ×ₗ U32)} (hnew : ∀ block ∈ new, block ∈ shardBlocks blocks s) :
    (shard.merged (sortDedup (new.map (blockEntry shard.k)))).Within blocks s ∧
      ∀ entry, entry ∈ (shard.merged (sortDedup (new.map (blockEntry shard.k)))).entries ↔
        entry ∈ shard.entries ∨ entry ∈ new.map (blockEntry shard.k) := by
  have hmem : ∀ entry ∈ mergeNew shard.entries (sortDedup (new.map (blockEntry shard.k))),
      ∃ block ∈ shardBlocks blocks s, entry = blockEntry shard.k block := by
    intro entry hentry
    rcases mem_mergeNew.mp hentry with hold | hadded
    · exact h.mem entry hold
    · obtain ⟨block, hblock, rfl⟩ := mem_map.mp (mem_sortDedup.mp hadded)
      exact ⟨block, hnew block hblock, rfl⟩
  obtain ⟨hwithin, hentries⟩ :=
    within_fromSorted h.k_le hfew (sorted_mergeNew h.holds.sorted (sorted_sortDedup _)) hmem
  refine ⟨hwithin, fun entry => ?_⟩
  rw [Shard.merged, hentries, mem_mergeNew, mem_sortDedup]

theorem Within.mem_candidates {p : U64} {number : U32} (hmem : blockEntry shard.k (toLex (p, number)) ∈ shard.entries) :
    ∃ numbers, shard.candidates p = some numbers ∧ number ∈ numbers := by
  refine ⟨_, h.holds.candidates h.k_le p, ?_⟩
  exact mem_map.mpr ⟨_, mem_filter.mpr ⟨hmem, decide_eq_true rfl⟩, rfl⟩

/-- It never panics. -/
theorem Within.candidates_isSome (p : U64) : ∃ numbers, shard.candidates p = some numbers :=
  ⟨_, h.holds.candidates h.k_le p⟩
end

end Shard

/-! ### What the index has -/

namespace BlockIndex

variable {merge : Merge} {number : U32} {blocks : Finset (U64 ×ₗ U32)} {index : BlockIndex} {block : U64 ×ₗ U32}
variable {s : Fin 256} (recent : Recent)

def InShard (index : BlockIndex) (block : U64 ×ₗ U32) : Prop :=
  blockEntry (index.shards (shardOf (ofLex block).1)).k block ∈ (index.shards (shardOf (ofLex block).1)).entries

def Has (index : BlockIndex) (block : U64 ×ₗ U32) : Prop :=
  index.recent.new.get block = some () ∨ index.recent.merging.get block = some () ∨ index.InShard block

/-- Everything in the index is one of the blocks. -/
structure Within (blocks : Finset (U64 ×ₗ U32)) (index : BlockIndex) : Prop where
  shards : ∀ s, (index.shards s).Within blocks s
  new : ∀ block, index.recent.new.get block = some () → block ∈ blocks
  merging : ∀ block, index.recent.merging.get block = some () → block ∈ blocks

/-- A merge that took the set `merging` and has passed the shards below `next`. -/
structure Merging (index : BlockIndex) (merge : Merge) : Prop where
  sorted : merge.remaining.Pairwise (· < ·)
  mem : ∀ block ∈ merge.remaining, index.recent.merging.get block = some ()
  ahead : ∀ block ∈ merge.remaining, merge.next ≤ shardOf (ofLex block).1
  done : ∀ block, index.recent.merging.get block = some () → block ∈ merge.remaining ∨ index.InShard block

section
variable (noted : List (H256 × U32))

theorem get_noted : (noted.foldl noteBlock recent).new.get block = some () ↔
      recent.new.get block = some () ∨ ∃ other ∈ noted, block = toLex (hashPrefix other.1, other.2) := by
  induction noted generalizing recent with
  | nil => simp
  | cons first _ ih =>
    rw [foldl_cons, ih]
    simp only [noteBlock, get_eq_some, mem_put, exists_mem_cons_iff]
    constructor
    · rintro ((heq | ⟨hold, -⟩) | hrest)
      · exact .inr (.inl (Prod.ext_iff.mp heq).1)
      · exact .inl hold
      · exact .inr (.inr hrest)
    · rintro (hold | heq | hrest)
      · by_cases heq : block = toLex (hashPrefix first.1, first.2)
        · exact .inl (.inl (Prod.ext heq rfl))
        · exact .inl (.inr ⟨hold, heq⟩)
      · exact .inl (.inl (Prod.ext heq rfl))
      · exact .inr hrest

theorem merging_noted : (noted.foldl noteBlock recent).merging = recent.merging := by
  induction noted generalizing recent with
  | nil => rfl
  | cons _ _ ih => exact ih _

/-- **A note** adds its blocks. -/
theorem has_note (index : BlockIndex) : (index.note noted).Has block ↔
      index.Has block ∨ ∃ other ∈ noted, block = toLex (hashPrefix other.1, other.2) := by
  unfold Has
  rw [note, get_noted, merging_noted]
  exact or_right_comm
end

/-- **The start of a merge** moves the new blocks to the other set. -/
theorem has_startMerge (hempty : ∀ block, index.recent.merging.get block ≠ some ()) :
    index.startMerge.1.Has block ↔ index.Has block := by
  constructor
  · rintro (hnew | hmerging | hshard)
    · cases hnew
    · exact .inl hmerging
    · exact .inr (.inr hshard)
  · rintro (hnew | hmerging | hshard)
    · exact .inr (.inl hnew)
    · exact absurd hmerging (hempty block)
    · exact .inr (.inr hshard)

theorem Merging.front (h : index.Merging merge) (hs : merge.next = s) : merge.remaining.Pairwise fun a b =>
      decide (shardOf (ofLex b).1 = s) = true → decide (shardOf (ofLex a).1 = s) = true := by
  refine h.sorted.imp_of_mem fun {a b} ha _ hlt hb => decide_eq_true ?_
  have hle : (ofLex a).1 ≤ (ofLex b).1 := by
    rcases Prod.Lex.lt_iff.mp hlt with hlt | ⟨heq, -⟩
    · exact hlt.le
    · exact heq.le
  have hshard : shardOf (ofLex a).1 ≤ shardOf (ofLex b).1 := Nat.div_le_div_right hle
  rw [of_decide_eq_true hb] at hshard
  have hahead := h.ahead a ha
  rw [hs] at hahead
  exact le_antisymm hshard hahead

theorem mergeTaken_k (old : Shard) (taken : List (U64 ×ₗ U32)) : (mergeTaken old taken).k = old.k := by
  unfold mergeTaken
  split <;> rfl

theorem within_mergeTaken {old : Shard} (h : old.Within blocks s)
    (hfew : (shardBlocks blocks s).card < 2 ^ 32) {taken : List (U64 ×ₗ U32)}
    (htaken : ∀ block ∈ taken, block ∈ shardBlocks blocks s) :
    (mergeTaken old taken).Within blocks s ∧ ∀ entry, entry ∈ (mergeTaken old taken).entries ↔
      entry ∈ old.entries ∨ entry ∈ taken.map (blockEntry old.k) := by
  unfold mergeTaken
  split
  · next hnil => exact ⟨h, fun entry => by simp [hnil]⟩
  · exact h.merged hfew htaken

/-- **The end of a merge**, all shards passed. -/
theorem Merging.inShard (h : index.Merging merge) (hend : merge.next = 256)
    (hblock : index.recent.merging.get block = some ()) : index.InShard block := by
  rcases h.done block hblock with hmem | hshard
  · have hahead := h.ahead block hmem
    omega
  · exact hshard

theorem mem_numbers {set : BlockSet} {p : U64} : number ∈ set.numbers p ↔ set.get (toLex (p, number)) = some () := by
  rw [get_eq_some, BlockSet.numbers, mem_map]
  constructor
  · rintro ⟨_, hentry, rfl⟩
    obtain ⟨hmem, hp⟩ := mem_filter.mp hentry
    rw [← of_decide_eq_true hp]
    exact hmem
  · exact fun hmem => ⟨_, mem_filter.mpr ⟨hmem, decide_eq_true rfl⟩, rfl⟩

theorem Has.lookup {hash : H256} (h : index.Has (toLex (hashPrefix hash, number))) :
    number ∈ (index.lookup hash).numbers ∨ index.InShard (toLex (hashPrefix hash, number)) := by
  rcases h with hnew | hmerging | hshard
  · exact .inl (mem_append_left _ (mem_numbers.mpr hnew))
  · exact .inl (mem_append_right _ (mem_numbers.mpr hmerging))
  · exact .inr hshard

section
variable (h : index.Within blocks)
include h
theorem Within.note {noted : List (H256 × U32)}
    (hnoted : ∀ other ∈ noted, toLex (hashPrefix other.1, other.2) ∈ blocks) : (index.note noted).Within blocks := by
  refine ⟨h.shards, fun block hblock => ?_, fun block hblock => ?_⟩
  · rcases (get_noted ..).mp hblock with hold | ⟨other, hother, rfl⟩
    · exact h.new block hold
    · exact hnoted other hother
  · apply h.merging
    rw [← merging_noted index.recent noted]
    exact hblock

theorem Within.startMerge : index.startMerge.1.Within blocks := ⟨h.shards, nofun, h.new⟩

/-- **One shard of a merge.** Its entries come in, and nothing goes. -/
theorem Within.mergeShard (hfew : ∀ s, (shardBlocks blocks s).card < 2 ^ 32)
    (hmerge : index.Merging merge) (hs : merge.next = s) :
    (index.mergeShard merge s).1.Within blocks ∧ (index.mergeShard merge s).1.Merging (index.mergeShard merge s).2 ∧
      (∀ block, index.InShard block → (index.mergeShard merge s).1.InShard block) := by
  have hfront := hmerge.front hs
  have htaken : ∀ block, block ∈ (merge.remaining.takeWhile fun block => shardOf (ofLex block).1 = s) ↔
      block ∈ merge.remaining ∧ shardOf (ofLex block).1 = s := by
    intro _
    rw [takeWhile_eq_filter hfront, mem_filter, decide_eq_true_iff]
  have hrest : ∀ block, block ∈ (merge.remaining.dropWhile fun block => shardOf (ofLex block).1 = s) ↔
      block ∈ merge.remaining ∧ shardOf (ofLex block).1 ≠ s := by
    intro _
    rw [dropWhile_eq_filter hfront, mem_filter, Bool.not_eq_true', decide_eq_false_iff_not]
  obtain ⟨hwithin, hentries⟩ := within_mergeTaken (h.shards s) (hfew s) fun block hblock =>
    Finset.mem_filter.mpr ⟨h.merging block (hmerge.mem block ((htaken block).mp hblock).1), ((htaken block).mp hblock).2⟩
  -- In its own shard a block is as before or was taken; in the others nothing has changed.
  have hin : ∀ block, (index.mergeShard merge s).1.InShard block ↔ index.InShard block ∨
      blockEntry (index.shards s).k block ∈ (merge.remaining.takeWhile fun block => shardOf (ofLex block).1 = s).map
        (blockEntry (index.shards s).k) ∧ shardOf (ofLex block).1 = s := by
    intro block
    by_cases hblock : shardOf (ofLex block).1 = s
    · simp only [InShard, BlockIndex.mergeShard, hblock, update_self, mergeTaken_k, hentries, and_true]
    · simp only [InShard, BlockIndex.mergeShard, update_of_ne hblock, hblock, and_false, or_false]
  refine ⟨⟨fun s' => ?_, h.new, h.merging⟩, ⟨?_, ?_, ?_, ?_⟩, fun block hblock => (hin block).mpr (.inl hblock)⟩
  · by_cases hs' : s' = s
    · subst hs'
      simp only [BlockIndex.mergeShard, update_self]
      exact hwithin
    · simp only [BlockIndex.mergeShard, update_of_ne hs']
      exact h.shards s'
  · exact hmerge.sorted.sublist (dropWhile_sublist _)
  · exact fun block hblock => hmerge.mem block ((hrest block).mp hblock).1
  · intro block hblock
    obtain ⟨hmem, hne⟩ := (hrest block).mp hblock
    have hahead := hmerge.ahead block hmem
    rw [hs] at hahead
    exact lt_of_le_of_ne hahead fun heq => hne (Fin.ext heq).symm
  · intro block hblock
    rcases hmerge.done block hblock with hmem | hshard
    · by_cases hs' : shardOf (ofLex block).1 = s
      · refine .inr ((hin block).mpr (.inr ⟨?_, hs'⟩))
        exact mem_map_of_mem ((htaken block).mpr ⟨hmem, hs'⟩)
      · exact .inl ((hrest block).mpr ⟨hmem, hs'⟩)
    · exact .inr ((hin block).mpr (.inl hshard))

theorem Within.endMerge (merge : Merge) : (index.endMerge merge).Within blocks := ⟨h.shards, h.new, nofun⟩

/-- **Lookups.** The number of a block found in the sets or in the shard is in the answer. -/
theorem Within.answer {lookup : Lookup} (hmem : number ∈ lookup.numbers ∨ index.InShard (toLex (lookup.p, number))) :
    ∃ numbers, lookup.answer index = some numbers ∧ number ∈ numbers := by
  have hshard := h.shards (shardOf lookup.p)
  obtain ⟨found, hfound⟩ := hshard.candidates_isSome lookup.p
  have hboth : number ∈ lookup.numbers ∨ number ∈ found := by
    refine hmem.imp_right fun hin => ?_
    obtain ⟨_, hnumbers, hmem⟩ := hshard.mem_candidates hin
    rw [hfound] at hnumbers
    cases hnumbers
    exact hmem
  refine ⟨_, by rw [Lookup.answer, hfound, Option.map_some], ?_⟩
  split
  · next hnil =>
    rw [hnil] at hboth
    exact hboth.resolve_left not_mem_nil
  · rw [mem_sortDedup, mem_append]
    exact hboth

/-- A block that the index has is among the candidates of its hash. -/
theorem Within.mem_candidates {hash : H256} (hhas : index.Has (toLex (hashPrefix hash, number))) :
    ∃ numbers, index.candidates hash = some numbers ∧ number ∈ numbers :=
  h.answer hhas.lookup
end

theorem merging_startMerge (index : BlockIndex) : index.startMerge.1.Merging index.startMerge.2 := by
  have hmem : ∀ block, block ∈ index.startMerge.2.remaining ↔ index.recent.new.get block = some () := by
    intro block
    rw [get_eq_some]
    show block ∈ index.recent.new.entries.map (·.1) ↔ _
    rw [mem_map]
    constructor
    · rintro ⟨_, hentry, rfl⟩
      exact hentry
    · exact fun hentry => ⟨_, hentry, rfl⟩
  refine ⟨?_, fun block => (hmem block).mp, fun _ _ => Nat.zero_le _, fun block hblock => .inl ((hmem block).mpr hblock)⟩
  exact pairwise_map.mpr index.recent.new.sorted

theorem Merging.has_endMerge (h : index.Merging merge) (hend : merge.next = 256) :
    (index.endMerge merge).Has block ↔ index.Has block := by
  constructor
  · rintro (hnew | hmerging | hshard)
    · exact .inl hnew
    · cases hmerging
    · exact .inr (.inr hshard)
  · rintro (hnew | hmerging | hshard)
    · exact .inl hnew
    · exact .inr (.inr (h.inShard hend hmerging))
    · exact .inr (.inr hshard)

end BlockIndex

def BlockIndex.fresh (k : Nat) : BlockIndex := ⟨fun _ => .fromSorted k [], ⟨.empty, .empty, none⟩, none⟩

theorem BlockIndex.within_fresh {k : Nat} (hk : k ≤ 24) {blocks : Finset (U64 ×ₗ U32)}
    (hfew : ∀ s, (shardBlocks blocks s).card < 2 ^ 32) : (fresh k).Within blocks :=
  ⟨fun s => (within_fromSorted hk (hfew s) .nil nofun).1, nofun, nofun⟩

/-! ### Runs -/

namespace IndexSystem

variable {event : IndexEvent} {k : Nat} {entries : List ShardEntry} {blocks : Finset (U64 ×ₗ U32)} {system next : IndexSystem}

/-- The index holds blocks of the chain only, and a merge is where it has got to. -/
structure Sound (blocks : Finset (U64 ×ₗ U32)) (system : IndexSystem) : Prop where
  within : system.index.Within blocks
  idle : system.merge = none → ∀ block, system.index.recent.merging.get block ≠ some ()
  merging : ∀ merge, system.merge = some merge → system.index.Merging merge

/-- The block is in the index, and each lookup of its hash that holds the sets has found it there or
will find it in the shard. -/
structure Shows (block : U64 ×ₗ U32) (system : IndexSystem) : Prop where
  has : system.index.Has block
  lookups : ∀ lookup ∈ system.lookups, lookup.2.p = (ofLex block).1 →
    (ofLex block).2 ∈ lookup.2.numbers ∨ system.index.InShard block

def noted : IndexEvent → List (H256 × U32)
  | .note noted => noted
  | _ => []

/-- What a step can do, and when. -/
inductive Steps (system : IndexSystem) : IndexEvent → IndexSystem → Prop where
  | note (noted) (hidle : system.merge = none) (hfree : system.lookups = []) :
      Steps system (.note noted) { system with index := system.index.note noted }
  | startMerge (hidle : system.merge = none) (hfree : system.lookups = []) :
      Steps system .startMerge
        { system with index := system.index.startMerge.1, merge := some system.index.startMerge.2 }
  | mergeShard (merge) (s : Fin 256) (hmerge : system.merge = some merge) (hs : merge.next = s) :
      Steps system .mergeShard
        { system with index := (system.index.mergeShard merge s).1, merge := some (system.index.mergeShard merge s).2 }
  | endMerge (merge) (hmerge : system.merge = some merge) (hend : merge.next = 256) (hfree : system.lookups = []) :
      Steps system .endMerge { system with index := system.index.endMerge merge, merge := none }
  | lookup (id hash) :
      Steps system (.lookup id hash) { system with lookups := (id, system.index.lookup hash) :: system.lookups }
  | answer (id) :
      Steps system (.answer id) { system with lookups := system.lookups.filter fun lookup => lookup.1 ≠ id }

theorem steps_of_step (h : system.step event = some next) : Steps system event next := by
  cases event with
  | note noted =>
    simp only [step, Option.ite_none_right_eq_some, Option.isNone_iff_eq_none] at h
    obtain ⟨⟨hidle, hfree⟩, heq⟩ := h
    cases heq
    exact .note noted hidle hfree
  | startMerge =>
    simp only [step, Option.ite_none_right_eq_some, Option.isNone_iff_eq_none] at h
    obtain ⟨⟨hidle, hfree⟩, heq⟩ := h
    cases heq
    exact .startMerge hidle hfree
  | mergeShard =>
    obtain ⟨merge, hmerge, h⟩ := Option.bind_eq_some_iff.mp h
    split at h
    · next hlt =>
      cases h
      exact .mergeShard merge ⟨merge.next, hlt⟩ hmerge rfl
    · cases h
  | endMerge =>
    obtain ⟨merge, hmerge, h⟩ := Option.bind_eq_some_iff.mp h
    obtain ⟨⟨hend, hfree⟩, heq⟩ := Option.ite_none_right_eq_some.mp h
    cases heq
    exact .endMerge merge hmerge hend hfree
  | lookup id hash =>
    cases h
    exact .lookup id hash
  | answer id =>
    cases h
    exact .answer id

section
variable (hfew : ∀ s, (shardBlocks blocks s).card < 2 ^ 32)
include hfew
theorem Sound.step (h : system.Sound blocks)
    (hnoted : ∀ other ∈ noted event, toLex (hashPrefix other.1, other.2) ∈ blocks) (hstep : Steps system event next) :
    next.Sound blocks := by
  cases hstep with
  | note noted hidle =>
    refine ⟨h.within.note hnoted, fun _ block hblock => ?_, fun merge hmerge => ?_⟩
    · apply h.idle hidle block
      rw [← BlockIndex.merging_noted system.index.recent noted]
      exact hblock
    · rw [hidle] at hmerge
      cases hmerge
  | startMerge =>
    refine ⟨h.within.startMerge, nofun, fun merge hmerge => ?_⟩
    cases hmerge
    exact system.index.merging_startMerge
  | mergeShard merge s hmerge hs =>
    obtain ⟨hwithin, hmerging, -⟩ := h.within.mergeShard hfew (h.merging merge hmerge) hs
    refine ⟨hwithin, nofun, fun _ hmerge' => ?_⟩
    cases hmerge'
    exact hmerging
  | endMerge merge => exact ⟨h.within.endMerge merge, nofun, nofun⟩
  | lookup | _ => exact { h with }

theorem Shows.step (hsound : system.Sound blocks) {block : U64 ×ₗ U32}
    (h : system.Shows block) (hstep : Steps system event next) : next.Shows block := by
  cases hstep with
  | note _ _ hfree =>
    refine ⟨(BlockIndex.has_note ..).mpr (.inl h.has), fun lookup hlookup => ?_⟩
    rw [hfree] at hlookup
    cases hlookup
  | startMerge hidle hfree =>
    refine ⟨(BlockIndex.has_startMerge (hsound.idle hidle)).mpr h.has, fun lookup hlookup => ?_⟩
    rw [hfree] at hlookup
    cases hlookup
  | mergeShard merge s hmerge hs =>
    obtain ⟨-, -, hkept⟩ := hsound.within.mergeShard hfew (hsound.merging merge hmerge) hs
    refine ⟨h.has.imp_right (Or.imp_right (hkept block)), fun lookup hlookup hp => ?_⟩
    exact (h.lookups lookup hlookup hp).imp_right (hkept block)
  | endMerge merge hmerge hend hfree =>
    refine ⟨((hsound.merging merge hmerge).has_endMerge hend).mpr h.has, fun lookup hlookup => ?_⟩
    rw [hfree] at hlookup
    cases hlookup
  | lookup id =>
    refine ⟨h.has, fun lookup hlookup hp => ?_⟩
    rcases mem_cons.mp hlookup with rfl | hmem
    · obtain ⟨p, _⟩ := block
      cases hp
      exact BlockIndex.Has.lookup h.has
    · exact h.lookups lookup hmem hp
  | answer id =>
    exact ⟨h.has, fun lookup hlookup => h.lookups lookup (mem_filter.mp hlookup).1⟩
end

/-- **No block is missed.** Whatever the order of notes, merges and lookups, and whatever the hashes,
once a block has been noted its number is among the candidates of its hash, in every lookup from then
on: those made at once and those with a merge in between. It takes that no shard has to hold 2^32
blocks. -/
theorem candidates_contain_noted {blocks : Finset (U64 ×ₗ U32)} (hfew : ∀ s, (shardBlocks blocks s).card < 2 ^ 32)
    {system final : IndexSystem} (hsound : system.Sound blocks) {before after : List IndexEvent}
    {new : List (H256 × U32)} (hnoted : ∀ event ∈ before ++ .note new :: after, ∀ other ∈ noted event,
      toLex (hashPrefix other.1, other.2) ∈ blocks)
    (hrun : runSome step system (before ++ .note new :: after) = some final) {hash : H256} {number : U32}
    (hnew : (hash, number) ∈ new) : (∃ numbers, final.index.candidates hash = some numbers ∧ number ∈ numbers) ∧
    ∀ lookup ∈ final.lookups, lookup.2.p = hashPrefix hash →
      ∃ numbers, lookup.2.answer final.index = some numbers ∧ number ∈ numbers := by
  obtain ⟨middle, hbefore, hafter⟩ := runSome_append.mp hrun
  obtain ⟨noted', hnote, hafter⟩ := Option.bind_eq_some_iff.mp hafter
  have hmiddle : middle.Sound blocks := by
    refine runSome_invariant (Sound blocks) (fun _ _ _ h hadmits hstep => h.step hfew hadmits (steps_of_step hstep))
      hsound (fun event hevent => hnoted event (mem_append_left _ hevent)) hbefore
  have hnote := steps_of_step hnote
  have hsound' := hmiddle.step hfew (hnoted _ (mem_append_right _ (.head _))) hnote
  have hshows : noted'.Shows (toLex (hashPrefix hash, number)) := by
    cases hnote with
    | note _ _ hfree =>
      refine ⟨(BlockIndex.has_note ..).mpr (.inr ⟨_, hnew, rfl⟩), fun lookup hlookup => ?_⟩
      rw [hfree] at hlookup
      cases hlookup
  have hfinal : final.Sound blocks ∧ final.Shows (toLex (hashPrefix hash, number)) := by
    refine runSome_invariant (fun system => system.Sound blocks ∧ system.Shows (toLex (hashPrefix hash, number)))
      (fun _ _ _ h hadmits hstep => ⟨h.1.step hfew hadmits (steps_of_step hstep), h.2.step hfew h.1 (steps_of_step hstep)⟩)
      ⟨hsound', hshows⟩ (fun event hevent => ?_) hafter
    exact hnoted event (mem_append_right _ (.tail _ hevent))
  refine ⟨hfinal.1.within.mem_candidates hfinal.2.has, fun lookup hlookup hp => ?_⟩
  apply hfinal.1.within.answer
  have := hfinal.2.lookups lookup hlookup hp
  rw [hp]
  exact this

def fresh (k : Nat) : IndexSystem := ⟨.fresh k, none, []⟩

theorem sound_fresh (hk : k ≤ 24) {blocks : Finset (U64 ×ₗ U32)} (hfew : ∀ s, (shardBlocks blocks s).card < 2 ^ 32) :
    (fresh k).Sound blocks :=
  ⟨BlockIndex.within_fresh hk hfew, nofun, nofun⟩

/-- A hash whose block is in the fifth shard. -/
def fifthHash : H256 := 0x0400000000000000000000000000000000000000000000000000000000000000

/-- A lookup between the shards of a merge. -/
theorem candidates_contain_noted_merging :
    ∃ final, runSome step (fresh 16) [.note [(fifthHash, 5)], .startMerge, .lookup 0 fifthHash, .mergeShard] = some final ∧
      ∃ numbers, final.index.candidates fifthHash = some numbers ∧ 5 ∈ numbers := by
  have hfew : ∀ s, (shardBlocks {toLex (hashPrefix fifthHash, 5)} s).card < 2 ^ 32 :=
    fun s => (Finset.card_filter_le ..).trans_lt (by rw [Finset.card_singleton]; decide)
  obtain ⟨final, hrun⟩ : ∃ final,
      runSome step (fresh 16) [.note [(fifthHash, 5)], .startMerge, .lookup 0 fifthHash, .mergeShard] = some final :=
    ⟨_, rfl⟩
  have hnoted : ∀ event ∈ [] ++ .note [(fifthHash, 5)] :: [.startMerge, .lookup 0 fifthHash, .mergeShard],
      ∀ other ∈ noted event,
        toLex (hashPrefix other.1, other.2) ∈ ({toLex (hashPrefix fifthHash, 5)} : Finset (U64 ×ₗ U32)) := by
    intro _ hevent _ hother
    simp only [nil_append, mem_cons, not_mem_nil, or_false] at hevent
    rcases hevent with rfl | rfl | rfl | rfl
    · rw [mem_singleton.mp hother]
      exact Finset.mem_singleton_self _
    all_goals cases hother
  exact ⟨final, hrun,
    (candidates_contain_noted hfew (sound_fresh (by decide) hfew) hnoted hrun (mem_singleton.mpr rfl)).1⟩

/-! ### A full shard -/

theorem run_mergeShard_nil {system : IndexSystem} {merge : Merge} (hmerge : system.merge = some merge)
    (hnil : merge.remaining = []) (n : Nat) (hn : merge.next + n ≤ 256) :
    runSome step system (replicate n .mergeShard) =
      some { system with merge := some { merge with next := merge.next + n } } := by
  induction n generalizing system merge with
  | zero =>
    rw [replicate_zero, runSome, add_zero, ← hmerge]
  | succ n ih =>
    have hlt : merge.next < 256 := by omega
    have hstep : system.step .mergeShard = some { system with merge := some { merge with next := merge.next + 1 } } := by
      simp only [step, hmerge, Option.bind_some, dif_pos hlt, BlockIndex.mergeShard, hnil, takeWhile_nil,
        dropWhile_nil, BlockIndex.mergeTaken, if_true, update_eq_self]
    rw [replicate_succ, runSome, hstep, Option.bind_some, ih rfl (by simpa using hnil) (by simp only; omega)]
    simp only [add_assoc, add_comm 1 n]

/-- The blocks that share their hash prefix, one at each number. -/
theorem length_full (hsorted : entries.Pairwise (· < ·)) (hmem : ∀ entry, entry ∈ entries ↔ (ofLex entry).1 = 0) :
    entries.length = 2 ^ 32 := by
  have hnodup : entries.Nodup := hsorted.imp (·.ne)
  have himage : entries.toFinset = Finset.univ.image fun n => (toLex (0, n) : ShardEntry) := by
    ext entry
    rw [mem_toFinset, hmem, Finset.mem_image]
    constructor
    · intro hzero
      refine ⟨(ofLex entry).2, Finset.mem_univ _, ?_⟩
      rw [← hzero]
      rfl
    · rintro ⟨n, -, rfl⟩
      rfl
  have hinjective : Function.Injective fun n => (toLex (0, n) : ShardEntry) :=
    fun n m h => (Prod.ext_iff.mp (toLex.injective h)).2
  calc entries.length = entries.toFinset.card := (toFinset_card_of_nodup hnodup).symm
    _ = Fintype.card U32 := by rw [himage, Finset.card_image_of_injective _ hinjective, Finset.card_univ]
    _ = 2 ^ 32 := Fintype.card_fin _

theorem code_zero (k : Nat) : code 0 k = 0 := by
  show 0 / 2 ^ 24 % 2 ^ 32 / 2 ^ (24 - k) = 0
  rw [Nat.zero_div, Nat.zero_mod, Nat.zero_div]

theorem candidates_full (hsorted : entries.Pairwise (· < ·)) (hmem : ∀ entry, entry ∈ entries ↔ (ofLex entry).1 = 0) :
    (fromSorted k entries).candidates 0 = some [] := by
  set shard := fromSorted k entries
  have hoffset : ∀ b, b ≤ 2 ^ k → shard.offsets.getD b 0 = below entryBucket entries b % 2 ^ 32 := by
    intro b hb
    show (offsets entryBucket (· % 2 ^ 32) (2 ^ k) entries).getD b 0 = _
    rw [offsets_eq rfl (Shard.Ordered.of_sorted hsorted), getD_eq_getElem?_getD, getElem?_map,
      getElem?_range (Nat.lt_succ_of_le hb)]
    rfl
  have hone : below entryBucket entries 1 = 2 ^ 32 := by
    rw [below_eq_length, length_full hsorted hmem]
    intro entry hentry
    rw [entryBucket, (hmem entry).mp hentry]
    decide
  have hzero : below entryBucket entries 0 = 0 := below_eq_zero fun _ _ => Nat.zero_le _
  have hstart : shard.offsets.getD (0 / 256) 0 = 0 := by
    rw [hoffset 0 (Nat.zero_le _), hzero, Nat.zero_mod]
  have hstop : shard.offsets.getD (0 / 256 + 1) 0 = 0 := by
    rw [hoffset 1 Nat.one_le_two_pow, hone, Nat.mod_self]
  simp only [candidates, code_zero, hstart, hstop, le_refl, if_true, between, Nat.sub_zero, take_zero,
    filter_nil, map_nil]

/-- The merge of all blocks with the hash prefix zero into an empty shard. -/
theorem candidates_mergeTaken_full {taken : List (U64 ×ₗ U32)} (hmem : ∀ block, block ∈ taken ↔ (ofLex block).1 = 0) :
    (BlockIndex.mergeTaken (.fromSorted 16 []) taken).candidates 0 = some [] := by
  have hnil : taken ≠ [] := ne_nil_of_mem ((hmem (toLex (0, 0))).mpr rfl)
  have hempty : (fromSorted 16 []).entries = [] :=
    (Shard.Holds.mk rfl .nil nofun (by decide)).entries_eq
  rw [BlockIndex.mergeTaken, if_neg hnil, merged, hempty]
  apply candidates_full (sorted_sortDedup _)
  intro entry
  rw [mem_sortDedup, mem_map]
  constructor
  · rintro ⟨block, hblock, rfl⟩
    show code (ofLex block).1 16 = 0
    rw [(hmem block).mp hblock, code_zero]
  · intro hzero
    refine ⟨toLex (0, (ofLex entry).2), (hmem _).mpr rfl, ?_⟩
    show toLex (code 0 16, (ofLex entry).2) = entry
    rw [code_zero, ← hzero]
    rfl

/-- **A shard with too many blocks.** Where 2^32 blocks share their hash prefix and lie at all the
heights there are, none of them is found any more once they have been merged. -/
theorem full_shard_misses :
    ∃ (blocks : List (H256 × U32)) (final : IndexSystem), (0, 0) ∈ blocks ∧
      runSome step (fresh 16)
        ([.note blocks, .startMerge, .mergeShard] ++ (replicate 255 .mergeShard ++ [.endMerge])) = some final ∧
      final.index.candidates 0 = some [] := by
  obtain ⟨blocks, hblocks⟩ : ∃ blocks : List (H256 × U32), ∀ block, block ∈ blocks ↔ block.1 = 0 := by
    refine ⟨Finset.univ.toList.map fun n => (0, n), fun block => ?_⟩
    rw [mem_map]
    constructor
    · rintro ⟨n, -, rfl⟩
      rfl
    · exact fun hzero => ⟨block.2, Finset.mem_toList.mpr (Finset.mem_univ _), Prod.ext hzero.symm rfl⟩
  generalize hindex : (BlockIndex.fresh 16).note blocks = index
  have hnew : ∀ block, index.recent.new.get block = some () ↔ (ofLex block).1 = 0 := by
    intro block
    rw [← hindex]
    refine (BlockIndex.get_noted ..).trans ⟨?_, fun hzero => .inr ⟨(0, (ofLex block).2), (hblocks _).mpr rfl, ?_⟩⟩
    · rintro (hget | ⟨other, hother, rfl⟩)
      · cases hget
      · rw [(hblocks other).mp hother]
        rfl
    · have hfirst : hashPrefix 0 = (ofLex block).1 := by rw [hzero]; rfl
      rw [hfirst]
      rfl
  have hremaining : ∀ block, block ∈ index.startMerge.2.remaining ↔ (ofLex block).1 = 0 := by
    intro block
    refine Iff.trans ⟨fun hmem => (BlockIndex.merging_startMerge index).mem block hmem, fun hget => ?_⟩ (hnew block)
    exact mem_map.mpr ⟨_, get_eq_some.mp hget, rfl⟩
  have hall : ∀ block ∈ index.startMerge.2.remaining, decide (shardOf (ofLex block).1 = 0) = true := by
    intro block hblock
    rw [(hremaining block).mp hblock]
    rfl
  -- All of them go into the first shard, and the merge passes the others.
  let merged := index.startMerge.1.mergeShard index.startMerge.2 0
  have hnil : merged.2.remaining = [] := dropWhile_eq_nil_iff.mpr hall
  have hfirst : runSome step (fresh 16) [.note blocks, .startMerge, .mergeShard] =
      some ⟨merged.1, some merged.2, []⟩ := by
    have hnote : (fresh 16).step (.note blocks) = some ⟨index, none, []⟩ := by
      rw [← hindex]
      rfl
    rw [runSome, hnote]
    rfl
  have hrest : runSome step ⟨merged.1, some merged.2, []⟩ (replicate 255 .mergeShard) =
      some ⟨merged.1, some { merged.2 with next := 256 }, []⟩ :=
    run_mergeShard_nil rfl hnil 255 (le_refl 256)
  refine ⟨blocks, ⟨merged.1.endMerge { merged.2 with next := 256 }, none, []⟩, (hblocks _).mpr rfl,
    runSome_append.mpr ⟨_, hfirst, runSome_append.mpr ⟨_, hrest, rfl⟩⟩, ?_⟩
  have hshard : merged.1.shards 0 = BlockIndex.mergeTaken (.fromSorted 16 []) index.startMerge.2.remaining := by
    have hempty : index.shards 0 = .fromSorted 16 [] := by
      rw [← hindex]
      rfl
    have htaken : (index.startMerge.2.remaining.takeWhile fun block => shardOf (ofLex block).1 = 0) =
        index.startMerge.2.remaining := takeWhile_eq_self_iff.mpr hall
    have hupdate : merged.1.shards 0 = BlockIndex.mergeTaken (index.shards 0)
        (index.startMerge.2.remaining.takeWhile fun block => shardOf (ofLex block).1 = 0) := by
      rfl
    rw [hupdate, htaken, hempty]
  have hlookup : (merged.1.endMerge { merged.2 with next := 256 }).lookup 0 = ⟨0, []⟩ := rfl
  rw [BlockIndex.candidates, hlookup]
  show Option.map _ ((merged.1.shards 0).candidates 0) = _
  rw [hshard, candidates_mergeTaken_full hremaining]
  rfl

end IndexSystem
end LeafageEvm
