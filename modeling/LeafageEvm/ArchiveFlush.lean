import LeafageEvm.ArchiveDisk

/-! Moving layers into the archive. The state of a block is read through its layers, the cache and the
archive; a commit takes the lowest layers away and puts their blocks into the archive. The read stays
the same except in two places, where the three implement a block differently: layers and cache know
nothing of the slots of a deleted account, and only the archive normalises a code hash. -/

namespace LeafageEvm
open AccountInfo DiskState Archive DiffLayer
open Option (getD getD_some map map_some)
open List hiding getD map

def readThrough (layers : List DiffLayer) (cache : CacheEntries) (disk : (k : StateKey) → k.Value)
    (k : StateKey) : k.Value :=
  (lookupLayers layers k).getD (((cache k).map (·.2)).getD (disk k))

theorem HybridStateDB.read_eq_readThrough (handle : HybridStateDB) (cache : CacheEntries) (k : StateKey) :
    (handle.read cache k).1 =
      readThrough handle.layers (if handle.cached then cache else .empty) handle.statedb.get k := by
  unfold HybridStateDB.read readThrough
  cases lookupLayers handle.layers k with
  | some => rfl
  | none =>
    cases handle.cached with
    | false => rfl
    | true =>
      cases hentry : cache k with
      | some => simp [hentry]
      | none => cases handle.cacheViewHeight <;> simp [hentry]

def CacheEntries.writeThroughAll (cache : CacheEntries) (chain : List Block) : CacheEntries :=
  chain.foldr (fun block cache => cache.writeThrough (.new block)) cache

/-- A cache after the commits: what it held and what was written through, less what was evicted, and
what readers have since put there from the disk. -/
def CacheEntries.Follows (cache : CacheEntries) (chain : List Block) (disk : (k : StateKey) → k.Value)
    (cache' : CacheEntries) : Prop :=
  ∀ k entry, cache' k = some entry → cache.writeThroughAll chain k = some entry ∨ entry.2 = disk k

def DeletedUnwritten (chain : List Block) (address slot : H256) : Prop :=
  ∃ newer block older, chain = newer ++ block :: older ∧ address ∈ block.diff.deletedAccounts ∧
    ∀ written ∈ newer ++ [block], (DiffLayer.new written).storage (address, slot) = none

/-- The same, of a slot that was set: `below` is its value under the chain. -/
def OutlivesLayers (chain : List Block) (address slot : H256) (below : U256) : Prop :=
  ∃ newer block older, chain = newer ++ block :: older ∧ address ∈ block.diff.deletedAccounts ∧
    (∀ written ∈ newer ++ [block], (DiffLayer.new written).storage (address, slot) = none) ∧
    overlay (older.map .new) (.slot address slot) below ≠ 0

theorem writeThroughAll_value (cache : CacheEntries) (chain : List Block) (k : StateKey) :
    ((cache.writeThroughAll chain k).map (·.2)) =
      (lookupLayers (chain.map .new) k).or ((cache k).map (·.2)) := by
  induction chain with
  | nil => rfl
  | cons block older ih =>
    show map _ ((cache.writeThroughAll older).writeThrough (.new block) k) = _
    rw [CacheEntries.writeThrough, map_cons, lookupLayers, findSome?_cons]
    cases (new block).get k with
    | some => rfl
    | none => exact ih

section
variable {chain : List Block} {address slot : H256}

theorem overlay_slot_of_unwritten (h : ∀ block ∈ chain, (new block).storage (address, slot) = none)
    (base : U256) : overlay (chain.map .new) (.slot address slot) base = base := by
  induction chain with
  | nil => rfl
  | cons block _ ih =>
    obtain ⟨hfirst, hrest⟩ := forall_mem_cons.mp h
    have hget : (new block).get (.slot address slot) = none := hfirst
    rw [map_cons, overlay_cons, hget]
    exact ih hrest

/-- Under layers that hold the slot it does not matter what lies below. -/
theorem overlay_slot_of_written {block : Block} (hmem : block ∈ chain)
    (h : (new block).storage (address, slot) ≠ none) (base base' : U256) :
    overlay (chain.map .new) (.slot address slot) base = overlay (chain.map .new) (.slot address slot) base' := by
  induction chain with
  | nil => cases hmem
  | cons first _ ih =>
    rw [map_cons, overlay_cons, overlay_cons]
    cases hfirst : (new first).get (.slot address slot) with
    | some => rfl
    | none =>
      rcases mem_cons.mp hmem with rfl | hmem
      · exact absurd hfirst h
      · exact ih hmem

/-- A deletion lies in the upper part of a chain, or in the lower one under layers that do not write
the slot. -/
theorem DeletedUnwritten.append {committed : List Block} (h : DeletedUnwritten (chain ++ committed) address slot) :
    DeletedUnwritten chain address slot ∨ (∀ block ∈ chain, (new block).storage (address, slot) = none) ∧
        DeletedUnwritten committed address slot := by
  induction chain with
  | nil => exact .inr ⟨forall_mem_nil _, h⟩
  | cons first chain ih =>
    obtain ⟨newer, block, older, hchain, hdeleted, hunwritten⟩ := h
    cases newer with
    | nil =>
      obtain ⟨rfl, -⟩ := cons.inj hchain
      exact .inl ⟨[], first, chain, rfl, hdeleted, hunwritten⟩
    | cons _ newer =>
      obtain ⟨rfl, hrest⟩ := cons.inj hchain
      obtain ⟨hfirst, hnewer⟩ := forall_mem_cons.mp hunwritten
      rcases ih ⟨newer, block, older, hrest, hdeleted, hnewer⟩ with
        ⟨newer', block', older', rfl, hdeleted', hunwritten'⟩ | ⟨hchain', hcommitted⟩
      · exact .inl ⟨first :: newer', block', older', rfl, hdeleted', forall_mem_cons.mpr ⟨hfirst, hunwritten'⟩⟩
      · exact .inr ⟨forall_mem_cons.mpr ⟨hfirst, hchain'⟩, hcommitted⟩
end

theorem readThrough_eq_overlay {cache : CacheEntries} {disk : (k : StateKey) → k.Value} {k : StateKey}
    (hcache : ∀ entry, cache k = some entry → entry.2 = disk k) (layers : List DiffLayer) :
    readThrough layers cache disk k = overlay layers k (disk k) := by
  unfold readThrough overlay
  cases hentry : cache k with
  | none => rfl
  | some entry => rw [map_some, getD_some, hcache entry hentry]

/-! ### The disk after the commits -/

variable (disk : DiskState)

theorem replay_slot_eq_or_outlives (chain : List Block) (address slot : H256) :
    (disk.replay true chain).get (.slot address slot) =
        overlay (chain.map .new) (.slot address slot) (disk.get (.slot address slot)) ∨
      OutlivesLayers chain address slot (disk.get (.slot address slot)) := by
  induction chain with
  | nil => exact .inl rfl
  | cons block older ih =>
    rw [replay_cons, updateBlock_slot, map_cons, overlay_cons]
    show (getD _ _ = getD ((new block).storage (address, slot)) _) ∨ _
    cases hwrite : (new block).storage (address, slot) with
    | some => exact .inl rfl
    | none =>
      by_cases hdeleted : address ∈ block.diff.deletedAccounts
      · by_cases hset : overlay (older.map .new) (.slot address slot) (disk.get (.slot address slot)) = 0
        · left
          simp [hdeleted, hset]
        refine .inr ⟨[], block, older, rfl, hdeleted, ?_, hset⟩
        intro _ hmem
        rw [nil_append, mem_singleton] at hmem
        rw [hmem, hwrite]
      rcases ih with heq | ⟨newer, deleting, below, rfl, hdeletes, hunwritten, hset⟩
      · left
        simpa [hdeleted] using heq
      · exact .inr ⟨block :: newer, deleting, below, rfl, hdeletes, forall_mem_cons.mpr ⟨hwrite, hunwritten⟩, hset⟩

theorem replay_slot_of_deleted {chain : List Block} {address slot : H256}
    (h : DeletedUnwritten chain address slot) : (disk.replay true chain).get (.slot address slot) = 0 := by
  obtain ⟨newer, block, _, rfl, hdeleted, hunwritten⟩ := h
  induction newer with
  | nil =>
    have hblock := hunwritten block (.head _)
    rw [nil_append, replay_cons, updateBlock_slot, hblock]
    simp [hdeleted]
  | cons _ _ ih =>
    obtain ⟨hfirst, hrest⟩ := forall_mem_cons.mp hunwritten
    rw [cons_append, replay_cons, updateBlock_slot, hfirst, ih hrest]
    simp

theorem replay_account (chain : List Block) (address : H256) : (disk.replay true chain).get (.account address) =
      ((lookupLayers (chain.map .new) (.account address)).map (map readBack)).getD
        (disk.get (.account address)) := by
  induction chain with
  | nil => rfl
  | cons block _ ih =>
    rw [replay_cons, updateBlock_account_get, map_cons, lookupLayers, findSome?_cons, ← lookupLayers, ih]
    cases hwrite : (new block).accounts address with
    | some account =>
      have hget : (new block).get (.account address) = some account := hwrite
      rw [hget]
      rfl
    | none =>
      have hget : (new block).get (.account address) = none := hwrite
      rw [hget]
      rfl

/-! ### Before and after -/

/-- Layers over a RocksDB archive, the newest on top: `upper` stays in memory, `lower` is committed.
The cache agrees with the archive. -/
structure Flush where
  codec : Codec
  schema : ArchiveSchema
  upper : List Block
  lower : List Block
  committed : List Block
  cache : CacheEntries
  ascending : Ascending (lower ++ committed)
  hashes : ∀ block ∈ lower ++ committed, block.info.hash ≠ 0
  coherent : ∀ k entry, cache k = some entry →
    entry.2 = ((Archive.empty (.rocksdb schema)).updateBlocks codec committed).get codec k

namespace Flush

variable (flush : Flush) (k : StateKey)

def archive : Archive := (Archive.empty (.rocksdb flush.schema)).updateBlocks flush.codec flush.committed

/-- The archive after them. -/
def flushed : Archive := flush.archive.updateBlocks flush.codec flush.lower

/-- The state of the newest block, read with all its layers in memory. -/
def before (k : StateKey) : k.Value :=
  readThrough ((flush.upper ++ flush.lower).map .new) flush.cache (flush.archive.get flush.codec) k

def after (cache : CacheEntries) (k : StateKey) : k.Value :=
  readThrough (flush.upper.map .new) cache (flush.flushed.get flush.codec) k

/-- The caches there may be after the commits. -/
def Follows (cache : CacheEntries) : Prop :=
  flush.cache.Follows flush.lower (flush.flushed.get flush.codec) cache

/-- The read of a key does not show the commits. -/
def Transparent (k : StateKey) : Prop := ∀ cache, flush.Follows cache → flush.before k = flush.after cache k

/-- A slot of an account deleted in the history of the block, and not written since, is zero. -/
def ZeroAfterDeletion (address slot : H256) : Prop :=
  DeletedUnwritten (flush.upper ++ flush.lower ++ flush.committed) address slot →
    flush.before (.slot address slot) = 0 ∧
      ∀ cache, flush.Follows cache → flush.after cache (.slot address slot) = 0

theorem archive_get : flush.archive.get flush.codec k = (empty.replay true flush.committed).get k :=
  updateBlocks_get flush.codec flush.schema (pairwise_append.mp flush.ascending).2.1
    (fun block hmem => flush.hashes block (mem_append_right _ hmem)) k

theorem flushed_get : flush.flushed.get flush.codec k =
    ((empty.replay true flush.committed).replay true flush.lower).get k := by
  have hrun : flush.flushed =
      (empty (.rocksdb flush.schema)).updateBlocks flush.codec (flush.lower ++ flush.committed) :=
    foldr_append.symm
  rw [hrun, updateBlocks_get flush.codec flush.schema flush.ascending flush.hashes]
  exact congrArg (DiskState.get · k) foldr_append

theorem before_eq : flush.before k = overlay (flush.upper.map .new) k
      (overlay (flush.lower.map .new) k (flush.archive.get flush.codec k)) := by
  have hcache : ∀ entry, flush.cache k = some entry → entry.2 = flush.archive.get flush.codec k :=
    flush.coherent k
  rw [before, readThrough_eq_overlay hcache, map_append, overlay_append]

/-- After the commits a key is served from the layers left, from what the commits wrote through, or
from the archive. -/
theorem after_eq {cache : CacheEntries} (hfollows : flush.Follows cache) (k : StateKey) :
    flush.after cache k = flush.before k ∨
      flush.after cache k = overlay (flush.upper.map .new) k (flush.flushed.get flush.codec k) := by
  rw [before_eq]
  simp only [after, readThrough, overlay]
  cases hentry : cache k with
  | none => exact .inr rfl
  | some entry =>
    rcases hfollows k entry hentry with hkept | hfresh
    · left
      have hvalue := writeThroughAll_value flush.cache flush.lower k
      rw [hkept, map_some] at hvalue
      rw [map_some, getD_some]
      cases hlower : lookupLayers (flush.lower.map .new) k with
      | some =>
        rw [hlower] at hvalue
        rw [Option.some.inj hvalue, getD_some]
      | none =>
        rw [hlower] at hvalue
        obtain ⟨cached, hcached, hsame⟩ := Option.map_eq_some_iff.mp hvalue.symm
        have hcoherent := flush.coherent k cached hcached
        rw [← hsame, hcoherent]
        rfl
    · right
      rw [map_some, getD_some, hfresh]

theorem follows_empty : flush.Follows .empty := nofun

section
variable {address slot : H256}
  (h : ¬ OutlivesLayers (flush.upper ++ flush.lower) address slot (flush.archive.get flush.codec (.slot address slot)))
include h
theorem transparent_slot : flush.Transparent (.slot address slot) := by
  intro _ hfollows
  rcases flush.after_eq hfollows (.slot address slot) with hsame | hdisk
  · exact hsame.symm
  rw [hdisk, before_eq, flushed_get]
  rcases replay_slot_eq_or_outlives (empty.replay true flush.committed) flush.lower address slot
    with heq | ⟨newer, block, older, hlower, hdeleted, hunwritten, hset⟩
  · rw [heq, archive_get]
  · by_cases hupper : ∀ block ∈ flush.upper, (new block).storage (address, slot) = none
    · -- the deletion is among the layers of the whole chain as well
      refine absurd ⟨flush.upper ++ newer, block, older, ?_, hdeleted, ?_, ?_⟩ h
      · rw [hlower, append_assoc]
      · rw [append_assoc]
        exact fun written hmem => (mem_append.mp hmem).elim (hupper written) (hunwritten written)
      · rwa [archive_get]
    · push Not at hupper
      obtain ⟨_, hmem, hwrites⟩ := hupper
      exact overlay_slot_of_written hmem hwrites _ _

theorem before_eq_zero (hdeleted : DeletedUnwritten (flush.upper ++ flush.lower ++ flush.committed) address slot) :
    flush.before (.slot address slot) = 0 := by
  rw [before_eq, ← overlay_append, ← map_append]
  rcases hdeleted.append with ⟨newer, block, older, hchain, hdeletes, hunwritten⟩ | ⟨hlayers, hcommitted⟩
  · -- deleted in a layer: nothing above it writes the slot, and what lies below is zero
    by_contra hset
    refine h ⟨newer, block, older, hchain, hdeletes, hunwritten, ?_⟩
    have hsplit : newer ++ block :: older = (newer ++ [block]) ++ older := by simp
    rwa [hchain, hsplit, map_append, overlay_append, overlay_slot_of_unwritten hunwritten] at hset
  · rw [overlay_slot_of_unwritten hlayers, archive_get]
    exact replay_slot_of_deleted _ hcommitted
end

theorem before_ne_zero {address slot : H256} (h : OutlivesLayers (flush.upper ++ flush.lower) address slot
      (flush.archive.get flush.codec (.slot address slot))) : flush.before (.slot address slot) ≠ 0 := by
  obtain ⟨newer, block, older, hchain, -, hunwritten, hset⟩ := h
  have hsplit : newer ++ block :: older = (newer ++ [block]) ++ older := by simp
  rwa [before_eq, ← overlay_append, ← map_append, hchain, hsplit, map_append, overlay_append,
    overlay_slot_of_unwritten hunwritten]

theorem readBack_eq_iff (account : AccountInfo) : account.readBack = account ↔ account.codeHash ≠ 0 := by
  have hempty : keccak256Empty ≠ 0 := by decide
  constructor
  · intro heq hzero
    have hcode := congrArg codeHash heq
    rw [readBack, hzero] at hcode
    exact hempty hcode
  · intro hcode
    rw [readBack, if_neg hcode]

theorem flushed_account (address : H256) : flush.flushed.get flush.codec (.account address) =
    ((lookupLayers (flush.lower.map .new) (.account address)).map (map readBack)).getD
      (flush.archive.get flush.codec (.account address)) := by
  rw [flushed_get, replay_account, archive_get]

theorem transparent_account_iff (address : H256) : flush.Transparent (.account address) ↔
      (lookupLayers (flush.upper.map .new) (.account address) = none →
        ∀ account, lookupLayers (flush.lower.map .new) (.account address) = some (some account) →
          account.codeHash ≠ 0) := by
  constructor
  · intro h hupper account hlower
    -- with everything evicted the account comes from the archive
    have hread : flush.before (.account address) =
        overlay (flush.upper.map .new) (.account address) (flush.flushed.get flush.codec (.account address)) :=
      h .empty flush.follows_empty
    rw [before_eq, flushed_account] at hread
    simp only [overlay, hupper, hlower] at hread
    exact (readBack_eq_iff account).mp (Option.some.inj hread).symm
  · intro hcode _ hfollows
    rcases flush.after_eq hfollows (.account address) with hsame | hdisk
    · exact hsame.symm
    rw [hdisk, before_eq, flushed_account]
    cases hupper : lookupLayers (flush.upper.map .new) (.account address) with
    | some =>
      simp only [overlay, hupper, getD_some]
    | none =>
      congr 1
      rw [overlay]
      cases hlower : lookupLayers (flush.lower.map .new) (.account address) with
      | none => rfl
      | some account =>
        cases account with
        | none => rfl
        | some account =>
          exact congrArg some ((readBack_eq_iff account).mpr (hcode hupper account hlower)).symm

/-- **Flush transparency.** The commits do not show in an account exactly if they do not move one with
a zero code hash out of the layers. They do not show in a slot, and the slots of deleted accounts are
zero, exactly if the slot does not outlive a deletion in the layers. -/
theorem transparent_iff (flush : Flush) (address slot : H256) : (flush.Transparent (.account address) ↔
      (lookupLayers (flush.upper.map .new) (.account address) = none →
        ∀ account, lookupLayers (flush.lower.map .new) (.account address) = some (some account) →
          account.codeHash ≠ 0)) ∧
    (flush.Transparent (.slot address slot) ∧ flush.ZeroAfterDeletion address slot ↔
      ¬ OutlivesLayers (flush.upper ++ flush.lower) address slot
        (flush.archive.get flush.codec (.slot address slot))) := by
  refine ⟨flush.transparent_account_iff address, ?_, ?_⟩
  · rintro ⟨-, hzero⟩ houtlives
    obtain ⟨newer, block, older, hchain, hdeleted, hunwritten, -⟩ := id houtlives
    have hdeletedUnwritten :
        DeletedUnwritten (flush.upper ++ flush.lower ++ flush.committed) address slot :=
      ⟨newer, block, older ++ flush.committed, by rw [hchain, append_assoc, cons_append],
        hdeleted, hunwritten⟩
    exact flush.before_ne_zero houtlives (hzero hdeletedUnwritten).1
  · intro h
    have htransparent := flush.transparent_slot h
    refine ⟨htransparent, fun hdeleted => ?_⟩
    have hbefore := flush.before_eq_zero h hdeleted
    exact ⟨hbefore, fun cache hfollows => (htransparent cache hfollows).symm.trans hbefore⟩

def ofLayers (lower committed : List Block) (ascending : Ascending (lower ++ committed))
    (hashes : ∀ block ∈ lower ++ committed, block.info.hash ≠ 0) : Flush where
  codec := fixedCodec
  schema := .v2
  upper := []
  lower := lower
  committed := committed
  cache := .empty
  ascending := ascending
  hashes := hashes
  coherent _ _ hentry := nomatch hentry

/-- A slot of an account that a layer deletes reads as 300 until the layer is committed, and as zero
after. An account with a zero code hash reads as such until it is committed. -/
theorem commits_show :
    let deleted := ofLayers [deletingBlock 1] [accountBlock 0 9 300] (by unfold Ascending; decide) (by decide)
    let created := ofLayers [accountBlock 0 0 300] [] (by unfold Ascending; decide) (by decide)
    deleted.before (.slot 7 3) = (300 : U256) ∧ deleted.after .empty (.slot 7 3) = (0 : U256) ∧
    created.before (.account 7) = some (⟨100, 1, 0⟩ : AccountInfo) ∧
    created.after .empty (.account 7) = some (⟨100, 1, keccak256Empty⟩ : AccountInfo) := by
  decide +kernel

end Flush
end LeafageEvm
