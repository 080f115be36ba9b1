import LeafageEvm.Layer

/-! What a commit does to the reads: the disk after a block answers with the block's layer where
that has the key and with the disk before it elsewhere. Slots of accounts the block deletes are
left out, since backends differ on them. -/

namespace LeafageEvm
open BlockStorageDiff CacheEntries DiskState DiffLayer HashMap Function List

theorem foldl_keeps {α β γ : Type} (field : α → γ) (step : α → β → α) (l : List β) (init : α)
    (hstep : ∀ a, ∀ b ∈ l, field (step a b) = field a) : field (l.foldl step init) = field init := by
  induction l generalizing init with
  | nil => rfl
  | cons b l ih =>
    rw [foldl_cons, ih _ fun a c hc => hstep a c (.tail _ hc)]
    exact hstep init b (.head _)

namespace DiskState

variable (clears : Bool) (disk : DiskState) (block : Block) (address : H256)

@[simp] theorem clearStorage_accounts : (disk.clearStorage clears address).accounts = disk.accounts := by
  unfold clearStorage
  split <;> rfl

@[simp] theorem clearStorage_codes : (disk.clearStorage clears address).codes = disk.codes := by
  unfold clearStorage
  split <;> rfl

@[simp] theorem clearStorage_blockHashes : (disk.clearStorage clears address).blockHashes = disk.blockHashes := by
  unfold clearStorage
  split <;> rfl

theorem lookup_filter (slots : List ((H256 × H256) × U256)) (address owner index : H256) :
    (slots.filter fun entry => entry.1.1 ≠ address).lookup (owner, index) =
      if owner = address then none else slots.lookup (owner, index) := by
  induction slots with
  | nil => simp
  | cons entry _ ih =>
    obtain ⟨key, _⟩ := entry
    have hother (hne : ¬ (owner = address ↔ key.1 = address)) : ((owner, index) == key) = false := by
      rw [beq_eq_false_iff_ne]
      rintro rfl
      exact hne Iff.rfl
    by_cases hkey : key.1 = address
    · rw [filter_cons_of_neg (by simpa using hkey), ih]
      split
      · rfl
      · next hne => rw [lookup_cons, hother (by simp [hne, hkey])]
    rw [filter_cons_of_pos (by simpa using hkey), lookup_cons, lookup_cons, ih]
    by_cases heq : owner = address
    · rw [hother (by simp [heq, hkey])]
    · rw [if_neg heq, if_neg heq]

theorem clearStorage_get_slot (owner index : H256) : (disk.clearStorage clears address).get (.slot owner index) =
      if clears ∧ owner = address then (0 : U256) else disk.get (.slot owner index) := by
  cases clears with
  | false => simp [clearStorage]
  | true =>
    by_cases hne : owner = address
    · subst hne
      simp only [clearStorage, get, if_true, lookup_filter]
      rfl
    · simp only [clearStorage, get, hne, if_true, and_false, if_false, lookup_filter]

theorem foldl_deleted_get_slot (deleted : List H256) (disk : DiskState) (owner index : H256) :
    (deleted.foldl (fun disk address => (disk.writeAccount address none).clearStorage clears address)
        disk).get (.slot owner index) =
      if clears ∧ owner ∈ deleted then (0 : U256) else disk.get (.slot owner index) := by
  induction deleted generalizing disk with
  | nil => simp
  | cons address _ ih =>
    rw [foldl_cons, ih, clearStorage_get_slot]
    by_cases hclears : clears = true
    · by_cases howner : owner = address
      · simp [hclears, howner]
      · simp [howner]
        rfl
    · simp [hclears]
      rfl

theorem writeStorage_get_slot (index owner slot : H256) (value : U256) :
    (disk.writeStorage address index value).get (.slot owner slot) =
      if (owner, slot) = (address, index) then value else disk.get (.slot owner slot) := by
  simp only [get, writeStorage, lookup_cons]
  by_cases h : (owner, slot) = (address, index)
  · simp [h]
  · rw [if_neg h, beq_eq_false_iff_ne.mpr h]

theorem mem_storageSlots {disk : DiskState} {address index : H256} :
    index ∈ disk.storageSlots address ↔ disk.get (.slot address index) ≠ (0 : U256) := by
  rw [storageSlots, mem_map]
  constructor
  · rintro ⟨⟨_, _⟩, hmem, rfl⟩
    obtain ⟨howner, hvalue⟩ := Bool.and_eq_true_iff.mp (mem_filter.mp hmem).2
    cases of_decide_eq_true howner
    exact of_decide_eq_true hvalue
  · intro h
    have hkey : (address, index) ∈ disk.slots.map (·.1) := by
      by_contra hnot
      apply h
      have hnone : disk.slots.lookup (address, index) = none := by
        rw [lookup_eq_none_iff]
        intro entry hentry
        have hne : (address, index) ≠ entry.1 := by
          intro heq
          rw [heq] at hnot
          exact hnot (mem_map_of_mem hentry)
        simpa using hne
      simp [get, hnone]
    exact ⟨(address, index), mem_filter.mpr ⟨hkey, by simpa using h⟩, rfl⟩

theorem updateBlock_accounts : (disk.updateBlock clears block).accounts address =
      ((new block).accounts address).getD (disk.accounts address) := by
  let field := fun disk : DiskState => disk.accounts address
  refine (foldl_keeps field _ _ _ fun _ _ _ => by rfl).trans ?_
  refine (foldl_keeps field _ _ _ fun _ _ _ => by
    exact foldl_keeps field _ _ _ fun _ _ _ => rfl).trans ?_
  -- Both sides apply the same insertions in the same order.
  refine foldl_rel (r := fun (disk' : DiskState) (map : HashMap H256 (Option AccountInfo)) =>
    disk'.accounts address = (map address).getD (disk.accounts address)) ?_ ?_
  · refine foldl_rel (r := fun (disk' : DiskState) (map : HashMap H256 (Option AccountInfo)) =>
      disk'.accounts address = (map address).getD (disk.accounts address)) rfl ?_
    intro deleted _ _ _ hrel
    by_cases h : address = deleted
    · subst h
      simp [writeAccount]
    · simpa [writeAccount, update_of_ne h, insert_of_ne _ _ h] using hrel
  · intro account _ _ _ hrel
    by_cases h : address = account.address
    · subst h
      simp [writeAccount]
    · simpa [writeAccount, update_of_ne h, insert_of_ne _ _ h] using hrel

theorem updateBlock_slot (owner slot : H256) : (disk.updateBlock clears block).get (.slot owner slot) =
      ((new block).storage (owner, slot)).getD
        (if clears ∧ owner ∈ block.diff.deletedAccounts then 0 else disk.get (.slot owner slot)) := by
  let field := fun disk : DiskState => disk.get (.slot owner slot)
  refine (foldl_keeps field _ _ _ fun _ _ _ => by rfl).trans ?_
  let below : U256 := if clears ∧ owner ∈ block.diff.deletedAccounts then 0 else disk.get (.slot owner slot)
  refine foldl_rel (r := fun (disk' : DiskState) (map : HashMap (H256 × H256) U256) =>
    disk'.get (.slot owner slot) = (map (owner, slot)).getD below) ?_ ?_
  · refine (foldl_keeps field _ _ _ fun _ _ _ => by rfl).trans ?_
    exact foldl_deleted_get_slot clears _ _ owner slot
  · intro account _ disk' map hrel
    refine foldl_rel (r := fun (disk' : DiskState) (map : HashMap (H256 × H256) U256) =>
      disk'.get (.slot owner slot) = (map (owner, slot)).getD below) hrel ?_
    intro pair _ _ _ hrel
    rw [writeStorage_get_slot]
    by_cases h : (owner, slot) = (account.address, pair.index)
    · simp [h]
    · rw [if_neg h, insert_of_ne _ _ h, hrel]

theorem updateBlock_codes (codeHash : H256) : (disk.updateBlock clears block).get (.code codeHash) =
      ((new block).contracts codeHash).getD (disk.get (.code codeHash)) := by
  refine foldl_rel (r := fun (disk' : DiskState) (map : HashMap H256 Bytes) =>
    disk'.get (.code codeHash) = (map codeHash).getD (disk.get (.code codeHash))) ?_ ?_
  · let field := fun disk : DiskState => disk.get (.code codeHash)
    refine (foldl_keeps field _ _ _ fun _ _ _ => by
      exact foldl_keeps field _ _ _ fun _ _ _ => rfl).trans ?_
    refine (foldl_keeps field _ _ _ fun _ _ _ => by rfl).trans ?_
    exact foldl_keeps field _ _ _ fun _ _ _ => by simp [field, get, writeAccount]
  · intro code _ _ _ hrel
    by_cases h : codeHash = code.codeHash
    · subst h
      simp [get, writeCode]
    · simpa [get, writeCode, update_of_ne h, insert_of_ne _ _ h] using hrel

theorem updateBlock_blockHashes (number : U64) : (disk.updateBlock clears block).blockHashes number =
      if block.info.number = number then block.info.hash else disk.blockHashes number := by
  let field := fun disk : DiskState => disk.blockHashes number
  refine (foldl_keeps field _ _ _ fun _ _ _ => by rfl).trans ?_
  refine (foldl_keeps field _ _ _ fun _ _ _ => by
    exact foldl_keeps field _ _ _ fun _ _ _ => rfl).trans ?_
  refine (foldl_keeps field _ _ _ fun _ _ _ => by rfl).trans ?_
  refine (foldl_keeps field _ _ _ fun _ _ _ => by simp [field, writeAccount]).trans ?_
  simp only [field, writeBlockHash, update_apply, eq_comm]

theorem updateBlock_blockHash_get (number : U64) : (disk.updateBlock clears block).get (.blockHash number) =
      ((new block).get (.blockHash number)).getD (disk.get (.blockHash number)) := by
  have hlayer : (new block).get (.blockHash number) =
      if block.info.number = number then some block.info.hash else none := rfl
  rw [hlayer]
  refine (updateBlock_blockHashes clears disk block number).trans ?_
  split <;> rfl

theorem updateBlock_account_get : (disk.updateBlock clears block).get (.account address) =
      (((new block).accounts address).map (Option.map AccountInfo.readBack)).getD
        (disk.get (.account address)) := by
  simp only [get, updateBlock_accounts]
  cases (new block).accounts address <;> rfl

/-- **The disk after a commit.** The committed block's layer, as the database reads it back, over the
disk before, where no deletion clears the slot. -/
theorem updateBlock_get (k : StateKey) (hkept : clears = true → block.diff.deletesOwner k = false) :
    (disk.updateBlock clears block).get k = (((new block).get k).map k.readBack).getD (disk.get k) := by
  cases k with
  | account address => exact updateBlock_account_get clears disk block address
  | slot owner slot =>
    have hnot : ¬ (clears = true ∧ owner ∈ block.diff.deletedAccounts) := by
      rintro ⟨hclears, hdeleted⟩
      simpa [deletesOwner, hdeleted] using hkept hclears
    refine (updateBlock_slot clears disk block owner slot).trans ?_
    rw [if_neg hnot]
    exact congrArg (Option.getD · _) Option.map_id'.symm
  | code codeHash =>
    refine (updateBlock_codes clears disk block codeHash).trans ?_
    exact congrArg (Option.getD · _) Option.map_id'.symm
  | blockHash number =>
    refine (updateBlock_blockHash_get clears disk block number).trans ?_
    exact congrArg (Option.getD · _) Option.map_id'.symm

theorem updateBlock_get_of_keeps {block : Block} {k : StateKey} (h : block.keeps k = true) :
    (disk.updateBlock clears block).get k = ((new block).get k).getD (disk.get k) := by
  simp only [Block.keeps, Bool.and_eq_true, Bool.not_eq_true'] at h
  rw [updateBlock_get clears disk block k fun _ => h.1]
  cases hget : (new block).get k with
  | none => rfl
  | some => simpa [hget] using h.2

theorem updateBlock_get_of_some {k : StateKey} {value : k.Value} (hwrites : (new block).get k = some value) :
    (disk.updateBlock clears block).get k = k.readBack value := by
  cases k with
  | slot owner slot =>
    have hstorage : (new block).storage (owner, slot) = some value := hwrites
    rw [updateBlock_slot, hstorage]
    rfl
  | account | code | _ =>
    rw [updateBlock_get clears disk block _ fun _ => rfl, hwrites]
    rfl

end DiskState

variable (block : Block)

@[simp] theorem DiffLayer.new_block : (new block).block = block := rfl

theorem DiffLayer.new_accounts : (new block).accounts =
    block.diff.accountWrites.foldl (fun map write => map.insert write.1 write.2) empty := by
  simp only [new, accountWrites, foldl_append, foldl_map]

theorem DiffLayer.new_storage : (new block).storage =
    block.diff.slotWrites.foldl (fun map write => map.insert write.1 write.2) empty := by
  simp only [new, slotWrites, foldl_flatMap, foldl_map]

/-- What a key reads as through layers that lie over `base`. -/
def overlay (layers : List DiffLayer) (k : StateKey) (base : k.Value) : k.Value :=
  (lookupLayers layers k).getD base

@[simp] theorem overlay_cons (layer : DiffLayer) (layers : List DiffLayer) (k : StateKey)
    (base : k.Value) : overlay (layer :: layers) k base = (layer.get k).getD (overlay layers k base) := by
  simp only [overlay, lookupLayers, findSome?_cons]
  cases layer.get k <;> rfl

theorem overlay_append (upper lower : List DiffLayer) (k : StateKey) (base : k.Value) :
    overlay (upper ++ lower) k base = overlay upper k (overlay lower k base) := by
  induction upper with
  | nil => rfl
  | cons _ _ ih => simp only [cons_append, overlay_cons, ih]

def DiskState.replay (clears : Bool) (disk : DiskState) (chain : List Block) : DiskState :=
  chain.foldr (fun block disk => disk.updateBlock clears block) disk

@[simp] theorem DiskState.replay_cons (clears : Bool) (disk : DiskState) (block : Block) (chain : List Block) :
    disk.replay clears (block :: chain) = (disk.replay clears chain).updateBlock clears block := rfl

/-- Committing a chain leaves what its layers show over the disk below it. -/
theorem replay_get (clears : Bool) (disk : DiskState) (chain : List Block) (k : StateKey)
    (hkept : ∀ block ∈ chain, block.keeps k = true) :
    (disk.replay clears chain).get k = overlay (chain.map .new) k (disk.get k) := by
  induction chain with
  | nil => rfl
  | cons block _ ih =>
    rw [replay_cons, map_cons, overlay_cons, updateBlock_get_of_keeps clears _ (hkept block (.head _)),
      ih fun b hb => hkept b (.tail _ hb)]

/-! ### Reads through the cache -/

namespace CacheEntries

variable (cache : CacheEntries)

@[simp] theorem insert_self (k : StateKey) (tag : U64) (value : k.Value) :
    cache.insert k tag value k = some (tag, value) := by
  simp [insert]

theorem insert_of_ne {k k' : StateKey} (tag : U64) (value : k.Value) (h : k' ≠ k) :
    cache.insert k tag value k' = cache k' := by
  simp [insert, update_of_ne h]

theorem evict_eq_some {cache : CacheEntries} {k k' : StateKey} {entry : U64 × k'.Value}
    (h : cache.evict k k' = some entry) : cache k' = some entry := by
  by_cases hk : k' = k
  · subst hk
    simp [evict] at h
  · rwa [evict, update_of_ne hk] at h

theorem refill_cases (k : StateKey) (tag : U64) (value : k.Value) :
    cache.refill k tag value = cache ∨
      ((∀ current old, cache k = some (current, old) → current < tag) ∧
        cache.refill k tag value = cache.insert k tag value) := by
  cases hentry : cache k with
  | none =>
    refine .inr ⟨?_, by simp only [refill, hentry]⟩
    nofun
  | some entry =>
    obtain ⟨current, _⟩ := entry
    by_cases hlower : current < tag
    · refine .inr ⟨?_, by simp only [refill, hentry, if_pos hlower]⟩
      intro _ _ h
      cases h
      exact hlower
    · exact .inl (by simp only [refill, hentry, if_neg hlower])

end CacheEntries

namespace HybridStateDB

variable (handle : HybridStateDB) (cache : CacheEntries) (k : StateKey)

/-- What the layers and the cache have. -/
def lookup : Option k.Value :=
  (lookupLayers handle.layers k).or (if handle.cached then (cache k).map (·.2) else none)

theorem read_fst : (handle.read cache k).1 = (handle.lookup cache k).getD (handle.statedb.get k) := by
  unfold read lookup
  split
  · next hlayer => rw [hlayer]; rfl
  · next hlayer =>
    rw [hlayer]
    split
    · split
      · next hentry => rw [hentry]; rfl
      · next hentry =>
        rw [hentry]
        split <;> rfl
    · rfl

/-- A read leaves the cache as it was or with the disk's answer in a place that was free. -/
theorem read_snd : (handle.read cache k).2 = cache ∨
    cache k = none ∧ ∃ height, (handle.read cache k).2 = cache.insert k height (handle.statedb.get k) := by
  unfold read
  split
  · exact .inl rfl
  split
  · split
    · exact .inl rfl
    · next hentry =>
      split
      · next height _ => exact .inr ⟨hentry, height, by simp only [refill, hentry]⟩
      · exact .inl rfl
  · exact .inl rfl

theorem read_entries {k' : StateKey} {tag : U64} {value : k'.Value} (h : (handle.read cache k).2 k' = some (tag, value)) :
    cache k' = some (tag, value) ∨ value = handle.statedb.get k' := by
  rcases handle.read_snd cache k with heq | ⟨-, height, heq⟩
  · exact .inl (heq ▸ h)
  rw [heq] at h
  by_cases hk : k' = k
  · subst hk
    rw [insert_self] at h
    cases h
    exact .inr rfl
  · rw [insert_of_ne _ _ _ hk] at h
    exact .inl h

theorem read_eq (hcoherent : handle.cached = true → ∀ tag value, cache k = some (tag, value) →
    value = handle.statedb.get k) : (handle.read cache k).1 = overlay handle.layers k (handle.statedb.get k) := by
  rw [read_fst, lookup, Option.getD_or, overlay]
  congr 1
  split
  · next hcached =>
    cases hentry : cache k with
    | none => rfl
    | some entry => exact hcoherent hcached entry.1 entry.2 hentry
  · rfl

end HybridStateDB

/-! ### Small histories -/

/-- A database that holds block 0, with hash 100, and nothing else. -/
def genesisDisk : DiskState where
  latest := ⟨100, 0, 0⟩
  accounts := fun _ => none
  slots := []
  codes := fun _ => none
  blockHashes := fun _ => 0

/-- A block that writes `value` to slot 2 of account 1. -/
def slotBlock (hash parentHash : H256) (number : U64) (value : U256) : Block where
  info := ⟨hash, parentHash, number⟩
  diff := { storageDiffs := [⟨1, [⟨2, value⟩]⟩] }

/-- A block that writes nothing. -/
def emptyBlock (hash parentHash : H256) (number : U64) : Block where
  info := ⟨hash, parentHash, number⟩

end LeafageEvm
