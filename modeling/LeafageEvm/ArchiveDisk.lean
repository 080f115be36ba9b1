import LeafageEvm.ArchiveDeletion

/-! The archive as the disk below the state tree. What a handle at the latest block reads from a
RocksDB archive is what the disk of the layers holds, before and after every commit. -/

namespace LeafageEvm
open DiskState DiffLayer HashMap List

def Archive.get (codec : Codec) (archive : Archive) : (k : StateKey) → k.Value
  | .account address =>
    (archive.readAccount codec (archive.latestBlockNum codec) address).map NewAccount.toAccountInfo
  | .slot address index => archive.readStorage (archive.latestBlockNum codec) address index
  | .code codeHash => (archive.readCode codeHash).getD []
  | .blockHash number => archive.readBlockHash number

/-- A disk nothing has been committed to. -/
def DiskState.empty : DiskState := ⟨default, fun _ => none, [], fun _ => none, fun _ => 0⟩

theorem fromBlocks_accountVersions (history : List Block) (address : H256) :
    FromBlocks history (accountVersions history address) :=
  fun _ hversion => mem_writesOf hversion

section
variable {W : Type} {history : List Block} {versions : List (U64 × W)}

theorem find?_eq_head? {height : U64} (hle : ∀ block ∈ history, block.info.number ≤ height)
    (hfrom : FromBlocks history versions) : (versions.find? fun version => version.1 ≤ height) = versions.head? := by
  cases versions with
  | nil => rfl
  | cons version =>
    apply find?_cons_of_pos
    obtain ⟨other, hmem, hnumber⟩ := hfrom version (.head _)
    exact decide_eq_true (hnumber ▸ hle other hmem)

theorem find?_write_append {n height : U64} (hlt : height < n) (write : Option W) :
    (((write.map fun value => (n, value)).toList ++ versions).find? fun version => version.1 ≤ height) =
      versions.find? fun version => version.1 ≤ height := by
  cases write <;> simp [hlt.not_ge]

section
variable (hasc : Ascending history)
include hasc
theorem Ascending.le_handleHeight (hhash : ∀ block ∈ history.head?, block.info.hash ≠ 0) :
    ∀ block ∈ history, block.info.number ≤ handleHeight history := by
  intro _ hmem
  cases history with
  | nil => cases hmem
  | cons block =>
    rw [handleHeight, if_neg (hhash block rfl)]
    exact hasc.le_head hmem

theorem find?_handleHeight (hhash : ∀ block ∈ history, block.info.hash ≠ 0) (hfrom : FromBlocks history versions) :
    (versions.find? fun version => version.1 ≤ handleHeight history) = versions.head? :=
  find?_eq_head? (hasc.le_handleHeight fun block hhead => hhash block (mem_of_head? hhead)) hfrom

/-- The handle's height is the head's, so a deletion clears what is there. -/
theorem head?_slotVersions_cons (hhash : ∀ block ∈ history.head?, block.info.hash ≠ 0)
    (block : Block) (address slot : H256) :
    ((slotVersions true address slot (block :: history)).head?.map (·.2)).getD 0 =
      ((new block).storage (address, slot)).getD (if address ∈ block.diff.deletedAccounts then 0
        else ((slotVersions true address slot history).head?.map (·.2)).getD 0) := by
  rw [slotVersions, slotValue, find?_eq_head? (hasc.le_handleHeight hhash) (fromBlocks_slotVersions _ _ _ _), slotWrite]
  cases (new block).storage (address, slot) with
  | some => rfl
  | none =>
    by_cases hdeleted : address ∈ block.diff.deletedAccounts
    · simp only [hdeleted]
      split
      · rfl
      · next hzero => simpa using hzero
    · simp [hdeleted]
end

end

namespace Archive

variable {codec : Codec} {archive : Archive} {history : List Block}

section
variable (h : archive.Holds codec history)
include h
section
variable (hasc : Ascending history) (hhash : ∀ block ∈ history, block.info.hash ≠ 0)
include hasc hhash
theorem Holds.get_account (address : H256) : archive.get codec (.account address) =
      ((accountVersions history address).head?.bind (·.2)).map AccountInfo.readBack := by
  show (archive.readAccount codec _ address).map _ = _
  rw [h.readAccount hasc, h.latestBlockNum, find?_handleHeight hasc hhash (fromBlocks_accountVersions history address)]
  cases (accountVersions history address).head? with
  | none => rfl
  | some version =>
    obtain ⟨n, account⟩ := version
    cases account <;> rfl

theorem Holds.get_slot (address index : H256) : archive.get codec (.slot address index) =
      ((slotVersions archive.backend.clears address index history).head?.map (·.2)).getD 0 := by
  show archive.readStorage _ address index = _
  rw [h.readStorage hasc, h.latestBlockNum, slotValue, find?_handleHeight hasc hhash (fromBlocks_slotVersions _ _ _ _)]
end

theorem Holds.get_blockHash (number : U64) : archive.get codec (.blockHash number) =
      ((history.find? fun block => block.info.number = number).map (·.info.hash)).getD 0 := by
  show archive.readBlockHash number = _
  rw [readBlockHash, h.blockHashes]
  cases history.find? fun block => block.info.number = number with
  | none => rfl
  | some block => exact hashOfBytes_hashBytes block.info.hash

/-- **A commit to the archive is a commit to the disk.** -/
theorem Holds.updateBlock_get {block : Block} (hasc : Ascending (block :: history))
    (hhash : ∀ b ∈ block :: history, b.info.hash ≠ 0) (hclears : archive.backend.clears = true) {disk : DiskState}
    (hdisk : ∀ k, archive.get codec k = disk.get k) (k : StateKey) :
    (archive.updateBlock codec block).get codec k = (disk.updateBlock true block).get k := by
  have hrest := (pairwise_cons.mp hasc).2
  have hhashes := (forall_mem_cons.mp hhash).2
  have hnext := h.updateBlock hrest block
  cases k with
  | account address =>
    rw [hnext.get_account hasc hhash, updateBlock_account_get, ← hdisk,
      h.get_account hrest hhashes, accountVersions, writesOf]
    cases (new block).accounts address <;> rfl
  | slot =>
    have hbackend : (archive.updateBlock codec block).backend.clears = true := hclears
    rw [hnext.get_slot hasc hhash, updateBlock_slot, ← hdisk, h.get_slot hrest hhashes,
      hbackend, hclears, head?_slotVersions_cons hrest fun head hhead => hhashes head (mem_of_head? hhead)]
    simp only [true_and]
  | code codeHash =>
    rw [DiskState.updateBlock_codes, ← hdisk]
    show ((archive.updateBlock codec block).codes codeHash).getD [] = _
    rw [updateBlock_codes]
    cases (new block).contracts codeHash <;> rfl
  | blockHash number =>
    rw [hnext.get_blockHash]
    show _ = (disk.updateBlock true block).blockHashes number
    rw [updateBlock_blockHashes]
    by_cases hnumber : block.info.number = number
    · rw [find?_cons_of_pos (by simpa using hnumber), if_pos hnumber]
      rfl
    · rw [find?_cons_of_neg (by simpa using hnumber), if_neg hnumber, ← h.get_blockHash]
      exact hdisk (.blockHash number)
end

/-- **The archive refines the disk.** After any history of blocks with hashes, a handle at the latest
block reads what the disk holds after the same commits. -/
theorem updateBlocks_get (codec : Codec) (schema : ArchiveSchema) {history : List Block}
    (hasc : Ascending history) (hhash : ∀ block ∈ history, block.info.hash ≠ 0) (k : StateKey) :
    ((empty (.rocksdb schema)).updateBlocks codec history).get codec k =
      (DiskState.empty.replay true history).get k := by
  induction history generalizing k with
  | nil =>
    have h := holds_empty codec (.rocksdb schema)
    cases k with
    | account address => exact h.get_account .nil hhash address
    | slot address index => exact h.get_slot .nil hhash address index
    | code => rfl
    | blockHash number => exact h.get_blockHash number
  | cons _ older ih =>
    have hrest := (pairwise_cons.mp hasc).2
    have hhashes := (forall_mem_cons.mp hhash).2
    have h := holds_updateBlocks codec (.rocksdb schema) hrest
    have hclears : ((empty (.rocksdb schema)).updateBlocks codec older).backend.clears = true := by
      rw [updateBlocks_backend]
      rfl
    exact h.updateBlock_get hasc hhash hclears (ih hrest hhashes) k

theorem new_accounts_eq (block : Block) (address : H256) : (new block).accounts address =
    ((block.diff.newAccounts.reverse.find? fun account => account.address = address).map
      fun account => some account.toAccountInfo).or (if address ∈ block.diff.deletedAccounts then some none else none) := by
  refine (foldl_insert_or NewAccount.address _ block.diff.newAccounts _ address).trans ?_
  rw [foldl_insert_eq_find?, foldl_insert_const (fun deleted => deleted) fun _ _ => rfl, map_id']

/-- **A block is written as its diff says.** The last entry for a key counts, and counts more than a deletion; a
deletion takes the account and all it stores; nothing changes below the block. -/
theorem updateBlock_reads (codec : Codec) {archive : Archive} {schema : ArchiveSchema}
    (hbackend : archive.backend = .rocksdb schema) {history : List Block} (h : archive.Holds codec history) (block : Block)
    (hasc : Ascending (block :: history)) (hhash : ∀ head ∈ history.head?, head.info.hash ≠ 0) (address slot : H256) :
    let n := block.info.number
    let next := archive.updateBlock codec block
    (next.readAccount codec n address =
      match block.diff.newAccounts.reverse.find? fun account => account.address = address with
      | some account => some (account.toAccountInfo.readBack.toNewAccount address)
      | none => if address ∈ block.diff.deletedAccounts then none else archive.readAccount codec n address) ∧
    (next.readStorage n address slot =
      match block.diff.slotWrites.reverse.find? fun write => write.1 = (address, slot) with
      | some write => write.2
      | none => if address ∈ block.diff.deletedAccounts then 0 else archive.readStorage n address slot) ∧
    ∀ m < n, next.readAccount codec m address = archive.readAccount codec m address ∧
      next.readStorage m address slot = archive.readStorage m address slot := by
  intro n next
  obtain ⟨hfirst, hrest⟩ := pairwise_cons.mp hasc
  have hnext : next.Holds _ (block :: history) := h.updateBlock hrest block
  have hclears : next.backend.clears = true ∧ archive.backend.clears = true := by
    rw [show next.backend = archive.backend from rfl, hbackend]
    exact ⟨rfl, rfl⟩
  simp only [hnext.readAccount hasc, h.readAccount hrest, hnext.readStorage hasc, h.readStorage hrest, hclears, slotValue]
  have hbelow : ∀ other ∈ history, other.info.number ≤ n := fun other hmem => (hfirst other hmem).le
  have hlast : ∀ other ∈ block :: history, other.info.number ≤ n := fun other => hasc.le_head
  refine ⟨?_, ?_, fun m hm => ?_⟩
  · rw [find?_eq_head? hlast (fromBlocks_accountVersions _ _), accountVersions, writesOf, new_accounts_eq,
      find?_eq_head? hbelow (fromBlocks_accountVersions _ _)]
    cases block.diff.newAccounts.reverse.find? fun account => account.address = address with
    | some => rfl
    | none => split <;> rfl
  · rw [find?_eq_head? hlast (fromBlocks_slotVersions _ _ _ _), head?_slotVersions_cons hrest hhash, new_storage,
      foldl_insert_eq_find?, find?_eq_head? hbelow (fromBlocks_slotVersions _ _ _ _)]
    cases block.diff.slotWrites.reverse.find? fun write => write.1 = (address, slot) <;> rfl
  · rw [accountVersions, writesOf, slotVersions, find?_write_append hm, find?_write_append hm]
    exact ⟨rfl, rfl⟩

/-- Block 5 deletes an account and lists it anew, twice. -/
theorem updateBlock_reads_listed_twice :
    let archive := (empty (.rocksdb .v3)).updateBlocks fixedCodec [accountBlock 2 9 300]
    let block : Block := ⟨⟨6, 5, 5⟩, { deletedAccounts := [7], newAccounts := [⟨7, 1, 1, 9⟩, ⟨7, 2, 1, 9⟩] }⟩
    (archive.updateBlock fixedCodec block).readAccount fixedCodec 5 7 = some ⟨7, 2, 1, 9⟩ ∧
      (archive.updateBlock fixedCodec block).readStorage 5 7 3 = 0 := by
  intro archive block
  have h : archive.Holds fixedCodec [accountBlock 2 9 300] := holds_updateBlocks _ _ (pairwise_singleton ..)
  have hreads := updateBlock_reads fixedCodec rfl h block (by unfold Ascending; decide) (by decide) 7 3
  exact ⟨hreads.1, hreads.2.1⟩

/-- A new account with a zero code hash is not read as it is listed; and over a head with a zero hash, which is
taken for no block, a deletion leaves the slots. -/
theorem updateBlock_reads_fails :
    ((empty (.rocksdb .v2)).updateBlock fixedCodec (accountBlock 2 0 300)).readAccount fixedCodec 2 7 ≠ some ⟨7, 100, 1, 0⟩ ∧
    ((empty (.rocksdb .v2)).updateBlocks fixedCodec
      [deletingBlock 5, { accountBlock 2 9 300 with info := ⟨0, 2, 2⟩ }]).readStorage 5 7 3 = 300 := by
  decide +kernel

/-- **`storage_slots` ends, and lists the slots exactly or gives an error**, whatever lookups fail, if and only if no seek
of the slot iterator of v1 and v2 fails. -/
theorem tryStorageSlots_exact_iff {archive : Archive} (hwf : archive.storage.WellFormed archive.backend) (blockNum : U64)
    (address : H256) (seek : H256 → Bool) : (∀ lookup scan, let faults : SlotFaults := ⟨seek, lookup, scan⟩
      tryStorageSlots faults archive blockNum address ≠ .error .unfinished ∧
      ∀ slots, tryStorageSlots faults archive blockNum address = .ok slots →
        faults.Spare archive address ∧ Lists archive blockNum address (0 ≤ ·) slots) ↔
    (archive.storage.isPlain = true → ∀ start, Seeks archive address 0 start → seek start = false) := by
  cases htable : archive.storage with
  | stamped =>
    refine iff_of_true (fun lookup scan => ?_) nofun
    have hlists := storageSlots_lists hwf blockNum address
    cases scan <;> simp_all [tryStorageSlots, SlotFaults.Spare]
  | plain rows =>
    have hcases := fun lookup scan => trySlotsFrom_cases htable hwf ⟨seek, lookup, scan⟩ blockNum _ 0
      (Nat.lt_succ_of_le (length_filter_le (slotTarget address 0 ≤ ·.1) rows.entries))
    simp only [tryStorageSlots, SlotFaults.Spare, htable]
    constructor
    · intro h _ start hstart
      rcases hcases (fun _ => false) false with ⟨-, _, -, hfails⟩ | ⟨slots, hok, -⟩
      · cases hfails
      · exact ((h (fun _ => false) false).2 slots hok).1.1 start hstart
    · intro hseeks lookup scan
      rcases hcases lookup scan with ⟨herror, -⟩ | ⟨_, hok, hslots⟩
      · rw [herror]
        exact ⟨nofun, nofun⟩
      obtain ⟨hlists, hlookups⟩ := hslots (hseeks rfl)
      rw [hok]
      refine ⟨nofun, ?_⟩
      rintro _ ⟨⟩
      exact ⟨⟨hseeks rfl, fun slot hslot => hlookups slot hslot (Fin.zero_le slot)⟩, hlists⟩

set_option maxRecDepth 4096 in
/-- At block 4 one slot is zero again and another one is set; a lookup of it that fails is an error. -/
theorem tryStorageSlots_exact_two_blocks :
    let history := [{ accountBlock 4 9 0 with diff := { storageDiffs := [⟨7, [⟨3, 0⟩, ⟨4, 500⟩]⟩] } }, accountBlock 2 9 300]
    let archive := (empty (.rocksdb .v2)).updateBlocks fixedCodec history
    (∃ slots, tryStorageSlots ⟨fun _ => false, fun _ => false, false⟩ archive 4 7 = .ok slots ∧ slots = [(4, 500)] ∧
      Lists archive 4 7 (0 ≤ ·) slots) ∧
    (tryStorageSlots ⟨fun _ => false, (· = 4), false⟩ archive 4 7).toOption = none := by
  intro history archive
  have h : archive.Holds fixedCodec history := holds_updateBlocks _ _ (pairwise_pair.mpr (by decide))
  have hexact := (tryStorageSlots_exact_iff h.storage_wellFormed 4 7 fun _ => false).mpr fun _ _ _ => rfl
  have hlist : (tryStorageSlots ⟨fun _ => false, fun _ => false, false⟩ archive 4 7).toOption = some [(4, 500)] := by
    decide +kernel
  refine ⟨?_, by decide +kernel⟩
  cases hok : tryStorageSlots ⟨fun _ => false, fun _ => false, false⟩ archive 4 7 with
  | ok slots =>
    rw [hok] at hlist
    exact ⟨slots, rfl, Option.some.inj hlist, ((hexact ..).2 slots hok).2⟩
  | error =>
    rw [hok] at hlist
    cases hlist

/-- The first seek fails, and the slot that the account has is not listed. -/
theorem failed_seek_lists_nothing :
    let archive := (empty (.rocksdb .v2)).updateBlocks fixedCodec [accountBlock 2 9 300]
    (tryStorageSlots ⟨fun _ => true, fun _ => false, false⟩ archive 2 7).toOption = some [] ∧
      archive.readStorage 2 7 3 = 300 := by
  decide +kernel

end Archive
end LeafageEvm
