import LeafageEvm.ArchiveHistory
import LeafageEvm.ArchiveSlots

/-! An archive holds the history committed into it: its tables have a row for every write of the
history and no other. Each commit keeps that, and it determines every read. -/

namespace LeafageEvm
open AccountInfo VersionTable DiffLayer OrderedMap List
variable {len : Nat} {backend : Backend} {table : VersionTable len}

/-- What a batch of versions of one block leaves in a table. -/
theorem VersionTable.row_commit {I W : Type} [DecidableEq I]
    (table : VersionTable len) {owner : I → Owner len} (howner : Function.Injective owner)
    (store : Bytes → Bytes) (bytes : W → Bytes) {versions : I → U64 → Option W}
    (hrows : ∀ i n, table.row backend (versionKey backend.inverted (owner i) n) =
      (versions i n).map fun value => store (bytes value)) (number : U64) (items : List (I × W)) (i : I) (n : U64) :
    (table.putAll backend ((batched (items.map fun item =>
        (versionKey backend.inverted (owner item.1) number, bytes item.2))).map
          fun write => (write.1, store write.2))).row backend (versionKey backend.inverted (owner i) n) =
      ((if n = number then items.foldl (fun map item => map.insert item.1 item.2) HashMap.empty i
        else none).or (versions i n)).map fun value => store (bytes value) := by
  have hcompose : ∀ written : Option W,
      written.map (fun value => store (bytes value)) = (written.map bytes).map store := by
    intro _
    rw [Option.map_map]
    rfl
  rw [row_putAll, hrows, hcompose, lastWrite_mapValue, lastWrite_batched, hcompose]
  · congr 1
    by_cases hn : n = number
    · subst hn
      have hkey : Function.Injective fun i => versionKey backend.inverted (owner i) n :=
        fun i j h => howner (versionKey_inj h).1
      rw [lastWrite_map hkey bytes (fun i => versions i n), HashMap.foldl_insert_or, if_pos rfl]
    rw [if_neg hn, Option.none_or, lastWrite_of_forall_ne]
    intro _ hwrite hkey
    obtain ⟨_, -, rfl⟩ := mem_map.mp hwrite
    exact hn (versionKey_inj hkey).2.symm
  · intro _ hwrite
    obtain ⟨_, hmem, rfl⟩ := mem_map.mp hwrite
    obtain ⟨item, -, rfl⟩ := mem_map.mp (mem_of_mem_batched hmem)
    exact ⟨owner item.1, number, rfl⟩

theorem VersionTable.WellFormed.commit {I W : Type} (hwf : table.WellFormed backend)
    (owner : I → Owner len) (store : Bytes → Bytes) (bytes : W → Bytes) (number : U64) (items : List (I × W)) :
    (table.putAll backend ((batched (items.map fun item =>
        (versionKey backend.inverted (owner item.1) number, bytes item.2))).map
          fun write => (write.1, store write.2))).WellFormed backend := by
  apply hwf.putAll
  intro _ hwrite
  obtain ⟨_, hmem, rfl⟩ := mem_map.mp hwrite
  obtain ⟨item, -, rfl⟩ := mem_map.mp (mem_of_mem_batched hmem)
  exact ⟨owner item.1, number, rfl⟩

theorem VersionTable.find_eq {W : Type} (hwf : table.WellFormed backend) {owner : Owner len}
    {bytes : W → Bytes} {writes : List (U64 × W)} (hsorted : writes.Pairwise fun a b => b.1 < a.1)
    (hrows : ∀ n, table.row backend (versionKey backend.inverted owner n) = (versionsOf writes n).map bytes) (blockNum : U64) :
    table.find backend owner blockNum =
      (writes.find? fun write => write.1 ≤ blockNum).map fun write => (write.1, bytes write.2) := by
  have hfind := find_readsLatest hwf owner blockNum
  simp only [hrows] at hfind
  exact hfind.unique ((readsLatest_find? hsorted blockNum).map bytes)

theorem slotOwner_injective : Function.Injective fun key : H256 × H256 => slotOwner key.1 key.2 := by
  intro _ _ h
  obtain ⟨haddress, hslot⟩ := slotOwner_inj h
  exact Prod.ext haddress hslot

def slotBytes (backend : Backend) (value : U256) : Bytes := backend.stored (toBE 32 value)

/-- What is stored for a value decodes to it, stripped of its leading zeros or not. -/
theorem decodeStorage_slotBytes (backend : Backend) (value : U256) :
    decodeStorage (slotBytes backend value) = value := by
  have hvalue : ofBE (slotBytes backend value) = value := by
    unfold slotBytes Backend.stored
    split
    · rw [stripLeadingZeros, ofBE_dropWhile_zero, ofBE_toBE 32 value.isLt]
    · exact ofBE_toBE 32 value.isLt
  rw [decodeStorage, hvalue]
  exact Fin.ofNat_val_eq_self value

def AccountInfo.toNewAccount (address : H256) (account : AccountInfo) : NewAccount :=
  ⟨address, account.balance, account.nonce, account.codeHash⟩

namespace Archive

variable {codec : Codec} {archive : Archive} {history : List Block}

theorem decodeAccount_accountBytes (address : H256) (account : Option AccountInfo) :
    decodeAccount codec address (accountBytes codec account) =
      account.map fun account => account.readBack.toNewAccount address := by
  cases account with
  | none => rfl
  | some =>
    simp [decodeAccount, accountBytes, codec.encodeAccount_ne_nil, codec.decode_encodeAccount,
      readBack, toNewAccount]

/-- The versioned tables and the block index hold the writes of the history. Codes, which have no
versions and outlive a rewind, are apart. -/
structure Holds (codec : Codec) (archive : Archive) (history : List Block) : Prop where
  accounts_wellFormed : archive.accounts.WellFormed archive.backend
  storage_wellFormed : archive.storage.WellFormed archive.backend
  accounts : ∀ address n,
    archive.accounts.row archive.backend (versionKey archive.backend.inverted (accountOwner address) n) =
      (versionsOf (accountVersions history address) n).map (accountBytes codec)
  storage : ∀ address slot n,
    archive.storage.row archive.backend (versionKey archive.backend.inverted (slotOwner address slot) n) =
      (versionsOf (slotVersions archive.backend.clears address slot history) n).map
        (slotBytes archive.backend)
  blockHashes : ∀ n, archive.blockHashes.get (encodeBlockNum n) =
    (history.find? fun block => block.info.number = n).map fun block => hashBytes block.info.hash
  headers : ∀ hash, archive.headers.get (hashBytes hash) =
    (history.find? fun block => block.info.hash = hash).map fun block => codec.encodeHeader block.info
  latest : archive.latest = history.head?.map fun block => hashBytes block.info.hash

theorem holds_empty (codec : Codec) (backend : Backend) : (empty backend).Holds codec [] where
  accounts_wellFormed := VersionTable.wellFormed_empty
  storage_wellFormed := VersionTable.wellFormed_empty
  accounts := by
    intro _ n
    simp only [empty, VersionTable.empty]
    split <;> rfl
  storage := by
    intro _ _ n
    simp only [empty, VersionTable.empty]
    split <;> rfl
  blockHashes := fun _ => rfl
  headers := fun _ => rfl
  latest := rfl

/-! ### Reads -/

section
variable (h : archive.Holds codec history)
include h
theorem Holds.latestBlockNum : archive.latestBlockNum codec = handleHeight history := by
  cases history with
  | nil => simp [latestBlockNum, readLatestBlockHash, h.latest, handleHeight]
  | cons block =>
    have hlatest : archive.readLatestBlockHash = block.info.hash := by
      simp [readLatestBlockHash, h.latest]
    rw [latestBlockNum, hlatest, handleHeight]
    split
    · rfl
    · rw [readBlockInfo, h.headers, find?_cons_of_pos (by simp)]
      simp only [Option.map_some, Option.bind_some, codec.decode_encodeHeader]
      cases archive.backend <;> rfl

section
variable (hasc : Ascending history) (blockNum : U64)
include hasc
theorem Holds.findAccount (address : H256) :
    archive.accounts.find archive.backend (accountOwner address) blockNum =
      ((accountVersions history address).find? fun version => version.1 ≤ blockNum).map fun version =>
        (version.1, accountBytes codec version.2) :=
  find_eq h.accounts_wellFormed (hasc.writesOf _) (h.accounts address) blockNum

theorem Holds.readAccount (address : H256) : archive.readAccount codec blockNum address =
      ((accountVersions history address).find? fun version => version.1 ≤ blockNum).bind fun version =>
        version.2.map fun account => account.readBack.toNewAccount address := by
  rw [Archive.readAccount, h.findAccount hasc, Option.bind_map]
  simp only [Function.comp_def, decodeAccount_accountBytes]

theorem Holds.accountVersion (address : H256) : archive.accountVersion blockNum address =
      ((accountVersions history address).find? fun version => version.1 ≤ blockNum).map (·.1) := by
  rw [Archive.accountVersion, h.findAccount hasc, Option.map_map]
  rfl

section
variable (address slot : H256)

theorem Holds.findSlot : archive.storage.find archive.backend (slotOwner address slot) blockNum =
      ((slotVersions archive.backend.clears address slot history).find? fun version =>
        version.1 ≤ blockNum).map fun version => (version.1, slotBytes archive.backend version.2) := by
  have hsorted := hasc.slotVersions archive.backend.clears address slot
  exact find_eq h.storage_wellFormed hsorted (h.storage address slot) blockNum

theorem Holds.readStorageAndHeight : archive.readStorageAndHeight blockNum address slot =
      let versions := slotVersions archive.backend.clears address slot history
      (slotValue versions blockNum, (versions.find? fun version => version.1 ≤ blockNum).map (·.1)) := by
  simp only [Archive.readStorageAndHeight, h.findSlot hasc, slotValue]
  cases (slotVersions archive.backend.clears address slot history).find? fun version => version.1 ≤ blockNum with
  | none => rfl
  | some => simp [decodeStorage_slotBytes]

theorem Holds.readStorage : archive.readStorage blockNum address slot =
      slotValue (slotVersions archive.backend.clears address slot history) blockNum := by
  rw [Archive.readStorage, h.readStorageAndHeight hasc]
end

end
end

/-! ### Commits -/

section
variable (hwf : archive.storage.WellFormed archive.backend)
include hwf
theorem mem_clearedSlots {block : Block} {address slot : H256} :
    (address, slot) ∈ (block.diff.deletedAccounts.flatMap (archive.clearedSlots codec)).map (·.1) ↔
      archive.backend.clears ∧ address ∈ block.diff.deletedAccounts ∧
        archive.readStorage (archive.latestBlockNum codec) address slot ≠ 0 := by
  have hslots := archive.mem_storageSlots hwf (archive.latestBlockNum codec) address slot
  rw [← hslots, mem_map, mem_map]
  constructor
  · rintro ⟨_, hitem, hkey⟩
    obtain ⟨_, hdeleted, hcleared⟩ := mem_flatMap.mp hitem
    unfold clearedSlots at hcleared
    split at hcleared
    · next hclears =>
      obtain ⟨slot', hslot', rfl⟩ := mem_map.mp hcleared
      cases hkey
      exact ⟨hclears, hdeleted, slot', hslot', rfl⟩
    · cases hcleared
  · rintro ⟨hclears, hdeleted, slot', hslot', rfl⟩
    refine ⟨((address, slot'.1), 0), mem_flatMap.mpr ⟨address, hdeleted, ?_⟩, rfl⟩
    rw [clearedSlots, if_pos hclears]
    exact mem_map_of_mem hslot'

theorem foldl_insert_slotItems (block : Block) (address slot : H256) :
    (archive.slotItems codec block).foldl (fun map item => map.insert item.1 item.2) HashMap.empty
        (address, slot) =
      slotWrite archive.backend.clears address slot
        (archive.readStorage (archive.latestBlockNum codec) address slot) block := by
  have hzero : ∀ item ∈ block.diff.deletedAccounts.flatMap (archive.clearedSlots codec), item.2 = 0 := by
    intro _ hitem
    obtain ⟨_, -, hcleared⟩ := mem_flatMap.mp hitem
    unfold clearedSlots at hcleared
    split at hcleared
    · obtain ⟨_, -, rfl⟩ := mem_map.mp hcleared
      rfl
    · cases hcleared
  rw [slotItems, foldl_append, HashMap.foldl_insert_or, ← new_storage,
    HashMap.foldl_insert_const _ hzero, slotWrite]
  simp only [mem_clearedSlots hwf]
end

theorem Holds.updateBlock (h : archive.Holds codec history) (hasc : Ascending history) (block : Block) :
    (archive.updateBlock codec block).Holds codec (block :: history) where
  accounts_wellFormed := by
    have hcommit := h.accounts_wellFormed.commit accountOwner id (accountBytes codec) block.info.number
      block.diff.accountWrites
    simp only [id_eq, map_id', ← blockBatch_accountWrites codec archive block] at hcommit
    exact hcommit
  storage_wellFormed := by
    have hcommit := h.storage_wellFormed.commit (fun key => slotOwner key.1 key.2)
      archive.backend.stored (fun value : U256 => toBE 32 value) block.info.number
      (archive.slotItems codec block)
    rw [Archive.updateBlock, commit, blockBatch_storageWrites]
    exact hcommit
  accounts := by
    intro address n
    have hrow := archive.accounts.row_commit accountOwner_injective id (accountBytes codec)
      h.accounts block.info.number block.diff.accountWrites address n
    simp only [id_eq, Prod.mk.eta, map_id', ← blockBatch_accountWrites codec archive block,
      ← new_accounts] at hrow
    rw [accountVersions, writesOf, versionsOf_toList_append]
    exact hrow
  storage := by
    intro address slot n
    have hrow := archive.storage.row_commit slotOwner_injective archive.backend.stored
      (fun value : U256 => toBE 32 value) (fun key n => h.storage key.1 key.2 n) block.info.number
      (archive.slotItems codec block) (address, slot) n
    rw [foldl_insert_slotItems h.storage_wellFormed, h.readStorage hasc, h.latestBlockNum] at hrow
    rw [Archive.updateBlock, commit, blockBatch_storageWrites, slotVersions, versionsOf_toList_append]
    exact hrow
  blockHashes := by
    intro n
    have hwrites := archive.blockBatch_index codec WriteBatch.blockHashWrites
      (fun _ _ _ _ => rfl) (fun _ _ _ _ _ => rfl) (fun _ _ _ => rfl) (fun _ _ => rfl) block
    simp only [Archive.updateBlock, commit, hwrites, writeBlockInfo, writeBlockHash, nil_append,
      foldl_cons, foldl_nil]
    by_cases hn : block.info.number = n
    · rw [hn, get_put_self, find?_cons_of_pos (by simpa using hn), Option.map_some]
    · rw [get_put_of_ne _ _ (fun heq => hn (encodeBlockNum_injective heq).symm), h.blockHashes,
        find?_cons_of_neg (by simpa using hn)]
  headers := by
    intro hash
    have hwrites := archive.blockBatch_index codec WriteBatch.headerWrites
      (fun _ _ _ _ => rfl) (fun _ _ _ _ _ => rfl) (fun _ _ _ => rfl) (fun _ _ => rfl) block
    simp only [Archive.updateBlock, commit, hwrites, writeBlockInfo, writeBlockHash, nil_append,
      foldl_cons, foldl_nil]
    by_cases hn : block.info.hash = hash
    · rw [hn, get_put_self, find?_cons_of_pos (by simpa using hn), Option.map_some]
    · rw [get_put_of_ne _ _ (fun heq => hn (hashBytes_injective heq).symm), h.headers,
        find?_cons_of_neg (by simpa using hn)]
  latest := rfl

theorem updateBlocks_backend (codec : Codec) (archive : Archive) (history : List Block) :
    (archive.updateBlocks codec history).backend = archive.backend := by
  induction history with
  | nil => rfl
  | cons _ _ ih => exact ih

theorem Holds.updateBlocks (h : archive.Holds codec history) {branch : List Block}
    (hasc : Ascending (branch ++ history)) : (archive.updateBlocks codec branch).Holds codec (branch ++ history) := by
  induction branch with
  | nil => exact h
  | cons block _ ih =>
    have hrest := (pairwise_cons.mp hasc).2
    exact (ih hrest).updateBlock hrest block

theorem holds_updateBlocks (codec : Codec) (backend : Backend) (hasc : Ascending history) :
    ((empty backend).updateBlocks codec history).Holds codec history := by
  have hbranch : Ascending (history ++ []) := by rwa [append_nil]
  have h := (holds_empty codec backend).updateBlocks hbranch
  rwa [append_nil] at h

end Archive

/-- Encoders of fixed width, to evaluate archives with. -/
def fixedCodec : Codec where
  encodeAccount account := toBE 32 account.balance ++ (toBE 8 account.nonce ++ hashBytes account.codeHash)
  decodeAccount raw := some ⟨decodeStorage (raw.take 32), Fin.ofNat (2 ^ 64) (ofBE ((raw.drop 32).take 8)),
    hashOfBytes ((raw.drop 32).drop 8)⟩
  decode_encodeAccount := by
    intro account
    rw [take_left' (length_toBE 32 _), drop_left' (length_toBE 32 _),
      take_left' (length_toBE 8 _), drop_left' (length_toBE 8 _), hashOfBytes_hashBytes,
      decodeStorage, ofBE_toBE 32 account.balance.isLt, ofBE_toBE 8 account.nonce.isLt]
    simp
  encodeAccount_ne_nil := by
    intro account h
    have hlength := congrArg List.length h
    simp at hlength
  encodeHeader info := hashBytes info.hash ++ (hashBytes info.parentHash ++ toBE 8 info.number)
  decodeHeader raw := some ⟨hashOfBytes (raw.take 32), hashOfBytes ((raw.drop 32).take 32),
    Fin.ofNat (2 ^ 64) (ofBE ((raw.drop 32).drop 32))⟩
  decode_encodeHeader := by
    intro info
    rw [take_left' (length_hashBytes _), drop_left' (length_hashBytes _),
      take_left' (length_hashBytes _), drop_left' (length_hashBytes _),
      hashOfBytes_hashBytes, hashOfBytes_hashBytes, ofBE_toBE 8 info.number.isLt]
    simp

/-- **Reads of a RocksDB archive.** A read at a height gives the newest write at or below it, with
the block of that write, or nothing; the layout of the tables does not matter. A deletion counts as
a write, of the account and of each of its slots that is not zero. An account is read back with its
code hash in normal form. -/
theorem Archive.reads_newest_write (codec : Codec) {history : List Block} (hasc : Ascending history)
    (blockNum : U64) (address slot : H256) :
    ∃ account stored,
      ReadsLatest (versionsOf (accountVersions history address)) blockNum account ∧
      ReadsLatest (versionsOf (slotVersions true address slot history)) blockNum stored ∧
      ∀ schema : ArchiveSchema,
        let archive := (Archive.empty (.rocksdb schema)).updateBlocks codec history
        archive.readAccount codec blockNum address =
          account.bind (fun version => version.2.map fun account => account.readBack.toNewAccount address) ∧
        archive.accountVersion blockNum address = account.map (·.1) ∧
        archive.readStorageAndHeight blockNum address slot =
          ((stored.map (·.2)).getD 0, stored.map (·.1)) := by
  refine ⟨_, _, readsLatest_find? (hasc.writesOf _) blockNum,
    readsLatest_find? (hasc.slotVersions true address slot) blockNum, fun schema => ?_⟩
  have h := Archive.holds_updateBlocks codec (.rocksdb schema) hasc
  have hclears : ((Archive.empty (.rocksdb schema)).updateBlocks codec history).backend.clears = true := by
    rw [Archive.updateBlocks_backend]
    rfl
  refine ⟨h.readAccount hasc blockNum address, h.accountVersion hasc blockNum address, ?_⟩
  rw [h.readStorageAndHeight hasc, hclears]
  rfl

def accountBlock (number : U64) (codeHash : H256) (value : U256) : Block where
  info := ⟨Fin.ofNat (2 ^ 256) (number + 1), Fin.ofNat (2 ^ 256) number, number⟩
  diff :=
    { newAccounts := [⟨7, 100, 1, codeHash⟩]
      storageDiffs := [⟨7, [⟨3, value⟩]⟩] }

def deletingBlock (number : U64) : Block where
  info := ⟨Fin.ofNat (2 ^ 256) (number + 1), Fin.ofNat (2 ^ 256) number, number⟩
  diff := { deletedAccounts := [7] }

/-- A slot written at block 2 whose account block 5 deletes reads as zero above. -/
theorem Archive.reads_newest_write_deleted :
    Ascending [deletingBlock 5, accountBlock 2 9 300] ∧
    ∀ schema : ArchiveSchema, ((empty (.rocksdb schema)).updateBlocks fixedCodec
      [deletingBlock 5, accountBlock 2 9 300]).readStorageAndHeight 6 7 3 = (0, some 5) := by
  have hasc : Ascending [deletingBlock 5, accountBlock 2 9 300] := by
    unfold Ascending
    decide
  refine ⟨hasc, fun schema => ?_⟩
  obtain ⟨_, stored, -, hstored, hreads⟩ := reads_newest_write fixedCodec hasc 6 7 3
  have hfound : some (5, 0) = stored :=
    (readsLatest_find? (hasc.slotVersions true 7 3) 6).unique hstored
  rw [(hreads schema).2.2, ← hfound]
  rfl

/-- An account written with a zero code hash is not read back as it was written. -/
theorem Archive.zero_code_hash_not_read_back :
    (new (accountBlock 2 0 300)).accounts 7 = some (some ⟨100, 1, 0⟩) ∧
    ((empty (.rocksdb .v2)).updateBlocks fixedCodec [accountBlock 2 0 300]).readAccount
      fixedCodec 2 7 = some ⟨7, 100, 1, keccak256Empty⟩ ∧ keccak256Empty ≠ 0 := by
  decide +kernel

end LeafageEvm
