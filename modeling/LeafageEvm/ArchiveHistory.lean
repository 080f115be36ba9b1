import LeafageEvm.ArchiveModel
import LeafageEvm.LayerReads

/-! What an archive is for: the writes of a history of blocks, by key, and what they read as at a
height. -/

namespace LeafageEvm
open List WriteBatch

/-! ### The writes of a history

A history lists its blocks newest first. -/

/-- The writes to a key, with their heights, when a block over `older` writes `write older block`. -/
def writesOf {W : Type} (write : List Block → Block → Option W) : List Block → List (U64 × W)
  | [] => []
  | block :: older =>
    ((write older block).map fun value => (block.info.number, value)).toList ++ writesOf write older

def accountVersions (history : List Block) (address : H256) : List (U64 × Option AccountInfo) :=
  writesOf (fun _ block => (DiffLayer.new block).accounts address) history

/-- The height the next commit's handle reads at. A zero hash is no block. -/
def handleHeight : List Block → U64
  | [] => 0
  | block :: _ => if block.info.hash = 0 then 0 else block.info.number

def slotValue (versions : List (U64 × U256)) (blockNum : U64) : U256 :=
  ((versions.find? fun version => version.1 ≤ blockNum).map (·.2)).getD 0

/-- What a block writes to a slot that holds `held`: the value of its diff, else zero if it deletes
the account on a backend that clears. -/
def slotWrite (clears : Bool) (address slot : H256) (held : U256) (block : Block) : Option U256 :=
  ((DiffLayer.new block).storage (address, slot)).or
    (if clears ∧ address ∈ block.diff.deletedAccounts ∧ held ≠ 0 then some 0 else none)

def slotVersions (clears : Bool) (address slot : H256) : List Block → List (U64 × U256)
  | [] => []
  | block :: older =>
    let versions := slotVersions clears address slot older
    let held := slotValue versions (handleHeight older)
    ((slotWrite clears address slot held block).map fun value => (block.info.number, value)).toList ++
      versions

theorem slotVersions_eq_writesOf (clears : Bool) (address slot : H256) (history : List Block) :
    slotVersions clears address slot history = writesOf (fun older => slotWrite clears address slot
        (slotValue (slotVersions clears address slot older) (handleHeight older))) history := by
  induction history with
  | nil => rfl
  | cons _ _ ih => rw [slotVersions, writesOf, ← ih]

/-- The code under a hash: codes have no versions, the last write stays. -/
def codeOf (history : List Block) (codeHash : H256) : Option Bytes :=
  history.findSome? fun block => (DiffLayer.new block).contracts codeHash

def Ascending (history : List Block) : Prop :=
  history.Pairwise fun newer older => older.info.number < newer.info.number

variable {W : Type} {history : List Block}

theorem mem_writesOf {write : List Block → Block → Option W}
    {version : U64 × W} (h : version ∈ writesOf write history) :
    ∃ block ∈ history, block.info.number = version.1 := by
  induction history with
  | nil => cases h
  | cons block _ ih =>
    rcases mem_append.mp h with hnew | hold
    · obtain ⟨_, -, rfl⟩ := Option.map_eq_some_iff.mp (Option.mem_toList.mp hnew)
      exact ⟨block, .head _, rfl⟩
    · obtain ⟨block', hmem, hnumber⟩ := ih hold
      exact ⟨block', .tail _ hmem, hnumber⟩

theorem Ascending.writesOf (h : Ascending history)
    (write : List Block → Block → Option W) : (writesOf write history).Pairwise fun a b => b.1 < a.1 := by
  induction history with
  | nil => exact .nil
  | cons block older ih =>
    obtain ⟨hfirst, hrest⟩ := pairwise_cons.mp h
    refine pairwise_append.mpr ⟨?_, ih hrest, ?_⟩
    · cases write older block <;> simp
    · intro version hversion version' hversion'
      obtain ⟨value, -, rfl⟩ := Option.map_eq_some_iff.mp (Option.mem_toList.mp hversion)
      obtain ⟨block', hmem, hnumber⟩ := mem_writesOf hversion'
      rw [← hnumber]
      exact hfirst block' hmem

theorem Ascending.slotVersions (h : Ascending history) (clears : Bool)
    (address slot : H256) : (slotVersions clears address slot history).Pairwise fun a b => b.1 < a.1 := by
  rw [slotVersions_eq_writesOf]
  exact h.writesOf _

def Backend.clears : Backend → Bool
  | .rocksdb _ => true
  | .mdbx _ => false

/-! ### The batch of a block -/

theorem foldl_appends {B A : Type} (writes : B → List W) {step : B → A → B} (added : A → List W)
    (hstep : ∀ batch a, writes (step batch a) = writes batch ++ added a) (batch : B) (items : List A) :
    writes (items.foldl step batch) = writes batch ++ items.flatMap added := by
  induction items generalizing batch with
  | nil => simp
  | cons a _ ih => rw [foldl_cons, ih, hstep, flatMap_cons, append_assoc]

namespace Archive

variable (codec : Codec) (archive : Archive) {B : Type} (field : WriteBatch → B) (block : Block)

/-- The zeroes written for a deleted account. -/
def clearedSlots (address : H256) : List ((H256 × H256) × U256) :=
  if archive.backend.clears then
    (archive.storageSlots (archive.latestBlockNum codec) address).map fun slot => ((address, slot.1), 0)
  else []

/-- The slots a block writes, in order: the zeroes for its deletions, then its own. -/
def slotItems (block : Block) : List ((H256 × H256) × U256) :=
  block.diff.deletedAccounts.flatMap (archive.clearedSlots codec) ++ block.diff.slotWrites

def accountBytes (account : Option AccountInfo) : Bytes :=
  (account.map fun account => codec.encodeAccount ⟨account.balance, account.nonce, account.codeHash⟩).getD []

/-- The row of a slot's version, before the backend's own form of the value. -/
def slotRow (blockNum : U64) (item : (H256 × H256) × U256) : Bytes × Bytes :=
  (versionKey archive.backend.inverted (slotOwner item.1.1 item.1.2) blockNum, toBE 32 item.2)

theorem clearStorage_storageWrites (batch : WriteBatch) (address : H256) (blockNum : U64) :
    (archive.clearStorage codec batch address blockNum).storageWrites =
      batch.storageWrites ++ (archive.clearedSlots codec address).map (archive.slotRow blockNum) := by
  cases hbackend : archive.backend with
  | rocksdb =>
    simp only [clearStorage, clearedSlots, hbackend, Backend.clears, if_true]
    rw [map_map, map_eq_flatMap]
    exact foldl_appends storageWrites _ (fun _ _ => rfl) batch _
  | mdbx => simp [clearStorage, clearedSlots, hbackend, Backend.clears]

/-- The zeroes are all that `clear_storage` adds to a batch. -/
theorem clearStorage_keeps (hfield : ∀ batch address slot blockNum value,
      field (archive.writeStorage batch address slot blockNum value) = field batch)
    (batch : WriteBatch) (address : H256) (blockNum : U64) :
    field (archive.clearStorage codec batch address blockNum) = field batch := by
  unfold clearStorage
  split
  · exact foldl_keeps field _ _ _ fun batch slot _ => hfield batch address slot.1 blockNum 0
  · rfl

theorem blockBatch_accountWrites : (archive.blockBatch codec block).accountWrites =
      block.diff.accountWrites.map fun write =>
        (versionKey archive.backend.inverted (accountOwner write.1) block.info.number,
          accountBytes codec write.2) := by
  rw [BlockStorageDiff.accountWrites, map_append, map_map, map_map, map_eq_flatMap,
    map_eq_flatMap, blockBatch, writeLatestBlockHash]
  rw [foldl_keeps accountWrites, foldl_keeps accountWrites, foldl_appends accountWrites (fun account =>
      [(encodeAccountKey archive.backend.inverted account.address block.info.number,
        accountValue codec (some account))]),
    foldl_appends accountWrites (fun address =>
      [(encodeAccountKey archive.backend.inverted address block.info.number, accountValue codec none)])]
  · rfl
  · intro _ _
    rw [clearStorage_keeps codec archive accountWrites fun _ _ _ _ _ => rfl]
    rfl
  · exact fun _ _ => rfl
  · exact fun batch account _ => foldl_keeps accountWrites _ _ _ fun _ _ _ => rfl
  · exact fun _ _ _ => rfl

theorem blockBatch_storageWrites : (archive.blockBatch codec block).storageWrites =
      (archive.slotItems codec block).map (archive.slotRow block.info.number) := by
  simp only [blockBatch, writeLatestBlockHash, slotItems, BlockStorageDiff.slotWrites, map_append,
    map_flatMap, map_map]
  rw [foldl_keeps storageWrites,
    foldl_appends storageWrites (fun account => account.diffs.flatMap fun pair =>
      [(encodeStorageKey archive.backend.inverted account.address pair.index block.info.number,
        toBE 32 pair.value)]),
    foldl_keeps storageWrites,
    foldl_appends storageWrites fun address =>
      (archive.clearedSlots codec address).map (archive.slotRow block.info.number)]
  · simp only [map_eq_flatMap]
    rfl
  · intro _ _
    rw [clearStorage_storageWrites]
    rfl
  · exact fun _ _ _ => rfl
  · intro batch _
    exact foldl_appends storageWrites _ (fun _ _ => rfl) batch _
  · exact fun _ _ _ => rfl

theorem blockBatch_codeWrites : (archive.blockBatch codec block).codeWrites =
    block.diff.newCodes.map fun code => (code.codeHash, code.code) := by
  simp only [blockBatch, writeLatestBlockHash, map_eq_flatMap]
  rw [foldl_appends codeWrites (fun code => [(code.codeHash, code.code)]),
    foldl_keeps codeWrites, foldl_keeps codeWrites, foldl_keeps codeWrites]
  · rfl
  · intro _ _ _
    rw [clearStorage_keeps codec archive codeWrites fun _ _ _ _ _ => rfl]
    rfl
  · exact fun _ _ _ => rfl
  · exact fun batch _ _ => foldl_keeps codeWrites _ _ _ fun _ _ _ => rfl
  · exact fun _ _ => rfl

/-- The index writes of a block, which the loops over its diff leave alone. -/
theorem blockBatch_index (haccount : ∀ batch address blockNum account,
      field (archive.writeAccount codec batch address blockNum account) = field batch)
    (hstorage : ∀ batch address slot blockNum value,
      field (archive.writeStorage batch address slot blockNum value) = field batch)
    (hcode : ∀ batch codeHash code, field (writeCode batch codeHash code) = field batch)
    (hlatest : ∀ batch hash, field (writeLatestBlockHash batch hash) = field batch) (block : Block) :
    field (archive.blockBatch codec block) =
      field (writeBlockInfo codec (writeBlockHash {} block.info.number block.info.hash) block.info) := by
  unfold blockBatch
  rw [hlatest, foldl_keeps field, foldl_keeps field, foldl_keeps field, foldl_keeps field]
  · intro _ _ _
    rw [clearStorage_keeps codec archive field hstorage, haccount]
  · exact fun batch account _ => haccount batch ..
  · exact fun batch account _ => foldl_keeps field _ _ _ fun batch _ _ => hstorage batch ..
  · exact fun batch code _ => hcode batch _ _

end Archive
end LeafageEvm
