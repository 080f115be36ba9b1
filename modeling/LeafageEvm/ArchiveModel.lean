import LeafageEvm.ArchiveTable
import LeafageEvm.Layer

/-! The archive: its tables, the batch a block is committed in and the reads at a height. The write
path is shared by the backends; they differ in how the versioned tables are laid out and in whether
the slots of a deleted account are zeroed, which only RocksDB does. -/

namespace LeafageEvm

/-- An account as the archive stores it. -/
structure SlimAccount where
  balance : U256
  nonce : U64
  codeHash : H256
  deriving DecidableEq

def NewAccount.toSlimAccount (account : NewAccount) : SlimAccount :=
  ⟨account.balance, account.nonce, account.codeHash⟩

/-- The encoders of accounts and headers, which are libraries' (RLP and JSON): what they encode they
decode, and an encoded account is not the empty string, which marks a deleted one. -/
structure Codec where
  encodeAccount : SlimAccount → Bytes
  decodeAccount : Bytes → Option SlimAccount
  decode_encodeAccount : ∀ account, decodeAccount (encodeAccount account) = some account
  encodeAccount_ne_nil : ∀ account, encodeAccount account ≠ []
  encodeHeader : BlockInfo → Bytes
  decodeHeader : Bytes → Option BlockInfo
  decode_encodeHeader : ∀ info, decodeHeader (encodeHeader info) = some info

/-- The column families. Codes are addressed by their hash and `latest` is the one row of its
family, so neither needs an order. -/
structure Archive where
  backend : Backend
  accounts : VersionTable 32
  storage : VersionTable 64
  codes : HashMap H256 Bytes
  blockHashes : OrderedMap Bytes Bytes
  headers : OrderedMap Bytes Bytes
  latest : Option Bytes

/-- The writes of one commit. -/
structure WriteBatch where
  accountWrites : List (Bytes × Bytes) := []
  storageWrites : List (Bytes × Bytes) := []
  codeWrites : List (H256 × Bytes) := []
  blockHashWrites : List (Bytes × Bytes) := []
  headerWrites : List (Bytes × Bytes) := []
  latest : Option Bytes := none

def decodeStorage (raw : Bytes) : U256 := Fin.ofNat (2 ^ 256) (ofBE raw)

def stripLeadingZeros (value : Bytes) : Bytes := value.dropWhile (· = 0)

def Backend.stored (backend : Backend) (value : Bytes) : Bytes :=
  if backend = .rocksdb .v3 then stripLeadingZeros value else value

namespace Archive

variable (codec : Codec) (archive : Archive) (batch : WriteBatch) (blockNum : U64) (address slot : H256)

def empty (backend : Backend) : Archive where
  backend := backend
  accounts := .empty backend
  storage := .empty backend
  codes := .empty
  blockHashes := .empty
  headers := .empty
  latest := none

/-! ### Reads -/

/-- `decode_account`: the empty string is a deleted account, and a zero code hash stands for no
code. -/
def decodeAccount (codec : Codec) (address : H256) (raw : Bytes) : Option NewAccount :=
  if raw = [] then none
  else (codec.decodeAccount raw).map fun account =>
    { address := address, balance := account.balance, nonce := account.nonce,
      codeHash := if account.codeHash = 0 then keccak256Empty else account.codeHash }

def readAccount :
    Option NewAccount :=
  (archive.accounts.find archive.backend (accountOwner address) blockNum).bind fun found =>
    decodeAccount codec address found.2

/-- The version block of what `read_account` finds. -/
def accountVersion : Option U64 :=
  (archive.accounts.find archive.backend (accountOwner address) blockNum).map (·.1)

def readStorageAndHeight :
    U256 × Option U64 :=
  match archive.storage.find archive.backend (slotOwner address slot) blockNum with
  | some (version, raw) => (decodeStorage raw, some version)
  | none => (0, none)

def readStorage : U256 :=
  (archive.readStorageAndHeight blockNum address slot).1

def readCode (codeHash : H256) : Option Bytes := archive.codes codeHash

def readBlockHash : H256 :=
  ((archive.blockHashes.get (encodeBlockNum blockNum)).map hashOfBytes).getD 0

def readBlockInfo (hash : H256) : Option BlockInfo :=
  ((archive.headers.get (hashBytes hash)).bind codec.decodeHeader).map fun info =>
    match archive.backend with
    | .rocksdb _ => { info with hash := hash }
    | .mdbx _ => info

def readLatestBlockHash : H256 := (archive.latest.map hashOfBytes).getD 0

/-- The height of a handle at the latest block: zero where there is none. -/
def latestBlockNum : U64 :=
  let latest := archive.readLatestBlockHash
  if latest = 0 then 0 else ((archive.readBlockInfo codec latest).map (·.number)).getD 0

/-- The key `storage_slots` seeks to: before every version of the slot and of those after it. -/
def slotTarget (start : H256) : Bytes :=
  hashBytes address ++ hashBytes start ++ List.replicate 32 0

/-- The loop of `storage_slots` over encoded keys: seek the first slot at or after `start`, read it,
go on after it. Each round passes a row, so the number of rows is fuel enough. -/
def slotsFrom (archive : Archive) (rows : OrderedMap Bytes Bytes) (blockNum : U64) (address : H256) :
    Nat → H256 → List (H256 × U256)
  | 0, _ => []
  | fuel + 1, start =>
    match rows.seek (slotTarget address start) with
    | none => []
    | some (key, _) =>
      if key.take 32 = hashBytes address then
        let slot := hashOfBytes ((key.drop 32).take 32)
        let value := archive.readStorage blockNum address slot
        let rest :=
          if h : (slot : Nat) + 1 < 2 ^ 256 then slotsFrom archive rows blockNum address fuel ⟨slot + 1, h⟩
          else []
        if value ≠ 0 then (slot, value) :: rest else rest
      else []

/-- `storage_slots`: the slots of an account that are not zero. A timestamped iterator of v3 yields
each key of the address once, at its newest version. -/
def storageSlots : List (H256 × U256) :=
  match archive.storage with
  | .plain rows => archive.slotsFrom rows blockNum address rows.entries.length 0
  | .stamped rows =>
    ((rows.entries.map fun entry => (ofLex entry.1).1).dedup.filter
      fun key => key.take 32 = hashBytes address).filterMap fun key =>
        let slot := hashOfBytes (key.drop 32)
        let value := archive.readStorage blockNum address slot
        if value ≠ 0 then some (slot, value) else none

/-! ### Writes -/

def writeBlockHash (hash : H256) : WriteBatch :=
  { batch with
    blockHashWrites := batch.blockHashWrites ++ [(encodeBlockNum blockNum, hashBytes hash)] }

def writeBlockInfo (info : BlockInfo) : WriteBatch :=
  { batch with headerWrites := batch.headerWrites ++ [(hashBytes info.hash, codec.encodeHeader info)] }

def accountValue (account : Option NewAccount) : Bytes :=
  (account.map fun account => codec.encodeAccount account.toSlimAccount).getD []

def writeAccount
    (blockNum : U64) (account : Option NewAccount) : WriteBatch :=
  { batch with accountWrites := batch.accountWrites ++
      [(encodeAccountKey archive.backend.inverted address blockNum, accountValue codec account)] }

def writeStorage (blockNum : U64)
    (value : U256) : WriteBatch :=
  { batch with storageWrites := batch.storageWrites ++
      [(encodeStorageKey archive.backend.inverted address slot blockNum, toBE 32 value)] }

/-- `clear_storage`: RocksDB zeroes the slots that the deleted account holds at the height of the
handle; the other backend has the default, which does nothing. -/
def clearStorage
    (blockNum : U64) : WriteBatch :=
  match archive.backend with
  | .rocksdb _ =>
    (archive.storageSlots (archive.latestBlockNum codec) address).foldl
      (fun batch slot => archive.writeStorage batch address slot.1 blockNum 0) batch
  | .mdbx _ => batch

def writeCode (codeHash : H256) (code : Bytes) : WriteBatch :=
  { batch with codeWrites := batch.codeWrites ++ [(codeHash, code)] }

def writeLatestBlockHash (hash : H256) : WriteBatch :=
  { batch with latest := some (hashBytes hash) }

/-- `commit`: the account and storage writes sorted, the last per key, and all of them at once. -/
def commit : Archive :=
  { archive with
    accounts := archive.accounts.putAll archive.backend (batched batch.accountWrites)
    storage := archive.storage.putAll archive.backend
      ((batched batch.storageWrites).map fun write => (write.1, archive.backend.stored write.2))
    codes := batch.codeWrites.foldl (fun codes write => codes.insert write.1 write.2) archive.codes
    blockHashes := batch.blockHashWrites.foldl (fun rows write => rows.put write.1 write.2)
      archive.blockHashes
    headers := batch.headerWrites.foldl (fun rows write => rows.put write.1 write.2) archive.headers
    latest := batch.latest.or archive.latest }

/-- The batch `StateDBWrapper::update_block` builds for a block. -/
def blockBatch (block : Block) : WriteBatch :=
  let blockNum := block.info.number
  let batch := writeBlockHash {} blockNum block.info.hash
  let batch := writeBlockInfo codec batch block.info
  let batch := block.diff.deletedAccounts.foldl
    (fun batch address =>
      archive.clearStorage codec (archive.writeAccount codec batch address blockNum none) address blockNum)
    batch
  let batch := block.diff.newAccounts.foldl
    (fun batch account => archive.writeAccount codec batch account.address blockNum (some account)) batch
  let batch := block.diff.storageDiffs.foldl
    (fun batch account => account.diffs.foldl
      (fun batch pair => archive.writeStorage batch account.address pair.index blockNum pair.value) batch)
    batch
  let batch := block.diff.newCodes.foldl (fun batch code => writeCode batch code.codeHash code.code) batch
  writeLatestBlockHash batch block.info.hash

/-- `StateDBWrapper::update_block` on a handle at the latest block. -/
def updateBlock (block : Block) : Archive :=
  archive.commit (archive.blockBatch codec block)

/-- The blocks of a history, newest first, committed from the oldest on. -/
def updateBlocks (history : List Block) : Archive :=
  history.foldr (fun block archive => archive.updateBlock codec block) archive

end Archive
end LeafageEvm
