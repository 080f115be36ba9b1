import LeafageEvm.Types
import Mathlib.Data.List.Basic

/-! The diff layers kept in memory, the cache layer below them and the disk below that. A layer
holds what one block wrote; a read asks the layers from the newest down, then the cache, then the
disk. The disk here is the database through its reads: it stores what is committed to it. -/

namespace LeafageEvm

/-- The contents of a database, as its reads see them. `slots` holds the storage writes, the newest
first, so that the slots an account holds can be listed. -/
structure DiskState where
  latest : BlockInfo
  accounts : H256 → Option AccountInfo
  slots : List ((H256 × H256) × U256)
  codes : H256 → Option Bytes
  blockHashes : U64 → H256

namespace DiskState

variable (disk : DiskState) (address : H256)

/-- One read of the database. A slot never written is zero and a code never written is empty. -/
def get : (k : StateKey) → k.Value
  | .account address => (disk.accounts address).map AccountInfo.readBack
  | .slot address index => (disk.slots.lookup (address, index)).getD 0
  | .code codeHash => (disk.codes codeHash).getD []
  | .blockHash number => disk.blockHashes number

/-- The slots of `address` that hold a non-zero value. -/
def storageSlots : List H256 :=
  ((disk.slots.map (·.1)).filter fun key =>
    key.1 = address && disk.get (.slot key.1 key.2) ≠ (0 : U256)).map (·.2)

def writeBlockHash (number : U64) (hash : H256) : DiskState :=
  { disk with blockHashes := Function.update disk.blockHashes number hash }

def writeAccount (account : Option AccountInfo) : DiskState :=
  { disk with accounts := Function.update disk.accounts address account }

/-- What a backend does with the storage of an account a block deletes: the RocksDB archive clears
it (`clears`), the trait's default keeps it. -/
def clearStorage (clears : Bool) (disk : DiskState) (address : H256) : DiskState :=
  if clears then { disk with slots := disk.slots.filter fun entry => entry.1.1 ≠ address } else disk

def writeStorage (index : H256) (value : U256) : DiskState :=
  { disk with slots := ((address, index), value) :: disk.slots }

def writeCode (codeHash : H256) (code : Bytes) : DiskState :=
  { disk with codes := Function.update disk.codes codeHash (some code) }

/-- `StateDBWrapper::update_block`: deletions first, then new accounts, storage and codes, in one
atomic batch that also publishes the block as the latest. -/
def updateBlock (clears : Bool) (disk : DiskState) (block : Block) : DiskState :=
  let disk := disk.writeBlockHash block.info.number block.info.hash
  let disk := block.diff.deletedAccounts.foldl
    (fun disk address => (disk.writeAccount address none).clearStorage clears address) disk
  let disk := block.diff.newAccounts.foldl
    (fun disk account => disk.writeAccount account.address (some account.toAccountInfo)) disk
  let disk := block.diff.storageDiffs.foldl
    (fun disk account => account.diffs.foldl
      (fun disk pair => disk.writeStorage account.address pair.index pair.value) disk) disk
  let disk := block.diff.newCodes.foldl
    (fun disk code => disk.writeCode code.codeHash code.code) disk
  { disk with latest := block.info }

end DiskState

/-- The state a block leaves in memory: the block and the maps its diff is indexed by. The link to
the layer below is kept apart, in the arena, since it is the one part that changes. -/
structure DiffLayer where
  block : Block
  accounts : HashMap H256 (Option AccountInfo)
  storage : HashMap (H256 × H256) U256
  contracts : HashMap H256 Bytes

namespace DiffLayer

/-- `DiffLayer::new`: a new account overrides a deletion of the same block, a later entry an
earlier one. -/
def new (block : Block) : DiffLayer where
  block := block
  accounts := block.diff.newAccounts.foldl
    (fun map account => map.insert account.address (some account.toAccountInfo))
    (block.diff.deletedAccounts.foldl (fun map address => map.insert address none) HashMap.empty)
  storage := block.diff.storageDiffs.foldl
    (fun map account => account.diffs.foldl
      (fun map pair => map.insert (account.address, pair.index) pair.value) map) HashMap.empty
  contracts := block.diff.newCodes.foldl
    (fun map code => map.insert code.codeHash code.code) HashMap.empty

instance : Inhabited DiffLayer := ⟨.new default⟩

def get (layer : DiffLayer) : (k : StateKey) → Option k.Value
  | .account address => layer.accounts address
  | .slot address index => layer.storage (address, index)
  | .code codeHash => layer.contracts codeHash
  | .blockHash number =>
    if layer.block.info.number = number then some layer.block.info.hash else none

end DiffLayer

/-- Whether the database, once the block is committed, returns under the key what the block wrote to
it, or what it held before. -/
def Block.keeps (block : Block) (k : StateKey) : Bool :=
  !block.diff.deletesOwner k && ((DiffLayer.new block).get k).all fun value => k.readBack value = value

/-- The first layer of the list, the newest, that answers the read. -/
def lookupLayers (layers : List DiffLayer) (k : StateKey) : Option k.Value :=
  layers.findSome? fun layer => layer.get k

/-- The tagged entries of the disk cache, one map for its four caches. An entry carries the height
it was read or committed at. -/
abbrev CacheEntries := (k : StateKey) → Option (U64 × k.Value)

namespace CacheEntries

variable (cache : CacheEntries) (k : StateKey)

def empty : CacheEntries := fun _ => none

def insert (tag : U64) (value : k.Value) : CacheEntries :=
  Function.update cache k (some (tag, value))

/-- The cache drops an entry whenever it likes. -/
def evict : CacheEntries := Function.update cache k none

/-- `refill`: store `value`, read at height `tag`, unless the key holds a value tagged `tag` or
higher. -/
def refill (tag : U64) (value : k.Value) : CacheEntries :=
  match cache k with
  | some (current, _) => if current < tag then cache.insert k tag value else cache
  | none => cache.insert k tag value

def writeThrough (layer : DiffLayer) : CacheEntries := fun k =>
  match layer.get k with
  | some value => some (layer.block.info.number, value)
  | none => cache k

end CacheEntries

/-- A state handle: the layers of the view it was built from, newest first, whether they end in
the cache (and it is enabled), the disk it reads and the height its refills are tagged with. -/
structure HybridStateDB where
  layers : List DiffLayer
  cached : Bool
  statedb : DiskState
  cacheViewHeight : Option U64

variable (handle : HybridStateDB) (cache : CacheEntries)

/-- One read through a handle: the layers, the cache, the disk. A miss of the cache puts the disk's
answer into it when the handle carries a height. The four reads of the `StateDB` trait are this
walk at their own key. -/
def HybridStateDB.read (k : StateKey) :
    k.Value × CacheEntries :=
  match lookupLayers handle.layers k with
  | some value => (value, cache)
  | none =>
    if handle.cached then
      match cache k with
      | some (_, value) => (value, cache)
      | none =>
        let value := handle.statedb.get k
        match handle.cacheViewHeight with
        | some height => (value, cache.refill k height value)
        | none => (value, cache)
    else (handle.statedb.get k, cache)

def HybridStateDB.basic (address : H256) :
    Option AccountInfo × CacheEntries :=
  handle.read cache (.account address)

def HybridStateDB.storage (address index : H256) :
    U256 × CacheEntries :=
  handle.read cache (.slot address index)

end LeafageEvm
