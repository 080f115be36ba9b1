import LeafageEvm.LayerReads
import LeafageEvm.Runs
import Mathlib.Data.List.Dedup
import Mathlib.Data.List.Sort

/-! One committer and any number of readers over the shared cache and the database. A commit writes
its block to the database, then writes its keys through to the cache one by one, then publishes the
height. A handle samples the height, then takes its database state; each of its reads looks the key
up in the layers and the cache and, on a miss, fetches it from the database and refills the cache.
Every step is atomic and steps of different threads come in any order; the cache drops entries when
it likes. A handle of the archive reads the database as it was when the handle took it (`pinned`),
one of the state database as it is now. -/

namespace LeafageEvm

def Block.writtenKeys (block : Block) : List StateKey :=
  block.diff.deletedAccounts.map .account ++
    block.diff.newAccounts.map (fun account => .account account.address) ++
    block.diff.slotWrites.map (fun write => .slot write.1.1 write.1.2) ++
    block.diff.newCodes.map (fun code => .code code.codeHash) ++
    [.blockHash block.info.number]

/-- Whether the block changes what the database holds under the key: by writing it or, on a backend
that clears, by deleting the account it is a slot of. -/
def Block.touches (clears : Bool) (block : Block) (k : StateKey) : Bool :=
  ((DiffLayer.new block).get k).isSome || (clears && block.diff.deletesOwner k)

structure CacheConfig where
  clears : Bool
  enabled : Bool
  pinned : Bool
  listsSlots : Bool

/-- A state handle, with the blocks of its layers, newest first. `base` counts the blocks in the
database when the handle took its state; `settled` those of them whose commit was over, which is
history. -/
structure StateHandle where
  chain : List Block
  cacheViewHeight : Option U64
  base : Nat
  settled : Nat

def StateHandle.layers (handle : StateHandle) : List DiffLayer := handle.chain.map .new

/-- Where a read stands with the key it is at. `seen` counts the blocks in the database state the
value was fetched from. -/
inductive ReadStage where
  | lookup
  | missed
  | fetched (k : StateKey) (value : k.Value) (seen : Nat)

/-- A read in progress: the keys still to read and the answers so far, in order. `slotsOf` is the
account whose slots a call of `storage_slots` lists. -/
structure ReadOp where
  handle : StateHandle
  slotsOf : Option H256
  todo : List StateKey
  done : List ((k : StateKey) × k.Value)
  stage : ReadStage

/-- The state of the system. `log` is what the database was given, the newest block first; while a
commit is in flight its block is on top and `inFlight` holds the keys not written through yet. -/
structure CacheSystem where
  config : CacheConfig
  genesis : DiskState
  log : List Block
  inFlight : Option (List StateKey)
  entries : CacheEntries
  committedHeight : U64
  opening : HashMap Nat (List Block × Option U64)
  handles : HashMap Nat StateHandle
  ops : HashMap Nat ReadOp

inductive CacheEvent where
  | sampleHeight (handle : Nat) (chain : List Block)
  | takeState (handle : Nat)
  | read (op handle : Nat) (k : StateKey)
  | storageSlots (op handle : Nat) (address : H256)
  | lookup (op : Nat)
  | fetch (op : Nat)
  | refill (op : Nat)
  | evict (k : StateKey)
  | updateBlock (block : Block)
  | writeThrough (k : StateKey)
  | publish

def layerSlots (layers : List DiffLayer) (address : H256) : List H256 :=
  layers.flatMap fun layer =>
    (layer.block.diff.storageDiffs.filter fun account => account.address = address).flatMap
      fun account => account.diffs.map (·.index)

/-- The candidates of `storage_slots`: the disk's slots and the layers', in order. -/
def slotCandidates (disk : DiskState) (layers : List DiffLayer) (address : H256) : List H256 :=
  (disk.storageSlots address ++ layerSlots layers address).dedup.insertionSort (· ≤ ·)

/-- The slots that read as non-zero, in the order they were read. -/
def nonzeroSlots (answers : List ((k : StateKey) × k.Value)) : List (H256 × U256) :=
  answers.filterMap fun
    | ⟨.slot _ index, value⟩ => if value ≠ 0 then some (index, value) else none
    | _ => none

namespace CacheSystem

variable (system : CacheSystem) (id : Nat) (op : ReadOp)

/-- The system over a database, before any commit: an empty cache at the database's height. -/
def new (config : CacheConfig) (genesis : DiskState) : CacheSystem where
  config := config
  genesis := genesis
  log := []
  inFlight := none
  entries := .empty
  committedHeight := genesis.latest.number
  opening := .empty
  handles := .empty
  ops := .empty

/-- The database after its first `n` blocks. -/
def diskAt (n : Nat) : DiskState :=
  system.genesis.replay system.config.clears (system.log.drop (system.log.length - n))

/-- The database now. -/
def disk : DiskState := system.genesis.replay system.config.clears system.log

/-- The number of blocks whose commit is over. -/
def settled : Nat :=
  match system.inFlight with
  | none => system.log.length
  | some _ => system.log.length - 1

/-- The blocks a cached value of the key has to show: all, but for a block in flight that has not
written the key through yet. -/
def shown (k : StateKey) : List Block :=
  match system.inFlight with
  | none => system.log
  | some pending => if k ∈ pending then system.log.tail else system.log

def setOp : CacheSystem :=
  { system with ops := system.ops.insert id op }

/-- Go on with the next key. -/
def answer (k : StateKey) (value : k.Value) : ReadOp :=
  { op with todo := op.todo.tail, done := op.done ++ [⟨k, value⟩], stage := .lookup }

def find (handle : StateHandle) (k : StateKey) : Option k.Value :=
  match lookupLayers handle.layers k with
  | some value => some value
  | none => if system.config.enabled then (system.entries k).map (·.2) else none

/-- The number of blocks in the state a handle reads the database at. -/
def version (handle : StateHandle) : Nat :=
  if system.config.pinned then handle.base else system.log.length

def lookup : CacheSystem :=
  match op.stage, op.todo with
  | .lookup, k :: _ =>
    match system.find op.handle k with
    | some value => system.setOp id (answer op k value)
    | none => system.setOp id { op with stage := .missed }
  | _, _ => system

def fetch : CacheSystem :=
  match op.stage, op.todo with
  | .missed, k :: _ =>
    let seen := system.version op.handle
    system.setOp id { op with stage := .fetched k ((system.diskAt seen).get k) seen }
  | _, _ => system

def refill : CacheSystem :=
  match op.stage with
  | .fetched k value _ =>
    let entries :=
      match op.handle.cacheViewHeight with
      | some height => if system.config.enabled then system.entries.refill k height value else system.entries
      | none => system.entries
    { system with entries := entries }.setOp id (answer op k value)
  | _ => system

/-- One step. An event that does not apply in a state does nothing. -/
def step : CacheEvent → CacheSystem
  | .sampleHeight id chain =>
    let height := if system.config.enabled then some system.committedHeight else none
    { system with opening := system.opening.insert id (chain, height) }
  | .takeState id =>
    match system.opening id with
    | some (chain, height) =>
      let handle := ⟨chain, height, system.log.length, system.settled⟩
      { system with handles := system.handles.insert id handle }
    | none => system
  | .read op id k =>
    match system.handles id with
    | some handle => system.setOp op ⟨handle, none, [k], [], .lookup⟩
    | none => system
  | .storageSlots op id address =>
    match system.handles id with
    | some handle =>
      if system.config.listsSlots then
        let slots := slotCandidates (system.diskAt (system.version handle)) handle.layers address
        system.setOp op ⟨handle, some address, slots.map (.slot address), [], .lookup⟩
      else system
    | none => system
  | .lookup id => (system.ops id).elim system (system.lookup id)
  | .fetch id => (system.ops id).elim system (system.fetch id)
  | .refill id => (system.ops id).elim system (system.refill id)
  | .evict k => { system with entries := system.entries.evict k }
  | .updateBlock block =>
    match system.inFlight with
    | none => { system with log := block :: system.log, inFlight := some block.writtenKeys }
    | some _ => system
  | .writeThrough k =>
    match system.inFlight, system.log with
    | some pending, block :: _ =>
      match (DiffLayer.new block).get k with
      | some value =>
        { system with
          entries :=
            if system.config.enabled then system.entries.insert k block.info.number value
            else system.entries
          inFlight := some (pending.filter (· ≠ k)) }
      | none => system
    | _, _ => system
  | .publish =>
    match system.inFlight, system.log with
    | some [], block :: _ => { system with inFlight := none, committedHeight := block.info.number }
    | _, _ => system

def run (events : List CacheEvent) : CacheSystem := events.foldl step system

end CacheSystem
end LeafageEvm
