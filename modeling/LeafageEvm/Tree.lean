import LeafageEvm.Arena
import LeafageEvm.LayerReads

/-! The state tree: the recent blocks in memory, indexed by hash and by number, over the disk. A
block is linked to its parent's layer; when the chain under a new head grows past the depth limit
its bottom layers are committed to the database and the layer above is linked to the cache.

The linked layers are shared between forks and their links change, so they live in an arena; a
layer is named by its id there. Views, once built, are lists of ids and never change. -/

namespace LeafageEvm

abbrev LayerId := Nat

structure StateTreeConfig where
  diffTreeDepthLimit : Nat := 64
  enableCache : Bool := true

/-- The bottom of every chain: the cache over the disk. `oldDiffLayer` is the layer committed
last. -/
structure CacheDiskLayer where
  entries : CacheEntries
  oldDiffLayer : Option DiffLayer
  committedHeight : U64
  enabled : Bool

def CacheDiskLayer.cacheViewHeight (cache : CacheDiskLayer) : Option U64 :=
  if cache.enabled then some cache.committedHeight else none

/-- The layers of a chain from the head down, ending in the cache layer. -/
structure FlattenedLayerView where
  layers : List LayerId
  deriving DecidableEq

/-- The layer a view starts at, the cache layer being none of the linked ones. -/
def FlattenedLayerView.head (view : FlattenedLayerView) : Option LayerId := view.layers.head?

structure StateIndex where
  latest : FlattenedLayerView
  hashDiffMap : HashMap H256 FlattenedLayerView
  numDiffMap : HashMap U64 FlattenedLayerView

/-- The tree with the database under it. `committed` lists the layers handed to the database, the
newest first; it is history that nothing reads. `poisoned` is the state of the update lock after a
panic. `clears` says whether the backend clears the storage of deleted accounts. -/
structure StateTree where
  config : StateTreeConfig
  clears : Bool
  index : StateIndex
  arena : Arena DiffLayer
  cacheLayer : CacheDiskLayer
  db : DiskState
  committed : List LayerId
  poisoned : Bool

inductive BlockId where
  | hash (hash : H256)
  | number (number : U64)
  | latest
  | pending
  | earliest
  | safe
  | finalized
  deriving DecidableEq

inductive TreeError where
  | parentBlockHashNotFound (hash : H256) (number : U64) (parentHash : H256)
  | unsupportedBlockId (blockId : BlockId)
  deriving DecidableEq

inductive UpdateResult where
  | ok
  | error (e : TreeError)
  | panic
  deriving DecidableEq

namespace StateTree

variable (tree : StateTree) (block : Block) (id : LayerId) (view : FlattenedLayerView)

/-- The layer with an id. Only ids of the arena are ever used. -/
def layer : DiffLayer :=
  ((tree.arena.node? id).map (·.value)).getD default

/-- `StateTree::new`: the disk's latest block is the bottom layer, with an empty diff, and indexed;
the head is the cache layer itself. -/
def new (config : StateTreeConfig) (clears : Bool) (db : DiskState) : StateTree where
  config := config
  clears := clears
  index :=
    { latest := ⟨[]⟩
      hashDiffMap := HashMap.empty.insert db.latest.hash ⟨[0]⟩
      numDiffMap := HashMap.empty.insert db.latest.number ⟨[0]⟩ }
  arena := [⟨.new { info := db.latest }, none⟩]
  cacheLayer := ⟨.empty, none, db.latest.number, config.enableCache⟩
  db := db
  committed := []
  poisoned := false

/-- `block_info` of a view: the head's block; for the cache layer the block committed last or the
disk's. -/
def blockInfo : BlockInfo :=
  match view.head with
  | some id => (tree.layer id).block.info
  | none =>
    match tree.cacheLayer.oldDiffLayer with
    | some old => old.block.info
    | none => tree.db.latest

/-- `FlattenedLayerView::build`. -/
def buildView : FlattenedLayerView := ⟨tree.arena.chain (some id)⟩

/-- What a commit does once its assertion holds: the database write, the write-through and the
publication of the height. -/
def store : StateTree :=
  let diff := tree.layer id
  { tree with
    db := tree.db.updateBlock tree.clears diff.block
    committed := id :: tree.committed
    cacheLayer :=
      { tree.cacheLayer with
        entries :=
          if tree.cacheLayer.enabled then tree.cacheLayer.entries.writeThrough diff
          else tree.cacheLayer.entries
        oldDiffLayer := some diff
        committedHeight := diff.block.info.number } }

/-- `CacheDiskLayer::commit`; no result is the failed assertion that the layer is a child of the
one committed last. -/
def commit : Option StateTree :=
  match tree.cacheLayer.oldDiffLayer with
  | some old =>
    if old.block.info.hash = (tree.layer id).block.info.parentHash then some (tree.store id) else none
  | none => some (tree.store id)

def retarget : StateTree := { tree with arena := tree.arena.cut id }

inductive Capped where
  | done (bottomNum : U64) (tree : StateTree)
  | panicked (tree : StateTree)

/-- The loop of `cap_diff_to_db` over the layers from the bottom up: while there are more than the
limit, commit the lowest and link the next one to the cache. Without a next one the loop panics. -/
def capLoop (limit : Nat) : List LayerId → U64 → StateTree → Capped
  | [], bottomNum, tree => .done bottomNum tree
  | id :: rest, bottomNum, tree =>
    if limit < rest.length + 1 then
      match tree.commit id with
      | none => .panicked tree
      | some tree' =>
        match rest with
        | [] => .panicked tree'
        | next :: _ => capLoop limit rest (tree.layer id).block.info.number (tree'.retarget next)
    else .done bottomNum tree

/-- `cap_diff_to_db` from a head; the result of a loop that committed nothing (or block 0) is the
number of the block the cache layer stands for. -/
def capDiffToDb : Capped :=
  match capLoop tree.config.diffTreeDepthLimit (tree.arena.chain (some id)).reverse 0 tree with
  | .panicked tree' => .panicked tree'
  | .done bottomNum tree' =>
    .done (if bottomNum = 0 then (tree'.blockInfo ⟨[]⟩).number else bottomNum) tree'

def link (parent : FlattenedLayerView) : StateTree :=
  { tree with arena := tree.arena.push ⟨.new block, parent.head⟩ }

def insertView : StateTree :=
  { tree with
    index :=
      { tree.index with
        hashDiffMap := tree.index.hashDiffMap.insert block.info.hash view
        numDiffMap := tree.index.numDiffMap.insert block.info.number view } }

/-- `clear_diff_map`: drop the heads below the bottom height. -/
def clearDiffMap (bottomHeight : U64) : StateTree :=
  if bottomHeight = 0 then tree
  else
    { tree with
      index :=
        { tree.index with
          hashDiffMap := tree.index.hashDiffMap.retain fun _ view =>
            bottomHeight ≤ (tree.blockInfo view).number
          numDiffMap := tree.index.numDiffMap.retain fun number _ => bottomHeight ≤ number } }

/-- Index a new head and make it the latest. -/
def publish (bottomHeight : U64) : StateTree :=
  let view := tree.buildView id
  let inserted := tree.insertView block view
  { inserted with index := { inserted.index with latest := view } }.clearDiffMap bottomHeight

/-- `StateTree::update_block`, with the tree it leaves behind, also when it panics. -/
def updateBlock : UpdateResult × StateTree :=
  if tree.poisoned then (.panic, tree)
  else if (tree.index.hashDiffMap block.info.hash).isSome then (.ok, tree)
  else
    match tree.index.hashDiffMap block.info.parentHash with
    | none =>
      (.error (.parentBlockHashNotFound block.info.hash block.info.number block.info.parentHash), tree)
    | some parent =>
      let id := tree.arena.length
      let linked := tree.link block parent
      if (tree.blockInfo tree.index.latest).number ≤ block.info.number then
        match linked.capDiffToDb id with
        | .panicked tree' => (.panic, { tree' with poisoned := true })
        | .done bottomNum tree' => (.ok, tree'.publish block id bottomNum)
      else (.ok, linked.insertView block (linked.buildView id))

/-- The view `state_at` finds in the index. -/
def findView : BlockId → Except TreeError (Option FlattenedLayerView)
  | .hash hash => .ok (tree.index.hashDiffMap hash)
  | .number number => .ok (tree.index.numDiffMap number)
  | .latest => .ok (some tree.index.latest)
  | .pending => .ok (some tree.index.latest)
  | blockArg => .error (.unsupportedBlockId blockArg)

def handle : HybridStateDB where
  layers := view.layers.map tree.layer
  cached := tree.cacheLayer.enabled
  statedb := tree.db
  cacheViewHeight := tree.cacheLayer.cacheViewHeight

/-- `state_at` for a block of the index. A block it does not hold is looked up in the database,
past the tree. -/
def stateAt (blockArg : BlockId) : Except TreeError (Option HybridStateDB) :=
  (tree.findView blockArg).map fun view => view.map tree.handle

end StateTree

/-- What happens to a tree: a block arrives, a state is read through a new handle, the cache drops
an entry. -/
inductive TreeEvent where
  | update (block : Block)
  | read (blockArg : BlockId) (k : StateKey)
  | evict (k : StateKey)

namespace StateTree

def setEntries (tree : StateTree) (entries : CacheEntries) : StateTree :=
  { tree with cacheLayer := { tree.cacheLayer with entries := entries } }

def step (tree : StateTree) : TreeEvent → StateTree
  | .update block => (tree.updateBlock block).2
  | .read blockArg k =>
    match tree.stateAt blockArg with
    | .ok (some handle) => tree.setEntries (handle.read tree.cacheLayer.entries k).2
    | _ => tree
  | .evict k => tree.setEntries (tree.cacheLayer.entries.evict k)

def run (tree : StateTree) (events : List TreeEvent) : StateTree := events.foldl step tree

/-- The blocks the tree has taken in, the newest first; the last is the one it started from. -/
def accepted (tree : StateTree) : List Block := tree.arena.map fun node => node.value.block

end StateTree

/-- The blocks from the one with a given hash down its parent hashes. `blocks` is in the order of
arrival, the newest first, so a parent stands behind its children. -/
def ancestry : List Block → H256 → List Block
  | [], _ => []
  | block :: older, hash =>
    if block.info.hash = hash then block :: ancestry older block.info.parentHash
    else ancestry older hash

end LeafageEvm
