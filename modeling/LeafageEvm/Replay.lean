import LeafageEvm.LayerReads
import LeafageEvm.OrderedMap
import LeafageEvm.Runs

/-! The state changes of a replayed block, with the value of each account and slot before the block, and the diff of the
block built from them. The values before the block are taken when an account is first changed, and those of a slot when
it is first written. The replay's database is modelled through its reads: a commit removes a destroyed account with its
storage, and clears the storage of a created one. -/

namespace LeafageEvm.Replay
open Function

abbrev Address := Fin (2 ^ 160)

/-- Keccak of addresses and of slots, without collisions. -/
structure Keccak where
  address : Address → H256
  slot : U256 → H256
  address_injective : Function.Injective address
  slot_injective : Function.Injective slot

def normalizeCodeHash (codeHash : H256) : H256 := if codeHash = 0 then keccak256Empty else codeHash

def isEmpty (info : AccountInfo) : Bool :=
  info.balance = 0 ∧ info.nonce = 0 ∧ normalizeCodeHash info.codeHash = keccak256Empty

/-- `live`: the account, if it counts as existing. -/
def live (keepEmpty : Bool) (info : Option AccountInfo) : Option AccountInfo := info.filter fun info => keepEmpty || !isEmpty info

/-! ### The database of the replay -/

structure EvmStorageSlot where
  originalValue : U256
  presentValue : U256

def EvmStorageSlot.isChanged (slot : EvmStorageSlot) : Bool := slot.originalValue ≠ slot.presentValue

/-- An account as a transaction leaves it. -/
structure EvmAccount where
  isTouched : Bool
  isSelfdestructed : Bool
  isCreated : Bool
  info : AccountInfo
  storage : OrderedMap U256 EvmStorageSlot

abbrev EvmState := OrderedMap Address EvmAccount

structure CacheDB where
  accounts : Address → Option AccountInfo
  slots : Address → U256 → U256

namespace CacheDB

variable (db : CacheDB) (address : Address)

def insertAccountInfo (info : AccountInfo) : CacheDB :=
  { db with accounts := update db.accounts address (some info) }

def insertAccountStorage (slot value : U256) : CacheDB :=
  { db with slots := update db.slots address (update (db.slots address) slot value) }

def commitAccount (account : EvmAccount) : CacheDB :=
  if account.isTouched = false then db
  else if account.isSelfdestructed then
    { accounts := update db.accounts address none, slots := update db.slots address fun _ => 0 }
  else
    { accounts := update db.accounts address (some account.info)
      slots := update db.slots address fun slot =>
        ((account.storage.get slot).map EvmStorageSlot.presentValue).getD
          (if account.isCreated then 0 else db.slots address slot) }

def commit (state : EvmState) : CacheDB :=
  state.entries.foldl (fun db entry => db.commitAccount entry.1 entry.2) db

end CacheDB

def EvmAccount.markEmpty (account : EvmAccount) : EvmAccount :=
  if account.isTouched && isEmpty account.info then { account with isSelfdestructed := true } else account

def deleteTouchedEmpty (state : EvmState) : EvmState := state.mapValues EvmAccount.markEmpty

/-! ### The change set -/

structure SlotChange where
  original : U256
  present : U256

structure AccountChange where
  original : Option AccountInfo
  info : Option AccountInfo
  storage : OrderedMap U256 SlotChange
  destroyed : Bool

structure ChangeSet where
  accounts : OrderedMap Address AccountChange
  keepEmpty : Bool

/-- `set_slot`: the original is kept from the first write. -/
def setSlot (storage : OrderedMap U256 SlotChange) (slot original value : U256) : OrderedMap U256 SlotChange :=
  storage.put slot ⟨((storage.get slot).map SlotChange.original).getD original, value⟩

/-- A slot of an account, if a transaction has changed it; those of a destroyed account are gone. -/
def recordSlot (destroyed : Bool) (storage : OrderedMap U256 SlotChange) (entry : U256 × EvmStorageSlot) :
    OrderedMap U256 SlotChange :=
  if entry.2.isChanged || destroyed then
    setSlot storage entry.1 entry.2.originalValue (if destroyed then 0 else entry.2.presentValue)
  else storage

def recordSlots (destroyed : Bool) (storage : OrderedMap U256 SlotChange) (slots : List (U256 × EvmStorageSlot)) :
    OrderedMap U256 SlotChange :=
  slots.foldl (recordSlot destroyed) storage

namespace ChangeSet

variable (changes : ChangeSet) (db : CacheDB)

/-- `track`: the entry of an account, new with the value before the block. -/
def track (address : Address) : AccountChange :=
  (changes.accounts.get address).getD
    ⟨live changes.keepEmpty (db.accounts address), live changes.keepEmpty (db.accounts address), .empty, false⟩

def put (address : Address) (change : AccountChange) : ChangeSet :=
  { changes with accounts := changes.accounts.put address change }

/-- One account of `record`. -/
def recordAccount (changes : ChangeSet) (address : Address) (account : EvmAccount) : ChangeSet :=
  if account.isTouched = false then changes
  else
    let change := changes.track db address
    let destroyed := account.isSelfdestructed
    let storage :=
      if account.isSelfdestructed || account.isCreated then change.storage.mapValues fun slot => { slot with present := 0 }
      else change.storage
    changes.put address
      { change with
        destroyed := change.destroyed || destroyed
        info := if destroyed then none else some account.info
        storage := recordSlots destroyed storage account.storage.entries }

def record (state : EvmState) : ChangeSet :=
  state.entries.foldl (fun changes entry => changes.recordAccount db entry.1 entry.2) changes

end ChangeSet

/-! ### The diff -/

def collect {V : Type} (entries : List (H256 × V)) : OrderedMap H256 V :=
  entries.foldl (fun map entry => map.put entry.1 entry.2) .empty

/-- What can list the storage before the block. -/
abbrev StorageSlots := Address → Option (List (H256 × U256))

/-- The value of a slot before the block: from the listing if there is one. -/
def slotBefore (keccak : Keccak) (before : Option (OrderedMap H256 U256)) (key : U256) (slot : SlotChange) : U256 :=
  match before with
  | some before => (before.get (keccak.slot key)).getD 0
  | none => slot.original

/-- The pairs of `storage_diff`: the slots that changed, and those the block did not touch and lost. -/
def diffPairs (keccak : Keccak) (storage : OrderedMap U256 SlotChange) (before : Option (OrderedMap H256 U256)) :
    List IndexValuePair :=
  (storage.entries.filter fun entry => entry.2.present ≠ slotBefore keccak before entry.1 entry.2).map
      (fun entry => ⟨keccak.slot entry.1, entry.2.present⟩) ++
    (((before.map OrderedMap.entries).getD []).filter fun entry =>
      storage.entries.all fun slot => keccak.slot slot.1 ≠ entry.1).map fun entry => ⟨entry.1, 0⟩

def storageDiff (keccak : Keccak) (hashed : H256) (storage : OrderedMap U256 SlotChange)
    (before : Option (OrderedMap H256 U256)) : Option AccountStorageDiff :=
  let diffs := diffPairs keccak storage before
  if diffs.isEmpty then none else some ⟨hashed, diffs.mergeSort fun a b => a.index ≤ b.index⟩

namespace AccountChange

def slotsBefore (parentState : Option StorageSlots) (address : Address) (change : AccountChange) :
    Option (OrderedMap H256 U256) :=
  match parentState with
  | some state => if change.destroyed && change.original.isSome then (state address).map collect else none
  | none => none

/-- An account that existed and does not any more. -/
def deleted (keepEmpty : Bool) (change : AccountChange) : Option Unit :=
  if live keepEmpty change.info = none ∧ change.original ≠ none then some () else none

def unchanged (before info : AccountInfo) : Bool :=
  before.balance = info.balance ∧ before.nonce = info.nonce ∧ normalizeCodeHash before.codeHash = normalizeCodeHash info.codeHash

def newAccount (hashed : H256) (change : AccountChange) (info : AccountInfo) : Option NewAccount :=
  if change.original.any fun before => unchanged before info then none
  else some ⟨hashed, info.balance, info.nonce, info.codeHash⟩

def newCode (codeByHash : H256 → Bytes) (change : AccountChange) (info : AccountInfo) : Option NewCode :=
  let codeHash := normalizeCodeHash info.codeHash
  let codeBefore := change.original.map fun before => normalizeCodeHash before.codeHash
  if codeHash ≠ keccak256Empty ∧ codeBefore ≠ some codeHash then some ⟨codeHash, codeByHash info.codeHash⟩ else none

end AccountChange

namespace ChangeSet

def hashed {V : Type} (keccak : Keccak) (changes : ChangeSet) (give : Address → AccountChange → Option V) : OrderedMap H256 V :=
  collect (changes.accounts.entries.filterMap fun entry =>
    (give entry.1 entry.2).map fun value => (keccak.address entry.1, value))

def toStorageDiff (keccak : Keccak) (codeByHash : H256 → Bytes) (parentState : Option StorageSlots) (changes : ChangeSet) :
    BlockStorageDiff where
  newAccounts := (changes.hashed keccak fun address change =>
    (live changes.keepEmpty change.info).bind (change.newAccount (keccak.address address))).entries.map (·.2)
  deletedAccounts := (changes.hashed keccak fun _ change => change.deleted changes.keepEmpty).entries.map (·.1)
  storageDiffs := (changes.hashed keccak fun address change =>
    storageDiff keccak (keccak.address address) change.storage (change.slotsBefore parentState address)).entries.map (·.2)
  newCodes := (collect (changes.accounts.entries.filterMap fun entry =>
    ((live changes.keepEmpty entry.2.info).bind (entry.2.newCode codeByHash)).map fun code =>
      (code.codeHash, code))).entries.map (·.2)

end ChangeSet

/-! ### The replay -/

structure BlockReplay where
  db : CacheDB
  changes : ChangeSet

/-- What a block does to the state: transactions (with touched accounts left empty deleted or not), those of a BSC
block, and writes outside the EVM. -/
inductive BlockEvent where
  | commit (stateClear : Bool) (state : EvmState)
  | execute (state : EvmState)
  | setInfo (address : Address) (info : AccountInfo)
  | setCode (address : Address) (codeHash : H256) (nonce : Option U64)
  | setStorage (address : Address) (slot value : U256)
  | distributeIncoming (coinbase : Address)

def systemAddress : Address := ⟨0xfffffffffffffffffffffffffffffffffffffffe, by decide⟩

def defaultInfo : AccountInfo := ⟨0, 0, keccak256Empty⟩

namespace BlockReplay

variable (replay : BlockReplay) (address : Address)

def commit (state : EvmState) : BlockReplay :=
  ⟨replay.db.commit state, replay.changes.record replay.db state⟩

/-- `Replayer::execute` of BSC records a transaction first and deletes the accounts left empty then. -/
def execute (state : EvmState) : BlockReplay :=
  ⟨replay.db.commit (deleteTouchedEmpty state), replay.changes.record replay.db state⟩

def setInfo (info : AccountInfo) : BlockReplay :=
  ⟨replay.db.insertAccountInfo address info,
    replay.changes.put address { replay.changes.track replay.db address with info := some info }⟩

def setCode (codeHash : H256) (nonce : Option U64) : BlockReplay :=
  let info := (replay.db.accounts address).getD defaultInfo
  replay.setInfo address { info with codeHash := codeHash, nonce := nonce.getD info.nonce }

/-- `set_storage` of an account that is there. -/
def writeStorage (slot value : U256) : BlockReplay :=
  let original := replay.db.slots address slot
  let db := replay.db.insertAccountStorage address slot value
  let change := replay.changes.track db address
  ⟨db, replay.changes.put address
    { change with
      info := change.info.or (db.accounts address)
      storage := setSlot change.storage slot original value }⟩

def setStorage (slot value : U256) : BlockReplay :=
  (if replay.db.accounts address = none then replay.setInfo address defaultInfo else replay).writeStorage address slot value

def distributeIncoming (coinbase : Address) : BlockReplay :=
  match replay.db.accounts systemAddress with
  | none => replay
  | some system =>
    if system.balance = 0 then replay
    else
      let moved := replay.setInfo systemAddress { system with balance := 0 }
      let validator := (moved.db.accounts coinbase).getD defaultInfo
      moved.setInfo coinbase { validator with balance := validator.balance + system.balance }

def step : BlockEvent → BlockReplay
  | .commit stateClear state => replay.commit (if stateClear then deleteTouchedEmpty state else state)
  | .execute state => replay.execute state
  | .setInfo address info => replay.setInfo address info
  | .setCode address codeHash nonce => replay.setCode address codeHash nonce
  | .setStorage address slot value => replay.setStorage address slot value
  | .distributeIncoming coinbase => replay.distributeIncoming coinbase

def start (keccak : Keccak) (keepEmpty : Bool) (disk : DiskState) : BlockReplay where
  db :=
    { accounts := fun address => disk.get (.account (keccak.address address))
      slots := fun address slot => disk.get (.slot (keccak.address address) (keccak.slot slot)) }
  changes := ⟨.empty, keepEmpty⟩

end BlockReplay

/-- The storage of an account before the block, as the archive lists it. -/
def parentSlots (keccak : Keccak) (disk : DiskState) : StorageSlots := fun address =>
  some ((disk.storageSlots (keccak.address address)).map fun index => (index, disk.get (.slot (keccak.address address) index)))

end LeafageEvm.Replay
