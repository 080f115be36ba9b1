import LeafageEvm.KeyPool
import Mathlib.Data.Nat.Digits.Defs

/-! Reads of the state over RPC: the single methods for code, storage, balance and nonce, each with the historical node
as its second chance, and the batch of such reads. Waiting for permits, metrics and the binary form of the batch are
left out. -/

namespace LeafageEvm.StateRead

structure RpcError where
  code : Int
  message : String
  deriving DecidableEq

/-- An error of the database, as it is printed in the two ways the messages use. -/
structure DbError where
  display : String
  debug : String
  deriving DecidableEq

structure AccountInfo where
  balance : Nat := 0
  nonce : Nat := 0
  codeHash : Nat
  deriving DecidableEq

/-- The state at a block. Keys are hashes. -/
structure StateDB where
  basic : Nat → Except DbError (Option AccountInfo)
  codeByHash : Nat → Except DbError (List Nat)
  storage : Nat × Nat → Except DbError Nat
  basicMany : List Nat → Except DbError (List (Option AccountInfo))
  codeByHashMany : List Nat → Except DbError (List (List Nat))
  storageMany : List (Nat × Nat) → Except DbError (List Nat)

/-- The hashes of what keys are made of. -/
structure StateKeys where
  hashAddress : Nat → Nat
  hashIndex : Nat → Nat
  /-- The hash of `get_ovm_balance_key`. -/
  hashOvmBalance : Nat → Nat
  keccakEmpty : Nat

structure EvmStorageWrapper where
  keys : StateKeys
  db : StateDB
  ovmAddress : Option Nat
  normalizeStateKey : Bool

/-- `to_normalize_state_key`: the lowest bit of the first byte is cleared. -/
def toNormalizeStateKey (index : Nat) : Nat := if index.testBit 248 then index - 2 ^ 248 else index

namespace EvmStorageWrapper

variable (wrapper : EvmStorageWrapper)

/-- `basic_ref`: with an OVM address the balance is a slot of it, and makes an account of its own. -/
def basicRef (address : Nat) : Except DbError (Option AccountInfo) :=
  (wrapper.db.basic (wrapper.keys.hashAddress address)).bind fun account =>
    match wrapper.ovmAddress with
    | none => .ok account
    | some ovmAddress =>
      (wrapper.db.storage (ovmAddress, wrapper.keys.hashOvmBalance address)).map fun balance =>
        match account with
        | some account => some { account with balance }
        | none => if balance ≠ 0 then some { balance, codeHash := wrapper.keys.keccakEmpty } else none

def codeByHashRef (codeHash : Nat) : Except DbError (List Nat) := wrapper.db.codeByHash codeHash

def storageKey (key : Nat × Nat) : Nat × Nat :=
  (wrapper.keys.hashAddress key.1,
    wrapper.keys.hashIndex (if wrapper.normalizeStateKey then toNormalizeStateKey key.2 else key.2))

def storageRef (key : Nat × Nat) : Except DbError Nat := wrapper.db.storage (wrapper.storageKey key)

def basicManyRef (addresses : List Nat) : Except DbError (List (Option AccountInfo)) :=
  if wrapper.ovmAddress.isSome then addresses.mapM wrapper.basicRef
  else wrapper.db.basicMany (addresses.map wrapper.keys.hashAddress)

def storageManyRef (keys : List (Nat × Nat)) : Except DbError (List Nat) :=
  wrapper.db.storageMany (keys.map wrapper.storageKey)

def codeByHashManyRef (codeHashes : List Nat) : Except DbError (List (List Nat)) := wrapper.db.codeByHashMany codeHashes

end EvmStorageWrapper

/-- The block of a batch, which is always a fixed one. -/
inductive BsrbContext where
  | hash (id : Nat)
  | number (height : Nat)
  deriving DecidableEq

inductive BsrbRead where
  | addressCode (address : Nat)
  | storageAt (address slot : Nat)
  | balance (address : Nat)
  | nonce (address : Nat)
  deriving DecidableEq

inductive BsrbOutcome where
  | value (bytes : List Nat)
  | error (code : Int) (message : String)
  deriving DecidableEq

def BsrbRead.isBalance : BsrbRead → Bool
  | .balance _ => true
  | _ => false

def BsrbOutcome.isError : BsrbOutcome → Bool
  | .value _ => false
  | .error _ _ => true

/-- An error of the historical client; `overloaded` where the node rejects with status 429. -/
structure ClientError where
  overloaded : Bool
  display : String
  deriving DecidableEq

structure HistoricalClient where
  getAddressCode : Nat → BsrbContext → Except ClientError (List Nat)
  getStorageAt : Nat → Nat → BsrbContext → Except ClientError Nat
  getAddressBalance : Nat → BsrbContext → Except ClientError Nat
  getAddressNonce : Nat → BsrbContext → Except ClientError Nat

structure Api where
  /-- `debank_get_state_by_ctx_impl`. -/
  stateByCtx : BsrbContext → Except RpcError StateDB
  keys : StateKeys
  ovmAddress : Option Nat := none
  normalizeStateKey : Bool := false
  virtualBalance : Option Nat := none
  historicalClient : Option HistoricalClient := none
  historicalHeight : Option Nat := none
  showAddress : Nat → String
  showSlot : Nat → String

def dataBaseFailed : Int := -39005

def historicalRpcOverloadedError : RpcError := ⟨-32042, "Historical RPC overloaded"⟩

def combineErrorMessage (message : String) (historicalErr : ClientError) : String :=
  "Local error: " ++ message ++ "; Historical RPC error: " ++ historicalErr.display

/-- `map_historical_error`, after an error of the node itself. -/
def mapHistoricalError (err : RpcError) (historicalErr : ClientError) : RpcError :=
  if historicalErr.overloaded then historicalRpcOverloadedError
  else ⟨err.code, combineErrorMessage err.message historicalErr⟩

/-- The full word, as 32 bytes. -/
def storageValue (word : Nat) : List Nat := (List.range 32).reverse.map fun i => word / 256 ^ i % 256

/-- A quantity as its bytes from the first that is not zero. -/
def quantityValue (value : Nat) : List Nat := (Nat.digits 256 value).reverse

def BsrbContext.historical (height : Option Nat) : BsrbContext → Bool
  | .hash _ => true
  | .number n => height.any fun h => n < h

namespace Api

variable (api : Api)

def shouldTryHistorical (ctx : BsrbContext) : Option HistoricalClient :=
  if ctx.historical api.historicalHeight then api.historicalClient else none

def wrap (db : StateDB) : EvmStorageWrapper where
  keys := api.keys
  db
  ovmAddress := api.ovmAddress
  normalizeStateKey := api.normalizeStateKey

def databaseError (err : DbError) : RpcError := ⟨dataBaseFailed, err.display⟩

def storageError (key : Nat × Nat) (err : DbError) : RpcError :=
  ⟨dataBaseFailed,
    "Failed to get storage at " ++ api.showAddress key.1 ++ " " ++ api.showSlot key.2 ++ ": " ++ err.debug⟩

/-! ### The single methods -/

/-- `debank_get_address_nonce_inner`. -/
def getAddressNonceInner (address : Nat) (ctx : BsrbContext) : Except RpcError Nat :=
  (api.stateByCtx ctx).bind fun db => (((api.wrap db).basicRef address).mapError databaseError).map fun account =>
    (account.map (·.nonce)).getD 0

/-- `debank_get_address_balance_impl`: a virtual balance answers before the state is looked for. -/
def getAddressBalanceImpl (address : Nat) (ctx : BsrbContext) : Except RpcError Nat :=
  match api.virtualBalance with
  | some balance => .ok balance
  | none =>
    (api.stateByCtx ctx).bind fun db => (((api.wrap db).basicRef address).mapError databaseError).map fun account =>
      (account.map (·.balance)).getD 0

/-- `debank_get_storage_at_inner`. -/
def getStorageAtInner (address index : Nat) (ctx : BsrbContext) : Except RpcError Nat :=
  (api.stateByCtx ctx).bind fun db => ((api.wrap db).storageRef (address, index)).mapError (api.storageError (address, index))

def hasCode (account : AccountInfo) : Bool := ¬ (account.codeHash = 0 ∨ account.codeHash = api.keys.keccakEmpty)

/-- `debank_get_code_inner`. -/
def getCodeInner (address : Nat) (ctx : BsrbContext) : Except RpcError (List Nat) :=
  (api.stateByCtx ctx).bind fun db => (((api.wrap db).basicRef address).mapError databaseError).bind fun account =>
    match account with
    | none => .ok []
    | some account =>
      if api.hasCode account then ((api.wrap db).codeByHashRef account.codeHash).mapError databaseError else .ok []

/-- The answer of a single method: that of the node, or of the historical node when the node fails and there is one for
the block. -/
def answer {A : Type} (ctx : BsrbContext) (result : Except RpcError A) (ask : HistoricalClient → Except ClientError A) :
    Except RpcError A :=
  match result with
  | .ok a => .ok a
  | .error err =>
    match api.shouldTryHistorical ctx with
    | none => .error err
    | some client => (ask client).mapError (mapHistoricalError err)

def getAddressNonce (address : Nat) (ctx : BsrbContext) : Except RpcError Nat :=
  api.answer ctx (api.getAddressNonceInner address ctx) fun client => client.getAddressNonce address ctx

def getAddressBalance (address : Nat) (ctx : BsrbContext) : Except RpcError Nat :=
  api.answer ctx (api.getAddressBalanceImpl address ctx) fun client => client.getAddressBalance address ctx

def getAddressCode (address : Nat) (ctx : BsrbContext) : Except RpcError (List Nat) :=
  api.answer ctx (api.getCodeInner address ctx) fun client => client.getAddressCode address ctx

def getStorageAt (address position : Nat) (ctx : BsrbContext) : Except RpcError Nat :=
  api.answer ctx (api.getStorageAtInner address position ctx) fun client => client.getStorageAt address position ctx

end Api

/-! ### The batch -/

inductive BatchFailure where
  | rpc (err : RpcError)
  | panicked
  deriving DecidableEq

/-- The unique keys of a batch. -/
structure ReadPools where
  accounts : KeyPool Nat := {}
  needsCode : List Bool := []
  storage : KeyPool (Nat × Nat) := {}

namespace ReadPools

def addAccount (pools : ReadPools) (address : Nat) : ReadPools :=
  if (pools.accounts.slots address).isSome then pools
  else { pools with accounts := pools.accounts.entry address, needsCode := pools.needsCode ++ [false] }

def add (pools : ReadPools) : BsrbRead → ReadPools
  | .addressCode address =>
    let added := pools.addAccount address
    { added with needsCode := added.needsCode.set ((added.accounts.slots address).getD 0) true }
  | .storageAt address slot => { pools with storage := pools.storage.entry (address, slot) }
  | .balance address => pools.addAccount address
  | .nonce address => pools.addAccount address

end ReadPools

namespace Api

variable (api : Api)

def addCodeHash (pool : KeyPool Nat) : Except RpcError (Option AccountInfo) × Bool → KeyPool Nat
  | (.ok (some account), true) => if api.hasCode account then pool.entry account.codeHash else pool
  | _ => pool

def codeResult (hashes : KeyPool Nat) (codes : List (Except RpcError (List Nat)))
    (item : Except RpcError (Option AccountInfo) × Bool) : Except BatchFailure (Except RpcError (List Nat)) :=
  match item with
  | (_, false) => .ok (.ok [])
  | (.error err, true) => .ok (.error err)
  | (.ok none, true) => .ok (.ok [])
  | (.ok (some account), true) =>
    if api.hasCode account then orError (hashes.lookup codes account.codeHash) .panicked else .ok (.ok [])

def outcome {A : Type} (encode : A → List Nat) : Except RpcError A → BsrbOutcome
  | .ok a => .value (encode a)
  | .error err => .error err.code err.message

def readOutcome (pools : ReadPools) (storage : List (Except RpcError Nat))
    (accounts : List (Except RpcError (Option AccountInfo))) (codes : List (Except RpcError (List Nat))) :
    BsrbRead → Except BatchFailure BsrbOutcome
  | .addressCode address => (orError (pools.accounts.lookup codes address) .panicked).map (outcome id)
  | .storageAt address slot => (orError (pools.storage.lookup storage (address, slot)) .panicked).map (outcome storageValue)
  | .balance address =>
    (orError (pools.accounts.lookup accounts address) .panicked).map
      (outcome fun account => quantityValue ((account.map (·.balance)).getD 0))
  | .nonce address =>
    (orError (pools.accounts.lookup accounts address) .panicked).map
      (outcome fun account => quantityValue ((account.map (·.nonce)).getD 0))

/-- `blockx_state_read_batch_inner`, once the state is there. -/
def readBatch (state : EvmStorageWrapper) (reads : List BsrbRead) : Except BatchFailure (List BsrbOutcome) :=
  let pools := reads.foldl ReadPools.add {}
  let storage := readMany (state.storageManyRef pools.storage.keys) state.storageRef api.storageError pools.storage.keys
  let accounts := readMany (state.basicManyRef pools.accounts.keys) state.basicRef (fun _ => databaseError)
    pools.accounts.keys
  let hashes := (accounts.zip pools.needsCode).foldl api.addCodeHash {}
  let codes := readMany (state.codeByHashManyRef hashes.keys) state.codeByHashRef (fun _ => databaseError) hashes.keys
  ((accounts.zip pools.needsCode).mapM (api.codeResult hashes codes)).bind fun codeResults =>
    reads.mapM (readOutcome pools storage accounts codeResults)

/-- `blockx_state_read_batch_inner`. -/
def stateReadBatchInner (reads : List BsrbRead) (ctx : BsrbContext) : Except BatchFailure (List BsrbOutcome) :=
  ((api.stateByCtx ctx).mapError .rpc).bind fun db => api.readBatch (api.wrap db) reads

def historicalItem (client : HistoricalClient) (ctx : BsrbContext) : BsrbRead → Except ClientError (List Nat)
  | .addressCode address => client.getAddressCode address ctx
  | .storageAt address slot => (client.getStorageAt address slot ctx).map storageValue
  | .balance address => (client.getAddressBalance address ctx).map quantityValue
  | .nonce address => (client.getAddressNonce address ctx).map quantityValue

/-- What the historical node makes of an item that failed. -/
def retryItem (client : HistoricalClient) (ctx : BsrbContext) (read : BsrbRead) (code : Int) (message : String) :
    BsrbOutcome :=
  match historicalItem client ctx read with
  | .ok value => .value value
  | .error historicalErr => .error code (combineErrorMessage message historicalErr)

def retried (client : HistoricalClient) (ctx : BsrbContext) (read : BsrbRead) : BsrbOutcome → BsrbOutcome
  | .value bytes => .value bytes
  | .error code message => retryItem client ctx read code message

/-- `blockx_retry_items_via_historical`, with the reads that the historical node is asked for. -/
def retryItemsViaHistorical (reads : List BsrbRead) (outcomes : List BsrbOutcome) (ctx : BsrbContext) :
    List BsrbOutcome × List BsrbRead :=
  match api.shouldTryHistorical ctx with
  | none => (outcomes, [])
  | some client =>
    ((reads.zip outcomes).map fun item => retried client ctx item.1 item.2,
      ((reads.zip outcomes).filter fun item => item.2.isError).map (·.1))

/-- `blockx_resolve_batch`: a panic of the reads is an internal error. -/
def resolveBatch (reads : List BsrbRead) (ctx : BsrbContext) : Except BatchFailure (List BsrbOutcome) × List BsrbRead :=
  match api.stateReadBatchInner reads ctx with
  | .ok outcomes =>
    let result := api.retryItemsViaHistorical reads outcomes ctx
    (.ok result.1, result.2)
  | .error .panicked => (.error (.rpc ⟨-32603, "state read batch failed"⟩), [])
  | .error (.rpc err) =>
    match api.shouldTryHistorical ctx with
    | none => (.error (.rpc err), [])
    | some client => (.ok (reads.map fun read => retryItem client ctx read err.code err.message), reads)

def withBalances (balance : BsrbOutcome) : List BsrbRead → List BsrbOutcome → Except BatchFailure (List BsrbOutcome)
  | [], _ => .ok []
  | .balance _ :: reads, rest => (withBalances balance reads rest).map (balance :: ·)
  | _ :: _, [] => .error .panicked
  | _ :: reads, outcome :: rest => (withBalances balance reads rest).map (outcome :: ·)

/-- `blockx_resolve_with_virtual_balance`. -/
def resolveWithVirtualBalance (reads : List BsrbRead) (ctx : BsrbContext) (balance : Nat) :
    Except BatchFailure (List BsrbOutcome) × List BsrbRead :=
  let rest := reads.filter fun read => ¬ read.isBalance
  let resolved := if rest = [] then (.ok [], []) else api.resolveBatch rest ctx
  let outcomes : Except BatchFailure (List BsrbOutcome) :=
    match resolved.1 with
    | .ok outcomes => .ok outcomes
    | .error (.rpc err) => .ok (List.replicate rest.length (.error err.code err.message))
    | .error .panicked => .error .panicked
  (outcomes.bind fun outcomes => withBalances (.value (quantityValue balance)) reads outcomes, resolved.2)

/-- `state_read_batch`, from the decoded batch to the outcomes. -/
def stateReadBatch (reads : List BsrbRead) (ctx : BsrbContext) : Except BatchFailure (List BsrbOutcome) × List BsrbRead :=
  match api.virtualBalance with
  | some balance => api.resolveWithVirtualBalance reads ctx balance
  | none => api.resolveBatch reads ctx

end Api
end LeafageEvm.StateRead
