import LeafageEvm.HashMap
import Mathlib.Algebra.GroupWithZero.Nat
import Mathlib.Order.Fin.Basic

/-! The values the node stores and the block data it receives. Fixed-width integers are finite
types, so a value out of range cannot be written down; a 32-byte hash and a 256-bit word are the
same numbers, read as big-endian byte strings only where a key is laid out on disk. -/

namespace LeafageEvm

instance u8_neZero : NeZero 256 := ⟨by decide⟩
instance u64_neZero : NeZero (2 ^ 64) := ⟨by decide⟩
instance u256_neZero : NeZero (2 ^ 256) := ⟨by decide⟩

abbrev Byte := Fin 256
abbrev Bytes := List Byte
abbrev U64 := Fin (2 ^ 64)
abbrev U256 := Fin (2 ^ 256)
abbrev H256 := Fin (2 ^ 256)

/-- The keccak hash of the empty string, the code hash of an account without code. -/
def keccak256Empty : H256 :=
  0xc5d2460186f7233c927e7db2dcc703c0e500b653ca82273b7bfad8045d85a470

/-- An account as the EVM sees it. The address is the key it is read under. -/
structure AccountInfo where
  balance : U256
  nonce : U64
  codeHash : H256
  deriving DecidableEq

def AccountInfo.readBack (account : AccountInfo) : AccountInfo :=
  { account with codeHash := if account.codeHash = 0 then keccak256Empty else account.codeHash }

/-- An account of a block diff. -/
structure NewAccount where
  address : H256
  balance : U256
  nonce : U64
  codeHash : H256
  deriving DecidableEq

/-- The account of a diff as the EVM sees it: the code hash is passed on unchanged. -/
def NewAccount.toAccountInfo (account : NewAccount) : AccountInfo where
  balance := account.balance
  nonce := account.nonce
  codeHash := account.codeHash

structure IndexValuePair where
  index : H256
  value : U256
  deriving DecidableEq

structure AccountStorageDiff where
  address : H256
  diffs : List IndexValuePair
  deriving DecidableEq

structure NewCode where
  codeHash : H256
  code : Bytes
  deriving DecidableEq

/-- What a block changes. The two state roots of the wire format are not read by the storage. -/
structure BlockStorageDiff where
  newAccounts : List NewAccount := []
  deletedAccounts : List H256 := []
  storageDiffs : List AccountStorageDiff := []
  newCodes : List NewCode := []
  deriving DecidableEq, Inhabited

def BlockStorageDiff.accountWrites (diff : BlockStorageDiff) : List (H256 × Option AccountInfo) :=
  diff.deletedAccounts.map (fun address => (address, none)) ++
    diff.newAccounts.map fun account => (account.address, some account.toAccountInfo)

def BlockStorageDiff.slotWrites (diff : BlockStorageDiff) : List ((H256 × H256) × U256) :=
  diff.storageDiffs.flatMap fun account =>
    account.diffs.map fun pair => ((account.address, pair.index), pair.value)

/-- The header fields the storage reads. -/
structure BlockInfo where
  hash : H256
  parentHash : H256
  number : U64
  deriving DecidableEq, Inhabited

/-- A block as `update_block` receives it. -/
structure Block where
  info : BlockInfo
  diff : BlockStorageDiff := {}
  deriving DecidableEq, Inhabited

/-- What a state read asks for. The four kinds of read walk the same layers, so everything below
is stated once, for all of them. -/
inductive StateKey where
  | account (address : H256)
  | slot (address index : H256)
  | code (codeHash : H256)
  | blockHash (number : U64)
  deriving DecidableEq

/-- The answer to a read. -/
abbrev StateKey.Value : StateKey → Type
  | .account _ => Option AccountInfo
  | .slot _ _ => U256
  | .code _ => Bytes
  | .blockHash _ => H256

instance (k : StateKey) : DecidableEq k.Value :=
  match k with
  | .account _ => inferInstanceAs (DecidableEq (Option AccountInfo))
  | .slot _ _ => inferInstanceAs (DecidableEq U256)
  | .code _ => inferInstanceAs (DecidableEq Bytes)
  | .blockHash _ => inferInstanceAs (DecidableEq H256)

def StateKey.readBack : (k : StateKey) → k.Value → k.Value
  | .account _, stored => Option.map AccountInfo.readBack stored
  | .slot _ _, stored => stored
  | .code _, stored => stored
  | .blockHash _, stored => stored

/-- Whether the block deletes the account the key is a slot of. A diff lists no storage for a
deleted account, so what becomes of its slots is the backend's business. -/
def BlockStorageDiff.deletesOwner (diff : BlockStorageDiff) : StateKey → Bool
  | .slot address _ => diff.deletedAccounts.contains address
  | _ => false

end LeafageEvm
