import LeafageEvm.ArchiveDeletion
import LeafageEvm.LatestScan

/-! The migration of a database into a state database, which holds one state. The source is a state
database or an archive, whose latest-state scans are copied; the head pointer is copied with the block
behind it. RocksDB takes the rows as files, MDBX in batches. -/

namespace LeafageEvm
open SstSink Archive OrderedMap List

/-- A state database: RocksDB's or MDBX's. -/
structure StateDatabase where
  accounts : OrderedMap Bytes Bytes
  storage : OrderedMap Bytes Bytes
  codes : OrderedMap Bytes Bytes
  blockHashes : OrderedMap Bytes Bytes
  headers : OrderedMap Bytes Bytes
  latest : Option Bytes

namespace StateDatabase

def empty : StateDatabase := ⟨.empty, .empty, .empty, .empty, .empty, none⟩

def decodeSlimAccount (codec : Codec) (address : H256) (raw : Bytes) : Option NewAccount :=
  (codec.decodeAccount raw).map fun account =>
    { address := address, balance := account.balance, nonce := account.nonce,
      codeHash := if account.codeHash = 0 then keccak256Empty else account.codeHash }

def readAccount (codec : Codec) (db : StateDatabase) (address : H256) : Option NewAccount :=
  (db.accounts.get (hashBytes address)).bind (decodeSlimAccount codec address)

def readStorage (db : StateDatabase) (address slot : H256) : U256 :=
  ((db.storage.get (slotOwner address slot).1).map decodeStorage).getD 0

def readCode (db : StateDatabase) (codeHash : H256) : Option Bytes := db.codes.get (hashBytes codeHash)

def readLatestBlockHash (db : StateDatabase) : H256 := (db.latest.map hashOfBytes).getD 0

def readBlockInfo (codec : Codec) (db : StateDatabase) (hash : H256) : Option BlockInfo :=
  (db.headers.get (hashBytes hash)).bind codec.decodeHeader

def accountIter (codec : Codec) (db : StateDatabase) : Except MigrateError (List (H256 × NewAccount)) :=
  db.accounts.entries.mapM fun row =>
    match decodeSlimAccount codec (hashOfBytes row.1) row.2 with
    | some account => .ok (hashOfBytes row.1, account)
    | none => .error .decode

def storageIter (db : StateDatabase) : List ((H256 × H256) × U256) := db.storage.entries.map slotOfRow

end StateDatabase

/-- Where a migration reads from. An archive's codes come with their table, which the scan goes through. -/
inductive MigrateSource where
  | state (db : StateDatabase)
  | archive (archive : Archive) (codeRows : OrderedMap Bytes Bytes)

namespace MigrateSource

/-! ### Reads at the head -/

def readAccount (codec : Codec) (source : MigrateSource) (address : H256) : Option NewAccount :=
  match source with
  | .state db => db.readAccount codec address
  | .archive db _ => db.readAccount codec (db.latestBlockNum codec) address

def readStorage (codec : Codec) (source : MigrateSource) (address slot : H256) : U256 :=
  match source with
  | .state db => db.readStorage address slot
  | .archive db _ => db.readStorage (db.latestBlockNum codec) address slot

def readCode (source : MigrateSource) (codeHash : H256) : Option Bytes :=
  match source with
  | .state db => db.readCode codeHash
  | .archive db _ => db.readCode codeHash

def readLatestBlockHash : MigrateSource → H256
  | .state db => db.readLatestBlockHash
  | .archive db _ => db.readLatestBlockHash

def blockInfo (codec : Codec) (source : MigrateSource) : Option BlockInfo :=
  match source with
  | .state db => db.readBlockInfo codec db.readLatestBlockHash
  | .archive db _ => db.readBlockInfo codec db.readLatestBlockHash

/-! ### Scans -/

def accountIter (codec : Codec) (debug : Bool) (source : MigrateSource) : Except MigrateError (List (H256 × NewAccount)) :=
  match source with
  | .state db => db.accountIter codec
  | .archive db _ => LeafageEvm.accountIter codec db.backend debug db.accounts

def storageIter (debug : Bool) (source : MigrateSource) : Except MigrateError (List ((H256 × H256) × U256)) :=
  match source with
  | .state db => .ok db.storageIter
  | .archive db _ => LeafageEvm.storageIter db.backend debug db.storage

def codeRows : MigrateSource → OrderedMap Bytes Bytes
  | .state db => db.codes
  | .archive _ codeRows => codeRows

def codeIter (source : MigrateSource) : List (H256 × Bytes) :=
  source.codeRows.entries.map fun row => (hashOfBytes row.1, row.2)

def blockHashRows : MigrateSource → OrderedMap Bytes Bytes
  | .state db => db.blockHashes
  | .archive db _ => db.blockHashes

def blockHashIter (source : MigrateSource) : List (U64 × H256) :=
  source.blockHashRows.entries.map fun row => (Fin.ofNat (2 ^ 64) (ofBE row.1), hashOfBytes row.2)

end MigrateSource

/-! ### The two paths -/

def accountRow (codec : Codec) (entry : H256 × NewAccount) : Bytes × Bytes :=
  (hashBytes entry.1, codec.encodeAccount entry.2.toSlimAccount)

def storageRow (entry : (H256 × H256) × U256) : Bytes × Bytes := ((slotOwner entry.1.1 entry.1.2).1, toBE 32 entry.2)

def codeRow (entry : H256 × Bytes) : Bytes × Bytes := (hashBytes entry.1, entry.2)

def blockHashRow (entry : U64 × H256) : Bytes × Bytes := (encodeBlockNum entry.1, hashBytes entry.2)

/-- `migrate_latest_block`: the head pointer and its block, in place of the parent's. -/
def migrateLatestBlock (codec : Codec) (source : MigrateSource) (db : StateDatabase) : Except MigrateError StateDatabase :=
  match source.blockInfo codec with
  | none => .error .noHead
  | some info =>
    .ok { db with
      latest := some (hashBytes info.hash)
      headers := (db.headers.retain fun key _ => key ≠ hashBytes info.parentHash).put (hashBytes info.hash) (codec.encodeHeader info) }

def bulkColumn (full : List (Bytes × Bytes) → Bool) (rows : List (Bytes × Bytes)) : Except MigrateError (OrderedMap Bytes Bytes) :=
  match SstSink.putAll full {} rows with
  | .ok sink => .ok (OrderedMap.empty.ingest sink.finish)
  | .error error => .error (.sst error)

def migrateBulk (codec : Codec) (full : List (Bytes × Bytes) → Bool) (debug : Bool) (source : MigrateSource) :
    Except MigrateError StateDatabase := do
  let accounts ← source.accountIter codec debug
  let accountTable ← bulkColumn full (accounts.map (accountRow codec))
  let codeTable ← bulkColumn full (source.codeIter.map codeRow)
  let slots ← source.storageIter debug
  let storageTable ← bulkColumn full (slots.map storageRow)
  let blockHashTable ← bulkColumn full (source.blockHashIter.map blockHashRow)
  migrateLatestBlock codec source
    { StateDatabase.empty with accounts := accountTable, codes := codeTable, storage := storageTable, blockHashes := blockHashTable }

/-- A write of a batch. -/
inductive WriteOp where
  | put (key value : Bytes)
  | delete (key : Bytes)

def WriteOp.apply (table : OrderedMap Bytes Bytes) : WriteOp → OrderedMap Bytes Bytes
  | .put key value => table.put key value
  | .delete key => table.retain fun other _ => other ≠ key

def commitOps (table : OrderedMap Bytes Bytes) (batch : List WriteOp) : OrderedMap Bytes Bytes := batch.foldl WriteOp.apply table

/-- One write of a column. The batch is committed whenever the number of writes is a multiple of `limit`. -/
def batchStep (limit : Nat) (state : OrderedMap Bytes Bytes × List WriteOp × Nat) (op : WriteOp) :
    OrderedMap Bytes Bytes × List WriteOp × Nat :=
  let batch := state.2.1 ++ [op]
  let count := state.2.2 + 1
  if count % limit = 0 then (commitOps state.1 batch, [], count) else (state.1, batch, count)

def batchColumn (limit : Nat) (ops : List WriteOp) (table : OrderedMap Bytes Bytes) : OrderedMap Bytes Bytes :=
  let state := ops.foldl (batchStep limit) (table, [], 0)
  commitOps state.1 state.2.1

def putRow (row : Bytes × Bytes) : WriteOp := .put row.1 row.2

/-- `write_storage`: a zero is a deletion. -/
def writeStorage (entry : (H256 × H256) × U256) : WriteOp :=
  if entry.2 = 0 then .delete (storageRow entry).1 else putRow (storageRow entry)

/-- How many writes of each column are committed together. -/
structure BatchLimits where
  account : Nat := 200000
  code : Nat := 10000
  storage : Nat := 500000
  blockHash : Nat := 1000000

/-- `migrate_account`, `migrate_code`, `migrate_storage` and `migrate_block_info`. -/
def migrateBatch (codec : Codec) (limits : BatchLimits) (debug : Bool) (source : MigrateSource) :
    Except MigrateError StateDatabase := do
  let accounts ← source.accountIter codec debug
  let accountTable := batchColumn limits.account (accounts.map fun entry => putRow (accountRow codec entry)) .empty
  let codeTable := batchColumn limits.code (source.codeIter.map fun entry => putRow (codeRow entry)) .empty
  let slots ← source.storageIter debug
  let storageTable := batchColumn limits.storage (slots.map writeStorage) .empty
  let db ← migrateLatestBlock codec source
    { StateDatabase.empty with accounts := accountTable, codes := codeTable, storage := storageTable }
  let blockHashTable := batchColumn limits.blockHash (source.blockHashIter.map fun entry => putRow (blockHashRow entry)) db.blockHashes
  pure { db with blockHashes := blockHashTable }

/-! ### Both paths write the same -/

theorem batchColumn_eq (limit : Nat) (ops : List WriteOp) (table : OrderedMap Bytes Bytes) :
    batchColumn limit ops table = commitOps table ops := by
  -- Committing what has been gathered gives the same at every point.
  suffices hgather : ∀ state,
      commitOps (ops.foldl (batchStep limit) state).1 (ops.foldl (batchStep limit) state).2.1 =
        commitOps (commitOps state.1 state.2.1) ops from hgather (table, [], 0)
  intro state
  induction ops generalizing state with
  | nil => rfl
  | cons op _ ih =>
    have hstep : commitOps (batchStep limit state op).1 (batchStep limit state op).2.1 =
        op.apply (commitOps state.1 state.2.1) := by
      rw [batchStep]
      split <;> exact foldl_append ..
    rw [foldl_cons, ih, hstep]
    rfl

def tableOf (rows : List (Bytes × Bytes)) : OrderedMap Bytes Bytes := rows.foldl (fun table row => table.put row.1 row.2) .empty

theorem batchColumn_putRow {A : Type} (limit : Nat) (row : A → Bytes × Bytes) (l : List A) :
    batchColumn limit (l.map fun a => putRow (row a)) .empty = tableOf (l.map row) := by
  rw [batchColumn_eq, commitOps, tableOf, foldl_map, foldl_map]
  rfl

variable {rows : List (Bytes × Bytes)}

theorem bulkColumn_ok (full : List (Bytes × Bytes) → Bool) (hrows : rows.Pairwise fun a b => a.1 < b.1) :
    bulkColumn full rows = .ok (tableOf rows) := by
  obtain ⟨sink, hok, -, hwritten, -⟩ := putAll_ok full filed_empty hrows nofun
  have hflatten : sink.finish.flatten = rows := by
    rw [flatten_finish, hwritten]
    rfl
  rw [bulkColumn, hok]
  exact congrArg Except.ok (by rw [ingest_eq, hflatten, tableOf])

theorem get_tableOf (hrows : rows.Pairwise fun a b => a.1 < b.1) {key value : Bytes} :
    (tableOf rows).get key = some value ↔ (key, value) ∈ rows := by
  have hdistinct : (rows.map (·.1)).Nodup := pairwise_map.mpr (hrows.imp (·.ne))
  rw [get_eq_some, tableOf, mem_foldl_put hdistinct fun _ h => absurd h not_mem_nil]
  exact or_iff_right not_mem_nil

/-! ### Sources -/

namespace MigrateSource

variable {db : Archive} {codeRows : OrderedMap Bytes Bytes}

def tipAccount (codec : Codec) (source : MigrateSource) (address : H256) : Option NewAccount :=
  match source with
  | .state db => db.readAccount codec address
  | .archive db _ => db.readAccount codec (tipHeight db.backend) address

def tipStorage (source : MigrateSource) (address slot : H256) : U256 :=
  match source with
  | .state db => db.readStorage address slot
  | .archive db _ => db.readStorage (tipHeight db.backend) address slot

def timestamped : MigrateSource → Bool
  | .state _ => false
  | .archive db _ => !db.accounts.isPlain

/-- The tables of versions, or of the one state, are as the writers leave them. -/
def TablesWellFormed (codec : Codec) : MigrateSource → Prop
  | .state db =>
    (∀ row ∈ db.accounts.entries, row.1.length = 32 ∧ ∃ account, codec.decodeAccount row.2 = some account) ∧
      ∀ row ∈ db.storage.entries, row.1.length = 64 ∧ decodeStorage row.2 ≠ 0
  | .archive db codeRows =>
    db.accounts.WellFormed db.backend ∧ db.storage.WellFormed db.backend ∧ db.storage.isPlain = db.accounts.isPlain ∧
      (∀ rows, db.accounts = .plain rows → Decodes codec rows) ∧ ∀ codeHash, db.codes codeHash = codeRows.get (hashBytes codeHash)

/-- A database that can be migrated: its tables are well formed, and it has a head. -/
structure WellFormed (codec : Codec) (source : MigrateSource) : Prop where
  tables : source.TablesWellFormed codec
  codes : ∀ row ∈ source.codeRows.entries, row.1.length = 32
  blockHashes : ∀ row ∈ source.blockHashRows.entries, ∃ n, row.1 = encodeBlockNum n
  head : ∃ info, source.blockInfo codec = some info ∧ info.hash = source.readLatestBlockHash

variable {codec : Codec} {source : MigrateSource}

/-- An account that was read is encoded and decoded as it is. -/
theorem decode_accountRow {address : H256} {account : NewAccount} (h : source.tipAccount codec address = some account) :
    StateDatabase.decodeSlimAccount codec address (accountRow codec (address, account)).2 = some account := by
  have hnormal : account.address = address ∧ account.codeHash ≠ 0 := by
    have hempty : keccak256Empty ≠ 0 := by decide
    have hcode : ∀ codeHash : H256, (if (codeHash : Nat) = 0 then keccak256Empty else codeHash) ≠ 0 := by
      intro _
      split
      · exact hempty
      · next hne => exact fun heq => hne (congrArg Fin.val heq)
    cases source with
    | state db =>
      obtain ⟨_, -, hdecode⟩ := Option.bind_eq_some_iff.mp h
      obtain ⟨_, -, rfl⟩ := Option.map_eq_some_iff.mp hdecode
      exact ⟨rfl, hcode _⟩
    | archive db =>
      obtain ⟨_, -, hdecode⟩ := Option.bind_eq_some_iff.mp h
      rw [decodeAccount] at hdecode
      split at hdecode
      · cases hdecode
      · obtain ⟨_, -, rfl⟩ := Option.map_eq_some_iff.mp hdecode
        exact ⟨rfl, hcode _⟩
  obtain ⟨rfl, hne⟩ := hnormal
  rw [StateDatabase.decodeSlimAccount, accountRow, codec.decode_encodeAccount]
  have hval : (account.codeHash : Nat) ≠ 0 := fun heq => hne (Fin.ext heq)
  have hsame : (if (account.toSlimAccount.codeHash : Nat) = 0 then keccak256Empty else account.toSlimAccount.codeHash) =
      account.codeHash := if_neg hval
  exact congrArg (fun codeHash => some (NewAccount.mk account.address account.balance account.nonce codeHash)) hsame

section
variable (hwf : source.TablesWellFormed codec) (hplain : source.timestamped = false) (debug : Bool)
include hwf hplain
theorem exists_accounts :
    ∃ accounts, source.accountIter codec debug = .ok accounts ∧ (accounts.Pairwise fun a b => hashBytes a.1 < hashBytes b.1) ∧
      ∀ address account, (address, account) ∈ accounts ↔ source.tipAccount codec address = some account := by
  cases source with
  | archive db =>
    obtain ⟨haccounts, -, -, hdecodes, -⟩ := hwf
    obtain ⟨rows, hrows⟩ := VersionTable.exists_of_isPlain (Bool.not_eq_false' .. |>.mp hplain)
    obtain ⟨accounts, hok, hsorted, hmem⟩ := accountIter_ok (hrows ▸ haccounts) (hdecodes rows hrows) debug
    refine ⟨accounts, ?_, hsorted, fun address account => ?_⟩
    · rw [accountIter, hrows]
      exact hok
    · rw [hmem, tipAccount, Archive.readAccount, hrows]
  | state db =>
    have hdecode : ∀ row ∈ db.accounts.entries, ∃ account,
        StateDatabase.decodeSlimAccount codec (hashOfBytes row.1) row.2 = some account := by
      intro row hrow
      obtain ⟨_, hslim⟩ := (hwf.1 row hrow).2
      rw [StateDatabase.decodeSlimAccount, hslim]
      exact ⟨_, rfl⟩
    obtain ⟨accounts, hok, hsorted, hmem⟩ := accounts_of_entries db.accounts.sorted
      fun row hrow => ⟨(hwf.1 row hrow).1, hdecode row hrow⟩
    refine ⟨accounts, hok, hsorted, fun address account => (hmem address account).trans ?_⟩
    rw [tipAccount, StateDatabase.readAccount, Option.bind_eq_some_iff]
    simp only [get_eq_some]

theorem exists_slots :
    ∃ slots, source.storageIter debug = .ok slots ∧
      (slots.Pairwise fun a b => (slotOwner a.1.1 a.1.2).1 < (slotOwner b.1.1 b.1.2).1) ∧
      ∀ address slot value, ((address, slot), value) ∈ slots ↔ value ≠ 0 ∧ source.tipStorage address slot = value := by
  cases source with
  | archive db =>
    obtain ⟨-, hstorage, hsame, -⟩ := hwf
    obtain ⟨rows, hrows⟩ := VersionTable.exists_of_isPlain (hsame.trans (Bool.not_eq_false' .. |>.mp hplain))
    obtain ⟨slots, hok, hsorted, hmem⟩ := storageIter_ok (hrows ▸ hstorage) debug
    refine ⟨slots, ?_, hsorted, fun address slot value => ?_⟩
    · rw [storageIter, hrows]
      exact hok
    · rw [hmem, tipStorage, Archive.readStorage, Archive.readStorageAndHeight, hrows]
      refine and_congr_right fun hne => ?_
      cases (VersionTable.plain rows : VersionTable 64).find db.backend (slotOwner address slot) (tipHeight db.backend) with
      | none => exact iff_of_false (fun h => by cases h) (hne ·.symm)
      | some => exact Option.some_inj
  | state db =>
    obtain ⟨hsorted, hmem⟩ := slots_of_entries db.storage.sorted fun row hrow => (hwf.2 row hrow).1
    refine ⟨db.storageIter, rfl, hsorted, fun address slot value => (hmem address slot value).trans ?_⟩
    rw [tipStorage, StateDatabase.readStorage]
    constructor
    · rintro ⟨_, hrow, rfl⟩
      exact ⟨(hwf.2 _ hrow).2, by rw [get_eq_some.mpr hrow]; rfl⟩
    · rintro ⟨hne, hread⟩
      cases hget : db.storage.get (slotOwner address slot).1 with
      | none =>
        rw [hget] at hread
        exact absurd hread.symm hne
      | some raw =>
        rw [hget] at hread
        exact ⟨raw, get_eq_some.mp hget, hread⟩
end

/-- Codes and block hashes are written under the keys they are read from. -/
theorem map_codeRow (hwf : source.WellFormed codec) : source.codeIter.map codeRow = source.codeRows.entries := by
  rw [codeIter, map_map]
  refine (map_congr_left fun row hrow => ?_).trans (map_id _)
  exact Prod.ext (hashBytes_hashOfBytes (hwf.codes row hrow)) rfl

theorem pairwise_blockHashRow (hwf : source.WellFormed codec) :
    (source.blockHashIter.map blockHashRow).Pairwise fun a b => a.1 < b.1 := by
  have hkey : ∀ row ∈ source.blockHashRows.entries, encodeBlockNum (Fin.ofNat (2 ^ 64) (ofBE row.1)) = row.1 := by
    intro row hrow
    obtain ⟨n, hn⟩ := hwf.blockHashes row hrow
    have hzero : ofBE (encodeBlockNum n) = n := by
      have hskip : ∀ byte ∈ replicate 24 (0 : Byte), decide (byte = 0) = true :=
        fun byte hbyte => decide_eq_true (eq_of_mem_replicate hbyte)
      rw [encodeBlockNum, ← ofBE_dropWhile_zero, dropWhile_append_of_pos hskip, ofBE_dropWhile_zero, ofBE_toBE 8 n.isLt]
    rw [hn, hzero, Fin.ofNat_val_eq_self]
  rw [blockHashIter, map_map, pairwise_map]
  refine source.blockHashRows.sorted.imp_of_mem fun {a b} ha hb hlt => ?_
  rwa [← hkey a ha, ← hkey b hb] at hlt

section
variable (full : List (Bytes × Bytes) → Bool)

/-- **Both paths succeed and write the same**: what the scans of the source give, its codes and its head. -/
theorem migrate_ok (hwf : source.WellFormed codec) (hplain : source.timestamped = false)
    (limits : BatchLimits) (debug : Bool) :
    ∃ db, migrateBulk codec full debug source = .ok db ∧ migrateBatch codec limits debug source = .ok db ∧
      (∀ address, db.readAccount codec address = source.tipAccount codec address) ∧
      (∀ address slot, db.readStorage address slot = source.tipStorage address slot) ∧
      (∀ codeHash, db.readCode codeHash = source.readCode codeHash) ∧
      db.readLatestBlockHash = source.readLatestBlockHash ∧
      db.readBlockInfo codec db.readLatestBlockHash = source.blockInfo codec := by
  obtain ⟨accounts, haccounts, hsorted, hmem⟩ := exists_accounts hwf.tables hplain debug
  obtain ⟨slots, hslots, hsorted', hmem'⟩ := exists_slots hwf.tables hplain debug
  obtain ⟨info, hinfo, hhash⟩ := hwf.head
  have hrows : (accounts.map (accountRow codec)).Pairwise fun a b => a.1 < b.1 := pairwise_map.mpr hsorted
  have hrows' : (slots.map storageRow).Pairwise fun a b => a.1 < b.1 := pairwise_map.mpr hsorted'
  have hcodes : (source.codeIter.map codeRow).Pairwise fun a b => a.1 < b.1 := by
    rw [map_codeRow hwf]
    exact source.codeRows.sorted
  have hwrites : slots.map writeStorage = slots.map fun entry => putRow (storageRow entry) := by
    apply map_congr_left
    intro entry hentry
    exact if_neg ((hmem' entry.1.1 entry.1.2 entry.2).mp hentry).1
  refine ⟨⟨tableOf (accounts.map (accountRow codec)), tableOf (slots.map storageRow), tableOf (source.codeIter.map codeRow),
    tableOf (source.blockHashIter.map blockHashRow),
    (empty.retain fun key _ => key ≠ hashBytes info.parentHash).put (hashBytes info.hash) (codec.encodeHeader info),
    some (hashBytes info.hash)⟩, ?_, ?_, fun address => ?_, fun address slot => ?_, fun codeHash => ?_, ?_, ?_⟩
  · simp only [migrateBulk, haccounts, hslots, bind, Except.bind, bulkColumn_ok full hrows, bulkColumn_ok full hrows',
      bulkColumn_ok full hcodes, bulkColumn_ok full (pairwise_blockHashRow hwf), migrateLatestBlock, hinfo]
    rfl
  · simp only [migrateBatch, haccounts, hslots, bind, Except.bind, hwrites, batchColumn_putRow, migrateLatestBlock, hinfo,
      StateDatabase.empty]
    rfl
  · apply Option.ext
    intro account
    rw [StateDatabase.readAccount, Option.bind_eq_some_iff, ← hmem]
    simp only [get_tableOf hrows]
    constructor
    · rintro ⟨_, hraw, hdecode⟩
      obtain ⟨⟨address', account'⟩, hentry, heq⟩ := mem_map.mp hraw
      obtain ⟨hkey, rfl⟩ := Prod.ext_iff.mp heq
      obtain rfl : address' = address := hashBytes_injective hkey
      rw [decode_accountRow ((hmem address' account').mp hentry)] at hdecode
      rwa [← Option.some.inj hdecode]
    · intro hentry
      exact ⟨_, mem_map_of_mem hentry, decode_accountRow ((hmem address account).mp hentry)⟩
  · have hdecode : ∀ value : U256, decodeStorage (toBE 32 value) = value := by
      intro value
      rw [decodeStorage, ofBE_toBE 32 value.isLt, Fin.ofNat_val_eq_self]
    have hget : ∀ raw, (tableOf (slots.map storageRow)).get (slotOwner address slot).1 = some raw →
        source.tipStorage address slot = decodeStorage raw := by
      intro _ hraw
      obtain ⟨⟨⟨address', slot'⟩, value⟩, hentry, heq⟩ := mem_map.mp ((get_tableOf hrows').mp hraw)
      obtain ⟨hkey, rfl⟩ := Prod.ext_iff.mp heq
      obtain ⟨rfl, rfl⟩ := slotOwner_inj (Subtype.ext hkey)
      exact ((hmem' address' slot' value).mp hentry).2.trans (hdecode value).symm
    rw [StateDatabase.readStorage]
    cases hraw : (tableOf (slots.map storageRow)).get (slotOwner address slot).1 with
    | some raw => exact (hget raw hraw).symm
    | none =>
      -- A slot that is not zero would have been written.
      by_contra hne
      have hentry := (hmem' address slot _).mpr ⟨Ne.symm hne, rfl⟩
      have hsome := (get_tableOf hrows').mpr (mem_map_of_mem hentry)
      cases hraw.symm.trans hsome
  · apply Option.ext
    intro _
    rw [StateDatabase.readCode, get_tableOf hcodes, map_codeRow hwf, ← get_eq_some]
    cases source with
    | state db => exact Iff.rfl
    | archive db =>
      obtain ⟨-, -, -, -, hcode⟩ := hwf.tables
      rw [readCode, Archive.readCode, hcode]
      rfl
  · show hashOfBytes (hashBytes info.hash) = _
    rw [hashOfBytes_hashBytes, hhash]
  · show (get _ (hashBytes (hashOfBytes (hashBytes info.hash)))).bind _ = _
    rw [hashOfBytes_hashBytes, get_put_self, Option.bind_some, codec.decode_encodeHeader, hinfo]

theorem migrate_timestamped (h : source.timestamped = true) (limits : BatchLimits) (debug : Bool) :
    migrateBulk codec full debug source = .error .timestamped ∧ migrateBatch codec limits debug source = .error .timestamped := by
  have hiter : source.accountIter codec debug = .error .timestamped := by
    cases source with
    | state db => cases h
    | archive db =>
      rw [timestamped] at h
      rw [accountIter]
      cases hrows : db.accounts with
      | plain =>
        rw [hrows] at h
        cases h
      | stamped => rfl
  rw [migrateBulk, migrateBatch, hiter]
  exact ⟨rfl, rfl⟩
end

/-- What the scans give is the state at the head. -/
def TipIsHead (codec : Codec) (source : MigrateSource) : Prop :=
  ∀ address, source.tipAccount codec address = source.readAccount codec address ∧
    ∀ slot, source.tipStorage address slot = source.readStorage codec address slot

/-- The table has no versions above one height and up to another. -/
def NoneBetween {len : Nat} (backend : Backend) (low high : U64) (table : VersionTable len) : Prop :=
  ∀ (owner : Owner len) n, low < n → n ≤ high → table.row backend (versionKey backend.inverted owner n) = none

theorem NoneBetween.find_eq {len : Nat} {backend : Backend} {low high : U64} {table : VersionTable len}
    (h : NoneBetween backend low high table) (hwf : table.WellFormed backend) (hle : low ≤ high) (owner : Owner len) :
    table.find backend owner high = table.find backend owner low :=
  (VersionTable.find_readsLatest hwf owner high).unique
    ((VersionTable.find_readsLatest hwf owner low).extend_of_none hle fun n hlt hn => h owner n hlt hn)

section
variable (hle : db.latestBlockNum codec ≤ tipHeight db.backend)
  (hwf : TablesWellFormed codec (.archive db codeRows))
include hle hwf
theorem tipIsHead_of_noneBetween
    (haccounts : NoneBetween db.backend (db.latestBlockNum codec) (tipHeight db.backend) db.accounts)
    (hstorage : NoneBetween db.backend (db.latestBlockNum codec) (tipHeight db.backend) db.storage) :
    TipIsHead codec (.archive db codeRows) := by
  obtain ⟨hwf, hwf', -⟩ := hwf
  intro _
  refine ⟨?_, fun _ => ?_⟩
  · rw [tipAccount, readAccount, Archive.readAccount, Archive.readAccount, haccounts.find_eq hwf hle]
  · rw [tipStorage, readStorage, Archive.readStorage, Archive.readStorage, Archive.readStorageAndHeight,
      readStorageAndHeight, hstorage.find_eq hwf' hle]

theorem tipIsHead_of_holds {history : List Block} (hholds : db.Holds codec history)
    (hnewest : ∀ block ∈ history, block.info.number ≤ db.latestBlockNum codec) : TipIsHead codec (.archive db codeRows) := by
  have hnone : ∀ {W : Type} {write : List Block → Block → Option W} {n : U64}, db.latestBlockNum codec < n →
      versionsOf (writesOf write history) n = none := by
    intro W _ n hlt
    rw [Option.eq_none_iff_forall_not_mem]
    intro _ hvalue
    obtain ⟨block, hblock, hnumber⟩ := mem_writesOf (mem_of_versionsOf hvalue)
    obtain rfl : block.info.number = n := hnumber
    exact hlt.not_ge (hnewest block hblock)
  refine tipIsHead_of_noneBetween hle hwf (fun owner n hlt _ => ?_) (fun owner n hlt _ => ?_)
  · obtain ⟨_, rfl⟩ := exists_accountOwner owner
    rw [hholds.accounts, accountVersions, hnone hlt, Option.map_none]
  · obtain ⟨_, _, rfl⟩ := exists_slotOwner owner
    rw [hholds.storage, slotVersions_eq_writesOf, hnone hlt, Option.map_none]
end

/-- **A migration copies the head exactly if the scans give the head's state.** A v3 archive is refused.
Otherwise both paths succeed and write the same database, with the source's codes and head. -/
theorem migrate_copies_head_iff (hwf : source.WellFormed codec) (full : List (Bytes × Bytes) → Bool) (limits : BatchLimits)
    (debug : Bool) : (source.timestamped = true → migrateBulk codec full debug source = .error .timestamped ∧
      migrateBatch codec limits debug source = .error .timestamped) ∧
    (source.timestamped = false → ∃ db, migrateBulk codec full debug source = .ok db ∧
      migrateBatch codec limits debug source = .ok db ∧
      (∀ codeHash, db.readCode codeHash = source.readCode codeHash) ∧
      db.readLatestBlockHash = source.readLatestBlockHash ∧
      db.readBlockInfo codec db.readLatestBlockHash = source.blockInfo codec ∧
      ((∀ address, db.readAccount codec address = source.readAccount codec address ∧
        ∀ slot, db.readStorage address slot = source.readStorage codec address slot) ↔ source.TipIsHead codec)) := by
  refine ⟨fun h => migrate_timestamped full h limits debug, fun hplain => ?_⟩
  obtain ⟨db, hbulk, hbatch, haccount, hslot, hcode, hhead, hinfo⟩ := migrate_ok full hwf hplain limits debug
  refine ⟨db, hbulk, hbatch, hcode, hhead, hinfo, ?_⟩
  simp only [haccount, hslot]
  exact Iff.rfl

/-- An archive of two blocks, in files of one row and in batches of one write. -/
theorem migrate_copies_head_iff_two_blocks :
    let archive := (empty (.rocksdb .v2)).updateBlocks fixedCodec [accountBlock 5 8 400, accountBlock 2 9 300]
    let source := MigrateSource.archive archive .empty
    ∃ db, migrateBulk fixedCodec (fun file => 1 ≤ file.length) false source = .ok db ∧
      migrateBatch fixedCodec ⟨1, 1, 1, 1⟩ false source = .ok db ∧ db.readLatestBlockHash = 6 ∧
      ∀ address, db.readAccount fixedCodec address = archive.readAccount fixedCodec 5 address ∧
        ∀ slot, db.readStorage address slot = archive.readStorage 5 address slot := by
  intro archive _
  have hasc : Ascending [accountBlock 5 8 400, accountBlock 2 9 300] := by
    unfold Ascending
    decide
  -- Over a variable, so that nothing below evaluates the archive.
  have hcopies : ∀ archive, archive.accounts.isPlain = true → archive.storage.isPlain = true →
      archive.Holds fixedCodec [accountBlock 5 8 400, accountBlock 2 9 300] → archive.latestBlockNum fixedCodec = 5 →
      5 ≤ tipHeight archive.backend → (∀ codeHash, archive.codes codeHash = none) →
      (∀ row ∈ archive.blockHashes.entries, row.1 = encodeBlockNum (Fin.ofNat (2 ^ 64) (ofBE row.1))) →
      archive.readLatestBlockHash = 6 → archive.readBlockInfo fixedCodec 6 = some ⟨6, 5, 5⟩ →
      ∃ db, migrateBulk fixedCodec (fun file => 1 ≤ file.length) false (.archive archive .empty) = .ok db ∧
        migrateBatch fixedCodec ⟨1, 1, 1, 1⟩ false (.archive archive .empty) = .ok db ∧ db.readLatestBlockHash = 6 ∧
        ∀ address, db.readAccount fixedCodec address = archive.readAccount fixedCodec 5 address ∧
          ∀ slot, db.readStorage address slot = archive.readStorage 5 address slot := by
    intro archive hplain hplain' hholds hheight hle hcodes hkeys hlatest hinfo
    have htables : TablesWellFormed fixedCodec (.archive archive .empty) :=
      ⟨hholds.accounts_wellFormed, hholds.storage_wellFormed, hplain'.trans hplain.symm,
        fun _ _ _ _ _ => ⟨_, rfl⟩, hcodes⟩
    have hwf : WellFormed fixedCodec (.archive archive .empty) :=
      ⟨htables, nofun, fun row hrow => ⟨_, hkeys row hrow⟩, ⟨6, 5, 5⟩, by
        rw [blockInfo, hlatest, hinfo], hlatest.symm⟩
    have htip : TipIsHead fixedCodec (.archive archive .empty) := by
      refine tipIsHead_of_holds (hheight ▸ hle) htables hholds ?_
      rw [hheight]
      decide
    obtain ⟨db, hbulk, hbatch, -, hhead, -, hreads⟩ := (migrate_copies_head_iff hwf (fun file => 1 ≤ file.length) ⟨1, 1, 1, 1⟩
      false).2 (by rw [timestamped, hplain]; rfl)
    refine ⟨db, hbulk, hbatch, hhead.trans hlatest, fun address => ?_⟩
    have hcopied := hreads.mpr htip address
    rw [readAccount, hheight] at hcopied
    refine ⟨hcopied.1, fun slot => ?_⟩
    have hslot := hcopied.2 slot
    rwa [readStorage, hheight] at hslot
  exact hcopies archive (by decide +kernel) (by decide +kernel) (holds_updateBlocks fixedCodec (.rocksdb .v2) hasc)
    (by decide +kernel) (by decide +kernel) (fun codeHash => updateBlocks_codes ..) (by decide +kernel)
    (by decide +kernel) (by decide +kernel)

/-- The head was set back from block 5 to block 2. The migration takes the versions of block 5, and calls
them those of block 2. -/
theorem rewound_head_migrates_newest :
    let archive := (empty (.rocksdb .v2)).updateBlocks fixedCodec
      [⟨(accountBlock 2 9 300).info, {}⟩, accountBlock 5 8 400, accountBlock 2 9 300]
    let reads := fun db : StateDatabase => (db.readLatestBlockHash, db.readAccount fixedCodec 7, db.readStorage 7 3)
    archive.readLatestBlockHash = 3 ∧ archive.latestBlockNum fixedCodec = 2 ∧
    archive.readAccount fixedCodec 2 7 = some ⟨7, 100, 1, 9⟩ ∧ archive.readStorage 2 7 3 = 300 ∧
    (migrateBulk fixedCodec (fun _ => false) false (.archive archive .empty)).toOption.map reads =
      some (3, some ⟨7, 100, 1, 8⟩, 400) ∧
    (migrateBatch fixedCodec {} false (.archive archive .empty)).toOption.map reads = some (3, some ⟨7, 100, 1, 8⟩, 400) := by
  decide +kernel

end MigrateSource
end LeafageEvm
