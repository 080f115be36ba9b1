import LeafageEvm.ArchiveRefine
import LeafageEvm.Shards
import LeafageEvm.SstSink

/-! The rewrite of a v2 archive into schema v3. Each versioned table is scanned in shards that become files
of timestamped rows, cut only between keys; the other tables are copied. In v2 a key's versions come
newest first, which is the order of the timestamps, so the rows go through in the order they are read. -/

namespace LeafageEvm
open SstSink Archive
open VersionTable (exists_of_isPlain find_readsLatest plain stamp stamped)
open OrderDual List OrderedMap
variable {rows : OrderedMap Bytes Bytes}

/-- A row of a timestamped table. -/
abbrev UdtRow := (Bytes ×ₗ U64ᵒᵈ) × Bytes

variable (full : List UdtRow → Bool) {files : List (List UdtRow)} {done : List UdtRow}

def userKey (row : UdtRow) : Bytes := (ofLex row.1).1

def udtValue (storage : Bool) (value : Bytes) : Bytes := if storage then stripLeadingZeros value else value

def udtRow (len : Nat) (storage : Bool) (row : Bytes × Bytes) : UdtRow :=
  (toLex (row.1.take len, toDual (rowBlock row.1).rev), udtValue storage row.2)

/-- One row of a shard. `prev` is the key of the row before. -/
def convertRow (full : List UdtRow → Bool) (len : Nat) (storage : Bool)
    (state : SstSink (Bytes ×ₗ U64ᵒᵈ) Bytes × Bytes) (row : Bytes × Bytes) :
    Except SstError (SstSink (Bytes ×ₗ U64ᵒᵈ) Bytes × Bytes) :=
  let user := row.1.take len
  let sink := if user ≠ state.2 then state.1.rollIfFull full else state.1
  (sink.append (udtRow len storage row)).map fun sink => (sink, user)

/-- `Task::Versioned`: the files of a shard. -/
def convertShard (full : List UdtRow → Bool) (len : Nat) (storage : Bool) (rows : List (Bytes × Bytes)) :
    Except SstError (List (List UdtRow)) :=
  (rows.foldlM (convertRow full len storage) ({}, [])).map fun state => state.1.finish

/-- The shards of a table, with their places. -/
def shardTasks (jobs : Nat) : List ((Byte × Option Byte) × Nat) := (shardBounds (4 * max 1 (min jobs 64))).zipIdx

/-- The files of a table, from the shards in the order in which the workers are done with them. -/
def convertVersioned (full : List UdtRow → Bool) (len : Nat) (storage : Bool) (rows : OrderedMap Bytes Bytes)
    (tasks : List ((Byte × Option Byte) × Nat)) : Except SstError (List (List UdtRow)) := do
  let outputs ← tasks.mapM fun task =>
    (convertShard full len storage (shardRows rows.entries task.1)).map fun files => (task.2, files)
  pure ((outputs.insertionSort fun a b => a.1 ≤ b.1).flatMap (·.2))

/-- A run of the rewrite: when files are full, and the order in which the shards are done. -/
structure UdtRun where
  jobs : Nat
  full : List UdtRow → Bool
  fullCopy : List (Bytes × Bytes) → Bool
  accountTasks : List ((Byte × Option Byte) × Nat)
  storageTasks : List ((Byte × Option Byte) × Nat)

/-- Every shard is done once. -/
structure UdtRun.Completes (run : UdtRun) : Prop where
  accounts : run.accountTasks.Perm (shardTasks run.jobs)
  storage : run.storageTasks.Perm (shardTasks run.jobs)

/-- The files of each column family. -/
structure UdtFiles where
  accounts : List (List UdtRow)
  storage : List (List UdtRow)
  blockHashes : List (List (Bytes × Bytes))
  headers : List (List (Bytes × Bytes))

def UdtFiles.archive (files : UdtFiles) (source : Archive) : Archive where
  backend := .rocksdb .v3
  accounts := .stamped (empty.ingest files.accounts)
  storage := .stamped (empty.ingest files.storage)
  codes := source.codes
  blockHashes := empty.ingest files.blockHashes
  headers := empty.ingest files.headers
  latest := source.latest

/-- `convert_inverted_to_udt`: the files written. -/
def convertInvertedToUdt (run : UdtRun) (source : Archive) : Except SstError UdtFiles :=
  match source.backend, source.accounts, source.storage with
  | .rocksdb .v2, .plain accounts, .plain storage => do
      let storageFiles ← convertVersioned run.full 64 true storage run.storageTasks
      let accountFiles ← convertVersioned run.full 32 false accounts run.accountTasks
      let blockHashFiles ← SstSink.copyColumn run.fullCopy source.blockHashes
      let headerFiles ← SstSink.copyColumn run.fullCopy source.headers
      pure ⟨accountFiles, storageFiles, blockHashFiles, headerFiles⟩
  | _, _, _ => .error .unsupported

/-! ### Rows -/

variable {len : Nat} {storage : Bool} {state : SstSink (Bytes ×ₗ U64ᵒᵈ) Bytes × Bytes}

theorem versionKey_lt_iff {owner owner' : Owner len} {n n' : U64} :
    versionKey true owner n < versionKey true owner' n' ↔
      toLex (owner.1, toDual n) < toLex (owner'.1, toDual n') := by
  rw [versionKey, versionKey, append_lt_append_iff (owner.2.trans owner'.2.symm), Prod.Lex.toLex_lt_toLex]
  simp only [encodeVersionTail, encodeBlockNumDesc, if_true, encodeBlockNum_lt_iff, Fin.rev_lt_rev,
    toDual_lt_toDual]

theorem userKey_le_of_lt {a b : UdtRow} (hlt : a.1 < b.1) : userKey a ≤ userKey b := by
  rcases Prod.Lex.lt_iff.mp hlt with hfirst | ⟨heq, -⟩
  · exact hfirst.le
  · exact heq.le

section
variable (storage : Bool)

theorem udtRow_versionKey (owner : Owner len) (n : U64) (value : Bytes) :
    udtRow len storage (versionKey true owner n, value) =
      (toLex (owner.1, toDual n), udtValue storage value) := by
  rw [udtRow, take_versionKey, rowBlock_versionKey, storedBlock, if_pos rfl, Fin.rev_rev]

theorem pairwise_udtRow {rows : List (Bytes × Bytes)} (hwf : VersionRows true len rows)
    (hrows : rows.Pairwise fun a b => a.1 < b.1) : (rows.map (udtRow len storage)).Pairwise fun a b => a.1 < b.1 := by
  rw [pairwise_map]
  refine hrows.imp_of_mem fun {a b} ha hb hlt => ?_
  obtain ⟨_, n, hkey⟩ := hwf a ha
  obtain ⟨_, _, hkey'⟩ := hwf b hb
  obtain ⟨_, _⟩ := a
  obtain ⟨_, _⟩ := b
  subst hkey hkey'
  rw [udtRow_versionKey, udtRow_versionKey]
  exact versionKey_lt_iff.mp hlt

theorem nodup_udtRow (hwf : VersionRows true len rows.entries) :
    ((rows.entries.map (udtRow len storage)).map (·.1)).Nodup :=
  pairwise_map.mpr ((pairwise_udtRow storage hwf rows.sorted).imp (·.ne))
end

/-! ### A shard -/

def Apart (files : List (List UdtRow)) : Prop :=
  files.Pairwise fun file file' => ∀ a ∈ file, ∀ b ∈ file', userKey a < userKey b

/-- The state of a shard's loop after some rows. -/
structure Streamed (done : List UdtRow) (state : SstSink (Bytes ×ₗ U64ᵒᵈ) Bytes × Bytes) : Prop where
  filed : state.1.Filed
  rows : state.1.rows = done
  apart : Apart (state.1.files ++ [state.1.writer])
  prev : done = [] ∧ state.2 = [] ∨ ∃ last, state.1.writer.getLast? = some last ∧ userKey last = state.2

theorem streamed_empty : Streamed [] ({}, []) where
  filed := filed_empty
  rows := rfl
  apart := pairwise_singleton ..
  prev := .inl ⟨rfl, rfl⟩

theorem apart_append_singleton {file : List UdtRow} :
    Apart (files ++ [file]) ↔ Apart files ∧ ∀ file' ∈ files, ∀ a ∈ file', ∀ b ∈ file, userKey a < userKey b := by
  rw [Apart, pairwise_append]
  simp [Apart]

section
variable (h : Streamed done state)
include h
theorem Streamed.le_prev (hdone : done.Pairwise fun a b => a.1 < b.1) : ∀ a ∈ done, userKey a ≤ state.2 := by
  rcases h.prev with ⟨rfl, -⟩ | ⟨last, hlast, huser⟩
  · exact nofun
  obtain ⟨init, hwriter⟩ := getLast?_eq_some_iff.mp hlast
  have hsplit : done = (state.1.files.flatten ++ init) ++ [last] := by
    rw [← h.rows, SstSink.rows, hwriter, append_assoc]
  intro a ha
  rw [← huser]
  rw [hsplit] at ha hdone
  rcases mem_append.mp ha with hfirst | hlast
  · exact userKey_le_of_lt ((pairwise_append.mp hdone).2.2 a hfirst last (.head _))
  · rw [mem_singleton.mp hlast]

/-- Files that are finished stay apart from a row with a greater key. -/
theorem Streamed.step {row : Bytes × Bytes}
    (huser : row.1.take len ≠ []) (hdone : (done ++ [udtRow len storage row]).Pairwise fun a b => a.1 < b.1) :
    ∃ state', convertRow full len storage state row = .ok state' ∧ Streamed (done ++ [udtRow len storage row]) state' := by
  obtain ⟨hbefore, -, hlt⟩ := pairwise_append.mp hdone
  have hafter : ∀ a ∈ done, a.1 < (udtRow len storage row).1 := fun a ha => hlt a ha _ (.head _)
  obtain ⟨hfiles, hopen⟩ := apart_append_singleton.mp h.apart
  -- The sink that the row is appended to: in its files are only rows with smaller keys.
  obtain ⟨sink, hsink, hfiled, hrows, hapart, hsmaller⟩ : ∃ sink,
      (if row.1.take len ≠ state.2 then state.1.rollIfFull full else state.1) = sink ∧ sink.Filed ∧ sink.rows = done ∧
        Apart (sink.files ++ [sink.writer]) ∧
        ∀ file ∈ sink.files, ∀ a ∈ file, userKey a < userKey (udtRow len storage row) := by
    by_cases hsame : row.1.take len = state.2
    · refine ⟨state.1, if_neg (not_not.mpr hsame), h.filed, h.rows, h.apart, fun file hfile a ha => ?_⟩
      rcases h.prev with ⟨-, hempty⟩ | ⟨last, hlast, hprev⟩
      · exact absurd (hsame.trans hempty) huser
      · rw [userKey, udtRow, hsame, ← hprev]
        exact hopen file hfile a ha last (mem_of_getLast? hlast)
    have hgreater : ∀ a ∈ done, userKey a < userKey (udtRow len storage row) := by
      intro a ha
      have hle := h.le_prev hbefore a ha
      rcases h.prev with ⟨rfl, -⟩ | ⟨last, hlast, hprev⟩
      · cases ha
      · have hmem : last ∈ done := h.rows ▸ mem_append_right _ (mem_of_getLast? hlast)
        have hup : state.2 ≤ row.1.take len := hprev ▸ userKey_le_of_lt (hafter last hmem)
        exact hle.trans_lt (lt_of_le_of_ne hup (Ne.symm hsame))
    have hrows : (state.1.rollIfFull full).rows = done := (state.1.rows_rollIfFull full).trans h.rows
    refine ⟨_, if_pos hsame, h.filed.rollIfFull full, hrows, ?_, fun file hfile a ha => ?_⟩
    · rcases state.1.rollIfFull_cases full with heq | heq
      · rw [heq]
        exact h.apart
      rw [heq]
      rcases state.1.finishFile_cases with ⟨-, heq⟩ | ⟨-, heq⟩
      · rw [heq]
        exact h.apart
      · rw [heq]
        exact apart_append_singleton.mpr ⟨h.apart, nofun⟩
    · refine hgreater a (hrows ▸ mem_append_left _ ?_)
      exact mem_flatten.mpr ⟨file, hfile, ha⟩
  have hwriter : ∀ a ∈ sink.writer, a.1 < (udtRow len storage row).1 :=
    fun a ha => hafter a (hrows ▸ mem_append_right _ ha)
  refine ⟨({ sink with writer := sink.writer ++ [udtRow len storage row] }, row.1.take len), ?_, hfiled.append hwriter,
    ?_, ?_, .inr ⟨_, getLast?_concat, rfl⟩⟩
  · rw [convertRow]
    simp only [hsink, append_ok hwriter]
    rfl
  · rw [← hrows, SstSink.rows, SstSink.rows, append_assoc]
  · obtain ⟨hfiles, hopen⟩ := apart_append_singleton.mp hapart
    refine apart_append_singleton.mpr ⟨hfiles, fun file hfile a ha b hb => ?_⟩
    rcases mem_append.mp hb with hold | hnew
    · exact hopen file hfile a ha b hold
    · rw [mem_singleton.mp hnew]
      exact hsmaller file hfile a ha

theorem Streamed.rows_ok (storage : Bool) {rows : List (Bytes × Bytes)} (huser : ∀ row ∈ rows, row.1.take len ≠ [])
    (hdone : (done ++ rows.map (udtRow len storage)).Pairwise fun a b => a.1 < b.1) :
    ∃ state', rows.foldlM (convertRow full len storage) state = .ok state' ∧
      Streamed (done ++ rows.map (udtRow len storage)) state' := by
  induction rows generalizing done state with
  | nil => exact ⟨_, rfl, by rwa [map_nil, append_nil]⟩
  | cons row _ ih =>
    rw [map_cons, append_cons] at hdone ⊢
    obtain ⟨_, hrow, hstate'⟩ := h.step full (huser row (.head _)) (pairwise_append.mp hdone).1
    obtain ⟨state'', hrest, hstate''⟩ := ih hstate' (fun row' hrow' => huser row' (.tail _ hrow')) hdone
    refine ⟨state'', ?_, hstate''⟩
    rw [foldlM_cons, hrow]
    exact hrest
end

/-- **The files of a shard**: the rows in their order, cut between keys. -/
theorem convertShard_ok (storage : Bool) (hlen : 0 < len) {rows : List (Bytes × Bytes)} (hwf : VersionRows true len rows)
    (hrows : rows.Pairwise fun a b => a.1 < b.1) :
    ∃ files, convertShard full len storage rows = .ok files ∧ files.flatten = rows.map (udtRow len storage) ∧ Apart files := by
  have huser : ∀ row ∈ rows, row.1.take len ≠ [] := by
    intro row hrow hnil
    obtain ⟨owner, n, hkey⟩ := hwf row hrow
    rw [hkey, take_versionKey] at hnil
    have hlength := owner.2
    rw [hnil, length_nil] at hlength
    omega
  obtain ⟨state, hok, hstate⟩ := streamed_empty.rows_ok full storage huser (by
    rw [nil_append]
    exact pairwise_udtRow storage hwf hrows)
  refine ⟨state.1.finish, ?_, ?_, ?_⟩
  · rw [convertShard, hok]
    rfl
  · rw [flatten_finish, hstate.rows, nil_append]
  · rw [finish]
    rcases state.1.finishFile_cases with ⟨-, heq⟩ | ⟨-, heq⟩
    · rw [heq]
      exact (apart_append_singleton.mp hstate.apart).1
    · rw [heq]
      exact hstate.apart

/-! ### A table -/

/-- The outputs in the order of the shards, whatever the order in which they came. -/
theorem insertionSort_outputs {B C : Type} {tasks : List (B × Nat)} {bounds : List B} (hperm : tasks.Perm bounds.zipIdx)
    (output : B × Nat → C) : (tasks.map fun task => (task.2, output task)).insertionSort (fun a b => a.1 ≤ b.1) =
      bounds.zipIdx.map fun task => (task.2, output task) := by
  have hindices : bounds.zipIdx.Pairwise fun task task' => task.2 < task'.2 := by
    have hrange : (bounds.zipIdx.map (·.2)).Pairwise (· < ·) := by
      rw [zipIdx_map_snd]
      exact pairwise_lt_range'
    exact pairwise_map.mp hrange
  have hsorted := pairwise_insertionSort (fun a b : Nat × C => a.1 ≤ b.1) (tasks.map fun task => (task.2, output task))
  refine Perm.eq_of_pairwise (fun a b ha hb hle hge => ?_) hsorted
    (pairwise_map.mpr (hindices.imp (·.le))) ((perm_insertionSort ..).trans (hperm.map _))
  · rw [(perm_insertionSort ..).mem_iff] at ha
    obtain ⟨task, htask, rfl⟩ := mem_map.mp ha
    obtain ⟨task', htask', rfl⟩ := mem_map.mp hb
    have hindex : task.2 = task'.2 := le_antisymm hle hge
    have hget := mem_zipIdx_iff_getElem?.mp (hperm.mem_iff.mp htask)
    have hget' := mem_zipIdx_iff_getElem?.mp htask'
    rw [hindex] at hget
    have hbound : task.1 = task'.1 := Option.some.inj (hget.symm.trans hget')
    rw [Prod.ext hbound hindex]

theorem take_lt_of_firstByte_lt {key key' : Bytes} (hlen : 0 < len) (hkey : key ≠ []) (hkey' : key' ≠ [])
    (hlt : key.headD 0 < key'.headD 0) : key.take len < key'.take len := by
  obtain ⟨_, _, rfl⟩ := exists_cons_of_ne_nil hkey
  obtain ⟨_, _, rfl⟩ := exists_cons_of_ne_nil hkey'
  obtain ⟨_, rfl⟩ := Nat.exists_eq_add_one_of_ne_zero hlen.ne'
  rw [take_succ_cons, take_succ_cons, cons_lt_cons_iff]
  exact .inl hlt

/-- **The files of a table**: its rows in their order, cut between keys. -/
theorem convertVersioned_ok (storage : Bool) (hlen : 0 < len) (hwf : VersionRows true len rows.entries) {jobs : Nat}
    {tasks : List ((Byte × Option Byte) × Nat)} (htasks : tasks.Perm (shardTasks jobs)) :
    ∃ files, convertVersioned full len storage rows tasks = .ok files ∧
      files.flatten = rows.entries.map (udtRow len storage) ∧ Apart files := by
  have hkeys := hwf.ne_nil
  have hmem : ∀ bound, ∀ row ∈ shardRows rows.entries bound, row ∈ rows.entries :=
    fun bound row hrow => (mem_filter.mp hrow).1
  have hshard : ∀ task : (Byte × Option Byte) × Nat, ∃ files,
      convertShard full len storage (shardRows rows.entries task.1) = .ok files ∧
        files.flatten = (shardRows rows.entries task.1).map (udtRow len storage) ∧ Apart files :=
    fun task => convertShard_ok full storage hlen (fun row hrow => hwf row (hmem _ row hrow)) (rows.sorted.filter _)
  choose files hok hflatten hapart using hshard
  refine ⟨(shardTasks jobs).flatMap files, ?_, ?_, ?_⟩
  · have houtputs := mapM_ok (l := tasks) (g := fun task => (task.2, files task))
      (f := fun task => (convertShard full len storage (shardRows rows.entries task.1)).map fun files => (task.2, files))
      fun task _ => by rw [hok]; rfl
    rw [convertVersioned, houtputs]
    show Except.ok _ = _
    rw [insertionSort_outputs htasks, flatMap_map, shardTasks]
  · calc ((shardTasks jobs).flatMap files).flatten
        = (shardTasks jobs).flatMap fun task => (shardRows rows.entries task.1).map (udtRow len storage) := by
          rw [← flatMap_id', flatMap_assoc]
          simp only [flatMap_id', hflatten]
      _ = ((shardTasks jobs).map (·.1)).flatMap fun bound => (shardRows rows.entries bound).map (udtRow len storage) := by
          rw [flatMap_map]
      _ = (((shardTasks jobs).map (·.1)).flatMap (shardRows rows.entries)).map (udtRow len storage) := by
          rw [map_flatMap]
      _ = rows.entries.map (udtRow len storage) := by
          rw [shardTasks, zipIdx_map_fst, flatMap_shardRows hkeys]
  · refine pairwise_flatMap.mpr ⟨fun task _ => hapart task, ?_⟩
    have hbounds : ((shardTasks jobs).map (·.1)).Pairwise fun bound bound' =>
        ∀ row ∈ shardRows rows.entries bound, ∀ row' ∈ shardRows rows.entries bound', firstByte row < firstByte row' := by
      rw [shardTasks, zipIdx_map_fst]
      exact pairwise_shardRows hkeys _
    refine (pairwise_map.mp hbounds).imp fun {task task'} hless file hfile file' hfile' a ha b hb => ?_
    have hmapped : a ∈ (files task).flatten := mem_flatten.mpr ⟨file, hfile, ha⟩
    have hmapped' : b ∈ (files task').flatten := mem_flatten.mpr ⟨file', hfile', hb⟩
    rw [hflatten] at hmapped hmapped'
    obtain ⟨row, hrow, rfl⟩ := mem_map.mp hmapped
    obtain ⟨row', hrow', rfl⟩ := mem_map.mp hmapped'
    exact take_lt_of_firstByte_lt hlen (hkeys row (hmem _ row hrow)) (hkeys row' (hmem _ row' hrow'))
      (Fin.lt_def.mpr (hless row hrow row' hrow'))

section
variable (hwf : VersionRows true len rows.entries)
  (hfiles : files.flatten = rows.entries.map (udtRow len storage))
include hwf hfiles
theorem row_ingest (owner : Owner len) (n : U64) :
    (stamped (empty.ingest files) : VersionTable len).row (.rocksdb .v3) (versionKey true owner n) =
      ((plain rows : VersionTable len).row (.rocksdb .v2) (versionKey true owner n)).map (udtValue storage) := by
  have hdistinct : (files.flatten.map (·.1)).Nodup := hfiles ▸ nodup_udtRow storage hwf
  apply Option.ext
  intro value
  have hstamp : stamp (.rocksdb .v3) len (versionKey true owner n) = toLex (owner.1, toDual n) :=
    VersionTable.stamp_versionKey (.rocksdb .v3) owner n
  show (empty.ingest files).get (stamp (.rocksdb .v3) len _) = some value ↔
    (rows.get _).map (udtValue storage) = some value
  rw [hstamp, get_ingest_empty hdistinct, hfiles, Option.map_eq_some_iff, mem_map]
  constructor
  · rintro ⟨⟨key, raw⟩, hrow, heq⟩
    obtain ⟨owner', n', hkey⟩ := hwf _ hrow
    obtain rfl : key = _ := hkey
    rw [udtRow_versionKey, Prod.ext_iff] at heq
    obtain ⟨howner, hn⟩ := Prod.ext_iff.mp (toLex.injective heq.1)
    obtain rfl : owner' = owner := Subtype.ext howner
    obtain rfl : n' = n := toDual.injective hn
    exact ⟨raw, get_eq_some.mpr hrow, heq.2⟩
  · rintro ⟨raw, hget, rfl⟩
    exact ⟨(versionKey true owner n, raw), get_eq_some.mp hget, udtRow_versionKey storage owner n raw⟩

theorem wellFormed_ingest : (stamped (empty.ingest files) : VersionTable len).WellFormed (.rocksdb .v3) := by
  have hdistinct : (files.flatten.map (·.1)).Nodup := hfiles ▸ nodup_udtRow storage hwf
  intro _ _ hget
  rw [get_ingest_empty hdistinct, hfiles] at hget
  obtain ⟨⟨key', _⟩, hrow, heq⟩ := mem_map.mp hget
  obtain ⟨owner, n, hkey⟩ := hwf _ hrow
  obtain rfl : key' = _ := hkey
  rw [udtRow_versionKey] at heq
  exact ⟨owner, n, (congrArg Prod.fst heq).symm⟩
end

/-- **A read finds the same version**, with its value as it was stored. -/
theorem find_ingest (hwf : (plain rows : VersionTable len).WellFormed (.rocksdb .v2))
    (hfiles : files.flatten = rows.entries.map (udtRow len storage)) (owner : Owner len) (blockNum : U64) :
    (stamped (empty.ingest files) : VersionTable len).find (.rocksdb .v3) owner blockNum =
      ((plain rows : VersionTable len).find (.rocksdb .v2) owner blockNum).map
        fun found => (found.1, udtValue storage found.2) := by
  have hrows : VersionRows true len rows.entries := .of_wellFormed hwf
  have hread := find_readsLatest (wellFormed_ingest hrows hfiles) owner blockNum
  have hread' := (find_readsLatest hwf owner blockNum).map (udtValue storage)
  exact hread.unique (hread'.congr fun n _ => row_ingest hrows hfiles owner n)

/-! ### The archive -/

theorem Archive.readStorageAndHeight_eq (archive : Archive) (blockNum : U64) (address slot : H256) :
    archive.readStorageAndHeight blockNum address slot =
      ((archive.storage.find archive.backend (slotOwner address slot) blockNum).map
        fun found => (decodeStorage found.2, some found.1)).getD (0, none) := by
  rw [readStorageAndHeight]
  cases archive.storage.find archive.backend (slotOwner address slot) blockNum with
  | none => rfl
  | some => rfl

/-- **The rewrite keeps every read.** It succeeds, whatever the number of jobs, the order in which the
shards are done and the sizes of the files; every account and every slot reads the same at every height,
with the same version; the files hold every version once, and no two files of a column family share a
user key. -/
theorem convertInvertedToUdt_preserves_reads (codec : Codec) {source : Archive} (hbackend : source.backend = .rocksdb .v2)
    {accounts storage : OrderedMap Bytes Bytes} (haccounts : source.accounts = .plain accounts)
    (hstorage : source.storage = .plain storage) (hwf : source.accounts.WellFormed source.backend)
    (hwf' : source.storage.WellFormed source.backend) {run : UdtRun} (hrun : run.Completes) :
    ∃ files, convertInvertedToUdt run source = .ok files ∧
      (∀ h address, (files.archive source).readAccount codec h address = source.readAccount codec h address ∧
        (files.archive source).accountVersion h address = source.accountVersion h address ∧
        ∀ slot, (files.archive source).readStorageAndHeight h address slot = source.readStorageAndHeight h address slot) ∧
      (files.accounts.flatten = accounts.entries.map (udtRow 32 false) ∧ (files.accounts.flatten.map (·.1)).Nodup) ∧
      (files.storage.flatten = storage.entries.map (udtRow 64 true) ∧ (files.storage.flatten.map (·.1)).Nodup) ∧
      (files.accounts.Pairwise fun file file' => ∀ a ∈ file, ∀ b ∈ file', userKey a ≠ userKey b) ∧
      (files.storage.Pairwise fun file file' => ∀ a ∈ file, ∀ b ∈ file', userKey a ≠ userKey b) ∧
      (files.blockHashes.Pairwise fun file file' => ∀ a ∈ file, ∀ b ∈ file', a.1 ≠ b.1) ∧
      (files.headers.Pairwise fun file file' => ∀ a ∈ file, ∀ b ∈ file', a.1 ≠ b.1) ∧
      ∀ key, (files.archive source).blockHashes.get key = source.blockHashes.get key ∧
        (files.archive source).headers.get key = source.headers.get key := by
  rw [hbackend, haccounts] at hwf
  rw [hbackend, hstorage] at hwf'
  have hrows : VersionRows true 32 accounts.entries := .of_wellFormed hwf
  have hrows' : VersionRows true 64 storage.entries := .of_wellFormed hwf'
  obtain ⟨accountFiles, hok, hflatten, hapart⟩ := convertVersioned_ok run.full false (by decide) hrows hrun.accounts
  obtain ⟨storageFiles, hok', hflatten', hapart'⟩ := convertVersioned_ok run.full true (by decide) hrows' hrun.storage
  obtain ⟨hashFiles, hhashes, hcopied⟩ := copyColumn_ok run.fullCopy source.blockHashes
  obtain ⟨headerFiles, hheaders, hcopied'⟩ := copyColumn_ok run.fullCopy source.headers
  have hne : ∀ {files : List (List UdtRow)}, Apart files →
      files.Pairwise fun file file' => ∀ a ∈ file, ∀ b ∈ file', userKey a ≠ userKey b :=
    fun hapart => hapart.imp fun hlt a ha b hb => (hlt a ha b hb).ne
  refine ⟨⟨accountFiles, storageFiles, hashFiles, headerFiles⟩, ?_, fun h address => ?_,
    ⟨hflatten, hflatten ▸ nodup_udtRow false hrows⟩, ⟨hflatten', hflatten' ▸ nodup_udtRow true hrows'⟩,
    hne hapart, hne hapart', pairwise_of_flatten hcopied, pairwise_of_flatten hcopied', fun key => ?_⟩
  · simp only [convertInvertedToUdt, hbackend, haccounts, hstorage, hok, hok', hhashes, hheaders]
    rfl
  · have hfind : ((UdtFiles.mk accountFiles storageFiles hashFiles headerFiles).archive source).accounts.find (.rocksdb .v3)
        (accountOwner address) h = source.accounts.find source.backend (accountOwner address) h := by
      rw [hbackend, haccounts]
      refine (find_ingest hwf hflatten (accountOwner address) h).trans ?_
      exact Option.map_id'
    refine ⟨?_, ?_, fun slot => ?_⟩
    · rw [readAccount, readAccount, ← hfind]
      rfl
    · rw [accountVersion, accountVersion, ← hfind]
      rfl
    · have hslot : VersionTable.find ((UdtFiles.mk accountFiles storageFiles hashFiles headerFiles).archive source).backend
          ((UdtFiles.mk accountFiles storageFiles hashFiles headerFiles).archive source).storage (slotOwner address slot) h =
            _ := find_ingest hwf' hflatten' (slotOwner address slot) h
      have hdecode : ∀ found : U64 × Bytes, (decodeStorage (udtValue true found.2), some found.1) =
          (decodeStorage found.2, some found.1) := by
        intro found
        rw [decodeStorage, decodeStorage]
        exact congrArg (fun n => (Fin.ofNat (2 ^ 256) n, some found.1)) (ofBE_dropWhile_zero found.2)
      rw [readStorageAndHeight_eq, readStorageAndHeight_eq, hbackend, hstorage, hslot, Option.map_map]
      exact congrArg (fun f => (Option.map f _).getD (0, none)) (funext hdecode)
  · exact ⟨ingest_of_flatten hcopied key, ingest_of_flatten hcopied' key⟩

/-- A slot with leading zeros, then deleted, with files of one row and the last shard first. -/
theorem convertInvertedToUdt_preserves_reads_deleted :
    let source := (empty (.rocksdb .v2)).updateBlocks fixedCodec [deletingBlock 5, accountBlock 2 9 300]
    let run : UdtRun := ⟨1, fun file => 1 ≤ file.length, fun file => 1 ≤ file.length, (shardTasks 1).reverse, shardTasks 1⟩
    source.readStorageAndHeight 4 7 3 = (300, some 2) ∧ source.readStorageAndHeight 6 7 3 = (0, some 5) ∧
    ∃ files, convertInvertedToUdt run source = .ok files ∧ ∀ h,
      (files.archive source).readAccount fixedCodec h 7 = source.readAccount fixedCodec h 7 ∧
      (files.archive source).readStorageAndHeight h 7 3 = source.readStorageAndHeight h 7 3 := by
  intro source run
  have hasc : Ascending [deletingBlock 5, accountBlock 2 9 300] := by
    unfold Ascending
    decide
  have hrun : run.Completes := ⟨reverse_perm _, Perm.refl _⟩
  -- Over a variable, so that nothing below evaluates the archive.
  have hconverts : ∀ archive, archive.backend = .rocksdb .v2 → archive.accounts.isPlain = true →
      archive.storage.isPlain = true → archive.Holds fixedCodec [deletingBlock 5, accountBlock 2 9 300] →
      ∃ files, convertInvertedToUdt run archive = .ok files ∧ ∀ h,
        (files.archive archive).readAccount fixedCodec h 7 = archive.readAccount fixedCodec h 7 ∧
        (files.archive archive).readStorageAndHeight h 7 3 = archive.readStorageAndHeight h 7 3 := by
    intro _ hbackend hplain hplain' hholds
    obtain ⟨_, haccounts⟩ := exists_of_isPlain hplain
    obtain ⟨_, hstorage⟩ := exists_of_isPlain hplain'
    obtain ⟨files, hok, hreads, -⟩ := convertInvertedToUdt_preserves_reads fixedCodec hbackend haccounts hstorage
      hholds.accounts_wellFormed hholds.storage_wellFormed hrun
    exact ⟨files, hok, fun h => ⟨(hreads h 7).1, (hreads h 7).2.2 3⟩⟩
  exact ⟨by decide +kernel, by decide +kernel, hconverts source (updateBlocks_backend ..) (by decide +kernel)
    (by decide +kernel) (holds_updateBlocks fixedCodec (.rocksdb .v2) hasc)⟩

end LeafageEvm
