import LeafageEvm.ArchiveRefine
import LeafageEvm.Shards
import LeafageEvm.SstSink
import Mathlib.Data.List.Perm.Basic

/-! The rewrite of a v1 archive into schema v2. A key's versions come oldest first in v1 and newest first in
v2, so the rows of a key are gathered in a buffer and written sorted. A buffer that grows too large is
written early and the file finished behind it: what follows of the same key sorts before it and starts a
new file. Sentinels, the rows at the greatest height that older versions wrote beside each version, are
dropped. -/

namespace LeafageEvm
open SstSink Archive List VersionTable OrderedMap
variable {rows done : List (Bytes × Bytes)} {row : Bytes × Bytes} {files : List (List (Bytes × Bytes))}

/-- The row with its height inverted. -/
def reencodedRow (row : Bytes × Bytes) : Bytes × Bytes :=
  (row.1.take (row.1.length - 8) ++ toBE 8 (rowBlock row.1).rev, row.2)

/-- The state of a worker of `reencode_versioned_cf`. -/
structure Reencoder where
  sink : SstSink Bytes Bytes := {}
  buf : List (Bytes × Bytes) := []
  bufferedBytes : Nat := 0
  curPrefix : Option Bytes := none

variable {state : Reencoder}

namespace Reencoder

variable (full : List (Bytes × Bytes) → Bool)

def flushPrefix (state : Reencoder) : Except SstError Reencoder :=
  (state.sink.putAll full (state.buf.insertionSort fun a b => a.1 ≤ b.1)).map fun sink => { state with sink := sink, buf := [] }

/-- A row of another key: the buffer is written out. -/
def enterPrefix (state : Reencoder) (user : Bytes) : Except SstError Reencoder :=
  if state.curPrefix = some user then .ok state
  else if state.buf.isEmpty then .ok { state with curPrefix := some user }
  else (state.flushPrefix full).map fun state => { state with bufferedBytes := 0, curPrefix := some user }

/-- A row is buffered with what it takes, a pair of vectors being 48 bytes. -/
def push (state : Reencoder) (row : Bytes × Bytes) : Reencoder :=
  { state with
    bufferedBytes := state.bufferedBytes + (row.1.length + row.2.length + 48)
    buf := state.buf ++ [row] }

/-- A buffer at the limit is written out as a run of its own. -/
def cutChunk (bufferLimit : Nat) (state : Reencoder) : Except SstError Reencoder :=
  if bufferLimit ≠ 0 ∧ bufferLimit ≤ state.bufferedBytes then
    (state.flushPrefix full).map fun state => { state with sink := state.sink.finishFile, bufferedBytes := 0 }
  else .ok state

def reencodeRow (bufferLimit len : Nat) (state : Reencoder) (row : Bytes × Bytes) :
    Except SstError Reencoder :=
  if rowBlock row.1 = sentinelHeight then .ok state
  else do
    let state ← state.enterPrefix full (row.1.take len)
    (state.push (reencodedRow row)).cutChunk full bufferLimit

/-- After the last row. -/
def finish (state : Reencoder) : Except SstError (List (List (Bytes × Bytes))) :=
  (if state.buf.isEmpty then .ok state else state.flushPrefix full).map fun state => state.sink.finish

end Reencoder

def reencodeShard (full : List (Bytes × Bytes) → Bool) (bufferLimit len : Nat) (rows : List (Bytes × Bytes)) :
    Except SstError (List (List (Bytes × Bytes))) := do
  let state ← rows.foldlM (Reencoder.reencodeRow full bufferLimit len) {}
  state.finish full

/-- `reencode_versioned_cf`: the files of a table. The workers are joined in the order of the shards. -/
def reencodeVersionedCf (full : List (Bytes × Bytes) → Bool) (bufferLimit len jobs : Nat) (rows : OrderedMap Bytes Bytes) :
    Except SstError (List (List (Bytes × Bytes))) :=
  ((shardBounds jobs).mapM fun bound => reencodeShard full bufferLimit len (shardRows rows.entries bound)).map List.flatten

/-- The arguments of the rewrite. `parallelism` is the machine's, and the files are full when they are. -/
structure ReencodeRun where
  jobs : Nat
  bufferMb : Nat
  parallelism : Nat
  full : List (Bytes × Bytes) → Bool

def ReencodeRun.bufferLimit (run : ReencodeRun) : Nat := min (run.bufferMb * (1024 * 1024)) (2 ^ 64 - 1)

def ReencodeRun.workers (run : ReencodeRun) : Nat :=
  if run.jobs = 0 then max 1 (min run.parallelism 16) else max 1 (min run.jobs 16)

/-- The files of each column family. -/
structure ReencodedFiles where
  accounts : List (List (Bytes × Bytes))
  storage : List (List (Bytes × Bytes))
  blockHashes : List (List (Bytes × Bytes))
  headers : List (List (Bytes × Bytes))

/-- The new archive with the files ingested and marked as inverted. Codes and the latest hash are copied
as they are. -/
def ReencodedFiles.archive (files : ReencodedFiles) (source : Archive) : Archive where
  backend := .rocksdb .v2
  accounts := .plain (empty.ingest files.accounts)
  storage := .plain (empty.ingest files.storage)
  codes := source.codes
  blockHashes := empty.ingest files.blockHashes
  headers := empty.ingest files.headers
  latest := source.latest

/-- `reencode_legacy_to_inverted`: the files written. -/
def reencodeLegacyToInverted (run : ReencodeRun) (source : Archive) : Except SstError ReencodedFiles :=
  match source.backend, source.accounts, source.storage with
  | .rocksdb .v1, .plain accounts, .plain storage => do
      let blockHashFiles ← SstSink.copyColumn run.full source.blockHashes
      let headerFiles ← SstSink.copyColumn run.full source.headers
      let accountFiles ← reencodeVersionedCf run.full run.bufferLimit 32 run.workers accounts
      let storageFiles ← reencodeVersionedCf run.full run.bufferLimit 64 run.workers storage
      pure ⟨accountFiles, storageFiles, blockHashFiles, headerFiles⟩
  | _, _, _ => .error .unsupported

/-! ### Rows -/

variable {len : Nat} (full : List (Bytes × Bytes) → Bool)

theorem reencodedRow_versionKey (owner : Owner len) (n : U64) (value : Bytes) :
    reencodedRow (versionKey false owner n, value) = (versionKey true owner n, value) := by
  rw [reencodedRow, take_versionKey_tail, rowBlock_versionKey, @versionKey_eq len true]
  rfl

/-- The rows that the rewrite keeps, as it writes them. -/
def keptRows (rows : List (Bytes × Bytes)) : List (Bytes × Bytes) :=
  (rows.filter fun row => rowBlock row.1 ≠ sentinelHeight).map reencodedRow

theorem mem_keptRows (hwf : VersionRows false len rows) :
    row ∈ keptRows rows ↔ ∃ (owner : Owner len) (n : U64), n ≠ sentinelHeight ∧ row.1 = versionKey true owner n ∧
      (versionKey false owner n, row.2) ∈ rows := by
  rw [keptRows, mem_map]
  constructor
  · rintro ⟨⟨key, _⟩, hmem, rfl⟩
    obtain ⟨hrow, hkeep⟩ := mem_filter.mp hmem
    obtain ⟨owner, n, rfl⟩ : ∃ (owner : Owner _) (n : _), _ = versionKey _ owner n := hwf _ hrow
    rw [reencodedRow_versionKey]
    rw [decide_eq_true_eq, rowBlock_versionKey] at hkeep
    exact ⟨owner, n, hkeep, rfl, hrow⟩
  · rintro ⟨owner, n, hn, hkey, hrow⟩
    refine ⟨(versionKey false owner n, row.2), mem_filter.mpr ⟨hrow, ?_⟩, ?_⟩
    · rw [decide_eq_true_eq, rowBlock_versionKey]
      exact hn
    · rw [reencodedRow_versionKey, ← hkey]

def InScanOrder (len : Nat) (rows : List (Bytes × Bytes)) : Prop :=
  rows.Pairwise fun a b => a.1 ≠ b.1 ∧ a.1.take len ≤ b.1.take len

theorem InScanOrder.nodup (h : InScanOrder len rows) : (rows.map (·.1)).Nodup :=
  pairwise_map.mpr (h.imp And.left)

theorem pairwise_keptRows (hwf : VersionRows false len rows) (hrows : rows.Pairwise fun a b => a.1 < b.1) :
    InScanOrder len (keptRows rows) := by
  rw [InScanOrder, keptRows, pairwise_map]
  refine (hrows.filter _).imp_of_mem fun {a b} ha hb hlt => ?_
  obtain ⟨key, _⟩ := a
  obtain ⟨key', _⟩ := b
  obtain ⟨owner, n, rfl⟩ : ∃ (owner : Owner len) (n : U64), _ = versionKey false owner n := hwf _ (mem_filter.mp ha).1
  obtain ⟨_, _, rfl⟩ : ∃ (owner : Owner len) (n : _), _ = versionKey _ owner n := hwf _ (mem_filter.mp hb).1
  rw [reencodedRow_versionKey, reencodedRow_versionKey]
  constructor
  · intro heq
    obtain ⟨rfl, rfl⟩ := versionKey_inj heq
    exact hlt.ne rfl
  · have hle := take_le_take len hlt.le
    rwa [take_versionKey, take_versionKey] at hle ⊢

/-! ### A shard -/

/-- The state of a worker after some rows: what it has written and what it holds back are those rows, it
holds back rows of one key, and in its open file are rows of smaller keys only. -/
structure Buffered (len : Nat) (done : List (Bytes × Bytes)) (state : Reencoder) : Prop where
  filed : state.sink.Filed
  perm : (state.sink.rows ++ state.buf).Perm done
  buf : ∀ row ∈ state.buf, state.curPrefix = some (row.1.take len)
  writer : ∀ row ∈ state.sink.writer, ∃ user, state.curPrefix = some user ∧ row.1.take len < user
  user : ∀ user, state.curPrefix = some user → ∃ row ∈ done, row.1.take len = user

theorem buffered_empty : Buffered len [] {} where
  filed := filed_empty
  perm := Perm.refl _
  buf := nofun
  writer := nofun
  user := nofun

theorem buffered_first {sink : SstSink Bytes Bytes} (hfiled : sink.Filed) (hperm : sink.rows.Perm done)
    (hwriter : ∀ other ∈ sink.writer, other.1.take len < row.1.take len) (bufferedBytes : Nat) :
    Buffered len (done ++ [row]) ⟨sink, [row], bufferedBytes, some (row.1.take len)⟩ where
  filed := hfiled
  perm := hperm.append_right _
  buf := by
    intro _ hother
    rw [mem_singleton.mp hother]
  writer := fun other hother => ⟨_, rfl, hwriter other hother⟩
  user := by
    rintro _ heq
    cases heq
    exact ⟨row, mem_append_right _ (.head _), rfl⟩

theorem keptRows_cons (row : Bytes × Bytes) (rows : List (Bytes × Bytes)) :
    keptRows (row :: rows) = keptRows [row] ++ keptRows rows := by
  rw [keptRows, keptRows, keptRows, ← map_append, ← filter_append]
  rfl

section
variable (h : Buffered len done state)
include h
/-- **Writing out the buffer** never comes out of order. -/
theorem Buffered.flushPrefix (hdone : (done.map (·.1)).Nodup) :
    ∃ sink, state.flushPrefix full = .ok { state with sink := sink, buf := [] } ∧ sink.Filed ∧ sink.rows.Perm done ∧
      ∀ row ∈ sink.writer, ∃ user, state.curPrefix = some user ∧ row.1.take len ≤ user := by
  have hsort := perm_insertionSort (fun a b : Bytes × Bytes => a.1 ≤ b.1) state.buf
  have hbuf : (state.buf.map (·.1)).Nodup := by
    have hall := (h.perm.map (·.1)).nodup_iff.mpr hdone
    rw [map_append] at hall
    exact hall.of_append_right
  have hsorted : (state.buf.insertionSort fun a b => a.1 ≤ b.1).Pairwise fun a b => a.1 < b.1 := by
    have hle := pairwise_insertionSort (fun a b : Bytes × Bytes => a.1 ≤ b.1) state.buf
    have hne : (state.buf.insertionSort fun a b => a.1 ≤ b.1).Pairwise fun a b => a.1 ≠ b.1 :=
      pairwise_map.mp ((hsort.map Prod.fst).nodup_iff.mpr hbuf)
    exact hle.imp₂ (fun _ _ hle hne => lt_of_le_of_ne hle hne) hne
  obtain ⟨sink, hok, hfiled, hrows, hwriter⟩ := putAll_ok full h.filed hsorted (by
    intro a ha b hb
    obtain ⟨_, hcur, hlt⟩ := h.writer a ha
    have hb := h.buf b (hsort.mem_iff.mp hb)
    rw [hcur, Option.some.injEq] at hb
    exact lt_of_take_lt (hb ▸ hlt))
  refine ⟨sink, ?_, hfiled, ?_, fun row hrow => ?_⟩
  · rw [Reencoder.flushPrefix, hok]
    rfl
  · rw [hrows]
    exact (hsort.append_left _).trans h.perm
  · rcases hwriter row hrow with hold | hnew
    · obtain ⟨user, hcur, hlt⟩ := h.writer row hold
      exact ⟨user, hcur, hlt.le⟩
    · exact ⟨_, h.buf row (hsort.mem_iff.mp hnew), le_refl _⟩

theorem Buffered.push (huser : state.curPrefix = some (row.1.take len)) :
    Buffered len (done ++ [row]) (state.push row) where
  filed := h.filed
  perm := by
    rw [Reencoder.push, ← append_assoc]
    exact h.perm.append_right _
  buf := by
    intro other hother
    rcases mem_append.mp hother with hold | hnew
    · exact h.buf other hold
    · rw [mem_singleton.mp hnew]
      exact huser
  writer := h.writer
  user := by
    intro user heq
    obtain ⟨other, hother, htake⟩ := h.user user heq
    exact ⟨other, mem_append_left _ hother, htake⟩

theorem Buffered.enterPrefix
    (hdone : (done.map (·.1)).Nodup) (hle : ∀ other ∈ done, other.1.take len ≤ row.1.take len) :
    ∃ state', state.enterPrefix full (row.1.take len) = .ok state' ∧ Buffered len (done ++ [row]) (state'.push row) := by
  rw [Reencoder.enterPrefix]
  by_cases hsame : state.curPrefix = some (row.1.take len)
  · exact ⟨state, if_pos hsame, h.push hsame⟩
  have hless : ∀ user, state.curPrefix = some user → user < row.1.take len := by
    intro user hcur
    obtain ⟨other, hother, htake⟩ := h.user user hcur
    refine lt_of_le_of_ne (htake ▸ hle other hother) fun heq => hsame ?_
    rw [hcur, heq]
  rw [if_neg hsame]
  by_cases hempty : state.buf = []
  · refine ⟨{ state with curPrefix := some (row.1.take len) }, if_pos (isEmpty_iff.mpr hempty), ?_⟩
    have hperm := h.perm
    rw [hempty, append_nil] at hperm
    rw [hempty]
    refine buffered_first h.filed hperm (fun other hother => ?_) _
    obtain ⟨user, hcur, hlt⟩ := h.writer other hother
    exact hlt.trans (hless user hcur)
  obtain ⟨sink, hok, hfiled, hperm, hwriter⟩ := h.flushPrefix full hdone
  refine ⟨{ state with sink := sink, buf := [], bufferedBytes := 0, curPrefix := some (row.1.take len) }, ?_, ?_⟩
  · rw [if_neg (by rwa [List.isEmpty_iff]), hok]
    rfl
  · refine buffered_first hfiled hperm (fun other hother => ?_) _
    obtain ⟨user, hcur, hle⟩ := hwriter other hother
    exact hle.trans_lt (hless user hcur)

section
variable (bufferLimit : Nat)

/-- **A cut inside a key** loses nothing: the next file starts afresh. -/
theorem Buffered.cutChunk (hdone : (done.map (·.1)).Nodup) :
    ∃ state', state.cutChunk full bufferLimit = .ok state' ∧ Buffered len done state' := by
  rw [Reencoder.cutChunk]
  split
  · obtain ⟨sink, hok, hfiled, hperm, -⟩ := h.flushPrefix full hdone
    refine ⟨{ state with sink := sink.finishFile, buf := [], bufferedBytes := 0 }, ?_, hfiled.finishFile, ?_, ?_, ?_, h.user⟩
    · rw [hok]
      rfl
    · rw [append_nil, rows_finishFile]
      exact hperm
    · exact nofun
    · intro _ hother
      rw [writer_finishFile] at hother
      cases hother
  · exact ⟨state, rfl, h⟩

theorem Buffered.step (hrow : ∃ (owner : Owner len) (n : U64), row.1 = versionKey false owner n)
    (hdone : InScanOrder len (done ++ keptRows [row])) :
    ∃ state', state.reencodeRow full bufferLimit len row = .ok state' ∧ Buffered len (done ++ keptRows [row]) state' := by
  rw [Reencoder.reencodeRow]
  by_cases hsentinel : rowBlock row.1 = sentinelHeight
  · rw [keptRows]
    simpa [hsentinel] using h
  have hkept : keptRows [row] = [reencodedRow row] := by
    rw [keptRows]
    simp [hsentinel]
  rw [hkept] at hdone ⊢
  have htake : (reencodedRow row).1.take len = row.1.take len := by
    obtain ⟨key, _⟩ := row
    obtain ⟨owner, n, rfl⟩ : ∃ (owner : Owner _) (n : _), _ = versionKey _ owner n := hrow
    rw [reencodedRow_versionKey, take_versionKey, take_versionKey]
  obtain ⟨hbefore, -, hlast⟩ := pairwise_append.mp hdone
  obtain ⟨_, henter, hpushed⟩ := h.enterPrefix full (InScanOrder.nodup hbefore)
    (fun other hother => (hlast other hother _ (.head _)).2)
  obtain ⟨state'', hcut, hbuffered⟩ := hpushed.cutChunk full bufferLimit hdone.nodup
  refine ⟨state'', ?_, hbuffered⟩
  rw [if_neg hsentinel, ← htake, henter]
  exact hcut

theorem Buffered.rows_ok (hwf : VersionRows false len rows) (hdone : InScanOrder len (done ++ keptRows rows)) :
    ∃ state', rows.foldlM (Reencoder.reencodeRow full bufferLimit len) state = .ok state' ∧
      Buffered len (done ++ keptRows rows) state' := by
  induction rows generalizing done state with
  | nil =>
    refine ⟨state, rfl, ?_⟩
    have hnil : done ++ keptRows [] = done := append_nil done
    rwa [hnil]
  | cons row _ ih =>
    rw [keptRows_cons, ← append_assoc] at hdone ⊢
    obtain ⟨_, hrow, hstate'⟩ := h.step full bufferLimit (hwf row (.head _)) (pairwise_append.mp hdone).1
    obtain ⟨state'', hrest, hstate''⟩ := ih hstate' (fun other hother => hwf other (.tail _ hother)) hdone
    refine ⟨state'', ?_, hstate''⟩
    rw [foldlM_cons, hrow]
    exact hrest
end

theorem Buffered.finish (hdone : (done.map (·.1)).Nodup) :
    ∃ files, state.finish full = .ok files ∧ files.flatten.Perm done := by
  rw [Reencoder.finish]
  by_cases hempty : state.buf = []
  · have hperm := h.perm
    rw [hempty, append_nil] at hperm
    refine ⟨state.sink.finish, ?_, state.sink.flatten_finish ▸ hperm⟩
    rw [if_pos (isEmpty_iff.mpr hempty)]
    rfl
  obtain ⟨sink, hflush, -, hperm, -⟩ := h.flushPrefix full hdone
  refine ⟨sink.finish, ?_, sink.flatten_finish ▸ hperm⟩
  rw [if_neg (by rwa [List.isEmpty_iff]), hflush]
  rfl
end

/-- **The files of a shard** hold the rows that are kept, each once. -/
theorem reencodeShard_ok (bufferLimit : Nat) (hwf : VersionRows false len rows)
    (hrows : rows.Pairwise fun a b => a.1 < b.1) :
    ∃ files, reencodeShard full bufferLimit len rows = .ok files ∧ files.flatten.Perm (keptRows rows) := by
  have horder : InScanOrder len ([] ++ keptRows rows) := pairwise_keptRows hwf hrows
  obtain ⟨_, hok, hstate⟩ := buffered_empty.rows_ok full bufferLimit hwf horder
  obtain ⟨files, hfinish, hperm⟩ := hstate.finish full horder.nodup
  refine ⟨files, ?_, hperm⟩
  rw [reencodeShard, hok]
  exact hfinish

/-! ### A table -/

/-- **The files of a table** hold the rows that are kept, each once. -/
theorem reencodeVersionedCf_ok (bufferLimit jobs : Nat) {rows : OrderedMap Bytes Bytes}
    (hwf : VersionRows false len rows.entries) :
    ∃ files, reencodeVersionedCf full bufferLimit len jobs rows = .ok files ∧ files.flatten.Perm (keptRows rows.entries) := by
  have hshard : ∀ bound, ∃ files, reencodeShard full bufferLimit len (shardRows rows.entries bound) = .ok files ∧
      files.flatten.Perm (keptRows (shardRows rows.entries bound)) :=
    fun bound => reencodeShard_ok full bufferLimit (fun row hrow => hwf row (mem_filter.mp hrow).1) (rows.sorted.filter _)
  choose files hok hperm using hshard
  refine ⟨(shardBounds jobs).flatMap files, ?_, ?_⟩
  · rw [reencodeVersionedCf, mapM_ok fun bound _ => hok bound]
    rfl
  · calc
      ((shardBounds jobs).flatMap files).flatten = (shardBounds jobs).flatMap fun bound => (files bound).flatten := by
          rw [← flatMap_id', flatMap_assoc]
          simp only [flatMap_id']
      Perm _ ((shardBounds jobs).flatMap fun bound => keptRows (shardRows rows.entries bound)) :=
          Perm.flatMap_left _ fun bound _ => hperm bound
      _ = keptRows ((shardBounds jobs).flatMap (shardRows rows.entries)) := by
          simp only [keptRows, filter_flatMap, map_flatMap]
      _ = keptRows rows.entries := by
          rw [flatMap_shardRows hwf.ne_nil]

theorem rowBlock_keptRows (hwf : VersionRows false len rows) :
    ∀ row ∈ keptRows rows, (rowBlock row.1).rev ≠ sentinelHeight := by
  intro _ hrow
  obtain ⟨_, n, hn, hkey, -⟩ := (mem_keptRows hwf).mp hrow
  rw [hkey, rowBlock_versionKey, storedBlock, if_pos rfl, Fin.rev_rev]
  exact hn

/-- The files hold every version of a table but the sentinels, each once. -/
structure Reencodes (rows : OrderedMap Bytes Bytes) (files : List (List (Bytes × Bytes))) : Prop where
  perm : files.flatten.Perm (keptRows rows.entries)
  nodup : (files.flatten.map (·.1)).Nodup
  rowBlock : ∀ row ∈ files.flatten, (rowBlock row.1).rev ≠ sentinelHeight

section Table
variable {rows : OrderedMap Bytes Bytes} (hwf : VersionRows false len rows.entries)
  (hfiles : files.flatten.Perm (keptRows rows.entries))
include hwf hfiles
theorem nodup_reencoded : (files.flatten.map (·.1)).Nodup :=
  (hfiles.map Prod.fst).nodup_iff.mpr (pairwise_keptRows hwf rows.sorted).nodup

theorem get_reencoded (owner : Owner len) (n : U64) : (empty.ingest files).get (versionKey true owner n) =
      if n = sentinelHeight then none else rows.get (versionKey false owner n) := by
  apply Option.ext
  intro _
  rw [get_ingest_empty (nodup_reencoded hwf hfiles), hfiles.mem_iff, mem_keptRows hwf]
  constructor
  · rintro ⟨_, _, hn, hkey, hrow⟩
    obtain ⟨rfl, rfl⟩ := versionKey_inj hkey
    rw [if_neg hn, get_eq_some]
    exact hrow
  · intro hget
    split at hget
    · cases hget
    · next hn => exact ⟨owner, n, hn, rfl, get_eq_some.mp hget⟩

theorem wellFormed_reencoded : (plain (empty.ingest files) : VersionTable len).WellFormed (.rocksdb .v2) := by
  intro _ _ hget
  rw [get_ingest_empty (nodup_reencoded hwf hfiles), hfiles.mem_iff, mem_keptRows hwf] at hget
  obtain ⟨owner, n, -, hkey, -⟩ := hget
  exact ⟨owner, n, hkey⟩

theorem reencodes_of_perm : Reencodes rows files where
  perm := hfiles
  nodup := nodup_reencoded hwf hfiles
  rowBlock := fun row hrow => rowBlock_keptRows hwf row (hfiles.mem_iff.mp hrow)

end Table

/-- **A read finds the same version**, unless it would find the sentinel. -/
theorem find_reencoded {rows : OrderedMap Bytes Bytes} (hwf : (plain rows : VersionTable len).WellFormed (.rocksdb .v1))
    (hfiles : files.flatten.Perm (keptRows rows.entries)) {owner : Owner len} {blockNum : U64}
    (hread : blockNum < sentinelHeight ∨ rows.get (versionKey false owner sentinelHeight) = none) :
    (plain (empty.ingest files) : VersionTable len).find (.rocksdb .v2) owner blockNum =
      (plain rows : VersionTable len).find (.rocksdb .v1) owner blockNum := by
  have hrows : VersionRows false len rows.entries := .of_wellFormed hwf
  have hnew := find_readsLatest (wellFormed_reencoded hrows hfiles) owner blockNum
  have hold := find_readsLatest hwf owner blockNum
  refine hnew.unique (hold.congr fun n hn => ?_)
  show (empty.ingest files).get (versionKey true owner n) = rows.get (versionKey false owner n)
  rw [get_reencoded hrows hfiles]
  split
  · next heq =>
    rcases hread with hlt | hnone
    · exact absurd (heq ▸ hn) hlt.not_ge
    · rw [heq, hnone]
  · rfl

/-! ### The archive -/

/-- **The rewrite keeps every read** below the height of the sentinels, and at that height those of what has
no sentinel. It succeeds, whatever the number of jobs, the limit of the buffer and the sizes of the files;
the shards are the tables, and the files hold every version but the sentinels once. -/
theorem reencodeLegacyToInverted_preserves_reads (codec : Codec) (run : ReencodeRun) {source : Archive}
    (hbackend : source.backend = .rocksdb .v1) {accounts storage : OrderedMap Bytes Bytes}
    (haccounts : source.accounts = .plain accounts) (hstorage : source.storage = .plain storage)
    (hwf : source.accounts.WellFormed source.backend) (hwf' : source.storage.WellFormed source.backend) :
    ∃ files, reencodeLegacyToInverted run source = .ok files ∧
      (∀ h address, h < sentinelHeight ∨ accounts.get (versionKey false (accountOwner address) sentinelHeight) = none →
        (files.archive source).readAccount codec h address = source.readAccount codec h address ∧
        (files.archive source).accountVersion h address = source.accountVersion h address) ∧
      (∀ h address slot, h < sentinelHeight ∨ storage.get (versionKey false (slotOwner address slot) sentinelHeight) = none →
        (files.archive source).readStorageAndHeight h address slot = source.readStorageAndHeight h address slot) ∧
      Reencodes accounts files.accounts ∧ Reencodes storage files.storage ∧
      (shardBounds run.workers).flatMap (shardRows accounts.entries) = accounts.entries ∧
      (shardBounds run.workers).flatMap (shardRows storage.entries) = storage.entries ∧
      ∀ key, (files.archive source).blockHashes.get key = source.blockHashes.get key ∧
        (files.archive source).headers.get key = source.headers.get key := by
  rw [hbackend, haccounts] at hwf
  rw [hbackend, hstorage] at hwf'
  have hrows : VersionRows false 32 accounts.entries := .of_wellFormed hwf
  have hrows' : VersionRows false 64 storage.entries := .of_wellFormed hwf'
  obtain ⟨accountFiles, hok, hperm⟩ := reencodeVersionedCf_ok run.full run.bufferLimit run.workers hrows
  obtain ⟨storageFiles, hok', hperm'⟩ := reencodeVersionedCf_ok run.full run.bufferLimit run.workers hrows'
  obtain ⟨hashFiles, hhashes, hcopied⟩ := copyColumn_ok run.full source.blockHashes
  obtain ⟨headerFiles, hheaders, hcopied'⟩ := copyColumn_ok run.full source.headers
  refine ⟨⟨accountFiles, storageFiles, hashFiles, headerFiles⟩, ?_, fun h address hread => ?_, fun h address slot hread => ?_,
    reencodes_of_perm hrows hperm, reencodes_of_perm hrows' hperm', flatMap_shardRows hrows.ne_nil _,
    flatMap_shardRows hrows'.ne_nil _, fun key => ⟨ingest_of_flatten hcopied key,
      ingest_of_flatten hcopied' key⟩⟩
  · simp only [reencodeLegacyToInverted, hbackend, haccounts, hstorage, hok, hok', hhashes, hheaders]
    rfl
  · have hfind := find_reencoded hwf hperm hread
    rw [readAccount, readAccount, accountVersion, accountVersion, hbackend, haccounts, ← hfind]
    exact ⟨rfl, rfl⟩
  · have hfind := find_reencoded hwf' hperm' hread
    rw [readStorageAndHeight, readStorageAndHeight, hbackend, hstorage, ← hfind]
    rfl

/-- An archive of an older version: account 7 and its slot 3 were written at block 2 with their sentinels, and
the slot again at block 5, which left its sentinel as it was. -/
def legacyArchive : Archive :=
  { Archive.empty (.rocksdb .v1) with
    accounts := (VersionTable.empty (.rocksdb .v1)).putAll (.rocksdb .v1)
      [(versionKey false (accountOwner 7) 2, fixedCodec.encodeAccount ⟨100, 1, 9⟩),
        (versionKey false (accountOwner 7) sentinelHeight, fixedCodec.encodeAccount ⟨100, 1, 9⟩)]
    storage := (VersionTable.empty (.rocksdb .v1)).putAll (.rocksdb .v1)
      [(versionKey false (slotOwner 7 3) 2, hashBytes 300), (versionKey false (slotOwner 7 3) sentinelHeight, hashBytes 300),
        (versionKey false (slotOwner 7 3) 5, hashBytes 400)] }

theorem legacyArchive_wellFormed : legacyArchive.accounts.WellFormed (.rocksdb .v1) ∧
    legacyArchive.storage.WellFormed (.rocksdb .v1) := by
  have hversion : ∀ {len : Nat} {writes : List (Owner len × U64 × Bytes)}, VersionTable.Versioned (.rocksdb .v1) len
      (writes.map fun write => (versionKey false write.1 write.2.1, write.2.2)) := by
    intro _ _ _ hwrite
    obtain ⟨entry, -, rfl⟩ := mem_map.mp hwrite
    exact ⟨entry.1, entry.2.1, rfl⟩
  constructor
  · exact VersionTable.WellFormed.putAll wellFormed_empty
      (@hversion _ [(accountOwner 7, 2, _), (accountOwner 7, sentinelHeight, _)])
  · exact VersionTable.WellFormed.putAll wellFormed_empty
      (@hversion _ [(slotOwner 7 3, 2, _), (slotOwner 7 3, sentinelHeight, _), (slotOwner 7 3, 5, _)])

/-- Both versions of the slot, with files of one row. -/
theorem reencodeLegacyToInverted_preserves_reads_legacy :
    let run : ReencodeRun := ⟨0, 0, 8, fun file => 1 ≤ file.length⟩
    legacyArchive.readStorageAndHeight 4 7 3 = (300, some 2) ∧ legacyArchive.readStorageAndHeight 6 7 3 = (400, some 5) ∧
    ∃ files, reencodeLegacyToInverted run legacyArchive = .ok files ∧ ∀ h, h < sentinelHeight →
      (files.archive legacyArchive).readAccount fixedCodec h 7 = legacyArchive.readAccount fixedCodec h 7 ∧
      (files.archive legacyArchive).readStorageAndHeight h 7 3 = legacyArchive.readStorageAndHeight h 7 3 := by
  intro run
  -- Over a variable, so that nothing below evaluates the archive.
  have hreencodes : ∀ archive, archive.backend = .rocksdb .v1 → archive.accounts.isPlain = true →
      archive.storage.isPlain = true → archive.accounts.WellFormed (.rocksdb .v1) →
      archive.storage.WellFormed (.rocksdb .v1) →
      ∃ files, reencodeLegacyToInverted run archive = .ok files ∧ ∀ h, h < sentinelHeight →
        (files.archive archive).readAccount fixedCodec h 7 = archive.readAccount fixedCodec h 7 ∧
        (files.archive archive).readStorageAndHeight h 7 3 = archive.readStorageAndHeight h 7 3 := by
    intro _ hbackend hplain hplain' hwf hwf'
    obtain ⟨_, haccounts⟩ := exists_of_isPlain hplain
    obtain ⟨_, hstorage⟩ := exists_of_isPlain hplain'
    obtain ⟨files, hok, hreads, hreads', -⟩ := reencodeLegacyToInverted_preserves_reads fixedCodec run hbackend haccounts
      hstorage (hbackend ▸ hwf) (hbackend ▸ hwf')
    exact ⟨files, hok, fun h hlt => ⟨(hreads h 7 (.inl hlt)).1, hreads' h 7 3 (.inl hlt)⟩⟩
  exact ⟨by decide +kernel, by decide +kernel, hreencodes legacyArchive rfl (by decide +kernel) (by decide +kernel)
    legacyArchive_wellFormed.1 legacyArchive_wellFormed.2⟩

/-- At the height of the sentinels the slot read as its stale sentinel; rewritten, it reads as its newest
version. -/
theorem sentinel_read_changes :
    let run : ReencodeRun := ⟨0, 0, 8, fun file => 1 ≤ file.length⟩
    legacyArchive.readStorageAndHeight sentinelHeight 7 3 = (300, some sentinelHeight) ∧
    ((reencodeLegacyToInverted run legacyArchive).toOption.map fun files =>
      (files.archive legacyArchive).readStorageAndHeight sentinelHeight 7 3) = some (400, some 5) := by
  decide +kernel

end LeafageEvm
