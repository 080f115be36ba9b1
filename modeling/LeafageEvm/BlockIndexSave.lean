import LeafageEvm.BlockIndex

/-! The block index across crashes. Merges save it to a file in the background; the next open loads the
file and indexes what the database has past the file's last block, or rebuilds the index. A block
written below that point again drops the file first. -/

namespace LeafageEvm
open BlockIndex Nat OrderedMap
open Option (any_some bind bind_eq_some_iff map map_eq_some_iff map_none map_some mem_toList or_none some_or toList_none)
open List hiding map
open IndexSystem

/-- The block tables: hashes by number (CF 3), and block infos by number, each after its hash (CF 7). -/
structure BlockDb where
  hashes : OrderedMap U64 H256
  infos : OrderedMap U64 (H256 × Bytes)

/-- A block to commit. -/
structure BlockRecord where
  hash : H256
  number : U64
  info : Bytes

/-- A complete save. -/
structure SavedIndex where
  k : Nat
  shards : Fin 256 → Shard
  last : U32 × H256

def U32.toU64 (n : U32) : U64 := ⟨n, n.isLt.trans (by decide)⟩

def BlockDb.put (db : BlockDb) (block : BlockRecord) : BlockDb :=
  ⟨db.hashes.put block.number block.hash, db.infos.put block.number (block.hash, block.info)⟩

/-- The newest block of CF 3. -/
def BlockDb.lastBlock (db : BlockDb) : Option (U64 × H256) := db.hashes.last

/-- The blocks of CF 3, as entries, unless a number does not fit. -/
def BlockDb.entries (db : BlockDb) : Option (List (H256 × U32)) :=
  db.hashes.entries.mapM fun row => indexEntry row.2 row.1

namespace BlockIndex

def mergeOver (index : BlockIndex) (shards : List (Fin 256)) : BlockIndex :=
  let merged := shards.foldl (fun state s => state.1.mergeShard state.2 s) index.startMerge
  merged.1.endMerge merged.2

/-- `merge`. -/
def mergeAll (index : BlockIndex) : BlockIndex := index.mergeOver (finRange 256)

/-- What `save` writes: nothing without a last block. -/
def saved (index : BlockIndex) : Option SavedIndex := index.last.map fun last => ⟨(index.shards 0).k, index.shards, last⟩

def scanThreads : Nat := 8

/-- How many numbers a thread scans. -/
def perThread (blocks : Nat) : Nat := max ((blocks + scanThreads - 1) / scanThreads) 1

/-- The entries a scan of a range of numbers finds for a shard. -/
def scanned (entries : List (H256 × U32)) (k per i : Nat) (s : Fin 256) : List ShardEntry :=
  (entries.filter fun block => i * per ≤ block.2.val ∧ block.2.val < (i + 1) * per ∧ shardOf (hashPrefix block.1) = s).map
    fun block => blockEntry k (toLex (hashPrefix block.1, block.2))

def shardEntries (entries : List (H256 × U32)) (k per : Nat) (s : Fin 256) : List ShardEntry :=
  ((range scanThreads).flatMap fun i => scanned entries k per i s).insertionSort (· ≤ ·)

def buildFrom (entries : List (H256 × U32)) (blocks : Nat) : BlockIndex :=
  let k := bucketBits blocks
  { shards := fun s => .fromSorted k (shardEntries entries k (perThread blocks) s)
    recent := ⟨.empty, .empty, none⟩
    last := entries.getLast?.map fun block => (block.2, block.1) }

/-- `build`: ranges of numbers are scanned in parallel, then the shards sorted. -/
def build (db : BlockDb) : Option BlockIndex :=
  db.entries.map fun entries => buildFrom entries ((db.lastBlock.map fun last => last.1.val + 1).getD 0)

/-- The loop of `index_from`: note and merge each full batch. -/
def indexBatches (mergeAt : Nat) (index : BlockIndex) (blocks : List (H256 × U32)) : BlockIndex × List (H256 × U32) :=
  blocks.foldl (fun state block =>
    let batch := state.2 ++ [block]
    if batch.length = mergeAt then ((state.1.note batch).mergeAll, []) else (state.1, batch)) (index, [])

/-- `index_from`, with the save that it starts. -/
def indexFrom (mergeAt : Nat) (index : BlockIndex) (db : BlockDb) (start : Nat) :
    Option (BlockIndex × Option SavedIndex) :=
  db.entries.map fun entries =>
    let blocks := entries.filter fun block => start ≤ block.2.val
    let state := indexBatches mergeAt index blocks
    let index := state.1.note state.2
    if mergeAt ≤ blocks.length then (index.mergeAll, index.mergeAll.saved) else (index, none)

end BlockIndex

def SavedIndex.load (file : SavedIndex) : BlockIndex :=
  ⟨fun s => { file.shards s with k := file.k }, ⟨.empty, .empty, none⟩, some file.last⟩

/-- What an open leaves: the index, a save in the background, and the file. -/
structure Opened where
  index : BlockIndex
  saving : Option SavedIndex
  file : Option SavedIndex

/-- `rebuild`: the new index is saved before it is used, which without a last block leaves the file. -/
def BlockDb.rebuild (db : BlockDb) (file : Option SavedIndex) : Option Opened :=
  (BlockIndex.build db).map fun index => ⟨index, none, index.saved.or file⟩

/-- `open`: the file, if it ends at a block that CF 3 has and has enough buckets, else a rebuild. -/
def BlockDb.openIndex (db : BlockDb) (mergeAt : Nat) (file : Option SavedIndex) : Option Opened :=
  let blocks := (db.lastBlock.map fun last => last.1.val + 1).getD 0
  match file with
  | none => db.rebuild none
  | some saved =>
    if db.hashes.get (U32.toU64 saved.last.1) ≠ some saved.last.2 ∨ saved.k + 1 < bucketBits blocks then
      db.rebuild file
    else (saved.load.indexFrom mergeAt db (saved.last.1.val + 1)).map fun opened => ⟨opened.1, opened.2, file⟩

/-- Where the commit in progress is. -/
inductive CommitPhase where
  | idle
  | noted (blocks : List BlockRecord)
  | written

/-- A running archive and its disk: the commit in progress, a save in the background, and the complete
saves of which a crash may leave any, or none. -/
structure IndexStore where
  db : BlockDb
  index : BlockIndex
  phase : CommitPhase
  saving : Option SavedIndex
  files : List SavedIndex

/-- Commits come one at a time, each of at least one block. A head-only rewind writes none of this; the
blocks noted after it are at heights that have been written before. A crash leaves the save at a
position, or none. -/
inductive StoreEvent where
  | note (blocks : List BlockRecord) (dropped : Bool)
  | write
  | writeFailed
  | committed
  | saved
  | saveFailed
  | crash (file : Option Nat)

/-- How many new blocks make a merge. -/
def mergeAt : Nat := 2 ^ 20

def StoreEvent.noted : StoreEvent → List BlockRecord
  | .note pending _ => pending
  | _ => []

namespace IndexStore

/-- `note`, as the first part of a commit. A block that does not fit fails it. Where blocks that the file
covers are rewritten it waits for the save and drops the file, and fails if it cannot. -/
def note (store : IndexStore) (blocks : List BlockRecord) (dropped : Bool) : Option IndexStore :=
  match blocks.mapM fun block => indexEntry block.hash block.number with
  | none => some store
  | some entries =>
    if store.index.rewrites entries then
      if store.saving.isSome then none
      else if dropped then
        some { store with index := store.index.note entries, files := [], phase := .noted blocks }
      else some store
    else some { store with index := store.index.note entries, phase := .noted blocks }

/-- `committed`: with enough new blocks, waits for the save, merges and saves again. -/
def committed (mergeAt : Nat) (store : IndexStore) : Option IndexStore :=
  if mergeAt ≤ store.index.recent.new.entries.length then
    if store.saving.isSome then none
    else some { store with index := store.index.mergeAll, saving := store.index.mergeAll.saved, phase := .idle }
  else some { store with phase := .idle }

/-- The next open, with the save that the crash has left. -/
def crash (mergeAt : Nat) (store : IndexStore) (file : Option SavedIndex) : Option IndexStore :=
  (store.db.openIndex mergeAt file).map fun opened => ⟨store.db, opened.index, .idle, opened.saving, opened.file.toList⟩

/-- The save that a crash leaves. -/
def survivor (store : IndexStore) (file : Option Nat) : Option SavedIndex :=
  file.bind fun i => (store.files ++ store.saving.toList)[i]?

def step (mergeAt : Nat) (store : IndexStore) : StoreEvent → Option IndexStore
  | .note blocks dropped =>
    match store.phase with
    | .idle => if blocks = [] then none else store.note blocks dropped
    | _ => none
  | .write =>
    match store.phase with
    | .noted blocks => some { store with db := blocks.foldl BlockDb.put store.db, phase := .written }
    | _ => none
  | .writeFailed =>
    match store.phase with
    | .noted _ => some { store with phase := .idle }
    | _ => none
  | .committed =>
    match store.phase with
    | .written => store.committed mergeAt
    | _ => none
  | .saved => store.saving.map fun file => { store with files := file :: store.files, saving := none }
  | .saveFailed => some { store with saving := none }
  | .crash file => store.crash mergeAt (store.survivor file)

end IndexStore

/-! ### Merges -/

namespace BlockIndex

variable {blocks : Finset (U64 ×ₗ U32)} {index : BlockIndex} {block : U64 ×ₗ U32}

/-- What does not change while shards are merged. -/
structure SameBut (index index' : BlockIndex) : Prop where
  recent : index'.recent = index.recent
  last : index'.last = index.last
  k : ∀ s, (index'.shards s).k = (index.shards s).k
  inShard : ∀ block, index.InShard block → index'.InShard block

section
variable (hfew : ∀ s, (shardBlocks blocks s).card < 2 ^ 32) (h : index.Within blocks)
include hfew h
theorem foldl_mergeShard {merge : Merge} (hmerge : index.Merging merge) (shards : List (Fin 256))
    (hshards : shards.map Fin.val = range' merge.next shards.length) :
    let state := shards.foldl (fun state s => state.1.mergeShard state.2 s) (index, merge)
    state.1.Within blocks ∧ state.1.Merging state.2 ∧ state.2.next = merge.next + shards.length ∧
      state.2.last = merge.last ∧ index.SameBut state.1 := by
  induction shards generalizing index merge with
  | nil => exact ⟨h, hmerge, rfl, rfl, rfl, rfl, fun _ => rfl, fun _ h => h⟩
  | cons s _ ih =>
    rw [map_cons, length_cons, range'_succ, cons.injEq] at hshards
    obtain ⟨hs, hrest⟩ := hshards
    obtain ⟨hwithin, hmerging, hkept⟩ := h.mergeShard hfew hmerge hs.symm
    have hnext : (index.mergeShard merge s).2.next = merge.next + 1 := congrArg (· + 1) hs
    obtain ⟨hwithin', hmerging', hnext', hlast, hsame⟩ := ih hwithin hmerging (by rw [hnext]; exact hrest)
    refine ⟨hwithin', hmerging', ?_, hlast, hsame.recent, hsame.last, fun s' => ?_, fun block hblock => ?_⟩
    · rw [foldl_cons, hnext', length_cons]
      omega
    · refine (hsame.k s').trans ?_
      by_cases hs' : s' = s
      · subst hs'
        simp only [mergeShard, Function.update_self, mergeTaken_k]
      · simp only [mergeShard, Function.update_of_ne hs']
    · exact hsame.inShard block (hkept block hblock)

/-- **A whole merge** leaves every block in its shard and none in the sets. -/
theorem Within.mergeAll (hidle : ∀ block, index.recent.merging.get block ≠ some ()) :
    index.mergeAll.Within blocks ∧ (∀ block, index.Has block → index.mergeAll.InShard block) ∧
      index.mergeAll.recent = ⟨.empty, .empty, none⟩ ∧ index.mergeAll.last = index.recent.last.or index.last ∧
      ∀ s, (index.mergeAll.shards s).k = (index.shards s).k := by
  have hlength : (finRange 256).length = 256 := length_finRange
  have hrange : (finRange 256).map Fin.val = range' 0 256 := by
    rw [map_coe_finRange_eq_range, range_eq_range']
  unfold BlockIndex.mergeAll
  generalize finRange 256 = shards at hlength hrange
  obtain ⟨hwithin, hmerging, hnext, hlast, hsame⟩ :=
    foldl_mergeShard hfew h.startMerge index.merging_startMerge shards (by rw [hrange, hlength]; rfl)
  rw [hlength] at hnext
  refine ⟨hwithin.endMerge _, fun block hblock => ?_, ?_, ?_, hsame.k⟩
  · rcases (has_startMerge hidle).mpr hblock with hnew | htaken | hshard
    · cases hnew
    · refine hmerging.inShard hnext ?_
      rw [hsame.recent]
      exact htaken
    · exact hsame.inShard block hshard
  · simp only [mergeOver, BlockIndex.endMerge, hsame.recent]
    rfl
  · simp only [mergeOver, BlockIndex.endMerge, hlast, hsame.last]
    rfl
end

end BlockIndex

/-! ### Rows and entries -/

theorem U32.toU64_injective : Function.Injective U32.toU64 := StrictMono.injective fun _ _ hlt => hlt

theorem indexEntry_toU64 (hash : H256) (n : U32) : indexEntry hash n.toU64 = some (hash, n) := dif_pos n.isLt

theorem indexEntry_eq_some {hash hash' : H256} {number : U64} {n : U32} :
    indexEntry hash number = some (hash', n) ↔ hash = hash' ∧ number = n.toU64 := by
  constructor
  · intro h
    obtain ⟨hlt, heq⟩ := Option.dite_none_right_eq_some.mp h
    cases heq
    exact ⟨rfl, rfl⟩
  · rintro ⟨rfl, rfl⟩
    exact indexEntry_toU64 hash n

/-- What is mapped one by one is found one by one. -/
theorem mem_of_mapM {A B : Type} {f : A → Option B} {l : List A} {l' : List B} (h : l.mapM f = some l') {b : B} :
    b ∈ l' ↔ ∃ a ∈ l, f a = some b := by
  induction l generalizing l' with
  | nil =>
    cases h
    simp
  | cons a l ih =>
    rw [mapM_cons] at h
    obtain ⟨_, hb', h⟩ := bind_eq_some_iff.mp h
    obtain ⟨_, hrest, h⟩ := bind_eq_some_iff.mp h
    cases h
    rw [mem_cons, ih hrest, exists_mem_cons_iff, hb', Option.some.injEq, eq_comm]

namespace BlockDb

variable {db : BlockDb}

def Fits (db : BlockDb) : Prop := ∀ number hash, db.hashes.get number = some hash → ∃ n : U32, number = n.toU64

/-- Mapping what can be mapped. -/
theorem mapM_of_forall {A B : Type} {f : A → Option B} {l : List A} (h : ∀ a ∈ l, ∃ b, f a = some b) :
    ∃ l', l.mapM f = some l' := by
  induction l with
  | nil => exact ⟨[], rfl⟩
  | cons a l ih =>
    obtain ⟨b, hb⟩ := h a (.head _)
    obtain ⟨rest, hrest⟩ := ih fun a ha => h a (.tail _ ha)
    exact ⟨b :: rest, by rw [mapM_cons, hb, hrest]; rfl⟩

/-- What can be undone is undone entry by entry. -/
theorem eq_map_of_mapM {A B : Type} {f : A → Option B} {back : B → A} (hback : ∀ a b, f a = some b → a = back b)
    {l : List A} {l' : List B} (h : l.mapM f = some l') : l = l'.map back := by
  induction l generalizing l' with
  | nil =>
    cases h
    rfl
  | cons a l ih =>
    rw [mapM_cons] at h
    obtain ⟨b, hb, h⟩ := bind_eq_some_iff.mp h
    obtain ⟨_, hrest, h⟩ := bind_eq_some_iff.mp h
    cases h
    rw [map_cons, ← hback a b hb, ← ih hrest]

def rowOf (block : H256 × U32) : U64 × H256 := (block.2.toU64, block.1)

theorem Fits.entries (h : db.Fits) : ∃ entries, db.entries = some entries ∧ db.hashes.entries = entries.map rowOf := by
  obtain ⟨entries, hentries⟩ : ∃ entries, db.entries = some entries := by
    apply mapM_of_forall
    intro row hrow
    obtain ⟨n, hn⟩ := h row.1 row.2 (get_eq_some.mpr hrow)
    exact ⟨_, by rw [hn, indexEntry_toU64]⟩
  refine ⟨entries, hentries, eq_map_of_mapM ?_ hentries⟩
  intro _ _ hblock
  obtain ⟨hhash, hnumber⟩ := indexEntry_eq_some.mp hblock
  exact Prod.ext hnumber hhash

variable {entries : List (H256 × U32)}

section
variable (h : db.hashes.entries = entries.map rowOf)
include h
theorem mem_entries {hash : H256} {n : U32} : (hash, n) ∈ entries ↔ db.hashes.get n.toU64 = some hash := by
  rw [get_eq_some, h, mem_map]
  constructor
  · exact fun hmem => ⟨_, hmem, rfl⟩
  · rintro ⟨block, hblock, heq⟩
    obtain ⟨hnumber, hhash⟩ := Prod.ext_iff.mp heq
    rwa [← show block = (hash, n) from Prod.ext hhash (U32.toU64_injective hnumber)]

theorem sorted_entries : entries.Pairwise fun a b => a.2 < b.2 := by
  have hsorted := db.hashes.sorted
  rw [h, pairwise_map] at hsorted
  exact hsorted

theorem lastBlock_eq : db.lastBlock = entries.getLast?.map rowOf := by
  rw [lastBlock, OrderedMap.last, h, getLast?_map]
end

end BlockDb

namespace BlockIndex

variable {blocks : Finset (U64 ×ₗ U32)} {db : BlockDb}

def RowsIn (blocks : Finset (U64 ×ₗ U32)) (db : BlockDb) : Prop :=
  ∀ (n : U32) hash, db.hashes.get n.toU64 = some hash → toLex (hashPrefix hash, n) ∈ blocks

theorem bucketBits_le (n : Nat) : bucketBits n ≤ 24 := by
  unfold bucketBits minBucketBits
  omega

variable {entries : List (H256 × U32)} {k per : Nat} {s : Fin 256} {entry : ShardEntry} {block : H256 × U32}

theorem mem_scanned {i : Nat} : entry ∈ scanned entries k per i s ↔
    ∃ block ∈ entries, (i * per ≤ block.2.val ∧ block.2.val < (i + 1) * per ∧ shardOf (hashPrefix block.1) = s) ∧
      entry = blockEntry k (toLex (hashPrefix block.1, block.2)) := by
  rw [scanned, mem_map]
  constructor
  · rintro ⟨block, hblock, rfl⟩
    obtain ⟨hmem, hrange⟩ := mem_filter.mp hblock
    exact ⟨block, hmem, of_decide_eq_true hrange, rfl⟩
  · rintro ⟨block, hmem, hrange, rfl⟩
    exact ⟨block, mem_filter.mpr ⟨hmem, decide_eq_true hrange⟩, rfl⟩

/-- The ranges together cover the numbers. -/
theorem mem_shardEntries (hper : 0 < per) (hlt : ∀ block ∈ entries, block.2.val < scanThreads * per) :
    entry ∈ shardEntries entries k per s ↔
      ∃ block ∈ entries, shardOf (hashPrefix block.1) = s ∧
        entry = blockEntry k (toLex (hashPrefix block.1, block.2)) := by
  rw [shardEntries, mem_insertionSort, mem_flatMap]
  constructor
  · rintro ⟨i, -, hentry⟩
    obtain ⟨block, hmem, ⟨-, -, hshard⟩, rfl⟩ := mem_scanned.mp hentry
    exact ⟨block, hmem, hshard, rfl⟩
  · rintro ⟨block, hmem, hshard, rfl⟩
    have hi : block.2.val / per < scanThreads := Nat.div_lt_of_lt_mul (by rw [mul_comm]; exact hlt block hmem)
    refine ⟨block.2.val / per, mem_range.mpr hi, mem_scanned.mpr ⟨block, hmem, ⟨?_, ?_, hshard⟩, rfl⟩⟩
    · exact div_mul_le_self ..
    · rw [add_mul, one_mul]
      exact lt_div_mul_add hper

theorem sorted_shardEntries (hsorted : entries.Pairwise fun a b => a.2 < b.2) :
    (shardEntries entries k per s).Pairwise (· < ·) := by
  have hnumbers : ((range scanThreads).flatMap fun i => scanned entries k per i s).Pairwise
      fun a b => (ofLex a).2 < (ofLex b).2 := by
    rw [pairwise_flatMap]
    refine ⟨fun i _ => ?_, pairwise_lt_range.imp fun {i j} hij entry hentry entry' hentry' => ?_⟩
    · exact pairwise_map.mpr (hsorted.filter _)
    · obtain ⟨block, -, ⟨-, hhigh, -⟩, rfl⟩ := mem_scanned.mp hentry
      obtain ⟨block', -, ⟨hlow, -⟩, rfl⟩ := mem_scanned.mp hentry'
      have hmul : (i + 1) * per ≤ j * per := mul_le_mul_right per hij
      show block.2.val < block'.2.val
      omega
  have hnodup : (shardEntries entries k per s).Nodup :=
    (perm_insertionSort ..).nodup_iff.mpr (hnumbers.imp fun hlt heq => hlt.ne (by rw [heq]))
  have hle : (shardEntries entries k per s).Pairwise (· ≤ ·) := pairwise_insertionSort ..
  exact (hle.and hnodup).imp fun h => lt_of_le_of_ne h.1 h.2

theorem perThread_pos (count : Nat) : 0 < perThread count := lt_of_lt_of_le one_pos (le_max_right ..)

section
variable (hmap : db.hashes.entries = entries.map BlockDb.rowOf) (hblock : block ∈ entries)
include hmap hblock
/-- The numbers are below the length of the chain. -/
theorem number_lt_count : block.2.val < (db.lastBlock.map fun last => last.1.val + 1).getD 0 := by
  rw [BlockDb.lastBlock_eq hmap]
  obtain ⟨_, last, rfl⟩ := (eq_nil_or_concat entries).resolve_left (ne_nil_of_mem hblock)
  rw [concat_eq_append] at hblock hmap ⊢
  rw [getLast?_concat]
  apply lt_succ_of_le
  rcases mem_append.mp hblock with hinit | hlast
  · exact ((pairwise_append.mp (BlockDb.sorted_entries hmap)).2.2 block hinit last (.head _)).le
  · rw [mem_singleton.mp hlast]
    exact le_rfl

theorem number_lt_scanned :
    block.2.val < scanThreads * perThread ((db.lastBlock.map fun last => last.1.val + 1).getD 0) := by
  have hlt := number_lt_count hmap hblock
  unfold perThread scanThreads
  omega
end

/-- **A rebuild** indexes every row. -/
theorem build_spec (hfew : ∀ s, (shardBlocks blocks s).card < 2 ^ 32) (hfits : db.Fits) (hrows : RowsIn blocks db) :
    ∃ index, build db = some index ∧ index.Within blocks ∧
      (∀ (n : U32) hash, db.hashes.get n.toU64 = some hash → index.InShard (toLex (hashPrefix hash, n))) ∧
      index.recent = ⟨.empty, .empty, none⟩ ∧
      index.last.map (fun last => (last.1.toU64, last.2)) = db.lastBlock ∧
      ∀ s, (index.shards s).k = (index.shards 0).k := by
  obtain ⟨entries, hentries, hmap⟩ := hfits.entries
  have hsorted := BlockDb.sorted_entries hmap
  refine ⟨buildFrom entries _, by rw [build, hentries, map_some], ?_⟩
  generalize hcount : (db.lastBlock.map fun last => last.1.val + 1).getD 0 = count
  have hlt : ∀ block ∈ entries, block.2.val < scanThreads * perThread count :=
    fun block hblock => hcount ▸ number_lt_scanned hmap hblock
  have hpos : 0 < perThread count := perThread_pos count
  have hwithin : ∀ s, ((buildFrom entries count).shards s).Within blocks s ∧
      ((buildFrom entries count).shards s).entries = shardEntries entries (bucketBits count) (perThread count) s := by
    intro s
    refine Shard.within_fromSorted (bucketBits_le count) (hfew s) (sorted_shardEntries hsorted) ?_
    intro _ hentry
    obtain ⟨_, hblock, hshard, rfl⟩ := (mem_shardEntries hpos hlt).mp hentry
    exact ⟨_, Finset.mem_filter.mpr ⟨hrows _ _ ((BlockDb.mem_entries hmap).mp hblock), hshard⟩, rfl⟩
  refine ⟨⟨fun s => (hwithin s).1, nofun, nofun⟩, ?_, rfl, ?_, fun _ => rfl⟩
  · intro n hash hget
    rw [InShard, (hwithin _).2, mem_shardEntries hpos hlt]
    exact ⟨(hash, n), (BlockDb.mem_entries hmap).mpr hget, rfl, rfl⟩
  · rw [BlockDb.lastBlock_eq hmap]
    show map _ (map _ entries.getLast?) = _
    rw [Option.map_map]
    rfl

end BlockIndex

/-! ### Last blocks -/

/-- A block at a higher number, or the same block. -/
def Follows (last next : U32 × H256) : Prop := last.1 < next.1 ∨ last = next

theorem Follows.trans {a b c : U32 × H256} (hab : Follows a b) (hbc : Follows b c) : Follows a c := by
  rcases hab with hlt | rfl
  · rcases hbc with hlt' | rfl
    · exact .inl (hlt.trans hlt')
    · exact .inl hlt
  · exact hbc

namespace BlockIndex

variable {noted : List (H256 × U32)} {blocks : Finset (U64 ×ₗ U32)} {index : BlockIndex} {last : U32 × H256}

/-- The index, and the last blocks it keeps account of, between two merges. -/
structure Good (blocks : Finset (U64 ×ₗ U32)) (index : BlockIndex) : Prop where
  within : index.Within blocks
  idle : ∀ block, index.recent.merging.get block ≠ some ()
  k : ∀ s, (index.shards s).k = (index.shards 0).k
  last : ∀ last, index.last = some last → index.InShard (toLex (hashPrefix last.2, last.1))
  recent : ∀ next, index.recent.last = some next → index.Has (toLex (hashPrefix next.2, next.1)) ∧
    ∀ last, index.last = some last → Follows last next

theorem rewrites_eq_false (h : index.rewrites noted = false) (hlast : index.last = some last)
    {block : H256 × U32} (hblock : block ∈ noted) : Follows last (block.2, block.1) := by
  have hnone := h
  rw [rewrites, hlast, any_some, any_eq_false] at hnone
  have hkept := hnone block hblock
  simp only [decide_eq_true_eq, not_or, not_lt, not_and, not_not] at hkept
  rcases hkept.1.lt_or_eq with hlt | heq
  · exact .inl hlt
  · exact .inr (Prod.ext heq (hkept.2 heq.symm).symm)

theorem last_noted (recent : Recent) (noted : List (H256 × U32)) :
    (noted.foldl noteBlock recent).last = (noted.getLast?.map fun block => (block.2, block.1)).or recent.last := by
  induction noted generalizing recent with
  | nil => rfl
  | cons _ noted ih =>
    rw [foldl_cons, ih, getLast?_cons]
    cases noted.getLast? <;> rfl

theorem last_note (index : BlockIndex) (h : (index.note noted).last = some last) :
    index.rewrites noted = false ∧ index.last = some last := by
  simp only [note] at h
  split at h
  · cases h
  · next hrewrites => exact ⟨Bool.eq_false_iff.mpr hrewrites, h⟩

theorem Good.note (h : index.Good blocks) (hnoted : ∀ block ∈ noted, toLex (hashPrefix block.1, block.2) ∈ blocks) :
    (index.note noted).Good blocks := by
  refine ⟨h.within.note hnoted, fun block hblock => ?_, h.k, fun last hlast => h.last last (index.last_note hlast).2, ?_⟩
  · apply h.idle block
    rw [← merging_noted index.recent noted]
    exact hblock
  · intro next hnext
    rw [BlockIndex.note, last_noted] at hnext
    rcases Option.or_eq_some_iff.mp hnext with hlast | ⟨-, hold⟩
    · obtain ⟨block, hblock, rfl⟩ := map_eq_some_iff.mp hlast
      have hmem := mem_of_getLast? hblock
      refine ⟨(index.has_note noted).mpr (.inr ⟨block, hmem, rfl⟩), fun last hlast => ?_⟩
      obtain ⟨hrewrites, hlast⟩ := index.last_note hlast
      exact rewrites_eq_false hrewrites hlast hmem
    · obtain ⟨hhas, hfollows⟩ := h.recent next hold
      refine ⟨(index.has_note noted).mpr (.inl hhas), fun last hlast => hfollows last (index.last_note hlast).2⟩

theorem Good.mergeAll (hfew : ∀ s, (shardBlocks blocks s).card < 2 ^ 32) (h : index.Good blocks) :
    index.mergeAll.Good blocks ∧ (∀ block, index.Has block → index.mergeAll.InShard block) ∧
      index.mergeAll.recent = ⟨.empty, .empty, none⟩ ∧ index.mergeAll.last = index.recent.last.or index.last := by
  obtain ⟨hwithin, hhas, hrecent, hlast, hk⟩ := h.within.mergeAll hfew h.idle
  refine ⟨⟨hwithin, fun block hblock => ?_, fun s => ?_, fun last hlast' => ?_, fun _ hnext => ?_⟩, hhas, hrecent, hlast⟩
  · cases hblock
  · rw [hk, hk, h.k]
  · rw [hlast] at hlast'
    rcases Option.or_eq_some_iff.mp hlast' with hnext | ⟨-, hold⟩
    · exact hhas _ (h.recent last hnext).1
    · exact hhas _ (.inr (.inr (h.last last hold)))
  · cases hnext

end BlockIndex

namespace SavedIndex

/-- The file has what the database has up to the file's last block, which is there too. -/
structure Covers (blocks : Finset (U64 ×ₗ U32)) (db : BlockDb) (file : SavedIndex) : Prop where
  within : ∀ s, (file.shards s).Within blocks s
  k : ∀ s, (file.shards s).k = file.k
  last : file.load.InShard (toLex (hashPrefix file.last.2, file.last.1))
  stored : db.hashes.get file.last.1.toU64 = some file.last.2
  rows : ∀ n ≤ file.last.1, ∀ hash, db.hashes.get n.toU64 = some hash → file.load.InShard (toLex (hashPrefix hash, n))

variable {blocks : Finset (U64 ×ₗ U32)} {db : BlockDb} {file : SavedIndex}

theorem Covers.shards (h : file.Covers blocks db) (s : Fin 256) : file.load.shards s = file.shards s := by
  show { file.shards s with k := file.k } = file.shards s
  rw [← h.k s]

theorem Covers.load (h : file.Covers blocks db) : file.load.Good blocks := by
  refine ⟨⟨fun s => ?_, nofun, nofun⟩, nofun, ?_, ?_, ?_⟩
  · rw [h.shards]
    exact h.within s
  · exact fun _ => rfl
  · intro last hlast
    cases hlast
    exact h.last
  · nofun

/-- A save of an index just merged. -/
theorem covers_saved {index : BlockIndex} (hgood : index.Good blocks) {last : U32 × H256} (hlast : index.last = some last)
    (hstored : db.hashes.get last.1.toU64 = some last.2)
    (hrows : ∀ (n : U32) hash, db.hashes.get n.toU64 = some hash → index.InShard (toLex (hashPrefix hash, n))) :
    index.saved = some ⟨(index.shards 0).k, index.shards, last⟩ ∧
      (⟨(index.shards 0).k, index.shards, last⟩ : SavedIndex).Covers blocks db := by
  refine ⟨by rw [saved, hlast, map_some], ?_⟩
  have hload : ∀ block, (⟨(index.shards 0).k, index.shards, last⟩ : SavedIndex).load.InShard block ↔ index.InShard block := by
    intro block
    simp only [BlockIndex.InShard, SavedIndex.load, ← hgood.k (shardOf (ofLex block).1)]
  refine ⟨hgood.within.shards, hgood.k, (hload _).mpr (hgood.last last hlast), hstored, fun n _ hash hget => ?_⟩
  exact (hload _).mpr (hrows n hash hget)

end SavedIndex

/-! ### Writes -/

namespace BlockDb

variable {db : BlockDb} {pending : List BlockRecord} {number : U64} {hash : H256}

def Paired (db : BlockDb) : Prop :=
  ∀ number hash info, db.infos.get number = some (hash, info) → db.hashes.get number = some hash

theorem Paired.put (h : db.Paired) (block : BlockRecord) : (db.put block).Paired := by
  intro number hash info hget
  by_cases hnumber : number = block.number
  · subst hnumber
    rw [BlockDb.put, get_put_self, Option.some.injEq, Prod.mk.injEq] at hget
    rw [BlockDb.put, get_put_self, hget.1]
  · rw [BlockDb.put, get_put_of_ne _ _ hnumber] at hget ⊢
    exact h number hash info hget

theorem Paired.putAll (h : db.Paired) (pending : List BlockRecord) : (pending.foldl BlockDb.put db).Paired := by
  induction pending generalizing db with
  | nil => exact h
  | cons block _ ih => exact ih (h.put block)

/-- A row is a block's written, or it is from before. -/
theorem get_putAll (hget : (pending.foldl put db).hashes.get number = some hash) :
    (∃ block ∈ pending, block.number = number ∧ block.hash = hash) ∨ db.hashes.get number = some hash := by
  induction pending generalizing db with
  | nil => exact .inr hget
  | cons block _ ih =>
    rcases ih hget with ⟨block', hmem, hblock'⟩ | hold
    · exact .inl ⟨block', .tail _ hmem, hblock'⟩
    by_cases hnumber : number = block.number
    · subst hnumber
      rw [put, get_put_self, Option.some.injEq] at hold
      exact .inl ⟨block, .head _, rfl, hold⟩
    · rw [put, get_put_of_ne _ _ hnumber] at hold
      exact .inr hold

theorem get_putAll_of_same (hget : db.hashes.get number = some hash)
    (hsame : ∀ block ∈ pending, block.number = number → block.hash = hash) :
    (pending.foldl put db).hashes.get number = some hash := by
  induction pending generalizing db with
  | nil => exact hget
  | cons block _ ih =>
    refine ih ?_ fun block' hblock' => hsame block' (.tail _ hblock')
    by_cases hnumber : number = block.number
    · subst hnumber
      rw [put, get_put_self, hsame block (.head _) rfl]
    · rw [put, get_put_of_ne _ _ hnumber]
      exact hget

theorem get_putAll_last {block : BlockRecord} (hlast : pending.getLast? = some block) :
    (pending.foldl put db).hashes.get block.number = some block.hash := by
  obtain ⟨_, rfl⟩ := getLast?_eq_some_iff.mp hlast
  rw [foldl_append, foldl_cons, foldl_nil, put, get_put_self]

end BlockDb

/-! ### Runs -/

/-- What a commit has done so far. -/
def CommitPhase.Ready (blocks : Finset (U64 ×ₗ U32)) (db : BlockDb) (index : BlockIndex) : CommitPhase → Prop
  | .idle => True
  | .noted pending =>
    (∀ block ∈ pending, ∃ n : U32, block.number = n.toU64 ∧ toLex (hashPrefix block.hash, n) ∈ blocks ∧
      index.Has (toLex (hashPrefix block.hash, n)) ∧
      ∀ last, index.last = some last → Follows last (n, block.hash)) ∧
    ∃ block n, pending.getLast? = some block ∧ block.number = U32.toU64 n ∧ index.recent.last = some (n, block.hash)
  | .written => ∃ next, index.recent.last = some next ∧ db.hashes.get next.1.toU64 = some next.2

namespace IndexStore

variable {pending : List BlockRecord} {entries : List (H256 × U32)}

/-- **The invariant**: the index has every row, and every save covers the rows up to its last block, which
the last block merged follows. -/
structure Sound (blocks : Finset (U64 ×ₗ U32)) (store : IndexStore) : Prop where
  good : store.index.Good blocks
  paired : store.db.Paired
  fits : store.db.Fits
  rows : BlockIndex.RowsIn blocks store.db
  has : ∀ (n : U32) hash, store.db.hashes.get n.toU64 = some hash → store.index.Has (toLex (hashPrefix hash, n))
  last : ∀ last, store.index.last = some last → store.db.hashes.get last.1.toU64 = some last.2
  phase : store.phase.Ready blocks store.db store.index
  files : ∀ file ∈ store.files ++ store.saving.toList, file.Covers blocks store.db ∧
    ∃ last, store.index.last = some last ∧ Follows file.last last

variable {blocks : Finset (U64 ×ₗ U32)} {store next : IndexStore}

theorem entries_of_blocks (h : (pending.mapM fun block => indexEntry block.hash block.number) = some entries) :
    pending.map (fun block => (block.hash, block.number)) = entries.map fun entry => (entry.1, entry.2.toU64) := by
  have hmapped : (pending.map fun block => (block.hash, block.number)).mapM (fun row => indexEntry row.1 row.2) =
      some entries := by
    rw [mapM_map]
    exact h
  refine BlockDb.eq_map_of_mapM ?_ hmapped
  intro _ _ hentry
  obtain ⟨hhash, hnumber⟩ := indexEntry_eq_some.mp hentry
  exact Prod.ext hhash hnumber

theorem covers_write {db : BlockDb} {file : SavedIndex} (h : file.Covers blocks db)
    (hpending : ∀ block ∈ pending, ∃ n : U32, block.number = n.toU64 ∧ Follows file.last (n, block.hash)) :
    file.Covers blocks (pending.foldl BlockDb.put db) := by
  -- A block written at or below the last block is the last block.
  have hsame : ∀ block ∈ pending, ∀ n ≤ file.last.1, block.number = n.toU64 → file.last = (n, block.hash) := by
    intro block hblock n hn hnumber
    obtain ⟨m, hm, hfollows⟩ := hpending block hblock
    obtain rfl : n = m := U32.toU64_injective (hnumber.symm.trans hm)
    rcases hfollows with hlt | heq
    · exact absurd hlt hn.not_gt
    · exact heq
  refine ⟨h.within, h.k, h.last, BlockDb.get_putAll_of_same h.stored ?_, ?_⟩
  · intro block hblock hnumber
    rw [hsame block hblock file.last.1 le_rfl hnumber]
  · intro n hn hash hget
    rcases BlockDb.get_putAll hget with ⟨block, hblock, hnumber, rfl⟩ | hold
    · have hlast := h.last
      rwa [hsame block hblock n hn hnumber] at hlast
    · exact h.rows n hn hash hold

section
variable (h : store.Sound blocks)
include h
/-- A commit noted, with the saves that are kept. -/
theorem Sound.noted (hpending : pending ≠ [])
    (hentries : (pending.mapM fun block => indexEntry block.hash block.number) = some entries)
    (hblocks : ∀ entry ∈ entries, toLex (hashPrefix entry.1, entry.2) ∈ blocks) {files : List SavedIndex}
    (hfiles : ∀ file ∈ files ++ store.saving.toList, file ∈ store.files ++ store.saving.toList ∧
      store.index.rewrites entries = false) :
    Sound blocks { store with index := store.index.note entries, files := files, phase := .noted pending } := by
  have hmap := entries_of_blocks hentries
  refine ⟨h.good.note hblocks, h.paired, h.fits, h.rows, fun n hash hget => ?_, fun last hlast => ?_, ⟨?_, ?_⟩, ?_⟩
  · exact (store.index.has_note entries).mpr (.inl (h.has n hash hget))
  · exact h.last last (store.index.last_note hlast).2
  · intro block hblock
    have hmem : (block.hash, block.number) ∈ entries.map fun entry => (entry.1, entry.2.toU64) := by
      rw [← hmap]
      exact mem_map.mpr ⟨block, hblock, rfl⟩
    obtain ⟨⟨hash, n⟩, hentry, heq⟩ := mem_map.mp hmem
    obtain ⟨rfl, hnumber⟩ := Prod.mk.inj heq
    refine ⟨n, hnumber.symm, hblocks _ hentry, (store.index.has_note entries).mpr (.inr ⟨_, hentry, rfl⟩), ?_⟩
    intro _ hlast
    obtain ⟨hrewrites, hlast⟩ := store.index.last_note hlast
    exact rewrites_eq_false hrewrites hlast hentry
  · obtain ⟨block, hblock⟩ := Option.ne_none_iff_exists'.mp (mt getLast?_eq_none_iff.mp hpending)
    have hlasts := congrArg getLast? hmap
    rw [getLast?_map, getLast?_map, hblock] at hlasts
    obtain ⟨⟨hash, n⟩, hentry, heq⟩ := map_eq_some_iff.mp hlasts.symm
    obtain ⟨rfl, hnumber⟩ := Prod.mk.inj heq
    refine ⟨block, n, hblock, hnumber.symm, ?_⟩
    show (entries.foldl noteBlock store.index.recent).last = _
    rw [last_noted, hentry, map_some, some_or]
  · intro file hfile
    obtain ⟨hmem, hrewrites⟩ := hfiles file hfile
    obtain ⟨hcovers, last, hlast, hfollows⟩ := h.files file hmem
    refine ⟨hcovers, last, ?_, hfollows⟩
    rw [BlockIndex.note, hrewrites]
    exact hlast

theorem Sound.note (hpending : pending ≠ [])
    (hblocks : ∀ block ∈ pending, ∀ n : U32, block.number = n.toU64 → toLex (hashPrefix block.hash, n) ∈ blocks)
    {dropped : Bool} (hnote : store.note pending dropped = some next) : next.Sound blocks := by
  simp only [IndexStore.note] at hnote
  split at hnote
  · cases hnote
    exact h
  · next entries hentries =>
    have hin : ∀ entry ∈ entries, toLex (hashPrefix entry.1, entry.2) ∈ blocks := by
      intro entry hentry
      obtain ⟨block, hblock, heq⟩ := (mem_of_mapM hentries).mp hentry
      obtain ⟨hhash, hnumber⟩ := indexEntry_eq_some.mp heq
      rw [← hhash]
      exact hblocks block hblock entry.2 hnumber
    split at hnote
    · split at hnote
      · cases hnote
      · next hsaving =>
        split at hnote
        · cases hnote
          refine h.noted hpending hentries hin fun file hfile => ?_
          rw [Option.not_isSome_iff_eq_none.mp hsaving] at hfile
          cases hfile
        · cases hnote
          exact h
    · next hrewrites =>
      cases hnote
      exact h.noted hpending hentries hin fun file hfile => ⟨hfile, Bool.eq_false_iff.mpr hrewrites⟩

theorem Sound.write (hphase : store.phase = .noted pending) :
    Sound blocks { store with db := pending.foldl BlockDb.put store.db, phase := .written } := by
  have hready := h.phase
  rw [hphase] at hready
  obtain ⟨hpending, block, n, hlast, hnumber, hrecent⟩ := hready
  refine ⟨h.good, h.paired.putAll pending, fun number hash hget => ?_, fun n hash hget => ?_, fun n hash hget => ?_,
    fun last hlast => ?_, ⟨_, hrecent, ?_⟩, fun file hfile => ?_⟩
  · rcases BlockDb.get_putAll hget with ⟨block, hblock, rfl, -⟩ | hold
    · obtain ⟨n, hn, -⟩ := hpending block hblock
      exact ⟨n, hn⟩
    · exact h.fits number hash hold
  · rcases BlockDb.get_putAll hget with ⟨block, hblock, hnumber, rfl⟩ | hold
    · obtain ⟨m, hm, hin, -⟩ := hpending block hblock
      rwa [U32.toU64_injective (hnumber.symm.trans hm)]
    · exact h.rows n hash hold
  · rcases BlockDb.get_putAll hget with ⟨block, hblock, hnumber, rfl⟩ | hold
    · obtain ⟨m, hm, -, hhas, -⟩ := hpending block hblock
      rwa [U32.toU64_injective (hnumber.symm.trans hm)]
    · exact h.has n hash hold
  · refine BlockDb.get_putAll_of_same (h.last last hlast) fun block hblock hnumber => ?_
    obtain ⟨m, hm, -, -, hfollows⟩ := hpending block hblock
    rcases hfollows last hlast with hlt | heq
    · rw [U32.toU64_injective (hnumber.symm.trans hm)] at hlt
      exact absurd hlt (lt_irrefl m)
    · rw [heq]
  · rw [← hnumber]
    exact BlockDb.get_putAll_last hlast
  · obtain ⟨hcovers, last, hlast, hfollows⟩ := h.files file hfile
    refine ⟨covers_write hcovers fun block hblock => ?_, last, hlast, hfollows⟩
    obtain ⟨m, hm, -, -, hnext⟩ := hpending block hblock
    exact ⟨m, hm, hfollows.trans (hnext _ hlast)⟩

theorem Sound.committed (hfew : ∀ s, (shardBlocks blocks s).card < 2 ^ 32)
    (hphase : store.phase = .written) {mergeAt : Nat} (hstep : store.committed mergeAt = some next) :
    next.Sound blocks := by
  have hready := h.phase
  rw [hphase] at hready
  obtain ⟨last, hrecent, hstored⟩ := hready
  simp only [IndexStore.committed] at hstep
  split at hstep
  · split at hstep
    · cases hstep
    · next _ =>
      cases hstep
      obtain ⟨hgood, hhas, -, hlast⟩ := h.good.mergeAll hfew
      rw [hrecent] at hlast
      obtain ⟨hsaved, hcovers⟩ :=
        SavedIndex.covers_saved hgood hlast hstored fun n hash hget => hhas _ (h.has n hash hget)
      refine ⟨hgood, h.paired, h.fits, h.rows, fun n hash hget => .inr (.inr (hhas _ (h.has n hash hget))), ?_, trivial, ?_⟩
      · intro _ hlast'
        cases hlast.symm.trans hlast'
        exact hstored
      · intro file hfile
        rw [hsaved] at hfile
        rcases mem_append.mp hfile with hold | hnew
        · obtain ⟨hcovers, last', hlast', hfollows⟩ := h.files file (mem_append_left _ hold)
          exact ⟨hcovers, last, hlast, hfollows.trans ((h.good.recent last hrecent).2 last' hlast')⟩
        · rw [mem_singleton.mp hnew]
          exact ⟨hcovers, last, hlast, .inr rfl⟩
  · cases hstep
    exact { h with phase := trivial }
end

end IndexStore

/-! ### Opening -/

namespace BlockIndex

variable {blocks : Finset (U64 ×ₗ U32)} {db : BlockDb} {start : U32 × H256} {index : BlockIndex}

/-- The index while it is brought up to date: the last block it has merged is stored, at the file's or
after. -/
structure Catching (blocks : Finset (U64 ×ₗ U32)) (db : BlockDb) (start last : U32 × H256) (index : BlockIndex) : Prop where
  good : index.Good blocks
  merged : index.last = some last
  follows : Follows start last
  stored : db.hashes.get last.1.toU64 = some last.2

variable {last : U32 × H256} {batch : List (H256 × U32)}

theorem Catching.note (hrows : RowsIn blocks db) (h : index.Catching blocks db start last)
    (hstored : ∀ block ∈ batch, db.hashes.get block.2.toU64 = some block.1) (habove : ∀ block ∈ batch, last.1 < block.2) :
    (index.note batch).Catching blocks db start last := by
  have hrewrites : index.rewrites batch = false := by
    rw [rewrites, h.merged, any_some, any_eq_false]
    intro block hblock
    have hlt := habove block hblock
    simp only [decide_eq_true_eq, not_or, not_lt, not_and]
    exact ⟨hlt.le, fun heq => absurd heq hlt.ne'⟩
  refine ⟨h.good.note fun block hblock => hrows _ _ (hstored block hblock), ?_, h.follows, h.stored⟩
  rw [BlockIndex.note, hrewrites]
  exact h.merged

section
variable (hfew : ∀ s, (shardBlocks blocks s).card < 2 ^ 32)
include hfew
theorem Catching.mergeAll (hrows : RowsIn blocks db) (h : index.Catching blocks db start last)
    (hrecent : index.recent.last = none) (hstored : ∀ block ∈ batch, db.hashes.get block.2.toU64 = some block.1)
    (habove : ∀ block ∈ batch, last.1 < block.2) :
    (index.note batch).mergeAll.Catching blocks db start ((batch.getLast?.map fun block => (block.2, block.1)).getD last) := by
  have hnote := h.note hrows hstored habove
  obtain ⟨hgood, -, -, hlast⟩ := hnote.good.mergeAll hfew
  have hnoted : (index.note batch).recent.last = batch.getLast?.map fun block => (block.2, block.1) := by
    rw [BlockIndex.note, last_noted, hrecent, or_none]
  rw [hnoted, hnote.merged] at hlast
  cases hblock : batch.getLast? with
  | none =>
    rw [hblock] at hlast
    exact ⟨hgood, hlast, h.follows, h.stored⟩
  | some block =>
    rw [hblock] at hlast
    have hmem := mem_of_getLast? hblock
    exact ⟨hgood, hlast, h.follows.trans (.inl (habove block hmem)), hstored block hmem⟩

/-- The loop of `index_from` over the rows still to come. -/
theorem catching_indexBatches (hrows : RowsIn blocks db) (mergeAt : Nat) {rest : List (H256 × U32)}
    (h : index.Catching blocks db start last) (hrecent : index.recent.last = none)
    (hsorted : (batch ++ rest).Pairwise fun a b => a.2 < b.2)
    (hstored : ∀ block ∈ batch ++ rest, db.hashes.get block.2.toU64 = some block.1)
    (habove : ∀ block ∈ batch ++ rest, last.1 < block.2) :
    let state := rest.foldl (fun state block =>
      let batch := state.2 ++ [block]
      if batch.length = mergeAt then ((state.1.note batch).mergeAll, []) else (state.1, batch)) (index, batch)
    ∃ last', state.1.Catching blocks db start last' ∧ state.1.recent.last = none ∧
      (∀ block ∈ state.2, db.hashes.get block.2.toU64 = some block.1 ∧ last'.1 < block.2) ∧
      (∀ block, index.Has block → state.1.Has block) ∧
      ∀ block ∈ batch ++ rest, block ∈ state.2 ∨ state.1.Has (toLex (hashPrefix block.1, block.2)) := by
  induction rest generalizing index batch last with
  | nil =>
    rw [append_nil] at hstored habove ⊢
    exact ⟨last, h, hrecent, fun block hblock => ⟨hstored block hblock, habove block hblock⟩, fun _ hhas => hhas,
      fun block hblock => .inl hblock⟩
  | cons block rest ih =>
    rw [append_cons] at hsorted hstored habove ⊢
    rw [foldl_cons]
    simp only
    split
    · have hstored' : ∀ other ∈ batch ++ [block], db.hashes.get other.2.toU64 = some other.1 :=
        fun other hother => hstored other (mem_append_left _ hother)
      have habove' : ∀ other ∈ batch ++ [block], last.1 < other.2 :=
        fun other hother => habove other (mem_append_left _ hother)
      have hmerged := h.mergeAll hfew hrows hrecent hstored' habove'
      obtain ⟨-, hhas, hempty, -⟩ := (h.note hrows hstored' habove').good.mergeAll hfew
      have hkept : ∀ other, (index.note (batch ++ [block])).Has other → (index.note (batch ++ [block])).mergeAll.Has other :=
        fun other hother => .inr (.inr (hhas other hother))
      rw [getLast?_concat] at hmerged
      have hrest : ∀ other ∈ [] ++ rest, block.2 < other.2 :=
        fun other hother => (pairwise_append.mp hsorted).2.2 block (by simp) other hother
      obtain ⟨last', hcatching, hnone, hstate, hbefore, hall⟩ := ih hmerged (by rw [hempty])
        (hsorted.sublist (sublist_append_right ..))
        (fun other hother => hstored other (mem_append_right _ hother)) hrest
      refine ⟨last', hcatching, hnone, hstate, fun other hother => ?_, fun other hother => ?_⟩
      · exact hbefore other (hkept other ((index.has_note _).mpr (.inl hother)))
      · rcases mem_append.mp hother with hbatch | hrest
        · exact .inr (hbefore _ (hkept _ ((index.has_note _).mpr (.inr ⟨other, hbatch, rfl⟩))))
        · exact hall other hrest
    · exact ih h hrecent hsorted hstored habove

/-- **`index_from`** after a load. -/
theorem indexFrom_spec (hfits : db.Fits) (hrows : RowsIn blocks db) {file : SavedIndex} (hcovers : file.Covers blocks db)
    (mergeAt : Nat) :
    ∃ index saving, file.load.indexFrom mergeAt db (file.last.1.val + 1) = some (index, saving) ∧
      (∀ (n : U32) hash, db.hashes.get n.toU64 = some hash → index.Has (toLex (hashPrefix hash, n))) ∧
      ∃ last, index.Catching blocks db file.last last ∧
        ∀ saved ∈ saving, saved.Covers blocks db ∧ saved.last = last := by
  obtain ⟨entries, hentries, hmap⟩ := hfits.entries
  have hload : file.load.Catching blocks db file.last file.last := ⟨hcovers.load, rfl, .inr rfl, hcovers.stored⟩
  let rest := entries.filter fun block => file.last.1.val + 1 ≤ block.2.val
  have hrest : ∀ block ∈ [] ++ rest, db.hashes.get block.2.toU64 = some block.1 :=
    fun block hblock => (BlockDb.mem_entries hmap).mp (mem_filter.mp hblock).1
  have habove : ∀ block ∈ [] ++ rest, file.last.1 < block.2 :=
    fun block hblock => of_decide_eq_true (mem_filter.mp hblock).2
  obtain ⟨last, hcatching, hrecent, hbatch, hbefore, hall⟩ := catching_indexBatches hfew hrows mergeAt hload rfl
    ((BlockDb.sorted_entries hmap).filter _) hrest habove
  have hstored := fun block hblock => (hbatch block hblock).1
  have hover := fun block hblock => (hbatch block hblock).2
  have hnote := hcatching.note hrows hstored hover
  generalize hstate : rest.foldl _ (file.load, []) = state at *
  -- Rows up to the file's last block are in the file, the others have been noted.
  have hhas : ∀ n hash, db.hashes.get n.toU64 = some hash →
      (state.1.note state.2).Has (toLex (hashPrefix hash, n)) := by
    intro n hash hget
    rw [has_note]
    by_cases hn : n ≤ file.last.1
    · exact .inl (hbefore _ (.inr (.inr (hcovers.rows n hn hash hget))))
    have hmem : (hash, n) ∈ [] ++ rest :=
      mem_filter.mpr ⟨(BlockDb.mem_entries hmap).mpr hget, decide_eq_true (not_le.mp hn)⟩
    rcases hall _ hmem with hleft | hdone
    · exact .inr ⟨_, hleft, rfl⟩
    · exact .inl hdone
  have heq : file.load.indexFrom mergeAt db (file.last.1.val + 1) =
      if mergeAt ≤ rest.length then some ((state.1.note state.2).mergeAll, (state.1.note state.2).mergeAll.saved)
      else some (state.1.note state.2, none) := by
    rw [indexFrom, hentries, ← apply_ite some, ← hstate]
    rfl
  split at heq
  · have hmerged := hcatching.mergeAll hfew hrows hrecent hstored hover
    obtain ⟨-, hinShard, -⟩ := hnote.good.mergeAll hfew
    obtain ⟨hsaved, hcovered⟩ := SavedIndex.covers_saved hmerged.good hmerged.merged hmerged.stored
      fun n hash hget => hinShard _ (hhas n hash hget)
    refine ⟨_, _, heq, fun n hash hget => .inr (.inr (hinShard _ (hhas n hash hget))), _, hmerged, ?_⟩
    intro _ hmem
    rw [hsaved, Option.mem_some_iff] at hmem
    rw [← hmem]
    exact ⟨hcovered, rfl⟩
  · exact ⟨_, _, heq, hhas, last, hnote, nofun⟩
end

end BlockIndex

namespace IndexStore

variable {db : BlockDb} {file : Option SavedIndex} {blocks : Finset (U64 ×ₗ U32)} {store next : IndexStore}

theorem mem_of_survivor (store : IndexStore) {file : Option Nat} :
    ∀ saved ∈ store.survivor file, saved ∈ store.files ++ store.saving.toList := by
  intro _ hsaved
  obtain ⟨i, -, hget⟩ := bind_eq_some_iff.mp hsaved
  exact mem_of_getElem? hget

/-- The archive before its first open, with no save. -/
def closed (db : BlockDb) : IndexStore := ⟨db, .fresh minBucketBits, .idle, none, []⟩

section
variable (hfew : ∀ s, (shardBlocks blocks s).card < 2 ^ 32)
include hfew
/-- A rebuild: the file it leaves is its own save, unless CF 3 is empty and there was no file. -/
theorem sound_rebuild (hpaired : db.Paired) (hfits : db.Fits)
    (hrows : BlockIndex.RowsIn blocks db) (hfile : ∀ saved ∈ file, saved.Covers blocks db) :
    ∃ opened, db.rebuild file = some opened ∧
      Sound blocks ⟨db, opened.index, .idle, opened.saving, opened.file.toList⟩ := by
  obtain ⟨index, hbuild, hwithin, hinShard, hrecent, hlast, hk⟩ := build_spec hfew hfits hrows
  have hstored : ∀ last, index.last = some last → db.hashes.get last.1.toU64 = some last.2 := by
    intro _ hsome
    rw [hsome] at hlast
    exact get_eq_some.mpr (mem_of_getLast? hlast.symm)
  have hgood : index.Good blocks := by
    refine ⟨hwithin, fun _ hget => ?_, hk, fun last hsome => hinShard _ _ (hstored last hsome), fun _ hnext => ?_⟩
    · rw [hrecent] at hget
      cases hget
    · rw [hrecent] at hnext
      cases hnext
  refine ⟨_, by rw [BlockDb.rebuild, hbuild, map_some], hgood, hpaired, hfits, hrows,
    fun n hash hget => .inr (.inr (hinShard n hash hget)), hstored, trivial, ?_⟩
  intro saved hsaved
  rw [toList_none, append_nil, mem_toList] at hsaved
  cases hsome : index.last with
  | none =>
    -- CF 3 is empty, so no file can end at one of its blocks.
    rw [BlockIndex.saved, hsome] at hsaved
    rw [hsome, map_none, BlockDb.lastBlock, OrderedMap.last, eq_comm, getLast?_eq_none_iff] at hlast
    have hmem := get_eq_some.mp (hfile saved hsaved).stored
    rw [hlast] at hmem
    cases hmem
  | some last =>
    obtain ⟨heq, hcovers⟩ := SavedIndex.covers_saved hgood hsome (hstored last hsome) hinShard
    rw [heq, some_or, Option.some.injEq] at hsaved
    rw [← hsaved]
    exact ⟨hcovers, last, rfl, .inr rfl⟩

theorem Sound.crash (h : store.Sound blocks) (mergeAt : Nat)
    (hfile : ∀ saved ∈ file, saved ∈ store.files ++ store.saving.toList) :
    ∃ opened, store.crash mergeAt file = some opened ∧ opened.db = store.db ∧ opened.Sound blocks := by
  have hcovers : ∀ saved ∈ file, saved.Covers blocks store.db := fun saved hsaved => (h.files saved (hfile saved hsaved)).1
  obtain ⟨rebuilt, hrebuild, hsound⟩ := sound_rebuild hfew h.paired h.fits h.rows hcovers
  cases file with
  | none =>
    refine ⟨⟨store.db, rebuilt.index, .idle, rebuilt.saving, rebuilt.file.toList⟩, ?_, rfl, hsound⟩
    rw [IndexStore.crash, BlockDb.openIndex, hrebuild, map_some]
  | some saved =>
    rw [IndexStore.crash, BlockDb.openIndex]
    split
    · refine ⟨⟨store.db, rebuilt.index, .idle, rebuilt.saving, rebuilt.file.toList⟩, ?_, rfl, hsound⟩
      rw [hrebuild, map_some]
    have hsaved := hcovers saved rfl
    obtain ⟨index, saving, heq, hhas, last, hcatching, hsaving⟩ :=
      indexFrom_spec hfew h.fits h.rows hsaved mergeAt
    refine ⟨⟨store.db, index, .idle, saving, [saved]⟩, by rw [heq]; rfl, rfl,
      hcatching.good, h.paired, h.fits, h.rows, hhas, ?_, trivial, ?_⟩
    · intro _ hlast'
      cases hcatching.merged.symm.trans hlast'
      exact hcatching.stored
    · intro other hother
      rcases mem_append.mp hother with hold | hnew
      · rw [mem_singleton.mp hold]
        exact ⟨hsaved, last, hcatching.merged, hcatching.follows⟩
      · obtain ⟨hcovered, hlast⟩ := hsaving other (mem_toList.mp hnew)
        exact ⟨hcovered, last, hcatching.merged, .inr hlast⟩

theorem Sound.step {mergeAt : Nat} (h : store.Sound blocks) {event : StoreEvent}
    (hnoted : ∀ block ∈ event.noted, ∀ n : U32, block.number = n.toU64 → toLex (hashPrefix block.hash, n) ∈ blocks)
    (hstep : store.step mergeAt event = some next) : next.Sound blocks := by
  cases event with
  | note =>
    simp only [IndexStore.step] at hstep
    split at hstep
    · split at hstep
      · cases hstep
      · next hpending => exact h.note hpending hnoted hstep
    · cases hstep
  | write =>
    simp only [IndexStore.step] at hstep
    split at hstep
    · next hphase =>
      cases hstep
      exact h.write hphase
    · cases hstep
  | writeFailed =>
    simp only [IndexStore.step] at hstep
    split at hstep
    · cases hstep
      exact { h with phase := trivial }
    · cases hstep
  | committed =>
    simp only [IndexStore.step] at hstep
    split at hstep
    · next hphase => exact h.committed hfew hphase hstep
    · cases hstep
  | saved =>
    obtain ⟨_, hsaving, rfl⟩ := map_eq_some_iff.mp hstep
    refine { h with files := fun other hother => h.files other ?_ }
    rw [hsaving]
    simp only [toList_none, append_nil, mem_cons, Option.toList_some, mem_append,
      not_mem_nil, or_false] at hother ⊢
    exact hother.symm
  | saveFailed =>
    cases hstep
    refine { h with files := fun other hother => h.files other ?_ }
    exact mem_append_left _ (append_nil store.files ▸ hother)
  | crash =>
    obtain ⟨_, hcrash, -, hsound⟩ := h.crash hfew mergeAt store.mem_of_survivor
    rw [IndexStore.step, hcrash] at hstep
    cases hstep
    exact hsound

theorem sound_opened (hpaired : db.Paired) (hfits : db.Fits) (hrows : BlockIndex.RowsIn blocks db) {mergeAt : Nat}
    (h : (closed db).step mergeAt (.crash none) = some store) : store.Sound blocks := by
  have hnone : ∀ saved ∈ (none : Option SavedIndex), saved.Covers blocks db := nofun
  obtain ⟨_, hrebuild, hsound⟩ := sound_rebuild hfew hpaired hfits hrows hnone
  have hopened : some _ = some store := (congrArg (map _) hrebuild).symm.trans h
  cases hopened
  exact hsound
end

/-- **The index after a crash.** Blocks are noted, written, merged and saved in any run with crashes, on
top of any tables whose numbers fit; then the store crashes, with any complete save since the last drop
left, or none. The next open succeeds, and finds every block of the block infos under its hash, if fewer
than 2^32 of the blocks share a shard. -/
theorem reopened_finds_stored (hfew : ∀ s, (shardBlocks blocks s).card < 2 ^ 32) {db : BlockDb} (hpaired : db.Paired)
    (hfits : db.Fits) (hrows : BlockIndex.RowsIn blocks db) {mergeAt : Nat} {events : List StoreEvent}
    (hnoted : ∀ event ∈ events, ∀ block ∈ event.noted, ∀ n : U32, block.number = n.toU64 →
      toLex (hashPrefix block.hash, n) ∈ blocks)
    (hrun : runSome (step mergeAt) (closed db) (.crash none :: events) = some store) (file : Option Nat) :
    ∃ opened, store.step mergeAt (.crash file) = some opened ∧ opened.db = store.db ∧
      ∀ number hash info, opened.db.infos.get number = some (hash, info) →
        ∃ n : U32, number = n.toU64 ∧ ∃ numbers, opened.index.candidates hash = some numbers ∧ n ∈ numbers := by
  obtain ⟨_, hopen, hrest⟩ := bind_eq_some_iff.mp hrun
  have hsound : store.Sound blocks :=
    runSome_invariant (Sound blocks) (fun _ _ _ h hnoted hstep => h.step hfew hnoted hstep)
      (sound_opened hfew hpaired hfits hrows hopen) hnoted hrest
  obtain ⟨opened, hcrash, hdb, hopened⟩ := hsound.crash hfew mergeAt store.mem_of_survivor
  refine ⟨opened, hcrash, hdb, fun number hash info hinfo => ?_⟩
  have hget := hopened.paired number hash info hinfo
  obtain ⟨n, rfl⟩ := hopened.fits number hash hget
  exact ⟨n, rfl, hopened.good.within.mem_candidates (hopened.has n hash hget)⟩

/-- A block noted, written, merged and saved, then a crash that leaves the save. -/
theorem reopened_finds_stored_saved :
    ∃ store, runSome (step 1) (closed ⟨.empty, .empty⟩)
        [.crash none, .note [⟨fifthHash, 5, []⟩] false, .write, .committed, .saved] = some store ∧
      ∃ opened, store.step 1 (.crash (some 0)) = some opened ∧
        opened.db.infos.get 5 = some (fifthHash, []) ∧
        ∃ numbers, opened.index.candidates fifthHash = some numbers ∧ 5 ∈ numbers := by
  have hfew : ∀ s, (shardBlocks {toLex (hashPrefix fifthHash, 5)} s).card < 2 ^ 32 :=
    fun s => (Finset.card_filter_le ..).trans_lt (by rw [Finset.card_singleton]; decide)
  obtain ⟨store, hrun, hinfos⟩ : ∃ store, runSome (step 1) (closed ⟨.empty, .empty⟩)
      [.crash none, .note [⟨fifthHash, 5, []⟩] false, .write, .committed, .saved] = some store ∧
      store.db.infos.get 5 = some (fifthHash, []) := ⟨_, rfl, rfl⟩
  have hnoted : ∀ event ∈ [StoreEvent.note [⟨fifthHash, 5, []⟩] false, .write, .committed, .saved],
      ∀ block ∈ event.noted, ∀ n, block.number = n.toU64 →
        toLex (hashPrefix block.hash, n) ∈ ({toLex (hashPrefix fifthHash, 5)} : Finset (U64 ×ₗ U32)) := by
    intro _ hevent _ hblock n hn
    simp only [mem_cons, not_mem_nil, or_false] at hevent
    rcases hevent with rfl | rfl | rfl | rfl
    · rw [mem_singleton.mp hblock] at hn ⊢
      obtain rfl : 5 = n := U32.toU64_injective hn
      exact Finset.mem_singleton_self _
    all_goals cases hblock
  obtain ⟨hpaired, hfits, hrows⟩ : (⟨.empty, .empty⟩ : BlockDb).Paired ∧ (⟨.empty, .empty⟩ : BlockDb).Fits ∧
      BlockIndex.RowsIn {toLex (hashPrefix fifthHash, 5)} ⟨.empty, .empty⟩ :=
    ⟨nofun, nofun, nofun⟩
  obtain ⟨opened, hcrash, hdb, hfound⟩ := reopened_finds_stored hfew hpaired hfits hrows hnoted hrun (some 0)
  rw [← hdb] at hinfos
  obtain ⟨n, hn, hnumbers⟩ := hfound 5 _ _ hinfos
  obtain rfl : 5 = n := U32.toU64_injective hn
  exact ⟨store, hrun, opened, hcrash, hinfos, hnumbers⟩

/-! ### A full shard -/

/-- One block at every height, the hashes all with the prefix zero. -/
def fullBlock (n : U32) : BlockRecord := ⟨⟨n, n.isLt.trans (by decide)⟩, n.toU64, []⟩

theorem hashPrefix_fullBlock (n : U32) : hashPrefix (fullBlock n).hash = 0 :=
  Fin.ext (div_eq_of_lt (n.isLt.trans (by decide)))

/-- The tables once all these blocks are written. -/
theorem get_fullBlocks {pending : List BlockRecord} (hmem : ∀ block, block ∈ pending ↔ ∃ n, block = fullBlock n)
    (number : U64) (hash : H256) : (pending.foldl BlockDb.put ⟨.empty, .empty⟩).hashes.get number = some hash ↔
      ∃ n, number = U32.toU64 n ∧ hash = (fullBlock n).hash := by
  constructor
  · intro hget
    rcases BlockDb.get_putAll hget with ⟨block, hblock, hnumber, hhash⟩ | hold
    · obtain ⟨n, rfl⟩ := (hmem block).mp hblock
      exact ⟨n, hnumber.symm, hhash.symm⟩
    · cases hold
  · rintro ⟨n, rfl, rfl⟩
    obtain ⟨_, _, hsplit⟩ := append_of_mem ((hmem (fullBlock n)).mpr ⟨n, rfl⟩)
    rw [hsplit, foldl_append, foldl_cons]
    refine BlockDb.get_putAll_of_same (get_put_self ..) fun block hblock hnumber => ?_
    have hin : block ∈ pending := by
      rw [hsplit]
      exact mem_append_right _ (.tail _ hblock)
    obtain ⟨m, rfl⟩ := (hmem block).mp hin
    rw [show m = n from U32.toU64_injective hnumber]

/-- The rebuilt index finds none of them. -/
theorem candidates_build_full
    (hget : ∀ number hash, db.hashes.get number = some hash ↔ ∃ n, number = U32.toU64 n ∧ hash = (fullBlock n).hash) :
    ∃ index, build db = some index ∧ index.candidates 0 = some [] := by
  have hfits : db.Fits := by
    intro number hash h
    obtain ⟨n, hn, -⟩ := (hget number hash).mp h
    exact ⟨n, hn⟩
  obtain ⟨entries, hentries, hmap⟩ := hfits.entries
  have hmem : ∀ block, block ∈ entries ↔ block.1 = (fullBlock block.2).hash := by
    intro block
    refine (BlockDb.mem_entries hmap).trans ((hget ..).trans ⟨?_, fun heq => ⟨block.2, rfl, heq⟩⟩)
    rintro ⟨n, hn, heq⟩
    rwa [U32.toU64_injective hn]
  refine ⟨buildFrom entries _, by rw [build, hentries, map_some], ?_⟩
  generalize hcount : (db.lastBlock.map fun last => last.1.val + 1).getD 0 = count
  have hlt : ∀ block ∈ entries, block.2.val < scanThreads * perThread count :=
    fun block hblock => hcount ▸ number_lt_scanned hmap hblock
  set built := buildFrom entries count
  have hfull : (built.shards 0).candidates 0 = some [] := by
    apply candidates_full (sorted_shardEntries (BlockDb.sorted_entries hmap))
    intro entry
    rw [mem_shardEntries (perThread_pos count) hlt]
    constructor
    · rintro ⟨block, hblock, -, rfl⟩
      show code (hashPrefix block.1) _ = 0
      rw [(hmem block).mp hblock, hashPrefix_fullBlock, code_zero]
    · intro hzero
      refine ⟨((fullBlock (ofLex entry).2).hash, (ofLex entry).2), (hmem _).mpr rfl, ?_, ?_⟩
      · rw [hashPrefix_fullBlock]
        rfl
      · rw [hashPrefix_fullBlock]
        show entry = toLex (code 0 _, (ofLex entry).2)
        rw [code_zero, ← hzero]
        rfl
  have hlookup : built.lookup 0 = ⟨0, []⟩ := rfl
  rw [candidates, hlookup]
  show map _ ((built.shards 0).candidates 0) = _
  rw [hfull]
  rfl

/-- **A shard with too many blocks.** One commit of 2^32 blocks, at all the heights there are and with one
hash prefix, then a crash: the index rebuilt finds none of them. -/
theorem full_shard_lost :
    ∃ pending store, runSome (step mergeAt) (closed ⟨.empty, .empty⟩) [.crash none, .note pending false, .write] = some store ∧
      ∃ opened, store.step mergeAt (.crash none) = some opened ∧ opened.db.infos.get 0 = some (0, []) ∧
        opened.index.candidates 0 = some [] := by
  obtain ⟨pending, hpending⟩ : ∃ pending,
      pending = (Finset.univ.toList.map fun n => fullBlock n) ++ [fullBlock 0] := ⟨_, rfl⟩
  have hmem : ∀ block, block ∈ pending ↔ ∃ n, block = fullBlock n := by
    intro _
    rw [hpending, mem_append, mem_map, mem_singleton]
    constructor
    · rintro (⟨n, -, rfl⟩ | rfl)
      · exact ⟨n, rfl⟩
      · exact ⟨0, rfl⟩
    · rintro ⟨n, rfl⟩
      exact .inl ⟨n, Finset.mem_toList.mpr (Finset.mem_univ n), rfl⟩
  have hne : pending ≠ [] := ne_nil_of_mem ((hmem (fullBlock 0)).mpr ⟨0, rfl⟩)
  obtain ⟨entries, hentries⟩ : ∃ entries, (pending.mapM fun block => indexEntry block.hash block.number) = some entries := by
    apply BlockDb.mapM_of_forall
    intro block hblock
    obtain ⟨n, rfl⟩ := (hmem block).mp hblock
    exact ⟨_, indexEntry_toU64 _ n⟩
  have hinfo : (pending.foldl BlockDb.put ⟨.empty, .empty⟩).infos.get 0 = some (0, []) := by
    rw [hpending, foldl_append]
    exact get_put_self ..
  obtain ⟨index, hbuild, hnone⟩ := candidates_build_full (get_fullBlocks hmem)
  let start : IndexStore := ⟨⟨.empty, .empty⟩, buildFrom [] 0, .idle, none, []⟩
  have hnote : start.step mergeAt (.note pending false) =
      some { start with index := start.index.note entries, phase := .noted pending } := by
    have hkept : start.index.rewrites entries = false := rfl
    simp only [step, if_neg hne, note, hentries]
    rfl
  refine ⟨pending, _, (congrArg (bind · _) hnote).trans rfl,
    ⟨pending.foldl BlockDb.put ⟨.empty, .empty⟩, index, .idle, none, index.saved.toList⟩, ?_, hinfo, hnone⟩
  show map _ (BlockDb.rebuild _ none) = _
  rw [BlockDb.rebuild, hbuild, map_some, map_some, or_none]

end IndexStore
end LeafageEvm
