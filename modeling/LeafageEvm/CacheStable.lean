import LeafageEvm.CacheCoherence

/-! Reads through a handle that is held while the blocks of its own layers are committed. What such a
block wrote is answered by the layers; the other keys it leaves alone, so the cache and the database
answer for them as they did when the handle was made. -/

namespace LeafageEvm.CacheSystem
open List
variable {event : CacheEvent} {layers : List DiffLayer} {disk : DiskState} {chain : List Block} {index : H256} {k : StateKey}
  {op : ReadOp} {address : H256} {system : CacheSystem} {handle : StateHandle}

/-! ### The answers of a handle -/

/-- The blocks whose commit was not over when the handle was made. -/
def laterBlocks (system : CacheSystem) (handle : StateHandle) : List Block :=
  system.log.take (system.log.length - handle.settled)

def Covers (system : CacheSystem) (handle : StateHandle) : Prop :=
  ∀ block ∈ system.laterBlocks handle, block ∈ handle.chain

def Keeps (system : CacheSystem) (handle : StateHandle) (k : StateKey) : Prop :=
  system.config.clears = true → ∀ block ∈ system.laterBlocks handle, block.diff.deletesOwner k = false

/-- The answer of the handle when it was made: its layers over the database it took. -/
def atCreation (system : CacheSystem) (handle : StateHandle) (k : StateKey) : k.Value :=
  overlay handle.layers k ((system.diskAt handle.base).get k)

/-- The answer of `storage_slots` when the handle was made. -/
def slotsAtCreation (system : CacheSystem) (handle : StateHandle) (address : H256) :
    List (H256 × U256) :=
  nonzeroSlots ((slotCandidates (system.diskAt handle.base) handle.layers address).map
    fun index => ⟨.slot address index, system.atCreation handle (.slot address index)⟩)

theorem laterBlocks_step (h : handle.settled ≤ system.log.length) (event : CacheEvent) :
    ∀ block ∈ system.laterBlocks handle, block ∈ (system.step event).laterBlocks handle := by
  intro _ hblock
  obtain ⟨_, hlog⟩ := system.step_log_suffix event
  unfold laterBlocks
  rw [← hlog, length_append, Nat.add_sub_assoc h, take_append, Nat.add_sub_cancel_left]
  exact mem_append_right _ hblock

theorem Covers.of_step (hsettled : handle.settled ≤ system.log.length) (h : (system.step event).Covers handle) :
    system.Covers handle := by
  intro block hblock
  exact h block (laterBlocks_step hsettled event block hblock)

theorem Keeps.of_step (hsettled : handle.settled ≤ system.log.length) (h : (system.step event).Keeps handle k) :
    system.Keeps handle k := by
  intro hclears block hblock
  rw [← (system.step_config event).1] at hclears
  exact h hclears block (laterBlocks_step hsettled event block hblock)

theorem atCreation_step (hbase : handle.base ≤ system.log.length) (event : CacheEvent) (k : StateKey) :
    (system.step event).atCreation handle k = system.atCreation handle k := by
  rw [atCreation, diskAt_step hbase, atCreation]

/-! ### Keys the layers do not answer for -/

theorem lookupLayers_eq_none : lookupLayers layers k = none ↔ ∀ layer ∈ layers, layer.get k = none := by
  simp [lookupLayers]

theorem untouched_of_covers (hcovers : system.Covers handle) (hkeeps : system.Keeps handle k)
    (hnone : lookupLayers handle.layers k = none) :
    ∀ block ∈ system.laterBlocks handle, block.touches system.config.clears k = false := by
  intro block hblock
  have hget : (DiffLayer.new block).get k = none :=
    lookupLayers_eq_none.mp hnone _ (mem_map_of_mem (hcovers block hblock))
  cases hclears : system.config.clears with
  | false => simp [Block.touches, hget]
  | true => simp [Block.touches, hget, hkeeps hclears _ hblock]

/-- Such a key is the same in all states of the database since the handle was made. -/
theorem diskAt_get_of_untouched {n : Nat} (hfrom : handle.settled ≤ n) (hto : n ≤ system.log.length)
    (huntouched : ∀ block ∈ system.laterBlocks handle, block.touches system.config.clears k = false) :
    (system.diskAt n).get k = (system.diskAt handle.settled).get k := by
  have hlength : system.log.length - n + (n - handle.settled) = system.log.length - handle.settled := by
    omega
  have hsplit : system.log.drop (system.log.length - n) =
      (system.log.drop (system.log.length - n)).take (n - handle.settled) ++
        system.log.drop (system.log.length - handle.settled) := by
    rw [← hlength, ← drop_drop, take_append_drop]
  unfold diskAt
  rw [hsplit]
  apply DiskState.replay_get_untouched
  intro _ hblock
  apply huntouched
  rw [take_drop, hlength] at hblock
  exact mem_of_mem_drop hblock

variable {value : k.Value}

/-- The invariant of a read: it goes past the layers only for keys they do not answer for, its
answers are those of the handle's creation, and a listing goes through the slots of some state of the
database since then. -/
structure Stable (system : CacheSystem) (op : ReadOp) : Prop where
  missed : ∀ {k}, op.stage = .missed → op.todo.head? = some k → lookupLayers op.handle.layers k = none
  fetched : ∀ {k value seen}, op.stage = .fetched k value seen →
    op.todo.head? = some k ∧ lookupLayers op.handle.layers k = none
  answers : ∀ {k value}, system.Covers op.handle → ⟨k, value⟩ ∈ op.done → system.Keeps op.handle k →
    value = system.atCreation op.handle k
  listed : ∀ {address}, op.slotsOf = some address →
    ∃ n, op.handle.settled ≤ n ∧ n ≤ system.log.length ∧ op.done.map (·.1) ++ op.todo =
      (slotCandidates (system.diskAt n) op.handle.layers address).map (.slot address)

theorem Stable.step (h : system.Stable op) (htook : system.Took op.handle) (event : CacheEvent) :
    (system.step event).Stable op where
  missed := h.missed
  fetched := h.fetched
  answers hcovers hanswer hkeeps := by
    have hsettled := htook.1.trans system.settled_le
    rw [atCreation_step htook.2.2]
    exact h.answers (.of_step hsettled hcovers) hanswer (.of_step hsettled hkeeps)
  listed hslots := by
    obtain ⟨n, hfrom, hto, hlist⟩ := h.listed hslots
    refine ⟨n, hfrom, hto.trans (system.step_log_length event), ?_⟩
    rw [diskAt_step hto]
    exact hlist

theorem Stable.answer (h : system.Stable op) (hhead : op.todo.head? = some k)
    (hvalue : system.Covers op.handle → system.Keeps op.handle k → value = system.atCreation op.handle k) :
    system.Stable (answer op k value) where
  missed hstage := nomatch hstage
  fetched hstage := nomatch hstage
  answers {k' value'} hcovers hanswer hkeeps := by
    rcases mem_append.mp hanswer with hold | hnew
    · exact h.answers hcovers hold hkeeps
    · cases mem_singleton.mp hnew
      exact hvalue hcovers hkeeps
  listed {address} hslots := by
    obtain ⟨n, hfrom, hto, hlist⟩ := h.listed hslots
    refine ⟨n, hfrom, hto, .trans ?_ hlist⟩
    obtain ⟨rest, hrest⟩ := head?_eq_some_iff.mp hhead
    simp [CacheSystem.answer, hrest]

theorem lookup_none_of_find (h : system.find handle k = none) : lookupLayers handle.layers k = none := by
  unfold find at h
  split at h
  · cases h
  · assumption

section
variable (htook : system.Took handle)
include htook
theorem Current.of_untouched (hcurrent : system.Current k value)
    (huntouched : ∀ block ∈ system.laterBlocks handle, block.touches system.config.clears k = false) :
    value = (system.diskAt handle.base).get k := by
  obtain ⟨hsettled, hbase, hlength⟩ := htook
  rw [diskAt_get_of_untouched hbase hlength huntouched]
  rcases hcurrent with hshown | hdisk
  · have hle := (system.shown_suffix k).length_le
    rw [hshown, ← diskAt_shown]
    exact diskAt_get_of_untouched (hsettled.trans (system.settled_le_shown k)) hle huntouched
  · rw [hdisk, ← diskAt_length]
    exact diskAt_get_of_untouched (hsettled.trans system.settled_le) le_rfl huntouched

/-! ### Reads in progress -/

/-- A key found without the database. -/
theorem find_atCreation (hcoherent : system.Coherent)
    (hfind : system.find handle k = some value) (hcovers : system.Covers handle) (hkeeps : system.Keeps handle k) :
    value = system.atCreation handle k := by
  unfold find at hfind
  unfold atCreation overlay
  cases hlookup : lookupLayers handle.layers k with
  | some =>
    rw [hlookup] at hfind
    cases hfind
    rfl
  | none =>
    simp only [hlookup] at hfind
    split at hfind
    · obtain ⟨⟨_, cached⟩, hentry, heq⟩ := Option.map_eq_some_iff.mp hfind
      cases heq
      exact (hcoherent.cached hentry).of_untouched htook (untouched_of_covers hcovers hkeeps hlookup)
    · cases hfind

theorem fetched_atCreation (hlookup : lookupLayers handle.layers k = none) {seen : Nat}
    (hfrom : handle.settled ≤ seen) (hto : seen ≤ system.log.length) (hcovers : system.Covers handle)
    (hkeeps : system.Keeps handle k) : (system.diskAt seen).get k = system.atCreation handle k := by
  have huntouched := untouched_of_covers hcovers hkeeps hlookup
  unfold atCreation overlay
  rw [hlookup, Option.getD_none, diskAt_get_of_untouched hfrom hto huntouched,
    diskAt_get_of_untouched htook.2.1 htook.2.2 huntouched]
end

/-- The invariant of the system: the cache is coherent and every read in progress is right. -/
structure StableReads (system : CacheSystem) : Prop where
  coherent : system.Coherent
  reads : ∀ {id op}, system.ops id = some op → system.Stable op

theorem StableReads.new (config : CacheConfig) (genesis : DiskState) : (new config genesis).StableReads where
  coherent := .new config genesis
  reads h := nomatch h

/-- A read in progress is right where it stands after a step. -/
theorem StableReads.opStep (h : system.StableReads) {id : Nat} (hstep : OpStep system id op) : system.Stable op := by
  have htook {id op} (hop : system.ops id = some op) := h.coherent.fetches.ops hop
  cases hstep with
  | kept hop => exact h.reads hop
  | read _ k =>
    constructor
    case listed => exact nofun
    case answers => exact nofun
    all_goals exact nofun
  | @storageSlots _ handle hhandle address =>
    have hversion := (h.coherent.fetches.handles hhandle).version
    constructor
    case listed =>
      intro _ hslots
      cases hslots
      exact ⟨system.version handle, hversion.1, hversion.2, rfl⟩
    case answers => exact nofun
    all_goals exact nofun
  | found hop _ htodo hfind =>
    refine (h.reads hop).answer (head?_eq_some_iff.mpr ⟨_, htodo⟩) ?_
    exact find_atCreation (htook hop) h.coherent hfind
  | missed hop _ htodo hfind =>
    have hnone := lookup_none_of_find hfind
    refine { h.reads hop with missed := ?_, fetched := ?_ }
    · intro k' _ hhead
      rw [htodo] at hhead
      cases hhead
      exact hnone
    · exact nofun
  | fetched hop hstage htodo =>
    refine { h.reads hop with missed := ?_, fetched := ?_ }
    · exact nofun
    · intro _ _ _ hfetched
      cases hfetched
      have hhead := head?_eq_some_iff.mpr ⟨_, htodo⟩
      exact ⟨hhead, (h.reads hop).missed hstage hhead⟩
  | refilled hop hstage =>
    obtain ⟨hhead, hnone⟩ := (h.reads hop).fetched hstage
    obtain ⟨hfrom, hto, hvalue⟩ := h.coherent.fetches.fetched hop hstage
    refine (h.reads hop).answer hhead ?_
    rw [hvalue]
    exact fetched_atCreation (htook hop) hnone hfrom hto

theorem StableReads.step (h : system.StableReads) (event : CacheEvent)
    (hfresh : system.FillsFresh event) : (system.step event).StableReads where
  coherent := h.coherent.step event hfresh
  reads {id op} hop := by
    have hstep := step_ops hop
    refine (h.opStep hstep).step ?_ event
    cases hstep with
    | kept hold => exact h.coherent.fetches.ops hold
    | read hhandle | storageSlots hhandle => exact h.coherent.fetches.handles hhandle
    | found hold | refilled hold | missed hold | _ hold => exact (h.coherent.fetches.ops hold :)

/-! ### Listings -/

theorem slotCandidates_sorted (disk : DiskState) (layers : List DiffLayer) (address : H256) :
    (slotCandidates disk layers address).Pairwise (· < ·) := by
  have hsorted := pairwise_insertionSort (· ≤ ·) (disk.storageSlots address ++ layerSlots layers address).dedup
  have hnodup := (perm_insertionSort (· ≤ ·) _).nodup_iff.mpr
    (nodup_dedup (disk.storageSlots address ++ layerSlots layers address))
  exact (hsorted.and hnodup).imp fun h => lt_of_le_of_ne h.1 h.2

theorem slotCandidates_filter {disk' : DiskState} {counts : H256 → Prop} [DecidablePred counts]
    (h : ∀ index, counts index → (index ∈ disk.storageSlots address ++ layerSlots layers address ↔
      index ∈ disk'.storageSlots address ++ layerSlots layers address)) :
    (slotCandidates disk layers address).filter counts =
      (slotCandidates disk' layers address).filter counts := by
  apply ((slotCandidates_sorted disk layers address).filter _).eq_of_mem_iff
    ((slotCandidates_sorted disk' layers address).filter _)
  intro index
  simp only [mem_filter, slotCandidates, mem_insertionSort, mem_dedup]
  exact and_congr_left fun hcounts => h index (of_decide_eq_true hcounts)

theorem mem_layerSlots {value : U256} (h : lookupLayers (chain.map .new) (.slot address index) = some value) :
    index ∈ layerSlots (chain.map .new) address := by
  obtain ⟨_, hlayer, hget⟩ := exists_of_findSome?_eq_some h
  obtain ⟨block, -, rfl⟩ := mem_map.mp hlayer
  have hmap : (DiffLayer.new block).storage (address, index) = some value := hget
  rw [DiffLayer.new_storage] at hmap
  rcases HashMap.foldl_insert_eq_some hmap with ⟨_, hwrite, hkey, -⟩ | hempty
  · refine mem_flatMap.mpr ⟨_, hlayer, ?_⟩
    rw [BlockStorageDiff.slotWrites, mem_flatMap] at hwrite
    obtain ⟨account, haccount, hmem⟩ := hwrite
    obtain ⟨_, hpair, rfl⟩ := mem_map.mp hmem
    obtain ⟨rfl, rfl⟩ := Prod.mk.inj hkey
    refine mem_flatMap.mpr ⟨account, mem_filter.mpr ⟨haccount, ?_⟩, mem_map_of_mem hpair⟩
    exact decide_eq_true rfl
  · cases hempty

theorem mem_slotCandidates (h : overlay (chain.map .new) (.slot address index) (disk.get (.slot address index)) ≠ (0 : U256)) :
    index ∈ disk.storageSlots address ++ layerSlots (chain.map .new) address := by
  rw [mem_append]
  cases hlookup : lookupLayers (chain.map .new) (.slot address index) with
  | some => exact .inr (mem_layerSlots hlookup)
  | none =>
    rw [overlay, hlookup] at h
    exact .inl (DiskState.mem_storageSlots.mpr h)

theorem nonzeroSlots_map (slots : List H256) (address : H256) (value : H256 → U256) :
    nonzeroSlots (slots.map fun index => ⟨.slot address index, value index⟩) =
      (slots.filter fun index => value index ≠ 0).map fun index => (index, value index) := by
  induction slots with
  | nil => rfl
  | cons index _ ih =>
    unfold nonzeroSlots at ih ⊢
    by_cases hzero : value index = 0
    · simpa [hzero] using ih
    · simpa [hzero] using ih

theorem done_eq_map {done : List ((k : StateKey) × k.Value)} {answerOf : (k : StateKey) → k.Value}
    (h : ∀ k value, ⟨k, value⟩ ∈ done → value = answerOf k) : done = (done.map (·.1)).map fun k => ⟨k, answerOf k⟩ := by
  rw [map_map]
  conv_lhs => rw [← map_id done]
  apply map_congr_left
  rintro ⟨k, value⟩ hanswer
  simp only [Function.comp, id, h k value hanswer]

/-- A listing that has come to its end. -/
theorem Stable.listing (h : system.Stable op) (htook : system.Took op.handle) (hcovers : system.Covers op.handle)
    (hslots : op.slotsOf = some address) (hend : op.todo = [])
    (hkeeps : ∀ index, system.Keeps op.handle (.slot address index)) :
    nonzeroSlots op.done = system.slotsAtCreation op.handle address := by
  obtain ⟨n, hfrom, hto, hlist⟩ := h.listed hslots
  rw [hend, append_nil] at hlist
  have hanswers : ∀ k value, ⟨k, value⟩ ∈ op.done → value = system.atCreation op.handle k := by
    intro k _ hanswer
    refine h.answers hcovers hanswer ?_
    have hkey : k ∈ op.done.map (·.1) := mem_map.mpr ⟨_, hanswer, rfl⟩
    rw [hlist] at hkey
    obtain ⟨index, -, rfl⟩ := mem_map.mp hkey
    exact hkeeps index
  have hdone : op.done = (slotCandidates (system.diskAt n) op.handle.layers address).map
      fun index => ⟨.slot address index, system.atCreation op.handle (.slot address index)⟩ := by
    rw [done_eq_map hanswers, hlist, map_map]
    rfl
  rw [hdone, slotsAtCreation, nonzeroSlots_map, nonzeroSlots_map]
  congr 1
  apply slotCandidates_filter
  intro index hcounts
  -- Where the layers do not answer, the two states of the database hold the same value.
  have hsame : system.atCreation op.handle (.slot address index) =
      overlay op.handle.layers (.slot address index) ((system.diskAt n).get (.slot address index)) := by
    cases hlookup : lookupLayers op.handle.layers (.slot address index) with
    | some => simp only [atCreation, overlay, hlookup, Option.getD_some]
    | none =>
      rw [overlay, hlookup]
      exact (fetched_atCreation htook hlookup hfrom hto hcovers (hkeeps index)).symm
  have hbase := mem_slotCandidates (hcounts :)
  rw [hsame] at hcounts
  exact iff_of_true (mem_slotCandidates hcounts) hbase

theorem run_stableReads {config : CacheConfig} {genesis : DiskState} {events : List CacheEvent}
    (hmeets : RunMeets step FillsFresh (new config genesis) events) : ((new config genesis).run events).StableReads :=
  run_invariant StableReads (fun _ event h hfresh => h.step event hfresh) (.new config genesis) hmeets

/-- **A held handle answers as it did when it was made**, in every run whose refills store no value
that a later block has changed and whose deletions meet no slot in the cache, while the blocks that
are committed are its own. -/
theorem reads_stable (config : CacheConfig) (genesis : DiskState) (events : List CacheEvent)
    (hmeets : RunMeets step FillsFresh (new config genesis) events) (id : Nat) (op : ReadOp)
    (hop : ((new config genesis).run events).ops id = some op)
    (hcovers : ((new config genesis).run events).Covers op.handle) :
    let system := (new config genesis).run events
    (∀ (k : StateKey) (value : k.Value), ⟨k, value⟩ ∈ op.done → system.Keeps op.handle k →
        value = system.atCreation op.handle k) ∧
      ∀ address, op.slotsOf = some address → op.todo = [] →
        (∀ index, system.Keeps op.handle (.slot address index)) →
        nonzeroSlots op.done = system.slotsAtCreation op.handle address := by
  have hstable := run_stableReads hmeets
  refine ⟨?_, ?_⟩
  · intro k _ hanswer hkeeps
    exact (hstable.reads hop).answers hcovers hanswer hkeeps
  · intro _ hslots hend hkeeps
    exact (hstable.reads hop).listing (hstable.coherent.fetches.ops hop) hcovers hslots hend hkeeps

def heldListing : List CacheEvent :=
  [.sampleHeight 0 [slotBlock 101 100 1 11], .takeState 0] ++ slotCommit ++
    [.storageSlots 0 0 1, .lookup 0]

theorem reads_stable_listing :
    let system := (new ⟨false, true, false, true⟩ genesisDisk).run heldListing
    ∃ op, system.ops 0 = some op ∧ op.slotsOf = some 1 ∧ op.todo = [] ∧
      nonzeroSlots op.done = system.slotsAtCreation op.handle 1 ∧ nonzeroSlots op.done = [(2, 11)] := by
  have hmeets : RunMeets step FillsFresh (new ⟨false, true, false, true⟩ genesisDisk) heldListing := by
    refine ⟨trivial, trivial, ?_, fun _ _ _ _ _ _ _ => rfl, fun _ _ _ _ _ _ _ => rfl, trivial, trivial,
      trivial, trivial⟩
    nofun
  refine ⟨_, rfl, rfl, rfl, ?_, ?_⟩
  · refine (reads_stable _ _ _ hmeets 0 _ rfl ?_).2 1 rfl rfl ?_
    · exact fun _ hblock => hblock
    · nofun
  · decide

/-- A handle made after block 1 was committed reads slot 2 as the block wrote it, until a reader from
before the commit refills the cache: from then on it reads the old value. -/
theorem held_handle_reads_stale_refill :
    let system := (new ⟨false, true, false, true⟩ genesisDisk).run
      (slotReader 0 0 ++ slotCommit ++ [.evict (.slot 1 2), .sampleHeight 1 [], .takeState 1, .refill 0,
        .read 1 1 (.slot 1 2), .lookup 1])
    ∃ op, system.ops 1 = some op ∧ system.laterBlocks op.handle = [] ∧
      op.done = [⟨.slot 1 2, (0 : U256)⟩] ∧ system.atCreation op.handle (.slot 1 2) = (11 : U256) := by
  exact ⟨_, rfl, rfl, by decide, by decide⟩

end LeafageEvm.CacheSystem
