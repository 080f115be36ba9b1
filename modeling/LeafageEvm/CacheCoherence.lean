import LeafageEvm.CacheSteps

/-! What the cache holds. A cached value is the database's, or what the database held before a block
in flight that has yet to write the key through. Refills are the danger: a reader that fetched before
a commit may refill after it, and the tag only protects the key while the commit's own entry is still
there. Once that is evicted nothing remembers that the reader's value is old. -/

namespace LeafageEvm.CacheSystem
open DiskState List
variable (config : CacheConfig) (genesis : DiskState)
variable {handle : StateHandle} {older : List Block} {pending : List StateKey} {event : CacheEvent} {k : StateKey}
  {block : Block} {tag : U64}

/-! ### The condition -/

/-- A refill that stores comes from a database state that no later block has changed under the key, a
block apart that will still write it through. A block deletes no account with a slot in the cache,
unless it writes the slot or the slot is zero, where the backend clears the slots of deleted
accounts. What is written through is what the database reads back. -/
def FillsFresh (system : CacheSystem) : CacheEvent → Prop
  | .refill id => ∀ op k value seen height, system.ops id = some op → op.stage = .fetched k value seen →
      op.handle.cacheViewHeight = some height → system.RefillStores k height →
      ∀ block ∈ (system.shown k).take ((system.shown k).length - seen),
        block.touches system.config.clears k = false
  | .updateBlock block => system.inFlight = none → system.config.clears = true → ∀ address index,
      address ∈ block.diff.deletedAccounts → (DiffLayer.new block).storage (address, index) = none →
      ∀ tag value, system.entries (.slot address index) = some (tag, value) → value = 0
  | .writeThrough k => system.config.enabled = true → system.inFlight ≠ none → ∀ block older value,
      system.log = block :: older → (DiffLayer.new block).get k = some value → k.readBack value = value
  | _ => True

variable {system : CacheSystem} {value : k.Value}

/-! ### Reads in progress -/

def Took (system : CacheSystem) (handle : StateHandle) : Prop :=
  handle.settled ≤ system.settled ∧ handle.settled ≤ handle.base ∧ handle.base ≤ system.log.length

/-- Handles took their state, and reads fetched their value, from the past of the database. -/
structure Fetches (system : CacheSystem) : Prop where
  handles : ∀ {id handle}, system.handles id = some handle → system.Took handle
  ops : ∀ {id op}, system.ops id = some op → system.Took op.handle
  fetched : ∀ {id op k value seen}, system.ops id = some op → op.stage = .fetched k value seen →
    op.handle.settled ≤ seen ∧ seen ≤ system.log.length ∧ value = (system.diskAt seen).get k

theorem Took.step (h : system.Took handle) (event : CacheEvent) : (system.step event).Took handle :=
  ⟨h.1.trans (system.settled_step event), h.2.1, h.2.2.trans (system.step_log_length event)⟩

/-- The version a handle reads at is not older than the commits it saw as over. -/
theorem Took.version (h : system.Took handle) :
    handle.settled ≤ system.version handle ∧ system.version handle ≤ system.log.length := by
  unfold CacheSystem.version
  obtain ⟨-, hbase, hlength⟩ := h
  split <;> omega

theorem Fetches.new : (new config genesis).Fetches where
  handles h := nomatch h
  ops h := nomatch h
  fetched h := nomatch h

theorem Fetches.step (h : system.Fetches) (event : CacheEvent) : (system.step event).Fetches where
  handles hhandle := by
    rcases step_handles hhandle with hold | ⟨hbase, hsettled⟩
    · exact (h.handles hold).step event
    · refine Took.step ⟨hsettled.le, ?_, hbase.le⟩ event
      rw [hbase, hsettled]
      exact system.settled_le
  ops hop := by
    apply Took.step
    cases step_ops hop with
    | kept hold => exact h.ops hold
    | read hhandle | storageSlots hhandle => exact h.handles hhandle
    | found hold | refilled hold | missed hold | _ hold => exact (h.ops hold :)
  fetched {id op k value seen} hop hstage := by
    -- Only a fetch enters the stage, and it reads the database as of the version it notes.
    have hthen : op.handle.settled ≤ seen ∧ seen ≤ system.log.length ∧
        value = (system.diskAt seen).get k := by
      cases step_ops hop with
      | kept hold => exact h.fetched hold hstage
      | fetched hold =>
        cases hstage
        have htook := (h.ops hold).version
        exact ⟨htook.1, htook.2, rfl⟩
      | read | storageSlots | found | missed | _ => cases hstage
    obtain ⟨hsettled, hlength, hvalue⟩ := hthen
    rw [diskAt_step hlength]
    exact ⟨hsettled, hlength.trans (system.step_log_length event), hvalue⟩

/-! ### Cached values -/

/-- A value the cache may hold: what the blocks the key has to show leave in the database or, while
a commit is in flight, what the database already holds. -/
def Current (system : CacheSystem) (k : StateKey) (value : k.Value) : Prop :=
  value = (system.genesis.replay system.config.clears (system.shown k)).get k ∨
    value = system.disk.get k

theorem current_of_idle (hidle : system.inFlight = none) (h : system.Current k value) : value = system.disk.get k := by
  rw [Current, shown, hidle] at h
  exact h.elim id id

theorem current_of_fetched {seen : Nat} (hseen : seen ≤ system.log.length)
    (huntouched : ∀ block ∈ (system.shown k).take ((system.shown k).length - seen),
      block.touches system.config.clears k = false) : system.Current k ((system.diskAt seen).get k) := by
  by_cases hshown : seen ≤ (system.shown k).length
  · exact .inl (diskAt_get_eq_shown hshown huntouched)
  have hlast : seen = system.log.length := by
    have := system.settled_le_shown k
    unfold settled at this
    split at this <;> omega
  rw [hlast, diskAt_length]
  exact .inr rfl

theorem updateBlock_get_cleared {address index : H256} (disk : DiskState) (hdeleted : address ∈ block.diff.deletedAccounts)
    (hunwritten : (DiffLayer.new block).storage (address, index) = none) :
    (disk.updateBlock true block).get (.slot address index) = 0 := by
  rw [updateBlock_slot, hunwritten]
  simp [hdeleted]

theorem Current.updateBlock {after : CacheSystem} (hconfig : after.config = system.config)
    (hgenesis : after.genesis = system.genesis) (hlog : after.log = block :: system.log)
    (hflight : after.inFlight = some block.writtenKeys) (hvalue : value = system.disk.get k)
    (hkept : (DiffLayer.new block).get k = none →
      value = (system.disk.updateBlock system.config.clears block).get k) : after.Current k value := by
  simp only [Current, shown, disk, hconfig, hgenesis, hlog, hflight]
  by_cases hwritten : k ∈ block.writtenKeys
  · rw [if_pos hwritten]
    exact .inl hvalue
  refine .inr (hkept ?_)
  cases hget : (DiffLayer.new block).get k with
  | none => rfl
  | some => exact absurd (Block.mem_writtenKeys hget) hwritten

/-- What a block does not write stays cached as the database has it, if it is no cleared slot or
zero already. -/
theorem value_kept (hfresh : system.FillsFresh (.updateBlock block)) (hidle : system.inFlight = none)
    (hentry : system.entries k = some (tag, value)) (hvalue : value = system.disk.get k)
    (hnone : (DiffLayer.new block).get k = none) :
    value = (system.disk.updateBlock system.config.clears block).get k := by
  cases htouched : block.touches system.config.clears k with
  | false => rw [updateBlock_get_untouched htouched, hvalue]
  | true =>
    simp only [Block.touches, hnone, Option.isSome_none, Bool.false_or, Bool.and_eq_true] at htouched
    obtain ⟨hclears, hdeletes⟩ := htouched
    cases k with
    | slot address index =>
      have hdeleted : address ∈ block.diff.deletedAccounts := by
        simpa [BlockStorageDiff.deletesOwner] using hdeletes
      rw [hclears, updateBlock_get_cleared system.disk hdeleted hnone]
      exact hfresh hidle hclears address index hdeleted hnone tag value hentry
    | account | code | _ => simp [BlockStorageDiff.deletesOwner] at hdeletes

/-- The invariant: reads fetched from the past, and every cached value is current. -/
structure Coherent (system : CacheSystem) : Prop where
  fetches : system.Fetches
  cached : ∀ {k tag value}, system.entries k = some (tag, value) → system.Current k value
  disabled : system.config.enabled = false → ∀ k, system.entries k = none

theorem Coherent.new : (new config genesis).Coherent where
  fetches := .new config genesis
  cached h := nomatch h
  disabled _ _ := rfl

theorem disk_get_of_written (hfresh : system.FillsFresh (.writeThrough k))
    (henabled : system.config.enabled = true) (hflight : system.inFlight = some pending) (hlog : system.log = block :: older)
    (hget : (DiffLayer.new block).get k = some value) : value = system.disk.get k := by
  have hexact := hfresh henabled (by simp [hflight]) block older value hlog hget
  rw [disk, hlog, replay_cons, updateBlock_get_of_some _ _ _ hget, hexact]

section
variable (h : system.Coherent)
include h
theorem Coherent.step_disabled (event : CacheEvent)
    (hdisabled : system.config.enabled = false) (k : StateKey) : (system.step event).entries k = none := by
  cases hentry : (system.step event).entries k with
  | none => rfl
  | some =>
    cases step_entries hentry with
    | kept hold =>
      rw [h.disabled hdisabled k] at hold
      cases hold
    | refilled henabled | _ henabled =>
      rw [hdisabled] at henabled
      cases henabled

theorem Coherent.entry_current (hfresh : system.FillsFresh event)
    (hentry : (system.step event).entries k = some (tag, value)) : system.Current k value := by
  cases step_entries hentry with
  | kept hold => exact h.cached hold
  | refilled _ hop hstage hheight hstores =>
    obtain ⟨-, hseen, hvalue⟩ := h.fetches.fetched hop hstage
    rw [hvalue]
    exact current_of_fetched hseen (hfresh _ k _ _ _ hop hstage hheight hstores)
  | wroteThrough henabled hflight hlog hget =>
    exact .inr (disk_get_of_written hfresh henabled hflight hlog hget)

theorem Coherent.entry_written (hfresh : system.FillsFresh (.writeThrough k))
    (hflight : system.inFlight = some pending) (hlog : system.log = block :: older) {written : k.Value}
    (hget : (DiffLayer.new block).get k = some written)
    (hentry : (system.step (.writeThrough k)).entries k = some (tag, value)) : value = system.disk.get k := by
  cases henabled : system.config.enabled with
  | false =>
    rw [h.step_disabled _ henabled] at hentry
    cases hentry
  | true =>
    simp only [step, hflight, hlog, hget, henabled, if_true, CacheEntries.insert_self] at hentry
    cases hentry
    exact disk_get_of_written hfresh henabled hflight hlog hget

theorem Coherent.step_cached (hfresh : system.FillsFresh event)
    (hentry : (system.step event).entries k = some (tag, value)) : (system.step event).Current k value := by
  have hcurrent := h.entry_current hfresh hentry
  obtain ⟨hconfig, hgenesis⟩ := system.step_config event
  obtain ⟨_, _, _, hlog, hflight, -, hstep⟩ := system.exists_logStep event
  cases hstep with
  | kept =>
    rw [Current, shown, disk, hconfig, hgenesis, hlog, hflight]
    exact hcurrent
  | committed hidle =>
    have hvalue := current_of_idle hidle hcurrent
    refine .updateBlock hconfig hgenesis hlog hflight hvalue fun hnone => ?_
    cases step_entries hentry with
    | kept hold => exact value_kept hfresh hidle hold hvalue hnone
  | @wroteThrough block older pending target written hold hcons hget =>
    rw [Current, shown, disk, hconfig, hgenesis, hlog, hflight]
    by_cases hk : k = target
    · subst hk
      exact .inr (h.entry_written hfresh hold hcons hget hentry)
    · rw [Current, shown, hold] at hcurrent
      simpa [hk, disk] using hcurrent
  | published hold =>
    rw [Current, shown, hold] at hcurrent
    rw [Current, shown, disk, hconfig, hgenesis, hlog, hflight]
    simpa [disk] using hcurrent

theorem Coherent.step (event : CacheEvent) (hfresh : system.FillsFresh event) : (system.step event).Coherent where
  fetches := h.fetches.step event
  cached hentry := h.step_cached hfresh hentry
  disabled hdisabled k := by
    rw [(system.step_config event).1] at hdisabled
    exact h.step_disabled event hdisabled k
end

theorem run_coherent {config : CacheConfig} {genesis : DiskState} {events : List CacheEvent}
    (hmeets : RunMeets step FillsFresh (new config genesis) events) : ((new config genesis).run events).Coherent :=
  run_invariant Coherent (fun _ event h hfresh => h.step event hfresh) (.new config genesis) hmeets

/-! ### The published height -/

/-- The height the committer has published is that of the last block whose commit is over. -/
structure Published (system : CacheSystem) : Prop where
  flight : system.inFlight ≠ none → system.log ≠ []
  height : (system.diskAt system.settled).latest.number = system.committedHeight

theorem Published.new : (new config genesis).Published where
  flight h := absurd rfl h
  height := rfl

theorem Published.step (h : system.Published) (event : CacheEvent) : (system.step event).Published := by
  have hpast := diskAt_step system.settled_le event
  obtain ⟨_, _, _, hlog, hflight, hheight, hstep⟩ := system.exists_logStep event
  cases hstep with
  | kept =>
    have hsettled : (system.step event).settled = system.settled := by
      rw [settled, hlog, hflight, settled]
    refine ⟨?_, by rw [hsettled, hpast, hheight, h.height]⟩
    rw [hlog, hflight]
    exact h.flight
  | @committed block hidle =>
    have hsettled : (system.step (.updateBlock block)).settled = system.settled := by
      rw [settled, hlog, hflight, settled, hidle]
      exact Nat.add_sub_cancel _ 1
    refine ⟨?_, by rw [hsettled, hpast, hheight, h.height]⟩
    rw [hlog]
    exact fun _ => cons_ne_nil _ _
  | @wroteThrough _ _ _ k _ hold hcons =>
    have hsettled : (system.step (.writeThrough k)).settled = system.settled := by
      rw [settled, hlog, hflight, settled, hold]
    refine ⟨?_, by rw [hsettled, hpast, hheight, h.height]⟩
    rw [hlog, hcons]
    exact fun _ => cons_ne_nil _ _
  | published _ hcons =>
    have hsettled : (system.step .publish).settled = (system.step .publish).log.length := by
      rw [settled, hflight]
    refine ⟨?_, ?_⟩
    · rw [hflight]
      exact absurd rfl
    · rw [hsettled, diskAt_length, disk, hlog, hcons, hheight]
      rfl

theorem run_published (events : List CacheEvent) : ((new config genesis).run events).Published :=
  foldlRecOn events step (.new config genesis) fun _ h event _ => h.step event

theorem Current.published (hpublished : system.Published) (h : system.Current k value) :
    value = (system.diskAt system.settled).get k ∨
      ∃ block pending, system.log.head? = some block ∧ system.inFlight = some pending ∧
        block.touches system.config.clears k = true ∧ value = system.disk.get k := by
  cases hflight : system.inFlight with
  | none =>
    left
    rw [settled, hflight, diskAt_length]
    exact current_of_idle hflight h
  | some pending =>
    have hne : system.log ≠ [] := hpublished.flight (by rw [hflight]; exact Option.some_ne_none _)
    obtain ⟨block, older, hlog⟩ := exists_cons_of_ne_nil hne
    have hbefore : system.diskAt system.settled = system.genesis.replay system.config.clears older := by
      simp [diskAt, settled, hflight, hlog]
    rw [hbefore]
    have hcases : value = (system.genesis.replay system.config.clears older).get k ∨
        value = system.disk.get k := by
      rw [Current, shown, hflight, hlog] at h
      simp only at h
      split at h
      · exact h
      · right
        rw [disk, hlog] at h ⊢
        exact h.elim id id
    rcases hcases with hold | hnew
    · exact .inl hold
    cases htouched : block.touches system.config.clears k with
    | true => exact .inr ⟨_, _, by rw [hlog]; rfl, rfl, htouched, hnew⟩
    | false =>
      left
      rw [hnew, disk, hlog, replay_cons, updateBlock_get_untouched htouched]

/-- **The cache holds what the database holds at the published height**, in every state of a run
whose refills store no value that a later block has changed and whose deletions meet no slot in the
cache. A key that the block in flight changes may already show that block. -/
theorem cached_eq_published (config : CacheConfig) (genesis : DiskState) (events : List CacheEvent)
    (hmeets : RunMeets step FillsFresh (new config genesis) events) :
    let system := (new config genesis).run events
    (system.diskAt system.settled).latest.number = system.committedHeight ∧
      ∀ (k : StateKey) (tag : U64) (value : k.Value), system.entries k = some (tag, value) →
        value = (system.diskAt system.settled).get k ∨
          ∃ block pending, system.log.head? = some block ∧ system.inFlight = some pending ∧
            block.touches system.config.clears k = true ∧ value = system.disk.get k := by
  have hpublished := run_published config genesis events
  refine ⟨hpublished.height, ?_⟩
  intro k _ _ hentry
  exact ((run_coherent hmeets).cached hentry).published hpublished

/-- A handle that reads slot 2 of account 1 up to the point where it has the database's value. -/
def slotReader (handle op : Nat) : List CacheEvent :=
  [.sampleHeight handle [], .takeState handle, .read op handle (.slot 1 2), .lookup op, .fetch op]

def slotCommit : List CacheEvent :=
  [.updateBlock (slotBlock 101 100 1 11), .writeThrough (.slot 1 2), .writeThrough (.blockHash 1), .publish]

theorem cached_eq_published_refill :
    let system := (new ⟨false, true, false, true⟩ genesisDisk).run
      (slotReader 0 0 ++ [.refill 0] ++ slotCommit)
    system.committedHeight = 1 ∧ system.entries (.slot 1 2) = some (1, 11) ∧
      (11 : U256) = (system.diskAt system.settled).get (.slot 1 2) := by
  intro system
  have hentry : system.entries (.slot 1 2) = some (1, 11) := by decide
  have hmeets : RunMeets step FillsFresh (new ⟨false, true, false, true⟩ genesisDisk)
      (slotReader 0 0 ++ [.refill 0] ++ slotCommit) := by
    refine ⟨trivial, trivial, trivial, trivial, trivial, ?_, ?_, fun _ _ _ _ _ _ _ => rfl,
      fun _ _ _ _ _ _ _ => rfl, trivial, trivial⟩
    · intro op k _ _ _ _ _ _ _ _ hblock
      exact absurd (mem_of_mem_take hblock) not_mem_nil
    · nofun
  refine ⟨by decide, hentry, ?_⟩
  rcases (cached_eq_published _ _ _ hmeets).2 (.slot 1 2) 1 11 hentry with hvalue | ⟨_, _, _, hflight, _⟩
  · exact hvalue
  · cases hflight

/-- A reader fetches slot 2, the commit of a block that writes the slot runs from start to end, the
entry it put into the cache is dropped and the reader refills: the cache now holds the old value under
a height from before the commit. -/
theorem stale_refill_survives_commit :
    let system := (new ⟨false, true, false, true⟩ genesisDisk).run
      (slotReader 0 0 ++ slotCommit ++ [.evict (.slot 1 2), .refill 0])
    system.inFlight = none ∧ system.committedHeight = 1 ∧
      system.entries (.slot 1 2) = some (0, 0) ∧ system.disk.get (.slot 1 2) = 11 := by
  decide

end LeafageEvm.CacheSystem
