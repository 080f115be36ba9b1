import LeafageEvm.CacheModel

/-! What one step of the committer or of a reader can do: to the database, to a handle and to a read
in progress. -/

namespace LeafageEvm
open CacheEntries DiskState DiffLayer HashMap List
variable {block : Block} {k : StateKey} {clears : Bool}

/-! ### Blocks and keys -/

theorem Block.mem_writtenKeys {value : k.Value} (h : (new block).get k = some value) : k ∈ block.writtenKeys := by
  simp only [Block.writtenKeys, mem_append]
  cases k with
  | account address =>
    have hmap : (new block).accounts address = some value := h
    rcases foldl_insert_eq_some hmap with ⟨_, haccount, rfl, -⟩ | hdeleted
    · exact .inl (.inl (.inl (.inr (mem_map_of_mem haccount))))
    · rcases foldl_insert_eq_some hdeleted with ⟨_, hmem, rfl, -⟩ | hempty
      · exact .inl (.inl (.inl (.inl (mem_map_of_mem hmem))))
      · cases hempty
  | slot owner index =>
    have hmap : (new block).storage (owner, index) = some value := h
    rw [new_storage] at hmap
    rcases foldl_insert_eq_some hmap with ⟨write, hwrite, heq, -⟩ | hempty
    · refine .inl (.inl (.inr ?_))
      rw [mem_map]
      exact ⟨write, hwrite, by rw [heq]⟩
    · cases hempty
  | code codeHash =>
    have hmap : (new block).contracts codeHash = some value := h
    rcases foldl_insert_eq_some hmap with ⟨_, hcode, rfl, -⟩ | hempty
    · exact .inl (.inr (mem_map_of_mem hcode))
    · cases hempty
  | blockHash number =>
    refine .inr ?_
    have hnumber : block.info.number = number := by
      by_contra hne
      have hnone : (new block).get (.blockHash number) = none := if_neg hne
      rw [hnone] at h
      cases h
    rw [hnumber]
    exact mem_singleton_self _

theorem DiskState.updateBlock_get_untouched (h : block.touches clears k = false) (disk : DiskState) :
    (disk.updateBlock clears block).get k = disk.get k := by
  simp only [Block.touches, Bool.or_eq_false_iff, Option.isSome_eq_false_iff, Option.isNone_iff_eq_none] at h
  have hkept : clears = true → block.diff.deletesOwner k = false := by
    intro hclears
    simpa [hclears] using h.2
  rw [updateBlock_get clears disk block k hkept, h.1]
  rfl

theorem DiskState.replay_get_untouched {newer : List Block} (h : ∀ block ∈ newer, block.touches clears k = false)
    (disk : DiskState) (older : List Block) :
    (disk.replay clears (newer ++ older)).get k = (disk.replay clears older).get k := by
  induction newer with
  | nil => rfl
  | cons block _ ih =>
    rw [cons_append, replay_cons, updateBlock_get_untouched (h block (.head _))]
    exact ih fun b hb => h b (.tail _ hb)

namespace CacheSystem

variable {event : CacheEvent} {id : Nat} {op : ReadOp}

/-! ### The database over time -/

variable {system : CacheSystem} {n : Nat} {tag : U64} {value : k.Value}

theorem drop_length_sub_append {A : Type} (newer : List A) {older : List A}
    (h : n ≤ older.length) : (newer ++ older).drop ((newer ++ older).length - n) =
      older.drop (older.length - n) := by
  rw [length_append, Nat.add_sub_assoc h, drop_append,
    drop_eq_nil_of_le (by omega), nil_append, Nat.add_sub_cancel_left]

section
variable (system : CacheSystem)

theorem diskAt_length : system.diskAt system.log.length = system.disk := by
  simp [diskAt, disk]

theorem shown_suffix (k : StateKey) : system.shown k <:+ system.log := by
  unfold shown
  split
  · exact suffix_rfl
  · split
    · exact tail_suffix _
    · exact suffix_rfl

/-- The database when it held the blocks a key has to show. -/
theorem diskAt_shown (k : StateKey) : system.diskAt (system.shown k).length =
      system.genesis.replay system.config.clears (system.shown k) := by
  rw [diskAt, ← suffix_iff_eq_drop.mp (system.shown_suffix k)]
end

theorem diskAt_get_eq_shown {seen : Nat} (hseen : seen ≤ (system.shown k).length)
    (huntouched : ∀ block ∈ (system.shown k).take ((system.shown k).length - seen),
      block.touches system.config.clears k = false) : (system.diskAt seen).get k =
      (system.genesis.replay system.config.clears (system.shown k)).get k := by
  have hdrop : system.log.drop (system.log.length - seen) =
      (system.shown k).drop ((system.shown k).length - seen) := by
    obtain ⟨newer, hlog⟩ := system.shown_suffix k
    rw [← hlog, drop_length_sub_append newer hseen]
  unfold diskAt
  rw [hdrop, ← replay_get_untouched huntouched, take_append_drop]

def Commits : CacheEvent → Prop
  | .updateBlock _ | .writeThrough _ | .publish => True
  | _ => False

def SameCommits (system after : CacheSystem) : Prop :=
  ∃ entries opening handles ops, after =
    { system with entries := entries, opening := opening, handles := handles, ops := ops }

section
variable (system : CacheSystem)

theorem step_lookup (id : Nat) : ∃ ops, system.step (.lookup id) = { system with ops := ops } := by
  simp only [step]
  cases system.ops id with
  | none => exact ⟨_, rfl⟩
  | some op =>
    simp only [Option.elim_some, lookup]
    (repeat' split) <;> exact ⟨_, rfl⟩

theorem step_fetch (id : Nat) : ∃ ops, system.step (.fetch id) = { system with ops := ops } := by
  simp only [step]
  cases system.ops id with
  | none => exact ⟨_, rfl⟩
  | some op =>
    simp only [Option.elim_some, fetch]
    (repeat' split) <;> exact ⟨_, rfl⟩

theorem step_refill (id : Nat) :
    ∃ entries ops, system.step (.refill id) = { system with entries := entries, ops := ops } := by
  simp only [step]
  cases system.ops id with
  | none => exact ⟨_, _, rfl⟩
  | some op =>
    simp only [Option.elim_some, refill]
    (repeat' split) <;> exact ⟨_, _, rfl⟩

theorem step_reader (hevent : ¬ Commits event) : system.SameCommits (system.step event) := by
  cases event with
  | sampleHeight | evict => exact ⟨_, _, _, _, rfl⟩
  | takeState | read | storageSlots =>
    simp only [step]
    (repeat' split) <;> exact ⟨_, _, _, _, rfl⟩
  | lookup id =>
    obtain ⟨_, heq⟩ := system.step_lookup id
    exact ⟨_, _, _, _, heq⟩
  | fetch id =>
    obtain ⟨_, heq⟩ := system.step_fetch id
    exact ⟨_, _, _, _, heq⟩
  | refill id =>
    obtain ⟨_, _, heq⟩ := system.step_refill id
    exact ⟨_, _, _, _, heq⟩
  | updateBlock | writeThrough | _ => exact absurd trivial hevent

theorem step_config (event : CacheEvent) :
    (system.step event).config = system.config ∧ (system.step event).genesis = system.genesis := by
  by_cases hevent : Commits event
  · cases event with
    | updateBlock | writeThrough | publish =>
      simp only [step]
      (repeat' split) <;> exact ⟨rfl, rfl⟩
    | _ => exact hevent.elim
  · obtain ⟨_, _, _, _, h⟩ := system.step_reader hevent
    rw [h]
    exact ⟨rfl, rfl⟩
end

/-- Only the committer writes the database, one block when no other is in flight. -/
inductive LogStep (system : CacheSystem) :
    CacheEvent → List Block → Option (List StateKey) → U64 → Prop
  | kept (event : CacheEvent) :
      LogStep system event system.log system.inFlight system.committedHeight
  | committed {block : Block} (hidle : system.inFlight = none) :
      LogStep system (.updateBlock block) (block :: system.log) (some block.writtenKeys)
        system.committedHeight
  | wroteThrough {block : Block} {older : List Block} {pending : List StateKey} {k : StateKey}
      {value : k.Value} (hflight : system.inFlight = some pending) (hlog : system.log = block :: older)
      (hget : (DiffLayer.new block).get k = some value) :
      LogStep system (.writeThrough k) system.log (some (pending.filter (· ≠ k)))
        system.committedHeight
  | published {block : Block} {older : List Block} (hflight : system.inFlight = some [])
      (hlog : system.log = block :: older) :
      LogStep system .publish system.log none block.info.number

section
variable (system : CacheSystem) (event : CacheEvent)

theorem logStep : LogStep system event (system.step event).log (system.step event).inFlight
      (system.step event).committedHeight := by
  by_cases hevent : ¬ Commits event
  · obtain ⟨_, _, _, _, h⟩ := system.step_reader hevent
    rw [h]
    exact .kept _
  cases event with
  | updateBlock =>
    simp only [step]
    split
    · next hidle => exact .committed hidle
    · exact .kept _
  | writeThrough k =>
    simp only [step]
    split
    · next _ _ _ hflight hlog =>
      split
      · next _ hget => exact .wroteThrough hflight hlog hget
      · exact .kept _
    · exact .kept _
  | publish =>
    simp only [step]
    split
    · next hflight hlog => exact .published hflight hlog
    · exact .kept _
  | _ => exact absurd id hevent

/-- The step with its results named, to split on. -/
theorem exists_logStep : ∃ log inFlight height, (system.step event).log = log ∧
    (system.step event).inFlight = inFlight ∧ (system.step event).committedHeight = height ∧
    LogStep system event log inFlight height :=
  ⟨_, _, _, rfl, rfl, rfl, system.logStep event⟩

theorem step_log_suffix : system.log <:+ (system.step event).log := by
  obtain ⟨_, _, _, hlog, -, -, h⟩ := system.exists_logStep event
  rw [hlog]
  cases h with
  | kept | wroteThrough | published => exact suffix_rfl
  | committed => exact suffix_cons _ _
end

/-- The past of the database does not change. -/
theorem diskAt_step (h : n ≤ system.log.length) (event : CacheEvent) :
    (system.step event).diskAt n = system.diskAt n := by
  obtain ⟨newer, hlog⟩ := system.step_log_suffix event
  unfold diskAt
  rw [(system.step_config event).1, (system.step_config event).2, ← hlog, drop_length_sub_append newer h]

theorem settled_le : system.settled ≤ system.log.length := by
  unfold settled
  split <;> omega

theorem settled_le_shown (k : StateKey) : system.settled ≤ (system.shown k).length := by
  unfold settled shown
  split
  · rfl
  · split
    · rw [length_tail]
    · omega

section
variable (system : CacheSystem) (event : CacheEvent)

theorem step_log_length : system.log.length ≤ (system.step event).log.length :=
  (system.step_log_suffix event).length_le

theorem settled_step : system.settled ≤ (system.step event).settled := by
  obtain ⟨_, _, _, hlog, hflight, -, h⟩ := system.exists_logStep event
  cases h with
  | kept =>
    simp only [settled, hlog, hflight]
    rfl
  | committed hidle =>
    simp only [settled, hlog, hflight, hidle, length_cons]
    omega
  | wroteThrough hold =>
    simp only [settled, hlog, hflight, hold]
    rfl
  | published hold =>
    simp only [settled, hlog, hflight, hold]
    omega
end

/-! ### What a step does to a read -/

/-- A read in progress after a step: as before, at its start, or one stage on. -/
inductive OpStep (system : CacheSystem) (id : Nat) : ReadOp → Prop
  | kept {op : ReadOp} (hop : system.ops id = some op) : OpStep system id op
  | read {source : Nat} {handle : StateHandle} (hhandle : system.handles source = some handle)
      (k : StateKey) : OpStep system id ⟨handle, none, [k], [], .lookup⟩
  | storageSlots {source : Nat} {handle : StateHandle} (hhandle : system.handles source = some handle)
      (address : H256) :
      OpStep system id ⟨handle, some address, (slotCandidates (system.diskAt (system.version handle))
        handle.layers address).map (.slot address), [], .lookup⟩
  | found {op : ReadOp} {k : StateKey} {rest : List StateKey} {value : k.Value}
      (hop : system.ops id = some op) (hstage : op.stage = .lookup) (htodo : op.todo = k :: rest)
      (hfind : system.find op.handle k = some value) : OpStep system id (answer op k value)
  | missed {op : ReadOp} {k : StateKey} {rest : List StateKey}
      (hop : system.ops id = some op) (hstage : op.stage = .lookup) (htodo : op.todo = k :: rest)
      (hfind : system.find op.handle k = none) : OpStep system id { op with stage := .missed }
  | fetched {op : ReadOp} {k : StateKey} {rest : List StateKey}
      (hop : system.ops id = some op) (hstage : op.stage = .missed) (htodo : op.todo = k :: rest) :
      OpStep system id { op with
        stage := .fetched k ((system.diskAt (system.version op.handle)).get k)
          (system.version op.handle) }
  | refilled {op : ReadOp} {k : StateKey} {value : k.Value} {seen : Nat}
      (hop : system.ops id = some op) (hstage : op.stage = .fetched k value seen) :
      OpStep system id (answer op k value)

/-- What `setOp` leaves under an id: the new read or an old one. -/
theorem OpStep.of_setOp {changed : CacheSystem} {target : Nat} {op' : ReadOp} (hops : changed.ops = system.ops)
    (hnew : OpStep system target op') (h : (changed.setOp target op').ops id = some op) : OpStep system id op := by
  rcases insert_eq_some.mp h with ⟨rfl, rfl⟩ | ⟨-, hold⟩
  · exact hnew
  · rw [hops] at hold
    exact .kept hold

theorem step_ops (h : (system.step event).ops id = some op) : OpStep system id op := by
  cases event with
  | sampleHeight | evict => exact .kept h
  | takeState | updateBlock | writeThrough | publish =>
    simp only [step] at h
    (repeat' split at h) <;> exact .kept h
  | read _ _ k =>
    simp only [step] at h
    split at h
    · next hhandle => exact .of_setOp rfl (.read hhandle k) h
    · exact .kept h
  | storageSlots _ _ address =>
    simp only [step] at h
    split at h
    · next hhandle =>
      split at h
      · exact .of_setOp rfl (.storageSlots hhandle address) h
      · exact .kept h
    · exact .kept h
  | lookup target =>
    cases hop : system.ops target with
    | none =>
      simp only [step, hop] at h
      exact .kept h
    | some =>
      simp only [step, hop, Option.elim, lookup] at h
      split at h
      · next hstage htodo =>
        split at h
        · next hfind => exact .of_setOp rfl (.found hop hstage htodo hfind) h
        · next hfind => exact .of_setOp rfl (.missed hop hstage htodo hfind) h
      · exact .kept h
  | fetch target =>
    cases hop : system.ops target with
    | none =>
      simp only [step, hop] at h
      exact .kept h
    | some =>
      simp only [step, hop, Option.elim, fetch] at h
      split at h
      · next hstage htodo => exact .of_setOp rfl (.fetched hop hstage htodo) h
      · exact .kept h
  | refill target =>
    cases hop : system.ops target with
    | none =>
      simp only [step, hop] at h
      exact .kept h
    | some =>
      simp only [step, hop, Option.elim, refill] at h
      split at h
      · next hstage => exact .of_setOp rfl (.refilled hop hstage) h
      · exact .kept h

theorem step_handles {handle : StateHandle} (h : (system.step event).handles id = some handle) :
    system.handles id = some handle ∨ (handle.base = system.log.length ∧ handle.settled = system.settled) := by
  cases event with
  | takeState =>
    simp only [step] at h
    split at h
    · rcases insert_eq_some.mp h with ⟨rfl, rfl⟩ | ⟨-, hold⟩
      · exact .inr ⟨rfl, rfl⟩
      · exact .inl hold
    · exact .inl h
  | sampleHeight | evict => exact .inl h
  | read | storageSlots | updateBlock | writeThrough | publish =>
    simp only [step] at h
    (repeat' split at h) <;> exact .inl h
  | lookup target =>
    obtain ⟨_, heq⟩ := system.step_lookup target
    rw [heq] at h
    exact .inl h
  | fetch target =>
    obtain ⟨_, heq⟩ := system.step_fetch target
    rw [heq] at h
    exact .inl h
  | refill target =>
    obtain ⟨_, _, heq⟩ := system.step_refill target
    rw [heq] at h
    exact .inl h

/-! ### What a step does to the cache -/

/-- A refill would store its value: the key is vacant or holds a lower tag. -/
def RefillStores (system : CacheSystem) (k : StateKey) (height : U64) : Prop :=
  ∀ tag value, system.entries k = some (tag, value) → tag < height

/-- A cached value after a step: an old one, one a read has put there or one a commit has. -/
inductive EntryStep (system : CacheSystem) (k : StateKey) : CacheEvent → k.Value → Prop
  | kept {event : CacheEvent} {tag : U64} {value : k.Value}
      (hentry : system.entries k = some (tag, value)) : EntryStep system k event value
  | refilled {id : Nat} {op : ReadOp} {value : k.Value} {seen : Nat} {height : U64}
      (henabled : system.config.enabled = true) (hop : system.ops id = some op)
      (hstage : op.stage = .fetched k value seen) (hheight : op.handle.cacheViewHeight = some height)
      (hstores : system.RefillStores k height) : EntryStep system k (.refill id) value
  | wroteThrough {block : Block} {older : List Block} {pending : List StateKey} {value : k.Value}
      (henabled : system.config.enabled = true) (hflight : system.inFlight = some pending)
      (hlog : system.log = block :: older) (hget : (DiffLayer.new block).get k = some value) :
      EntryStep system k (.writeThrough k) value

theorem EntryStep.of_refill (hop : system.ops id = some op) (h : (system.refill id op).entries k = some (tag, value)) :
    EntryStep system k (.refill id) value := by
  cases hstage : op.stage with
  | lookup | missed =>
    simp only [refill, hstage] at h
    exact .kept h
  | fetched target fetched =>
    cases hheight : op.handle.cacheViewHeight with
    | none =>
      simp only [refill, hstage, hheight] at h
      exact .kept h
    | some height =>
      simp only [refill, hstage, setOp, hheight] at h
      by_cases henabled : system.config.enabled
      · rw [if_pos henabled] at h
        rcases system.entries.refill_cases target height fetched with heq | ⟨hstores, heq⟩
        · rw [heq] at h
          exact .kept h
        rw [heq] at h
        by_cases hk : k = target
        · subst hk
          rw [insert_self] at h
          cases h
          exact .refilled henabled hop hstage hheight hstores
        · rw [insert_of_ne _ _ _ hk] at h
          exact .kept h
      · rw [if_neg henabled] at h
        exact .kept h

theorem step_entries (h : (system.step event).entries k = some (tag, value)) : EntryStep system k event value := by
  cases event with
  | sampleHeight => exact .kept h
  | takeState | read | storageSlots | updateBlock | publish =>
    simp only [step] at h
    (repeat' split at h) <;> exact .kept h
  | lookup target =>
    obtain ⟨_, heq⟩ := system.step_lookup target
    rw [heq] at h
    exact .kept h
  | fetch target =>
    obtain ⟨_, heq⟩ := system.step_fetch target
    rw [heq] at h
    exact .kept h
  | refill target =>
    simp only [step] at h
    cases hop : system.ops target with
    | none =>
      rw [hop] at h
      exact .kept h
    | some op =>
      rw [hop] at h
      exact .of_refill hop h
  | evict => exact .kept (evict_eq_some h)
  | writeThrough target =>
    simp only [step] at h
    split at h
    · next _ _ _ hflight hlog =>
      split at h
      · next _ hget =>
        by_cases henabled : system.config.enabled
        · rw [if_pos henabled] at h
          by_cases hk : k = target
          · subst hk
            simp only [insert_self] at h
            cases h
            exact .wroteThrough henabled hflight hlog hget
          · simp only [insert_of_ne _ _ _ hk] at h
            exact .kept h
        · rw [if_neg henabled] at h
          exact .kept h
      · exact .kept h
    · exact .kept h

end CacheSystem
end LeafageEvm
