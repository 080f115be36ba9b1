import LeafageEvm.KafkaModel

/-! What a restart finds in the topic. The offset written is the one after the message of the block the
database stands at, and the database only moves to descendants of that block. So nothing below the
offset is needed again, if a block is always announced in earlier messages than its descendants. -/

namespace LeafageEvm.KafkaUpdater
open Nat List
variable {hash : H256} {block : Block} {event : KafkaEvent} {config : KafkaConfig} {source : BlockSource} {log : KafkaLog}
  {updater : KafkaUpdater}

def writes (updater : KafkaUpdater) (event : KafkaEvent) : Option Nat :=
  match event, updater.phase with
  | .commit .none, .committing _ => (updater.hashToBlockctx updater.tree.db.latest.hash).map (·.offset + 1)
  | .commit .none, .failed _ => (updater.hashToBlockctx updater.tree.db.latest.hash).map (·.offset + 1)
  | _, _ => none

/-- No message below the offset announces a block that is still to come after the database's. -/
def NothingAbove (source : BlockSource) (log : KafkaLog) (updater : KafkaUpdater) (offset : Nat) : Prop :=
  ∀ i < offset, ∀ hash ∈ log i, ¬ source.StrictlyDescends hash updater.tree.db.latest.hash

/-- The offset that is written, if any, leaves nothing to come below it. -/
def WritesBelow (source : BlockSource) (log : KafkaLog) (updater : KafkaUpdater) (event : KafkaEvent) : Prop :=
  ∀ offset, updater.writes event = some offset → updater.NothingAbove source log offset

/-- The blocks that the updater holds are those announced. -/
structure Fetched (source : BlockSource) (updater : KafkaUpdater) : Prop where
  contexts : ∀ hash context, updater.hashToBlockctx hash = some context → context.block = source.block hash
  path : ∀ messages path, updater.phase = .applying messages path → ∀ block ∈ path, ∃ hash, block = source.block hash

theorem fetched_start (db : DiskState) (offsetFile : Option Nat) (latest : Nat) :
    (start config db offsetFile latest).Fetched source := by
  constructor
  · nofun
  · nofun

theorem commitOffset_eq (updater : KafkaUpdater) (fault : CommitFault) :
    (updater.commitOffset fault).2.tree = updater.tree ∧
      (∀ hash context, (updater.commitOffset fault).2.hashToBlockctx hash = some context →
        updater.hashToBlockctx hash = some context) ∧
      ((updater.commitOffset fault).2.offsetFile = updater.offsetFile ∨
        fault = .none ∧ (updater.commitOffset fault).2.offsetFile =
          (updater.hashToBlockctx updater.tree.db.latest.hash).map (·.offset + 1)) := by
  have hclear : ∀ hash context, (updater.clear updater.tree.db.latest).hashToBlockctx hash = some context →
      updater.hashToBlockctx hash = some context := by
    intro _ _ hget
    rw [clear, HashMap.retain_eq_some] at hget
    exact hget.1
  cases hcontext : updater.hashToBlockctx updater.tree.db.latest.hash with
  | none =>
    cases fault with
    | unreadable => exact ⟨rfl, fun _ _ hget => hget, .inl rfl⟩
    | none | _ =>
      simp only [commitOffset, hcontext]
      exact ⟨rfl, hclear, .inl rfl⟩
  | some =>
    cases fault with
    | unreadable => exact ⟨rfl, fun _ _ hget => hget, .inl rfl⟩
    | unwritable =>
      simp only [commitOffset, hcontext]
      exact ⟨rfl, hclear, .inl rfl⟩
    | none =>
      simp only [commitOffset, hcontext]
      exact ⟨rfl, hclear, .inr ⟨trivial, rfl⟩⟩

theorem applyBlock_eq (updater : KafkaUpdater) (block : Block) (next failed : KafkaPhase) :
    ∃ phase, (phase = next ∨ phase = failed ∨ phase = .stopped) ∧ updater.applyBlock block next failed =
        { updater with tree := (updater.tree.updateBlock block).2, phase := phase } := by
  unfold applyBlock
  split
  · next heq => exact ⟨_, .inl rfl, by rw [heq]⟩
  · next heq => exact ⟨_, .inr (.inl rfl), by rw [heq]⟩
  · next heq => exact ⟨_, .inr (.inr rfl), by rw [heq]⟩

structure Resumes (source : BlockSource) (log : KafkaLog) (updater : KafkaUpdater) : Prop where
  fetched : updater.Fetched source
  grounded : updater.tree.Grounded source
  offset : ∀ offset, updater.offsetFile = some offset → updater.NothingAbove source log offset

/-- The database moves to descendants, and what comes after them comes after it. -/
theorem NothingAbove.moved {updater' : KafkaUpdater} {offset : Nat} (h : updater.NothingAbove source log offset)
    (hmoved : source.Descends updater'.tree.db.latest.hash updater.tree.db.latest.hash) :
    updater'.NothingAbove source log offset :=
  fun i hi hash hhash habove => h i hi hash hhash (habove.trans_left hmoved)

/-- One call of `update_block`. -/
theorem Resumes.applyBlock (h : updater.Resumes source log)
    (hblock : block = source.block hash) {next failed : KafkaPhase}
    (hpath : ∀ phase, phase = next ∨ phase = failed ∨ phase = .stopped →
      ∀ messages path, phase = .applying messages path → ∀ block ∈ path, ∃ hash, block = source.block hash) :
    (updater.applyBlock block next failed).Resumes source log := by
  obtain ⟨phase, hphase, heq⟩ := updater.applyBlock_eq block next _
  have hinfo : block.info = (source.block block.info.hash).info := by rw [hblock, source.hash_eq]
  obtain ⟨hgrounded, hmoved⟩ := h.grounded.updateBlock hinfo _ (.head _)
  rw [heq]
  exact ⟨⟨h.fetched.contexts, hpath phase hphase⟩, hgrounded, fun offset hoffset => (h.offset offset hoffset).moved hmoved⟩

theorem Resumes.commitOffset (h : updater.Resumes source log) {fault : CommitFault}
    (hwrites : fault = .none → ∀ context, updater.hashToBlockctx updater.tree.db.latest.hash = some context →
      updater.NothingAbove source log (context.offset + 1)) {phase : KafkaPhase}
    (hphase : ∀ messages path, phase ≠ .applying messages path) :
    Resumes source log { (updater.commitOffset fault).2 with phase := phase } := by
  obtain ⟨htree, hcontexts, hfile⟩ := updater.commitOffset_eq fault
  refine ⟨⟨fun hash context hget => h.fetched.contexts hash context (hcontexts hash context hget),
    fun messages path heq => absurd heq (hphase messages path)⟩, ?_, fun offset hoffset => ?_⟩
  · rw [htree]
    exact h.grounded
  · have hbelow : updater.NothingAbove source log offset := by
      rcases hfile with hkept | ⟨hfault, hwritten⟩
      · exact h.offset offset (hkept.symm.trans hoffset)
      · obtain ⟨context, hcontext, rfl⟩ := Option.map_eq_some_iff.mp (hwritten.symm.trans hoffset)
        exact hwrites hfault context hcontext
    refine hbelow.moved ?_
    rw [htree]
    exact .refl

section
variable (h : updater.Fetched source)
include h
/-- What a preparation leaves in the map is from it or from before. -/
theorem prepareUpdate_contexts (messages : List KafkaMessage) {context : BlockContextWithOffset}
    (hget : (updater.prepareUpdate source messages).hashToBlockctx hash = some context) :
    context.block = source.block hash := by
  rcases HashMap.foldl_insert_eq_some hget with ⟨_, -, rfl, rfl⟩ | hold
  · rfl
  · exact h.contexts hash context hold

theorem updatePath_prepareUpdate (messages : List KafkaMessage) :
    (updater.prepareUpdate source messages).updatePath messages =
      (newBlocks messages).map fun announced => source.block announced.1 := by
  rw [← filterMap_eq_map]
  apply filterMap_congr
  intro announced hannounced
  have hfound : (updater.prepareUpdate source messages).hashToBlockctx announced.1 ≠ none :=
    HashMap.foldl_insert_ne_none _ _ (.inl (mem_map_of_mem hannounced))
  obtain ⟨_, hcontext⟩ := Option.ne_none_iff_exists'.mp hfound
  rw [hcontext, Option.map_some, prepareUpdate_contexts h messages hcontext]
  rfl

theorem Fetched.inFlight (hblock : updater.inFlight source hash = some block) :
    ∃ hash, block = source.block hash := by
  unfold KafkaUpdater.inFlight at hblock
  split at hblock
  · exact ⟨hash, (Option.some.inj hblock).symm⟩
  · next _ _ _ hphase =>
    cases hblock
    exact h.path _ _ hphase _ (.head _)
  · cases hblock

theorem Fetched.crashDb (hground : updater.tree.Grounded source) (during : Option (H256 × Nat)) :
    (updater.crashDb source during).latest = (source.block (updater.crashDb source during).latest.hash).info ∧
      source.Descends (updater.crashDb source during).latest.hash updater.tree.db.latest.hash := by
  cases during with
  | none => exact ⟨hground.latest, .refl⟩
  | some flight =>
    obtain ⟨hash, n⟩ := flight
    cases hflight : (updater.inFlight source hash).bind fun block => (updater.tree.updateStates block)[n]? with
    | none =>
      simp only [KafkaUpdater.crashDb, Option.bind_some, hflight]
      exact ⟨hground.latest, .refl⟩
    | some state =>
      simp only [KafkaUpdater.crashDb, Option.bind_some, hflight]
      obtain ⟨block, hblock, hget⟩ := Option.bind_eq_some_iff.mp hflight
      obtain ⟨hash', rfl⟩ := h.inFlight hblock
      have hinfo : (source.block hash').info = (source.block (source.block hash').info.hash).info := by
        rw [source.hash_eq]
      obtain ⟨hgrounded, hmoved⟩ := hground.updateBlock hinfo state (.tail _ (mem_of_getElem? hget))
      exact ⟨hgrounded.latest, hmoved⟩
end

theorem resumes_start {db : DiskState} (hlatest : db.latest = (source.block db.latest.hash).info)
    {offsetFile : Option Nat} (latest : Nat)
    (hoffset : ∀ offset, offsetFile = some offset → ∀ i < offset, ∀ hash ∈ log i,
      ¬ source.StrictlyDescends hash db.latest.hash) : (start config db offsetFile latest).Resumes source log where
  fetched := fetched_start db offsetFile latest
  grounded := StateTree.grounded_new config.tree config.clears hlatest
  offset := hoffset

theorem Resumes.step (h : updater.Resumes source log) (hwrites : updater.WritesBelow source log event) :
    (updater.step config source log event).Resumes source log := by
  have hsame : ∀ {phase : KafkaPhase} position readFromKafka,
      (∀ messages path, phase ≠ .applying messages path) →
      Resumes source log { updater with position, readFromKafka, phase } := by
    intro _ _ _ hphase
    exact { h with fetched := ⟨h.fetched.contexts, fun messages path heq => absurd heq (hphase messages path)⟩ }
  cases event with
  | poll n =>
    simp only [step]
    split
    · split
      · refine hsame _ _ fun messages path heq => ?_
        split at heq <;> cases heq
      · exact h
    · exact h
  | catchUp =>
    simp only [step]
    split
    · refine h.applyBlock rfl ?_
      rintro _ (rfl | rfl | rfl) _ _ heq <;> cases heq
    · exact h
  | caughtUp =>
    simp only [step]
    split
    · exact hsame _ _ (by simp)
    · exact h
  | prepare fetched =>
    simp only [step]
    split
    · next messages _ =>
      split
      · refine { h with fetched := ⟨fun hash context hget => prepareUpdate_contexts h.fetched messages hget, ?_⟩ }
        intro _ _ heq _ hblock
        cases heq
        rw [updatePath_prepareUpdate h.fetched] at hblock
        obtain ⟨announced, -, rfl⟩ := mem_map.mp hblock
        exact ⟨announced.1, rfl⟩
      · exact hsame _ _ (by simp)
    · exact h
  | apply =>
    simp only [step]
    split
    · exact hsame _ _ (by simp)
    · next messages block _ hphase =>
      have hpath := h.fetched.path _ _ hphase
      obtain ⟨hash, hblock⟩ := hpath block (.head _)
      split
      · refine h.applyBlock hblock ?_
        rintro _ (rfl | rfl | rfl) _ _ heq
        · cases heq
          exact fun other hother => hpath other (.tail _ hother)
        · cases heq
        · cases heq
      · exact hsame _ _ (by simp)
    · exact h
  | commit =>
    simp only [step]
    split
    iterate 2
      next hphase =>
        refine h.commitOffset (fun hfault context hcontext => hwrites _ ?_) (fun messages path heq => ?_)
        · simp only [hfault, writes, hphase, hcontext, Option.map_some]
        · split at heq <;> cases heq
    · exact h
  | crash during latest =>
    obtain ⟨hlatest, hmoved⟩ := h.fetched.crashDb h.grounded during
    exact resumes_start hlatest latest fun offset hoffset i hi hash hhash habove =>
      h.offset offset hoffset i hi hash hhash (habove.trans_left hmoved)

/-! ### A topic in order -/

/-- Every announcement of a block comes in an earlier message than those of its descendants. -/
def InOrder (source : BlockSource) (log : KafkaLog) : Prop :=
  ∀ i j, ∀ hash ∈ log i, ∀ later ∈ log j, source.StrictlyDescends later hash → i < j

/-- What the updater holds is from the messages at the offsets it holds for them. -/
structure Announced (log : KafkaLog) (updater : KafkaUpdater) : Prop where
  contexts : ∀ hash context, updater.hashToBlockctx hash = some context → hash ∈ log context.offset
  messages : ∀ message ∈ updater.phase.messages, message.newBlocks = log message.offset

theorem announced_start (db : DiskState) (offsetFile : Option Nat) (latest : Nat) :
    (start config db offsetFile latest).Announced log := by
  constructor <;> nofun

section
variable (h : updater.Announced log)
include h
theorem Announced.applyBlock {next failed : KafkaPhase} (hnext : next.messages ⊆ updater.phase.messages)
    (hfailed : failed.messages ⊆ updater.phase.messages) : (updater.applyBlock block next failed).Announced log := by
  obtain ⟨phase, hphase, heq⟩ := updater.applyBlock_eq block next failed
  rw [heq]
  refine ⟨h.contexts, fun message hmem => ?_⟩
  rcases hphase with rfl | rfl | rfl
  · exact h.messages message (hnext hmem)
  · exact h.messages message (hfailed hmem)
  · cases hmem

theorem Announced.commitOffset (fault : CommitFault) {phase : KafkaPhase} (hphase : phase.messages ⊆ updater.phase.messages) :
    Announced log { (updater.commitOffset fault).2 with phase := phase } :=
  ⟨fun hash context hget => h.contexts hash context ((updater.commitOffset_eq fault).2.1 hash context hget),
    fun message hmem => h.messages message (hphase hmem)⟩

theorem Announced.prepareUpdate {messages : List KafkaMessage} (hphase : updater.phase = .preparing messages) {context}
    (hget : (updater.prepareUpdate source messages).hashToBlockctx hash = some context) : hash ∈ log context.offset := by
  rcases HashMap.foldl_insert_eq_some hget with ⟨_, hmem, rfl, rfl⟩ | hold
  · obtain ⟨message, hmessage, hblocks⟩ := mem_flatMap.mp hmem
    obtain ⟨hash, hhash, rfl⟩ := mem_map.mp hblocks
    rw [← h.messages message (by rw [hphase]; exact hmessage)]
    exact hhash
  · exact h.contexts hash context hold

theorem Announced.step : (updater.step config source log event).Announced log := by
  have hphased : ∀ {phase : KafkaPhase} position readFromKafka, phase.messages ⊆ updater.phase.messages →
      Announced log { updater with position, readFromKafka, phase } :=
    fun _ _ hmessages => ⟨h.contexts, fun message hmem => h.messages message (hmessages hmem)⟩
  cases event with
  | poll n =>
    simp only [KafkaUpdater.step]
    split
    · split
      · refine ⟨h.contexts, fun message hmem => ?_⟩
        have hread : message ∈ (List.range' updater.position n).map fun offset => KafkaMessage.mk offset (log offset) := by
          split at hmem <;> exact hmem
        obtain ⟨_, -, rfl⟩ := mem_map.mp hread
        rfl
      · exact h
    · exact h
  | catchUp =>
    simp only [KafkaUpdater.step]
    split
    · next hphase => exact h.applyBlock (by rw [hphase]; exact fun _ => id) (by rw [hphase]; exact fun _ => id)
    · exact h
  | caughtUp =>
    simp only [KafkaUpdater.step]
    split
    · next hphase => exact hphased _ _ (by rw [hphase]; exact fun _ => id)
    · exact h
  | prepare =>
    simp only [KafkaUpdater.step]
    split
    · next hphase =>
      split
      · refine ⟨fun _ _ hget => h.prepareUpdate hphase hget, fun message hmem => h.messages message ?_⟩
        rw [hphase]
        exact hmem
      · exact hphased _ _ (by rw [hphase]; exact fun _ => id)
    · exact h
  | apply =>
    simp only [KafkaUpdater.step]
    split
    · next hphase => exact hphased _ _ (by rw [hphase]; exact fun _ => id)
    · next hphase =>
      split
      · exact h.applyBlock (by rw [hphase]; exact fun _ => id) (by rw [hphase]; exact fun _ => id)
      · exact hphased _ _ (by rw [hphase]; exact fun _ => id)
    · exact h
  | commit =>
    simp only [KafkaUpdater.step]
    split
    iterate 2
      next hphase =>
        refine h.commitOffset _ fun _ hmem => ?_
        rw [hphase]
        split at hmem
        · first | exact hmem | cases hmem
        · first | exact hmem | cases hmem
    · exact h
  | crash => exact announced_start ..

/-- On a topic in order the offset after the message of a block is below those of its descendants. -/
theorem Announced.writesBelow (horder : InOrder source log) : updater.WritesBelow source log event := by
  intro offset hwrites i hi hash hhash habove
  have hcontext : ∃ context, updater.hashToBlockctx updater.tree.db.latest.hash = some context ∧ context.offset + 1 = offset := by
    unfold writes at hwrites
    split at hwrites
    · exact Option.map_eq_some_iff.mp hwrites
    · exact Option.map_eq_some_iff.mp hwrites
    · cases hwrites
  obtain ⟨context, hcontext, rfl⟩ := hcontext
  have hlater := horder context.offset i _ (h.contexts _ context hcontext) hash hhash habove
  omega
end

/-- **No block is lost.** On a topic in order, from any database and any offset file below which nothing is
to come, after any events: every block that a message below the offset in the file announces and that
descends from the block the database stands at is that block. -/
theorem resume_offset_loses_nothing (horder : InOrder source log) {db : DiskState}
    (hlatest : db.latest = (source.block db.latest.hash).info) {offsetFile : Option Nat} (latest : Nat)
    (hoffset : ∀ offset, offsetFile = some offset → ∀ i < offset, ∀ hash ∈ log i,
      ¬ source.StrictlyDescends hash db.latest.hash) (events : List KafkaEvent) :
    let updater := events.foldl (step config source log) (start config db offsetFile latest)
    ∀ offset, updater.offsetFile = some offset → ∀ i < offset, ∀ hash ∈ log i,
      source.Descends hash updater.tree.db.latest.hash → hash = updater.tree.db.latest.hash := by
  intro updater offset hfile i hi hash hhash hdescends
  have hinv : updater.Announced log ∧ updater.Resumes source log :=
    List.foldlRecOn (motive := fun updater => Announced log updater ∧ Resumes source log updater) events _
      ⟨announced_start db offsetFile latest, resumes_start hlatest latest hoffset⟩
      fun _ h _ _ => ⟨h.1.step, h.2.step (h.1.writesBelow horder)⟩
  rcases Relation.reflTransGen_iff_eq_or_transGen.mp hdescends with heq | habove
  · exact heq.symm
  · exact absurd habove (hinv.2.offset offset hfile i hi hash hhash)

def lineSource : BlockSource where
  block hash := { info :=
    { hash := hash
      parentHash := if hash.val ≤ 100 ∨ 200 < hash.val then 0 else ⟨hash.val - 1, (Nat.sub_le _ _).trans_lt hash.isLt⟩
      number := if hash.val ≤ 200 then ⟨(hash.val - 100) % 2 ^ 64, Nat.mod_lt _ (by decide)⟩ else 0 } }
  hash_eq _ := rfl

theorem lineSource_parent (hash : H256) : lineSource.parent hash < hash ∨ lineSource.parent hash = 0 := by
  by_cases hout : hash.val ≤ 100 ∨ 200 < hash.val
  · exact .inr (if_pos hout)
  · have hparent : lineSource.parent hash = ⟨hash.val - 1, (sub_le ..).trans_lt hash.isLt⟩ := if_neg hout
    rw [hparent]
    exact .inl (Fin.lt_def.mpr (sub_one_lt (by omega)))

theorem lineSource_strictlyDescends {ancestor : H256} (h : lineSource.StrictlyDescends hash ancestor) :
    ancestor < hash ∨ ancestor = 0 := by
  induction h with
  | single hparent =>
    rw [← hparent]
    exact lineSource_parent hash
  | tail _ hparent ih =>
    rw [← hparent]
    rcases lineSource_parent _ with hlt | hzero
    · rcases ih with hlt' | rfl
      · exact .inl (hlt.trans hlt')
      · exact absurd hlt (Fin.not_lt_zero _)
    · exact .inr hzero

/-- Depth limit 1, so that each block is committed when its child arrives. -/
def shallowConfig : KafkaConfig := { tree := { diffTreeDepthLimit := 1 } }

/-- The events of a batch of `n` messages with `m` blocks. -/
def batchEvents (n m : Nat) : List KafkaEvent :=
  .poll n :: .prepare true :: List.replicate (m + 1) (.apply true) ++ [.commit .none]

/-- Two batches of one message with one block each, then a crash. -/
def lineEvents : List KafkaEvent := batchEvents 1 1 ++ batchEvents 1 1 ++ [.crash none 2]

/-- The message at each offset announces the next block of the chain. -/
def lineLog : KafkaLog := fun offset =>
  if h : offset < 100 then [⟨101 + offset, (Nat.add_lt_add_left h 101).trans (by decide)⟩] else []

theorem lineLog_inOrder : InOrder lineSource lineLog := by
  intro i j hash hhash later hlater habove
  rw [lineLog] at hhash hlater
  split at hhash <;> split at hlater <;> simp only [mem_singleton, not_mem_nil] at hhash hlater
  subst hhash hlater
  rcases lineSource_strictlyDescends habove with hlt | hzero
  · have := Fin.lt_def.mp hlt
    simp only at this
    omega
  · have := Fin.val_eq_of_eq hzero
    simp at this

/-- After them the offset written is that of the second message, and the first has nothing to come. -/
theorem resume_offset_loses_nothing_line :
    let updater := lineEvents.foldl (step shallowConfig lineSource lineLog) (start shallowConfig genesisDisk (some 0) 0)
    updater.offsetFile = some 1 ∧ updater.tree.db.latest.hash = 101 ∧
      ∀ i < 1, ∀ hash ∈ lineLog i, lineSource.Descends hash updater.tree.db.latest.hash →
        hash = updater.tree.db.latest.hash := by
  have hoffset : ∀ offset, some 0 = some offset → ∀ i < offset, ∀ hash ∈ lineLog i,
      ¬ lineSource.StrictlyDescends hash genesisDisk.latest.hash := by
    intro _ heq i hi
    cases heq
    exact absurd hi (not_lt_zero i)
  have hlatest : genesisDisk.latest = (lineSource.block genesisDisk.latest.hash).info := by decide
  exact ⟨by decide, by decide, resume_offset_loses_nothing lineLog_inOrder hlatest 0 hoffset lineEvents 1 (by decide)⟩

/-- **A block lost.** Message 0 announces 101 and its child 102; with depth limit 1 the database stands at
101 after the batch, offset 1 is written, and 102 is not read again. And if 101 is announced again after
102, the offset written is the one after that. -/
theorem child_announced_with_parent_lost : (let log : KafkaLog := fun offset => if offset = 0 then [101, 102] else []
      let updater := (batchEvents 1 2 ++ [KafkaEvent.crash none 1]).foldl (step shallowConfig lineSource log)
        (start shallowConfig genesisDisk (some 0) 0)
      updater.offsetFile = some 1 ∧ 102 ∈ log 0 ∧ updater.tree.db.latest.hash = 101 ∧
        lineSource.StrictlyDescends 102 101) ∧
    (let log : KafkaLog := fun offset => if offset = 0 then [101] else if offset = 1 then [102] else if offset = 2 then [101] else []
      let updater := (batchEvents 3 3 ++ [KafkaEvent.crash none 3]).foldl (step shallowConfig lineSource log)
        (start shallowConfig genesisDisk (some 0) 0)
      updater.offsetFile = some 3 ∧ 102 ∈ log 1 ∧ updater.tree.db.latest.hash = 101 ∧
        lineSource.StrictlyDescends 102 101) := by
  have hchild : lineSource.StrictlyDescends 102 101 := .single (by decide)
  exact ⟨⟨by decide, by decide, by decide, hchild⟩, by decide, by decide, by decide, hchild⟩

end LeafageEvm.KafkaUpdater
