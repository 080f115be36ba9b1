import LeafageEvm.KafkaResume
import LeafageEvm.TreeIndexed

/-! Blocks that are announced again. After a restart, and in a batch that is tried again, the tree is
offered blocks that the database already has. It knows only the block the database stands at; one below
it fails with an unknown parent, the batch is tried again, and so on forever. -/

namespace LeafageEvm
open StateTree List

namespace KafkaUpdater

variable {config : KafkaConfig} {source : BlockSource} {log : KafkaLog} {updater : KafkaUpdater}
variable {event : KafkaEvent} {events : List KafkaEvent}

theorem applyBlock_cases (updater : KafkaUpdater) (block : Block) (next failed : KafkaPhase) :
    ∃ phase, updater.applyBlock block next failed =
        { updater with tree := (updater.tree.updateBlock block).2, phase := phase } ∧
      (((updater.tree.updateBlock block).1 = .ok ∧ phase = next) ∨
        ((∃ error, (updater.tree.updateBlock block).1 = .error error) ∧ phase = failed) ∨
        ((updater.tree.updateBlock block).1 = .panic ∧ phase = .stopped)) := by
  unfold applyBlock
  split
  · next heq => exact ⟨_, by rw [heq], .inl ⟨by rw [heq], rfl⟩⟩
  · next error _ heq => exact ⟨_, by rw [heq], .inr (.inl ⟨⟨error, by rw [heq]⟩, rfl⟩)⟩
  · next heq => exact ⟨_, by rw [heq], .inr (.inr ⟨by rw [heq], rfl⟩)⟩

/-- **The invariant**: unless a panic has stopped the updater, the index is over the database's block. -/
structure Live (source : BlockSource) (updater : KafkaUpdater) : Prop where
  fetched : updater.Fetched source
  grounded : updater.tree.Grounded source
  nonzero : updater.tree.db.latest.hash ≠ 0
  announced : ∀ announced ∈ newBlocks updater.phase.messages, announced.1 ≠ 0
  path : ∀ messages path, updater.phase = .applying messages path →
    ∀ block ∈ path, ∃ hash, hash ≠ 0 ∧ block = source.block hash
  live : updater.phase = .stopped ∨ updater.tree.poisoned = false ∧ updater.tree.Indexed source

theorem live_start {db : DiskState} (hlatest : db.latest = (source.block db.latest.hash).info)
    (hne : db.latest.hash ≠ 0) (offsetFile : Option Nat) (latest : Nat) :
    (start config db offsetFile latest).Live source where
  fetched := fetched_start db offsetFile latest
  grounded := grounded_new config.tree config.clears hlatest
  nonzero := hne
  announced _ h := by cases h
  path _ _ h := by cases h
  live := .inr ⟨rfl, indexed_new config.tree config.clears hlatest hne⟩

section
variable (h : updater.Live source)
include h
theorem Live.of_phase {phase : KafkaPhase} (hphase : updater.phase = phase) (hrunning : phase ≠ .stopped) :
    updater.phase ≠ .stopped ∧ ∀ announced ∈ newBlocks phase.messages, announced.1 ≠ 0 := by
  subst hphase
  exact ⟨hrunning, h.announced⟩

theorem Live.setPhase {updater' : KafkaUpdater} (htree : updater'.tree = updater.tree)
    (hcontexts : ∀ hash context, updater'.hashToBlockctx hash = some context → context.block = source.block hash)
    (hrunning : updater.phase ≠ .stopped)
    (hannounced : ∀ announced ∈ newBlocks updater'.phase.messages, announced.1 ≠ 0)
    (hpath : ∀ messages path, updater'.phase = .applying messages path →
      ∀ block ∈ path, ∃ hash, hash ≠ 0 ∧ block = source.block hash) : updater'.Live source where
  fetched := ⟨hcontexts, fun messages path heq block hblock => by
    obtain ⟨hash, -, rfl⟩ := hpath messages path heq block hblock
    exact ⟨hash, rfl⟩⟩
  grounded := htree ▸ h.grounded
  nonzero := htree ▸ h.nonzero
  announced := hannounced
  path := hpath
  live := by
    rw [htree]
    exact .inr (h.live.resolve_left hrunning)

/-- One call of `update_block`. -/
theorem Live.applyBlock (hsource : source.WellNumbered) {hash : H256} (hne : hash ≠ 0)
    (hrunning : updater.phase ≠ .stopped) {next failed : KafkaPhase}
    (hannounced : ∀ phase, phase = next ∨ phase = failed → ∀ announced ∈ newBlocks phase.messages, announced.1 ≠ 0)
    (hpath : ∀ phase, phase = next ∨ phase = failed → ∀ messages path, phase = .applying messages path →
      ∀ block ∈ path, ∃ hash, hash ≠ 0 ∧ block = source.block hash) :
    (updater.applyBlock (source.block hash) next failed).Live source := by
  obtain ⟨-, hindexed⟩ := h.live.resolve_left hrunning
  have hinfo : (source.block hash).info = (source.block (source.block hash).info.hash).info := by rw [source.hash_eq]
  obtain ⟨hground, hmoved⟩ := h.grounded.updateBlock hinfo _ (.head _)
  have hnonzero : (updater.tree.updateBlock (source.block hash)).2.db.latest.hash ≠ 0 := by
    intro hzero
    rw [hzero] at hmoved
    exact h.nonzero (hsource.eq_zero hmoved)
  obtain ⟨phase, heq, hcase⟩ := updater.applyBlock_cases (source.block hash) next failed
  have hstep : phase = .stopped ∨ ((updater.tree.updateBlock (source.block hash)).1 ≠ .panic ∧ (phase = next ∨ phase = failed)) := by
    rcases hcase with ⟨hok, hphase⟩ | ⟨⟨_, herror⟩, hphase⟩ | ⟨-, hphase⟩
    · exact .inr ⟨by simp [hok], .inl hphase⟩
    · exact .inr ⟨by simp [herror], .inr hphase⟩
    · exact .inl hphase
  rw [heq]
  rcases hstep with rfl | ⟨hreturns, hphase⟩
  · exact ⟨⟨h.fetched.contexts, by simp⟩, hground, hnonzero, by simp [KafkaPhase.messages, newBlocks], by simp, .inl rfl⟩
  refine ⟨⟨h.fetched.contexts, fun messages path hpath' block hblock => ?_⟩, hground, hnonzero,
    hannounced phase hphase, hpath phase hphase,
    .inr ⟨updateBlock_poisoned hreturns, (hindexed.updateBlock hsource hne hreturns).1⟩⟩
  obtain ⟨hash', -, rfl⟩ := hpath phase hphase messages path hpath' block hblock
  exact ⟨hash', rfl⟩
end

theorem Live.step (hsource : source.WellNumbered) (hlog : ∀ i, 0 ∉ log i) (h : updater.Live source)
    (hevent : ∀ hash, event = .catchUp hash → hash ≠ 0) : (updater.step config source log event).Live source := by
  cases event with
  | poll n =>
    simp only [step]
    split
    · next hphase =>
      obtain ⟨hrunning, -⟩ := h.of_phase hphase (by simp)
      split
      · have hmessages : ∀ announced ∈ newBlocks ((range' updater.position n).map fun offset =>
            ⟨offset, log offset⟩), announced.1 ≠ 0 := by
          intro _ hannounced hzero
          simp only [newBlocks, mem_flatMap, mem_map] at hannounced
          obtain ⟨_, ⟨offset, -, rfl⟩, hash, hhash, rfl⟩ := hannounced
          exact hlog offset (hzero ▸ hhash)
        refine h.setPhase rfl h.fetched.contexts hrunning ?_ ?_
        · split <;> exact hmessages
        · intro _ _ heq
          split at heq <;> cases heq
      · exact h
    · exact h
  | catchUp hash =>
    simp only [step]
    split
    · next _ hphase =>
      obtain ⟨hrunning, hannounced⟩ := h.of_phase hphase (by simp)
      refine h.applyBlock hsource (hevent hash rfl) hrunning ?_ ?_
      · rintro _ (rfl | rfl) <;> exact hannounced
      · rintro _ (rfl | rfl) _ _ heq <;> cases heq
    · exact h
  | caughtUp =>
    simp only [step]
    split
    · next _ hphase =>
      obtain ⟨hrunning, hannounced⟩ := h.of_phase hphase (by simp)
      exact h.setPhase rfl h.fetched.contexts hrunning hannounced (by simp)
    · exact h
  | prepare fetched =>
    simp only [step]
    split
    · next messages hphase =>
      obtain ⟨hrunning, hannounced⟩ := h.of_phase hphase (by simp)
      split
      · refine h.setPhase rfl (fun hash context hget => prepareUpdate_contexts h.fetched messages hget)
          hrunning hannounced ?_
        intro _ _ heq _ hblock
        cases heq
        rw [updatePath_prepareUpdate h.fetched] at hblock
        obtain ⟨announced, hmem, rfl⟩ := mem_map.mp hblock
        exact ⟨announced.1, hannounced announced hmem, rfl⟩
      · exact h.setPhase rfl h.fetched.contexts hrunning hannounced (by simp)
    · exact h
  | apply =>
    simp only [step]
    split
    · next _ hphase =>
      obtain ⟨hrunning, hannounced⟩ := h.of_phase hphase (by simp)
      exact h.setPhase rfl h.fetched.contexts hrunning hannounced (by simp)
    · next _ block _ hphase =>
      obtain ⟨hrunning, hannounced⟩ := h.of_phase hphase (by simp)
      have hpath := h.path _ _ hphase
      obtain ⟨hash, hne, rfl⟩ := hpath block (.head _)
      split
      · refine h.applyBlock hsource hne hrunning ?_ ?_
        · rintro _ (rfl | rfl) <;> exact hannounced
        · rintro _ (rfl | rfl) _ _ heq
          · cases heq
            exact fun other hother => hpath other (.tail _ hother)
          · cases heq
      · exact h.setPhase rfl h.fetched.contexts hrunning hannounced (by simp)
    · exact h
  | commit fault =>
    obtain ⟨htree, hcontexts, -⟩ := updater.commitOffset_eq fault
    have hfetched : ∀ hash context, (updater.commitOffset fault).2.hashToBlockctx hash = some context →
        context.block = source.block hash :=
      fun hash context hget => h.fetched.contexts hash context (hcontexts hash context hget)
    simp only [step]
    split
    · next messages hphase =>
      obtain ⟨hrunning, hannounced⟩ := h.of_phase hphase (by simp)
      refine h.setPhase htree hfetched hrunning ?_ ?_
      · split
        · simp [KafkaPhase.messages, newBlocks]
        · exact hannounced
      · intro _ _ heq
        split at heq <;> cases heq
    · next messages hphase =>
      obtain ⟨hrunning, hannounced⟩ := h.of_phase hphase (by simp)
      refine h.setPhase htree hfetched hrunning ?_ ?_
      · split
        · exact hannounced
        · simp [KafkaPhase.messages, newBlocks]
      · intro _ _ heq
        split at heq <;> cases heq
    · exact h
  | crash during latest =>
    obtain ⟨hlatest, hmoved⟩ := h.fetched.crashDb h.grounded during
    refine live_start hlatest (fun hzero => ?_) updater.offsetFile latest
    rw [hzero] at hmoved
    exact h.nonzero (hsource.eq_zero hmoved)

/-! ### A batch that is never finished -/

/-- A block below the database's is to be applied, with only blocks of the persisted chain before it. -/
def HasBelow (source : BlockSource) (tree : StateTree) (path : List Block) : Prop :=
  ∃ before hash after, path = before.map source.block ++ source.block hash :: after ∧
    (∀ other ∈ hash :: before, other ≠ 0 ∧ source.Descends tree.db.latest.hash other) ∧ hash ≠ tree.db.latest.hash

/-- The updater is at a batch with such a block. -/
structure Stuck (source : BlockSource) (messages : List KafkaMessage) (tree : StateTree) (updater : KafkaUpdater) : Prop where
  same : updater.tree = tree
  fetched : updater.Fetched source
  phase : updater.phase = .preparing messages ∨ updater.phase = .failed messages ∨ updater.phase = .stopped ∨
    ∃ path, updater.phase = .applying messages path ∧ HasBelow source tree path

variable {messages : List KafkaMessage} {tree : StateTree}

section
variable (hsource : source.WellNumbered) (hindexed : tree.Indexed source)
  (husable : tree.poisoned = false)
  (hpath : HasBelow source tree ((newBlocks messages).map fun announced => source.block announced.1))
  (h : updater.Stuck source messages tree)
include hsource hindexed husable hpath h
/-- **Nothing but a crash** gets the updater out of it. -/
theorem Stuck.step (hevent : ∀ during latest, event ≠ .crash during latest) :
    (updater.step config source log event).Stuck source messages tree := by
  have hkept : ∀ {phase : KafkaPhase}, (phase = .preparing messages ∨ phase = .failed messages ∨ phase = .stopped) →
      Stuck source messages tree { updater with phase := phase } := by
    rintro _ (rfl | rfl | rfl)
    · exact ⟨h.same, ⟨h.fetched.contexts, by simp⟩, .inl rfl⟩
    · exact ⟨h.same, ⟨h.fetched.contexts, by simp⟩, .inr (.inl rfl)⟩
    · exact ⟨h.same, ⟨h.fetched.contexts, by simp⟩, .inr (.inr (.inl rfl))⟩
  rcases h.phase with hphase | hphase | hphase | ⟨path, hphase, hbelow⟩
  · cases event with
    | prepare fetched =>
      simp only [step, hphase]
      split
      · refine ⟨h.same, ⟨fun hash context hget => prepareUpdate_contexts h.fetched messages hget, ?_⟩, ?_⟩
        · intro _ _ heq _ hblock
          cases heq
          rw [updatePath_prepareUpdate h.fetched] at hblock
          obtain ⟨announced, -, rfl⟩ := mem_map.mp hblock
          exact ⟨announced.1, rfl⟩
        · refine .inr (.inr (.inr ⟨_, ?_, hpath⟩))
          rw [updatePath_prepareUpdate h.fetched]
      · exact hkept (.inr (.inl rfl))
    | crash during latest => exact absurd rfl (hevent during latest)
    | _ =>
      simp only [step, hphase]
      exact h
  · cases event with
    | commit fault =>
      obtain ⟨htree, hcontexts, -⟩ := updater.commitOffset_eq fault
      simp only [step, hphase]
      refine ⟨htree.trans h.same, ⟨fun hash context hget => h.fetched.contexts hash context (hcontexts hash context hget),
        fun _ _ heq => ?_⟩, ?_⟩
      · split at heq <;> cases heq
      · split
        · exact .inl rfl
        · exact .inr (.inr (.inl rfl))
    | crash during latest => exact absurd rfl (hevent during latest)
    | _ =>
      simp only [step, hphase]
      exact h
  · cases event with
    | crash during latest => exact absurd rfl (hevent during latest)
    | _ =>
      simp only [step, hphase]
      exact h
  · cases event with
    | apply =>
      obtain ⟨before, hash, after, rfl, hchain, hother⟩ := hbelow
      cases before with
      | nil =>
        obtain ⟨hne, hpersisted⟩ := hchain hash (.head _)
        have hcall := hindexed.updateBlock_persisted hsource husable hne hpersisted
        rw [if_neg hother] at hcall
        simp only [step, hphase, map_nil, nil_append]
        split
        · rw [applyBlock, h.same, hcall]
          exact h.same ▸ hkept (.inr (.inl rfl))
        · exact hkept (.inr (.inl rfl))
      | cons first before =>
        obtain ⟨hne, hpersisted⟩ := hchain first (.tail _ (.head _))
        have hcall := hindexed.updateBlock_persisted hsource husable hne hpersisted
        simp only [step, hphase, map_cons, cons_append]
        split
        · rw [applyBlock, h.same, hcall]
          by_cases hfirst : first = tree.db.latest.hash
          · rw [if_pos hfirst]
            refine ⟨rfl, ⟨h.fetched.contexts, fun _ _ heq block hblock => ?_⟩,
              .inr (.inr (.inr ⟨_, rfl, before, hash, after, rfl, ?_, hother⟩))⟩
            · cases heq
              exact h.fetched.path _ _ hphase block (.tail _ hblock)
            · intro other hmem
              refine hchain other ?_
              rcases mem_cons.mp hmem with rfl | hbefore
              · exact .head _
              · exact .tail _ (.tail _ hbefore)
          · rw [if_neg hfirst]
            exact h.same ▸ hkept (.inr (.inl rfl))
        · exact hkept (.inr (.inl rfl))
    | crash during latest => exact absurd rfl (hevent during latest)
    | _ =>
      simp only [step, hphase]
      exact h

theorem Stuck.run (hevents : ∀ during latest, .crash during latest ∉ events) :
    (events.foldl (KafkaUpdater.step config source log) updater).phase ≠ .polling := by
  have hfinal : (events.foldl (KafkaUpdater.step config source log) updater).Stuck source messages tree := by
    induction events generalizing updater with
    | nil => exact h
    | cons _ _ ih =>
      refine ih (h.step hsource hindexed husable hpath fun during latest heq => ?_) fun during latest hmem => ?_
      · exact hevents during latest (heq ▸ mem_cons_self)
      · exact hevents during latest (.tail _ hmem)
  rcases hfinal.phase with hphase | hphase | hphase | ⟨_, hphase, -⟩ <;>
    · rw [hphase]
      nofun
end

/-! ### A batch that is finished -/

/-- The loop over a batch whose calls succeed. -/
theorem run_apply {hashes : List H256} (hphase : updater.phase = .applying messages (hashes.map source.block))
    (hcalls : updater.tree.Calls source (· = .ok) hashes) :
    (replicate hashes.length (.apply true)).foldl (step config source log) updater =
      { updater with tree := updater.tree.applyAll source hashes, phase := .applying messages [] } := by
  induction hashes generalizing updater with
  | nil =>
    rw [map_nil] at hphase
    rw [length_nil, ← hphase]
    rfl
  | cons hash hashes ih =>
    have hstep : updater.step config source log (.apply true) = { updater with
          tree := (updater.tree.updateBlock (source.block hash)).2
          phase := .applying messages (hashes.map source.block) } := by
      have hok := hcalls.1
      simp only [step, hphase, map_cons, if_true, applyBlock]
      split
      · next heq => rw [heq]
      · next heq =>
        rw [heq] at hok
        cases hok
      · next heq =>
        rw [heq] at hok
        cases hok
    rw [length_cons, replicate_succ, foldl_cons, hstep, ih rfl hcalls.2]
    rfl

def attempt (blocks : Nat) : List KafkaEvent :=
  .prepare true :: List.replicate blocks (.apply true) ++ [.apply true, .commit .none]

theorem commitOffset_ok (updater : KafkaUpdater) : (updater.commitOffset .none).1 = true := by
  cases hcontext : updater.hashToBlockctx updater.tree.db.latest.hash with
  | none | _ =>
    simp only [commitOffset, hcontext]
    rfl

theorem run_attempt (hfetched : updater.Fetched source) (hphase : updater.phase = .preparing messages) {hashes : List H256}
    (hhashes : (newBlocks messages).map Prod.fst = hashes) (hcalls : updater.tree.Calls source (· = .ok) hashes) :
    let final := (attempt hashes.length).foldl (step config source log) updater
    final.phase = .polling ∧ final.tree = updater.tree.applyAll source hashes := by
  have hpath : (updater.prepareUpdate source messages).updatePath messages = hashes.map source.block := by
    rw [updatePath_prepareUpdate hfetched, ← hhashes, map_map]
    rfl
  have hprepare : updater.step config source log (.prepare true) =
      { updater.prepareUpdate source messages with phase := .applying messages (hashes.map source.block) } := by
    simp only [step, hphase, if_true, hpath]
  have happlied := @run_apply config source log
    { updater.prepareUpdate source messages with phase := .applying messages (hashes.map source.block) } messages hashes
    rfl hcalls
  intro final
  obtain ⟨applied, htree, hfinal⟩ : ∃ applied : KafkaUpdater, applied.tree = updater.tree.applyAll source hashes ∧
      final = { (applied.commitOffset .none).2 with
        phase := if (applied.commitOffset .none).1 then .polling else .failed messages } := by
    refine ⟨{ updater.prepareUpdate source messages with
      tree := updater.tree.applyAll source hashes, phase := .committing messages }, rfl, ?_⟩
    simp only [final, attempt, foldl_cons, foldl_append, hprepare, happlied]
    rfl
  rw [hfinal, applied.commitOffset_ok]
  exact ⟨rfl, (applied.commitOffset_eq .none).1.trans htree⟩

/-! ### Runs -/

theorem live_run (hsource : source.WellNumbered) (hlog : ∀ i, 0 ∉ log i) (h : updater.Live source)
    (hevents : ∀ hash, .catchUp hash ∈ events → hash ≠ 0) :
    (events.foldl (step config source log) updater).Live source := by
  induction events generalizing updater with
  | nil => exact h
  | cons _ _ ih =>
    refine ih (h.step hsource hlog fun hash heq => hevents hash ?_) fun hash hmem => hevents hash ?_
    · rw [heq]
      exact .head _
    · exact .tail _ hmem

theorem hasBelow_of_mem {replayed : List H256} (hne : ∀ hash ∈ replayed, hash ≠ 0)
    (hpersisted : ∀ hash ∈ replayed, source.Descends tree.db.latest.hash hash) {hash : H256} (hmem : hash ∈ replayed)
    (hother : hash ≠ tree.db.latest.hash) (after : List Block) :
    HasBelow source tree (replayed.map source.block ++ after) := by
  obtain ⟨before, rest, rfl⟩ := append_of_mem hmem
  refine ⟨before, hash, rest.map source.block ++ after, by simp, fun other hmem => ?_, hother⟩
  have hmem' : other ∈ before ++ hash :: rest := by
    rcases mem_cons.mp hmem with rfl | hbefore
    · exact mem_append_right _ (.head _)
    · exact mem_append_left _ hbefore
  exact ⟨hne other hmem', hpersisted other hmem'⟩

/-- **Blocks that are announced again.** In every run, whenever a batch is to be prepared (after a restart,
or once more), let it announce blocks of the persisted chain, then blocks that extend it, those that the
tree has before those that it has not, where the last that it has rests on a layer that may be committed.
The blocks of the persisted chain are skipped if, and only if, each is the block the database stands at.
Then the batch is finished, with all the others applied; otherwise it is never finished without a restart. -/
theorem redelivered_batch_finishes_iff (hsource : source.WellNumbered) (hlog : ∀ i, 0 ∉ log i) {db : DiskState}
    (hlatest : db.latest = (source.block db.latest.hash).info) (hne : db.latest.hash ≠ 0) {offsetFile : Option Nat}
    {latest : Nat} {events : List KafkaEvent} (hevents : ∀ hash, .catchUp hash ∈ events → hash ≠ 0)
    (hrun : events.foldl (step config source log) (start config db offsetFile latest) = updater)
    (hphase : updater.phase = .preparing messages) {replayed known fresh : List H256}
    (hbatch : (newBlocks messages).map Prod.fst = replayed ++ (known ++ fresh))
    (hreplayed : ∀ hash ∈ replayed, source.Descends updater.tree.db.latest.hash hash)
    (hchain : (updater.tree.db.latest.hash :: (known ++ fresh)).IsChain fun parent child => source.parent child = parent)
    (hknown : ∀ hash ∈ known, updater.tree.index.hashDiffMap hash ≠ none)
    (hfresh : ∀ hash ∈ fresh, updater.tree.index.hashDiffMap hash = none)
    (hextends : updater.tree.Extends ((updater.tree.db.latest.hash :: known).getLast (cons_ne_nil _ _)))
    (hdepth : 1 ≤ updater.tree.config.diffTreeDepthLimit) :
    ((∀ hash ∈ replayed, updater.tree.updateBlock (source.block hash) = (.ok, updater.tree)) ↔
        ∀ hash ∈ replayed, hash = updater.tree.db.latest.hash) ∧
      ((∃ more : List KafkaEvent, (∀ during latest, .crash during latest ∉ more) ∧
          (more.foldl (step config source log) updater).phase = .polling) ↔
        ∀ hash ∈ replayed, hash = updater.tree.db.latest.hash) ∧
      ((∀ hash ∈ replayed, hash = updater.tree.db.latest.hash) →
        let final := (attempt (replayed ++ (known ++ fresh)).length).foldl (step config source log) updater
        final.phase = .polling ∧ updater.tree.Calls source (· = .ok) (known ++ fresh) ∧
          final.tree = updater.tree.applyAll source (known ++ fresh) ∧
          final.tree.index.hashDiffMap ((updater.tree.db.latest.hash :: (known ++ fresh)).getLast (cons_ne_nil _ _)) ≠ none) := by
  have hlive : updater.Live source := by
    rw [← hrun]
    exact live_run hsource hlog (live_start hlatest hne offsetFile latest) hevents
  obtain ⟨husable, hindexed⟩ := hlive.live.resolve_left (by simp [hphase])
  have hannounced : ∀ hash ∈ replayed ++ (known ++ fresh), hash ≠ 0 := by
    intro _ hmem
    rw [← hbatch] at hmem
    obtain ⟨announced, hannounced, rfl⟩ := mem_map.mp hmem
    refine hlive.announced announced ?_
    rw [hphase]
    exact hannounced
  have hnonzero : ∀ hash ∈ replayed, hash ≠ 0 := fun hash hmem => hannounced hash (mem_append_left _ hmem)
  have hextension : ∀ hash ∈ known ++ fresh, hash ≠ 0 := fun hash hmem => hannounced hash (mem_append_right _ hmem)
  have hreturn : updater.tree.Calls source (· ≠ .panic) (known ++ fresh) := by
    have hall : ∀ hash ∈ updater.tree.db.latest.hash :: known, updater.tree.index.hashDiffMap hash ≠ none :=
      forall_mem_cons.mpr ⟨hindexed.latest, hknown⟩
    have hrest : ((updater.tree.db.latest.hash :: known).getLast (cons_ne_nil _ _) :: fresh).IsChain
        fun parent child => source.parent child = parent := by
      have hsplit := dropLast_append_getLast (cons_ne_nil updater.tree.db.latest.hash known)
      rw [← cons_append, ← hsplit, append_assoc] at hchain
      exact hchain.right_of_append
    exact calls_known husable hknown (calls_return hsource hindexed husable hdepth (hall _ (getLast_mem _)) hextends hrest
      (fun hash hmem => hextension hash (mem_append_right _ hmem)) hfresh)
  have hfinish : (∀ hash ∈ replayed, hash = updater.tree.db.latest.hash) →
      let final := (attempt (replayed ++ (known ++ fresh)).length).foldl (step config source log) updater
      final.phase = .polling ∧ updater.tree.Calls source (· = .ok) (known ++ fresh) ∧
        final.tree = updater.tree.applyAll source (known ++ fresh) ∧
        final.tree.index.hashDiffMap ((updater.tree.db.latest.hash :: (known ++ fresh)).getLast (cons_ne_nil _ _)) ≠ none := by
    intro hall final
    obtain ⟨hcalls, hlast⟩ := calls_chain hsource hindexed hindexed.latest hchain hextension hreturn
    obtain ⟨hpath, htree⟩ := calls_latest hsource hindexed husable hlive.nonzero hall hcalls
    obtain ⟨hpolling, hfinal⟩ : final.phase = .polling ∧ final.tree = updater.tree.applyAll _ (_ ++ _) :=
      run_attempt hlive.fetched hphase hbatch hpath
    rw [htree] at hfinal
    exact ⟨hpolling, hcalls, hfinal, hfinal ▸ hlast⟩
  refine ⟨⟨fun hok hash hmem => ?_, fun hall hash hmem => ?_⟩, ⟨?_, fun hall => ⟨_, ?_, (hfinish hall).1⟩⟩, hfinish⟩
  · by_contra hother
    have hcall := hindexed.updateBlock_persisted hsource husable (hnonzero hash hmem) (hreplayed hash hmem)
    rw [if_neg hother, hok hash hmem] at hcall
    cases hcall
  · rw [hindexed.updateBlock_persisted hsource husable (hnonzero hash hmem) (hreplayed hash hmem), if_pos (hall hash hmem)]
  · rintro ⟨_, hmore, hpolling⟩ hash hmem
    by_contra hother
    refine Stuck.run hsource hindexed husable ?_ ⟨rfl, hlive.fetched, .inl hphase⟩ hmore hpolling
    have hpath : (newBlocks messages).map (source.block ·.1) =
        replayed.map source.block ++ (known ++ fresh).map source.block := by
      rw [← map_append, ← hbatch, map_map]
      rfl
    rw [hpath]
    exact hasBelow_of_mem hnonzero hreplayed hmem hother _
  · intro _ _ hmem
    simp [attempt] at hmem

theorem lineSource_wellNumbered : lineSource.WellNumbered where
  zero := by decide
  numbered hash := by
    by_cases hout : hash.val ≤ 100 ∨ 200 < hash.val
    · exact .inl (if_pos hout)
    have hparent : lineSource.parent hash = ⟨hash.val - 1, (Nat.sub_le ..).trans_lt hash.isLt⟩ := if_neg hout
    rw [hparent]
    have hle : hash.val ≤ 200 := by omega
    have hle' : hash.val - 1 ≤ 200 := by omega
    simp only [lineSource, if_pos hle, if_pos hle']
    omega

theorem zero_notMem_lineLog (i : Nat) : 0 ∉ lineLog i := by
  rw [lineLog]
  split
  · intro hmem
    have hzero : 0 = 101 + i := congrArg Fin.val (mem_singleton.mp hmem)
    omega
  · exact not_mem_nil

/-- The database of a node that stands at block 101. -/
def firstDisk : DiskState := { genesisDisk with latest := { hash := 101, parentHash := 100, number := 1 } }

/-- A batch of two messages after a start with the offset file one message behind. -/
def restarted : KafkaUpdater :=
  [KafkaEvent.poll 2].foldl (step shallowConfig lineSource lineLog) (start shallowConfig firstDisk (some 0) 0)

/-- Block 101 is announced again; it is skipped and 102 applied. -/
theorem redelivered_batch_finishes_first :
    restarted.phase = .preparing [⟨0, [101]⟩, ⟨1, [102]⟩] ∧
      restarted.tree.updateBlock (lineSource.block 101) = (.ok, restarted.tree) ∧
      ((attempt 2).foldl (step shallowConfig lineSource lineLog) restarted).phase = .polling ∧
      ((attempt 2).foldl (step shallowConfig lineSource lineLog) restarted).tree.index.hashDiffMap 102 ≠ none := by
  have hphase : restarted.phase = .preparing [⟨0, [101]⟩, ⟨1, [102]⟩] := by decide
  have hreplayed : ∀ hash ∈ [101], lineSource.Descends restarted.tree.db.latest.hash hash := by
    intro _ hmem
    obtain rfl := mem_singleton.mp hmem
    exact .refl
  have hchain : (restarted.tree.db.latest.hash :: ([] ++ [102])).IsChain fun parent child => lineSource.parent child = parent := by
    exact .cons_cons (by decide) (.singleton _)
  have hfresh : ∀ hash ∈ [102], restarted.tree.index.hashDiffMap hash = none := forall_mem_singleton.mpr (by decide)
  have hall : ∀ hash ∈ [101], hash = restarted.tree.db.latest.hash := by
    intro _ hmem
    exact mem_singleton.mp hmem
  obtain ⟨hskipped, -, hfinish⟩ := redelivered_batch_finishes_iff lineSource_wellNumbered zero_notMem_lineLog
    (by decide : firstDisk.latest = (lineSource.block firstDisk.latest.hash).info) (by decide)
    (fun hash hmem => by simp at hmem) rfl hphase rfl hreplayed hchain nofun hfresh (extends_new _ _ _ _) (by decide)
  obtain ⟨hpolling, -, -, hlast⟩ := hfinish hall
  exact ⟨hphase, hskipped.mpr hall 101 (.head _), hpolling, hlast⟩

/-- **A batch retried forever.** With depth limit 1, two batches leave the offset file at 1 and the
database at 101. The third brings 103 and 104, the database moves to 103, and the process dies before the
offset is written. Message 1 is read again: its block 102 is no longer in the index, and neither is its
parent. -/
theorem block_below_head_retried_forever :
    let updater := (batchEvents 1 1 ++ batchEvents 1 1 ++
      [KafkaEvent.poll 2, .prepare true, .apply true, .apply true, .crash none 4, .poll 1]).foldl
        (step shallowConfig lineSource lineLog) (start shallowConfig genesisDisk (some 0) 0)
    updater.offsetFile = some 1 ∧ updater.tree.db.latest.hash = 103 ∧ updater.phase = .preparing [⟨1, [102]⟩] ∧
      lineSource.Descends 103 102 ∧
      ∀ more : List KafkaEvent, (∀ during latest, .crash during latest ∉ more) →
        (more.foldl (step shallowConfig lineSource lineLog) updater).phase ≠ .polling := by
  intro updater
  have hlive : updater.Live lineSource :=
    live_run lineSource_wellNumbered zero_notMem_lineLog (live_start (by decide) (by decide) (some 0) 0)
      (fun hash hmem => by simp [batchEvents] at hmem)
  have hphase : updater.phase = .preparing [⟨1, [102]⟩] := by decide
  have hhead : updater.tree.db.latest.hash = 103 := by decide
  have hpersisted : lineSource.Descends 103 102 := .single (by decide)
  obtain ⟨husable, hindexed⟩ := hlive.live.resolve_left (by simp [hphase])
  refine ⟨by decide, hhead, hphase, hpersisted, fun more hmore => ?_⟩
  refine Stuck.run lineSource_wellNumbered hindexed husable ?_ ⟨rfl, hlive.fetched, .inl hphase⟩ hmore
  refine ⟨[], 102, [], rfl, fun hash hmem => ?_, by rw [hhead]; decide⟩
  obtain rfl := mem_singleton.mp hmem
  exact ⟨by decide, hhead ▸ hpersisted⟩

end KafkaUpdater
end LeafageEvm
