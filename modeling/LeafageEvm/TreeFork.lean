import LeafageEvm.TreeReads

/-! Every block of the index reads as its own ancestry, if commits stay below all blocks that are
kept. -/

namespace LeafageEvm.StateTree
open Arena Nat List
variable {hash : H256} {view : FlattenedLayerView} {id : LayerId} {block : Block}

/-- When the call publishes a block whose chain outgrows the depth limit and so commits the layer at
its bottom, every indexed block that the pruning by height keeps is linked down to that layer. -/
def KeptAboveBottom (tree : StateTree) (block : Block) : Prop :=
  ¬ tree.Ignores block → tree.Publishes block →
    ∀ parent, tree.index.hashDiffMap block.info.parentHash = some parent →
    tree.config.diffTreeDepthLimit ≤ (tree.arena.chain parent.head).length →
    ∀ bottom, (tree.arena.chain parent.head).getLast? = some bottom → tree.FollowsLast bottom →
    ∀ hash view, tree.index.hashDiffMap hash = some view →
      (tree.layer bottom).block.info.number ≤ (tree.blockInfo view).number →
      bottom ∈ tree.arena.chain view.head

variable {disk₀ : DiskState} {tree : StateTree} {upper : List LayerId} (config : StateTreeConfig)

theorem Shows.setIndex (h : Shows disk₀ tree hash view) (index : StateIndex) :
    Shows disk₀ { tree with index := index } hash view :=
  { h with }

theorem Shows.rebuild (h : Shows disk₀ tree hash view) (hlinked : tree.Linked) (hhead : view.head = some id)
    (hid : id < tree.arena.length) : Shows disk₀ tree hash (tree.buildView id) := by
  have hbuilt := hlinked.shaped.head_buildView hid
  have hchain : tree.arena.chain (tree.buildView id).head = tree.arena.chain view.head := by
    rw [hbuilt, hhead]
  have hlayers : (tree.buildView id).layers = tree.arena.chain view.head := by
    rw [hhead]
    rfl
  have hinfo : tree.blockInfo (tree.buildView id) = tree.blockInfo view := by
    rw [blockInfo_of_head hbuilt, blockInfo_of_head hhead]
  refine ⟨fun x hx => lt_of_mem_chain hx, ?_, ?_, h.committed, ?_, ?_, ?_, ?_⟩
  · simp only [hchain, hlayers, prefix_rfl]
  · rw [hlayers]
    exact (h.chain_prefix.map _).trans h.layers_prefix
  · rw [hlayers]
    exact h.reads_chain
  · rw [hchain]
    exact h.reads_chain
  · rw [hchain, hinfo]
    exact h.low
  · rw [hchain, hinfo]
    exact h.high

theorem readsAncestry_new (clears : Bool) (db : DiskState)
    (hdepth : 1 ≤ config.diffTreeDepthLimit) : ReadsAncestry db (new config clears db) := by
  have hancestry : ancestry (new config clears db).accepted db.latest.hash = [{ info := db.latest }] :=
    if_pos rfl
  refine ⟨linked_new config clears db, hdepth, fun id hid => (by cases hid), ?_, ?_, ?_, ?_, ?_⟩
  · exact Nat.le_add_right ..
  · intro hash _ h
    obtain ⟨rfl, rfl⟩ := hashDiffMap_new h
    have hreads : ReadsAs db (new config clears db) db.latest.hash [0] := fun k _ => by
      rw [hancestry]
      rfl
    refine ⟨fun id hid => ?_, prefix_rfl, ?_, fun id hid => (by cases hid), hreads, hreads, ?_, ?_⟩
    · rw [mem_singleton.mp hid]
      exact one_pos
    · rw [hancestry]
      exact prefix_rfl
    · exact le_rfl
    · exact le_succ _
  · intro _ _ h
    obtain ⟨rfl, rfl⟩ := hashDiffMap_new h
    exact le_rfl
  · intro _ _ h
    obtain ⟨rfl, rfl⟩ := hashDiffMap_new h
    exact hdepth
  · nofun

/-- Publishing a head whose view shows its ancestry, over views that show theirs. -/
theorem ReadsAncestry.publish {bottomHeight : U64} (hlinked : tree.Linked) (hdepth : 1 ≤ tree.config.diffTreeDepthLimit)
    (hcommitted : ∀ id ∈ tree.committed, id < tree.arena.length) (hcoherent : tree.CacheCoherent)
    (hid : id < tree.arena.length) (hlayer : tree.layer id = .new block)
    (hshows : Shows disk₀ tree block.info.hash (tree.buildView id))
    (hlength : (tree.arena.chain (some id)).length ≤ tree.config.diffTreeDepthLimit)
    (hviews : ∀ hash view, tree.index.hashDiffMap hash = some view →
      bottomHeight ≤ (tree.blockInfo view).number → Shows disk₀ tree hash view ∧
        (tree.blockInfo view).number.val ≤ block.info.number.val ∧
        (tree.arena.chain view.head).length ≤ tree.config.diffTreeDepthLimit) :
    ReadsAncestry disk₀ (tree.publish block id bottomHeight) := by
  have hhead := hlinked.shaped.head_buildView hid
  have hinfo : tree.blockInfo (tree.buildView id) = block.info := by
    rw [blockInfo_of_head hhead, hlayer]
    rfl
  have hpublished : ∀ hash view,
      (tree.publish block id bottomHeight).index.hashDiffMap hash = some view →
      Shows disk₀ tree hash view ∧ (tree.blockInfo view).number.val ≤ block.info.number.val ∧
        (tree.arena.chain view.head).length ≤ tree.config.diffTreeDepthLimit := by
    intro hash view hview
    obtain ⟨⟨rfl, rfl⟩ | ⟨-, hold⟩, hkept⟩ := publish_hashDiffMap.mp hview
    · exact ⟨hshows, by rw [hinfo], by rw [hhead]; exact hlength⟩
    · exact hviews hash view hold hkept
  have hpublish : (tree.publish block id bottomHeight).Linked :=
    hlinked.publish hid (congrArg (·.block.info.hash) hlayer) bottomHeight
  obtain ⟨index, hlatest, heq⟩ := publish_eq tree block id bottomHeight
  rw [heq] at hpublished hpublish ⊢
  have hlatestInfo : ({ tree with index := index } : StateTree).blockInfo index.latest = block.info := by
    rw [hlatest]
    exact hinfo
  refine ⟨hpublish, hdepth, hcommitted, ?_, fun hash view hview => (hpublished hash view hview).1.setIndex index,
    fun hash view hview => ?_, fun hash view hview => (hpublished hash view hview).2.2, hcoherent⟩
  · have hhigh := hshows.high
    rw [hinfo, hhead] at hhigh
    rw [hlatestInfo]
    exact hhigh.trans (Nat.add_le_add_left hlength _)
  · rw [hlatestInfo]
    exact (hpublished hash view hview).2.1

/-- A chain past the limit, cut above its committed bottom. -/
theorem chain_storeRetarget {next bottom : LayerId} (hchain : tree.arena.chain (some id) = upper ++ [next, bottom]) :
    (tree.storeRetarget bottom next).arena.chain (some id) = upper ++ [next] := by
  have hnodup := chain_nodup tree.arena (some id)
  rw [hchain] at hnodup
  have hnext : next ∉ _ := fun h =>
    (nodup_append.mp hnodup).2.2 next h _ (.head _) rfl
  refine (chain_cut tree.arena next (some id)).trans ?_
  rw [hchain]
  exact through_append_cons _ hnext

/-- A list of two or more ends in two. -/
theorem exists_append_pair (ids : List LayerId) (h : 2 ≤ ids.length) :
    ∃ upper next bottom, ids = upper ++ [next, bottom] := by
  obtain ⟨front, bottom, rfl⟩ := eq_nil_or_concat ids |>.resolve_left (by rintro rfl; cases h)
  have hfront : front ≠ [] := by
    rintro rfl
    exact absurd h (by simp)
  obtain ⟨upper, next, rfl⟩ := eq_nil_or_concat front |>.resolve_left hfront
  exact ⟨upper, next, bottom, by simp⟩

theorem handle_of_stateAt {blockArg : BlockId} {handle : HybridStateDB}
    (h : tree.stateAt blockArg = .ok (some handle)) :
    ∃ view, tree.findView blockArg = .ok (some view) ∧ handle = tree.handle view := by
  unfold stateAt at h
  cases hview : tree.findView blockArg with
  | error e =>
    rw [hview] at h
    cases h
  | ok found =>
    rw [hview] at h
    cases found with
    | none => cases h
    | some view =>
      cases h
      exact ⟨view, rfl, rfl⟩

section
variable (h : ReadsAncestry disk₀ tree)
include h
theorem ReadsAncestry.setCache (entries : CacheEntries) (poisoned : Bool)
    (hcoherent : { tree.setEntries entries with poisoned := poisoned }.CacheCoherent) :
    ReadsAncestry disk₀ { tree.setEntries entries with poisoned := poisoned } where
  linked := { h.linked with }
  depth := h.depth
  committed_lt := h.committed_lt
  latest_le := h.latest_le
  shows hash view hview := let s := h.shows hash view hview
    ⟨s.layers_lt, s.chain_prefix, s.layers_prefix, s.committed, s.reads_layers, s.reads_chain, s.low, s.high⟩
  number_le := h.number_le
  length_le := h.length_le
  coherent := hcoherent

/-- A layer nothing refers to yet changes nothing. -/
theorem ReadsAncestry.link {parent : FlattenedLayerView} (hnew : tree.index.hashDiffMap block.info.hash = none)
    (hparent : tree.index.hashDiffMap block.info.parentHash = some parent) (hnumber : tree.Numbered block) :
    ReadsAncestry disk₀ (tree.link block parent) := by
  have hinfo : ∀ hash view, tree.index.hashDiffMap hash = some view →
      (tree.link block parent).blockInfo view = tree.blockInfo view := fun hash view hview => by
    obtain ⟨id, hhead, hlt, -⟩ := h.linked.view hash view hview
    exact blockInfo_link block parent fun _ h' => by rw [hhead] at h'; cases h'; exact hlt
  have hlatest : (tree.link block parent).blockInfo tree.index.latest = tree.blockInfo tree.index.latest :=
    blockInfo_link block parent h.linked.latest
  refine ⟨h.linked.link hparent hnumber, h.depth,
    fun id hid => (h.committed_lt id hid).trans (lt_succ_self _), ?_, fun hash view hview => ?_,
    fun hash view hview => ?_, fun hash view hview => ?_, fun henabled k hkept => ?_⟩
  · exact (congrArg (·.number.val) hlatest).trans_le h.latest_le
  · obtain ⟨id, hhead, hlt, -⟩ := h.linked.view hash view hview
    refine (h.shows hash view hview).link parent h.committed_lt hhead hlt fun heq => ?_
    rw [heq] at hview
    cases hnew.symm.trans hview
  · rw [hinfo hash view hview]
    exact (h.number_le hash view hview).trans_eq (congrArg (·.number.val) hlatest).symm
  · obtain ⟨id, hhead, hlt, -⟩ := h.linked.view hash view hview
    have hchain : (tree.link block parent).arena.chain view.head = tree.arena.chain view.head := by
      rw [hhead]
      exact chain_push_of_lt _ _ hlt
    rw [hchain]
    exact h.length_le hash view hview
  · exact h.coherent henabled k fun id hid => by
      rw [← tree.layer_link_of_lt (h.committed_lt id hid)]
      exact hkept id hid

section
variable (hid : id < tree.arena.length) (hlayer : tree.layer id = .new block)
  (hshows : Shows disk₀ tree block.info.hash (tree.buildView id))
include hid hlayer hshows
theorem ReadsAncestry.insertView (hlt : block.info.number.val < (tree.blockInfo tree.index.latest).number.val) :
    ReadsAncestry disk₀ (tree.insertView block (tree.buildView id)) := by
  have hhead := h.linked.shaped.head_buildView hid
  have hinfo : tree.blockInfo (tree.buildView id) = block.info := by
    rw [blockInfo_of_head hhead, hlayer]
    rfl
  refine { h with linked := h.linked.insertView hid (congrArg (·.block.info.hash) hlayer), shows := fun hash view hview => ?_, number_le := fun hash view hview => ?_, length_le := fun hash view hview => ?_ }
  · refine Shows.setIndex ?_ _
    rcases HashMap.insert_eq_some.mp hview with ⟨rfl, rfl⟩ | ⟨-, hold⟩
    · exact hshows
    · exact h.shows hash view hold
  · rcases HashMap.insert_eq_some.mp hview with ⟨rfl, rfl⟩ | ⟨-, hold⟩
    · exact (congrArg (·.number.val) hinfo).trans_le hlt.le
    · exact h.number_le hash view hold
  · rcases HashMap.insert_eq_some.mp hview with ⟨rfl, rfl⟩ | ⟨-, hold⟩
    · have hlow := hshows.low
      have hlatest := h.latest_le
      rw [hinfo] at hlow
      simp only [StateTree.insertView]
      omega
    · exact h.length_le hash view hold

/-- The bottom of a chain that outgrew the limit is committed under the kept views. -/
theorem ReadsAncestry.publishCommit {next bottom : LayerId}
    (hchain : tree.arena.chain (some id) = upper ++ [next, bottom])
    (hlength : upper.length + 1 = tree.config.diffTreeDepthLimit) (hpublishes : tree.Publishes block)
    (hkept : ∀ hash view, tree.index.hashDiffMap hash = some view →
      (tree.layer bottom).block.info.number ≤ (tree.blockInfo view).number →
      bottom ∈ tree.arena.chain view.head) :
    ReadsAncestry disk₀ ((tree.storeRetarget bottom next).publish block id
      (tree.layer bottom).block.info.number) := by
  have hsame := sameBlocks_storeRetarget tree bottom next
  have hlinks := isChain_chain h.linked.wellLinked hid
  rw [hchain] at hlinks
  have hnext : tree.arena.next? next = some bottom :=
    (isChain_cons_cons.mp (isChain_append.mp hlinks).2.1).1
  have hlast : tree.arena.next? bottom = none := by
    obtain ⟨_, hgetLast, hnone⟩ := next?_getLast? h.linked.wellLinked hid
    rw [hchain] at hgetLast
    simp only [getLast?_append, getLast?_cons_cons, getLast?_singleton, Option.some_or,
      Option.some.injEq] at hgetLast
    exact hgetLast ▸ hnone
  have hmem : bottom ∈ tree.arena.chain (some id) := by
    rw [hchain]
    simp
  have hbottomlt := lt_of_mem_chain hmem
  have hlinked := h.linked.of_sameBlocks hsame
  have hid' : id < (tree.storeRetarget bottom next).arena.length := hsame.length ▸ hid
  refine ReadsAncestry.publish hlinked ?_ ?_ (h.coherent.storeRetarget h.linked bottom next) hid' ?_ ?_ ?_ ?_
  · exact h.depth
  · intro other hother
    rw [hsame.length]
    rcases mem_cons.mp hother with rfl | hold
    · exact hbottomlt
    · exact h.committed_lt other hold
  · rw [hsame.layer]
    exact hlayer
  · have hhead := h.linked.shaped.head_buildView hid
    refine (hshows.storeRetarget h.linked hhead hid hnext hlast ?_).rebuild hlinked hhead hid'
    rwa [hhead]
  · rw [chain_storeRetarget hchain, hsame.config, length_append, length_singleton, hlength]
  · intro hash view hview hheight
    obtain ⟨_, htop, htoplt, -⟩ := h.linked.view hash view hview
    have hinfo : (tree.storeRetarget bottom next).blockInfo view = tree.blockInfo view := by
      rw [blockInfo_of_head htop, blockInfo_of_head htop, hsame.layer]
    rw [hinfo] at hheight ⊢
    have hover := hkept hash view hview hheight
    refine ⟨(h.shows hash view hview).storeRetarget h.linked htop htoplt hnext hlast hover,
      (h.number_le hash view hview).trans hpublishes, ?_⟩
    have hcut : (tree.storeRetarget bottom next).arena.chain view.head =
        through next (tree.arena.chain view.head) := chain_cut ..
    rw [hcut]
    exact (Arena.through_prefix next _).length_le.trans (h.length_le _ _ hview)
end

/-- **One call of `update_block`.** -/
theorem ReadsAncestry.updateBlock (hnumber : tree.Numbered block)
    (hkept : tree.KeptAboveBottom block) : ReadsAncestry disk₀ (tree.updateBlock block).2 := by
  rcases updateBlock_cases tree block with ⟨-, heq, -⟩ | ⟨parent, hpoisoned, hnew, hparent, hcase⟩
  · rwa [heq]
  have hactive : ¬ tree.Ignores block := by simp [Ignores, hpoisoned, hnew, hparent]
  have hlink := h.link hnew hparent hnumber
  have hshows := (h.shows _ _ hparent).build h.linked h.committed_lt hparent hnumber
  have hid := tree.length_lt_link block parent
  have hlayer := tree.layer_link_self block parent
  have hchain := tree.chain_link block parent
  set joined := tree.link block parent
  have hlatest : joined.blockInfo tree.index.latest = tree.blockInfo tree.index.latest :=
    blockInfo_link block parent h.linked.latest
  have hparentLength := h.length_le _ _ hparent
  rcases hcase with ⟨hbelow, heq⟩ | hcapped
  · rw [heq]
    refine hlink.insertView hid hlayer hshows ?_
    exact (Nat.lt_of_not_le hbelow).trans_eq (congrArg (·.number.val) hlatest).symm
  have hpublishes : tree.Publishes block := by
    rcases hcapped with ⟨hpub, -⟩ | ⟨hpub, -⟩ <;> exact hpub
  have hpublishes' : joined.Publishes block :=
    (congrArg (·.number) hlatest).trans_le hpublishes
  by_cases hle : (joined.arena.chain (some tree.arena.length)).length ≤
      joined.config.diffTreeDepthLimit
  · have hcap := capDiffToDb_of_le hle
    rcases hcapped with ⟨-, _, tree', hcap', heq⟩ | ⟨-, tree', hcap', -⟩
    · rw [hcap] at hcap'
      cases hcap'
      rw [heq]
      exact .publish hlink.linked hlink.depth hlink.committed_lt hlink.coherent hid hlayer hshows hle
        fun hash view hview _ => ⟨hlink.shows hash view hview,
          (hlink.number_le hash view hview).trans hpublishes', hlink.length_le hash view hview⟩
    · rw [hcap] at hcap'
      cases hcap'
  -- The chain is one layer over the limit, so one commit caps it.
  · have hlimit : tree.config.diffTreeDepthLimit = (tree.arena.chain parent.head).length := by
      rw [hchain] at hle
      exact le_antisymm (Nat.lt_succ_iff.mp (Nat.lt_of_not_le hle)) hparentLength
    have hdepth := h.depth
    obtain ⟨upper, _, bottom, hsplit⟩ := exists_append_pair
      (joined.arena.chain (some tree.arena.length))
      (by rw [hchain, length_cons]; omega)
    have hlength : upper.length + 1 = joined.config.diffTreeDepthLimit := by
      have := congrArg length (hchain.symm.trans hsplit)
      simp only [length_cons, length_append, length_nil] at this
      exact (by omega : upper.length + 1 = tree.config.diffTreeDepthLimit)
    rcases capDiffToDb_of_succ hsplit hlength with hcap | ⟨hfollows, hcap⟩
    · rcases hcapped with ⟨-, _, tree', hcap', -⟩ | ⟨-, tree', hcap', heq⟩
      · rw [hcap] at hcap'
        cases hcap'
      rw [hcap] at hcap'
      cases hcap'
      rw [heq]
      exact hlink.setCache _ true hlink.coherent
    rcases hcapped with ⟨-, _, tree', hcap', heq⟩ | ⟨-, tree', hcap', -⟩
    · rw [hcap] at hcap'
      cases hcap'
      rw [heq]
      refine hlink.publishCommit hid hlayer hshows hsplit hlength hpublishes' fun hash view hview hheight => ?_
      have hgetLast : (tree.arena.chain parent.head).getLast? = some bottom := by
        have hlast := congrArg getLast? (hchain.symm.trans hsplit)
        have hne : tree.arena.chain parent.head ≠ [] := fun hnil => by
          rw [hnil] at hlimit
          exact absurd (hlimit ▸ hdepth) (by simp)
        rw [getLast?_cons, getLast?_eq_some_getLast hne] at hlast
        rw [getLast?_eq_some_getLast hne]
        simpa using hlast
      have hbottomlt := lt_of_mem_chain (mem_of_getLast? hgetLast)
      obtain ⟨_, htop, htoplt, -⟩ := h.linked.view hash view hview
      rw [tree.layer_link_of_lt hbottomlt, blockInfo_of_head htop, tree.layer_link_of_lt htoplt] at hheight
      have hover := hkept hactive hpublishes parent hparent hlimit.le bottom hgetLast
        (fun old hold => (hfollows old hold).trans (by rw [tree.layer_link_of_lt hbottomlt]))
        hash view hview (by rwa [blockInfo_of_head htop])
      have hsamechain : joined.arena.chain view.head = tree.arena.chain view.head := by
        rw [htop]
        exact chain_push_of_lt _ _ htoplt
      rwa [hsamechain]
    · rw [hcap] at hcap'
      cases hcap'

theorem ReadsAncestry.handle_read (hview : tree.index.hashDiffMap hash = some view)
    (clears : Bool) {k : StateKey} (hkept : tree.Kept hash k) : ((tree.handle view).read tree.cacheLayer.entries k).1 =
      (disk₀.replay clears (ancestry tree.accepted hash)).get k := by
  have hshows := h.shows hash view hview
  rw [replay_get clears disk₀ _ k hkept]
  refine (HybridStateDB.read_eq _ _ k fun henabled tag value hentry => ?_).trans (hshows.reads_layers k hkept)
  exact h.coherent henabled k (fun id hid => hkept _ (hshows.committed id hid)) tag value hentry

theorem ReadsAncestry.step {event : TreeEvent}
    (hnumber : OnUpdate Numbered tree event) (hkept : OnUpdate KeptAboveBottom tree event) :
    ReadsAncestry disk₀ (tree.step event) := by
  cases event with
  | update => exact h.updateBlock hnumber hkept
  | read _ k =>
    simp only [StateTree.step]
    split
    · next handle hstate =>
        obtain ⟨view, -, rfl⟩ := handle_of_stateAt hstate
        refine h.setCache ((tree.handle view).read tree.cacheLayer.entries k).2 tree.poisoned
          fun henabled k' hkept' tag value hentry => ?_
        rcases HybridStateDB.read_entries _ _ _ hentry with hold | hdisk
        · exact h.coherent henabled k' hkept' tag value hold
        · exact hdisk
    · exact h
  | evict k =>
    exact h.setCache (tree.cacheLayer.entries.evict k) tree.poisoned
      fun henabled k' hkept' tag value hentry => h.coherent henabled k' hkept' tag value (CacheEntries.evict_eq_some hentry)
end

theorem readsAncestry_run (clears : Bool) (disk₀ : DiskState)
    (events : List TreeEvent) (hdepth : 1 ≤ config.diffTreeDepthLimit)
    (hnumbered : RunMeets step (OnUpdate Numbered) (new config clears disk₀) events)
    (hkept : RunMeets step (OnUpdate KeptAboveBottom) (new config clears disk₀) events) :
    ReadsAncestry disk₀ ((new config clears disk₀).run events) :=
  run_invariant (ReadsAncestry disk₀) (fun _ _ h hmeets => h.step hmeets.1 hmeets.2)
    (readsAncestry_new config clears disk₀ hdepth) (hnumbered.and hkept)

/-- **Fork-correct reads.** In every state of a run that commits only below the blocks it keeps, a
block found by its hash reads, account by account and slot by slot, as the diffs of its own
ancestry over the disk the tree started from. -/
theorem stateAt_hash_reads_ancestry (config : StateTreeConfig) (clears : Bool) (disk₀ : DiskState)
    (events : List TreeEvent) (hdepth : 1 ≤ config.diffTreeDepthLimit)
    (hnumbered : RunMeets step (OnUpdate Numbered) (new config clears disk₀) events)
    (hkept : RunMeets step (OnUpdate KeptAboveBottom) (new config clears disk₀) events)
    (hash : H256) (handle : HybridStateDB)
    (hstate : ((new config clears disk₀).run events).stateAt (.hash hash) = .ok (some handle))
    (k : StateKey) (hdeleted : ((new config clears disk₀).run events).Kept hash k) :
    (handle.read ((new config clears disk₀).run events).cacheLayer.entries k).1 =
      (disk₀.replay clears (ancestry ((new config clears disk₀).run events).accepted hash)).get k := by
  have hinv := readsAncestry_run config clears disk₀ events hdepth hnumbered hkept
  obtain ⟨_, hview, rfl⟩ := handle_of_stateAt hstate
  exact hinv.handle_read (Except.ok.inj hview) clears hdeleted

/-- The layer at the bottom of the parent's chain is below all layers of at least its height. -/
def BottomUnderAll (tree : StateTree) (block : Block) : Prop :=
  ∀ parent ∈ tree.index.hashDiffMap block.info.parentHash, ∀ bottom ∈ (tree.arena.chain parent.head).getLast?,
    ∀ id < tree.arena.length, (tree.layer bottom).block.info.number ≤ (tree.layer id).block.info.number →
      bottom ∈ tree.arena.chain (some id)

instance (tree : StateTree) (block : Block) : Decidable (tree.BottomUnderAll block) := by
  unfold BottomUnderAll
  infer_instance

/-- The layers of a tree can be gone through one by one, unlike the hashes of its index. -/
theorem keptAboveBottom_of_layers {events : List TreeEvent} (hlinked : tree.Linked)
    (hnumbered : RunMeets step (OnUpdate Numbered) tree events)
    (hunder : RunMeets step (OnUpdate BottomUnderAll) tree events) :
    RunMeets step (OnUpdate KeptAboveBottom) tree events := by
  refine (hnumbered.and hunder).of_invariant Linked (fun tree event hlinked hmeets => ?_) (fun tree event hlinked hmeets => ?_)
    hlinked
  · rcases step_cases tree event with ⟨_, rfl⟩ | ⟨entries, heq⟩
    · exact hlinked.updateBlock hmeets.1
    · rw [heq]
      exact hlinked.of_sameBlocks (sameBlocks_setEntries tree entries)
  · cases event with
    | update =>
      intro _ _ parent hparent _ bottom hbottom _ hash view hview hle
      obtain ⟨id, hhead, hid, -⟩ := hlinked.view hash view hview
      rw [blockInfo_of_head hhead] at hle
      rw [hhead]
      exact hmeets.2 parent hparent bottom hbottom id hid hle
    | read _ k => trivial
    | evict k => trivial

/-- With depth limit 2 and a fork from 101, which the call for 103 commits: 202 reads its own slot. -/
theorem stateAt_hash_reads_ancestry_fork :
    let events := [.update (slotBlock 101 100 1 11), .update (slotBlock 102 101 2 12), .update (slotBlock 202 101 2 22),
      .read (.hash 202) (.slot 1 2), .update (slotBlock 103 102 3 13)]
    let tree := (new { diffTreeDepthLimit := 2 } false genesisDisk).run events
    tree.committed = [1, 0] ∧ ∃ handle, tree.stateAt (.hash 202) = .ok (some handle) ∧
      (handle.read tree.cacheLayer.entries (.slot 1 2)).1 =
        (genesisDisk.replay false (ancestry tree.accepted 202)).get (.slot 1 2) := by
  intro events tree
  have hnumbered : RunMeets step (OnUpdate Numbered) (new { diffTreeDepthLimit := 2 } false genesisDisk) events := by decide
  refine ⟨by decide, _, rfl, ?_⟩
  exact stateAt_hash_reads_ancestry { diffTreeDepthLimit := 2 } false genesisDisk events (by decide) hnumbered
    (keptAboveBottom_of_layers (linked_new _ _ _) hnumbered (by decide)) 202 _ rfl (.slot 1 2) (by decide)

/-- With depth limit 2, blocks 101, 102 and 103 on one branch and 201 beside 101: the call for 103
commits 101, and 201, whose ancestry never wrote the slot, reads 101's value. -/
theorem fork_reads_committed_sibling :
    let start := new { diffTreeDepthLimit := 2 } false genesisDisk
    let events := [.update (slotBlock 101 100 1 11), .update (emptyBlock 201 100 1),
      .update (slotBlock 102 101 2 12), .update (slotBlock 103 102 3 13)]
    RunMeets step (OnUpdate Numbered) start events ∧
      ancestry (start.run events).accepted 201 = [emptyBlock 201 100 1, { info := ⟨100, 0, 0⟩ }] ∧
      ∃ handle, (start.run events).stateAt (.hash 201) = .ok (some handle) ∧
        (handle.storage (start.run events).cacheLayer.entries 1 2).1 = 11 ∧
        (genesisDisk.replay false (ancestry (start.run events).accepted 201)).get (.slot 1 2) =
          (0 : U256) := by
  refine ⟨by decide, by decide, _, rfl, by decide, by decide⟩

theorem capLoop_depth {limit : Nat} {ids : List LayerId} {bottomNum num : U64} {tree' : StateTree}
    (hchain : tree.arena.chain (some id) = ids.reverse) (h : capLoop limit ids bottomNum tree = .done num tree') :
    (tree'.arena.chain (some id)).length ≤ limit := by
  induction ids generalizing bottomNum tree with
  | nil =>
    cases h
    simp [hchain]
  | cons _ _ ih =>
    unfold capLoop at h
    split at h
    · split at h
      · cases h
      · next hcommit =>
        obtain ⟨rfl, -⟩ := commit_eq_some _ hcommit
        split at h
        · cases h
        · rw [reverse_cons, reverse_cons, append_assoc] at hchain
          exact ih ((chain_storeRetarget hchain).trans (reverse_cons ..).symm) h
    · cases h
      rw [hchain, length_reverse]
      exact not_lt.mp ‹_›

/-- **The tree stays shallow**: the latest block is read through at most `diff_tree_depth_limit` layers. -/
theorem latest_depth_le (clears : Bool) (disk₀ : DiskState) (events : List TreeEvent) :
    ((new config clears disk₀).run events).index.latest.layers.length ≤ config.diffTreeDepthLimit := by
  refine (foldlRecOn events step (motive := fun tree : StateTree => tree.config = config ∧
    tree.index.latest.layers.length ≤ config.diffTreeDepthLimit) ⟨rfl, zero_le _⟩ ?_).2
  rintro tree ⟨rfl, h⟩ event -
  rcases step_cases tree event with ⟨block, rfl⟩ | ⟨_, heq⟩
  · rw [step]
    rcases updateBlock_cases tree block with ⟨-, heq, -⟩ | ⟨parent, -, -, -, hcase⟩
    · rw [heq]
      exact ⟨rfl, h⟩
    have hsame := capDiffToDb_sameBlocks (tree.link block parent) tree.arena.length
    rcases hcase with ⟨-, heq⟩ | ⟨-, bottomNum, tree', hcap, heq⟩ | ⟨-, _, hcap, heq⟩ <;> rw [heq]
    · exact ⟨rfl, h⟩
    · obtain ⟨_, hlatest, hpublish⟩ := publish_eq tree' block tree.arena.length bottomNum
      rw [hcap] at hsame
      rw [hpublish, hlatest]
      unfold capDiffToDb at hcap
      split at hcap <;> cases hcap
      exact ⟨hsame.config, capLoop_depth (reverse_reverse _).symm ‹_›⟩
    · rw [hcap] at hsame
      exact ⟨hsame.config, hsame.index ▸ h⟩
  · rw [heq]
    exact ⟨rfl, h⟩

end LeafageEvm.StateTree
