import LeafageEvm.TreeLinks

/-! The index by number. It is meant to hold the main chain only: the block found at a height is the
ancestor of the latest at that height. An accepted block is written under its own number and nothing
else changes, so this holds as long as every accepted block extends the latest or replaces it beside
it. A fork inserted below the latest takes the place of a main-chain block, and a head that moves to
another branch leaves the lower numbers of the old one in place. -/

namespace LeafageEvm.StateTree
open Nat
variable {block : Block} {parent : FlattenedLayerView}

def latestInfo (tree : StateTree) : BlockInfo := tree.blockInfo tree.index.latest

def ExtendsMainChain (tree : StateTree) (block : Block) : Prop :=
  ¬ tree.Ignores block → tree.Publishes block ∧
    (block.info.parentHash = tree.latestInfo.hash ∨ block.info.parentHash = tree.latestInfo.parentHash)

def NumbersOnMainChain (tree : StateTree) : Prop :=
  ∀ number view, tree.index.numDiffMap number = some view →
    ∃ id, view.head = some id ∧ id < tree.arena.length ∧
      (tree.layer id).block.info.number = number ∧
      (tree.layer id).block ∈ ancestry tree.accepted tree.latestInfo.hash

/-- What a tree that still takes blocks keeps about its head: it is the block accepted last, and it
stands in the index beside its parent's height. -/
structure HeadNewest (tree : StateTree) : Prop where
  number_le : ∀ number view, tree.index.numDiffMap number = some view → number ≤ tree.latestInfo.number
  newest : ∃ block older, tree.accepted = block :: older ∧ block.info = tree.latestInfo
  bottom_le : tree.bottomNumber ≤ tree.latestInfo.number.val
  start : tree.index.latest.head = none → tree.accepted.length = 1 ∧
    ∀ hash view, tree.index.hashDiffMap hash = some view → hash = tree.latestInfo.hash
  indexed : tree.index.latest.head ≠ none → tree.latestInfo.hash ≠ tree.latestInfo.parentHash ∧
    tree.index.hashDiffMap tree.latestInfo.hash ≠ none ∧
    ∀ view, tree.index.hashDiffMap tree.latestInfo.parentHash = some view →
      tree.latestInfo.number.val = (tree.blockInfo view).number.val + 1

/-- **The invariant.** After a panic the index is frozen and only its content matters. -/
structure MainChain (tree : StateTree) : Prop where
  linked : tree.Linked
  canonical : tree.NumbersOnMainChain
  head : tree.poisoned = false → tree.HeadNewest

theorem mainChain_new (config : StateTreeConfig) (clears : Bool) (db : DiskState) :
    (new config clears db).MainChain where
  linked := linked_new config clears db
  canonical number view h := by
    rcases HashMap.insert_eq_some.mp h with ⟨rfl, rfl⟩ | ⟨-, hempty⟩
    · exact ⟨0, rfl, one_pos, rfl, by simp [accepted, new, ancestry, layer, Arena.node?, latestInfo, blockInfo, FlattenedLayerView.head]⟩
    · cases hempty
  head _ :=
    { number_le := fun number view h => by
        rcases HashMap.insert_eq_some.mp h with ⟨rfl, -⟩ | ⟨-, hempty⟩
        · exact le_rfl
        · cases hempty
      newest := ⟨_, [], rfl, rfl⟩
      bottom_le := le_rfl
      start := fun _ => ⟨rfl, fun _ view h => (hashDiffMap_new h).1⟩
      indexed := absurd rfl }

variable {tree : StateTree} {tree' : StateTree}

/-- The ancestors of the latest are ancestors of a block on it or beside it, but for the latest
itself in the second case. -/
theorem HeadNewest.mem_ancestry (h : tree.HeadNewest) {ancestor : Block}
    (hparent : tree.index.hashDiffMap block.info.parentHash = some parent)
    (hextends : block.info.parentHash = tree.latestInfo.hash ∨
      block.info.parentHash = tree.latestInfo.parentHash)
    (hmem : ancestor ∈ ancestry tree.accepted tree.latestInfo.hash) :
    ancestor ∈ ancestry tree.accepted block.info.parentHash ∨
      (ancestor.info = tree.latestInfo ∧
        tree.latestInfo.number.val = (tree.blockInfo parent).number.val + 1) := by
  by_cases hon : block.info.parentHash = tree.latestInfo.hash
  · rw [hon]
    exact .inl hmem
  have hbeside := hextends.resolve_left hon
  have hhead : tree.index.latest.head ≠ none := fun hnone => hon ((h.start hnone).2 _ _ hparent)
  obtain ⟨hne, -, hnumber⟩ := h.indexed hhead
  obtain ⟨newest, _, haccepted, hinfo⟩ := h.newest
  rw [hbeside] at hparent
  rw [haccepted, ancestry, if_pos (congrArg BlockInfo.hash hinfo)] at hmem
  rcases List.mem_cons.mp hmem with rfl | hbelow
  · exact .inr ⟨hinfo, hnumber parent hparent⟩
  refine .inl ?_
  have hnewest : newest.info.hash ≠ tree.latestInfo.parentHash := by rwa [hinfo]
  rw [haccepted, hbeside, ancestry, if_neg hnewest, ← hinfo]
  exact hbelow

section
variable (h : tree.MainChain) (husable : tree.poisoned = false)
  (hnew : tree.index.hashDiffMap block.info.hash = none)
  (hparent : tree.index.hashDiffMap block.info.parentHash = some parent)
include h husable hnew hparent
/-- A new head on the main chain, published over a capped chain. -/
theorem MainChain.publish {bottomNum : U64}
    (hnumber : tree.Numbered block) (hextends : block.info.parentHash = tree.latestInfo.hash ∨
      block.info.parentHash = tree.latestInfo.parentHash) (hpublishes : tree.Publishes block)
    (hsame : (tree.link block parent).SameBlocks tree')
    (hbottom : tree'.bottomNumber ≤ block.info.number.val) (hheight : bottomNum ≤ block.info.number)
    (hlinked : (tree'.publish block tree.arena.length bottomNum).Linked) :
    (tree'.publish block tree.arena.length bottomNum).MainChain := by
  have hhead := h.head husable
  have hlink := h.linked.link hparent hnumber
  have hid : tree.arena.length < tree'.arena.length := by
    rw [hsame.length]
    exact lt_succ_self _
  have hlayer : tree'.layer tree.arena.length = .new block := by
    rw [hsame.layer, layer_link_self]
  have hold : ∀ {id}, id < tree.arena.length → tree'.layer id = tree.layer id := fun hlt => by
    rw [hsame.layer, tree.layer_link_of_lt hlt]
  have haccepted : tree'.accepted = block :: tree.accepted := by rw [hsame.accepted, accepted_link]
  have hview : (tree'.buildView tree.arena.length).head = some tree.arena.length :=
    (hlink.of_sameBlocks hsame).shaped.head_buildView hid
  have hinfo : tree'.blockInfo (tree'.buildView tree.arena.length) = block.info := by
    rw [blockInfo_of_head hview, hlayer]
    rfl
  have hviewInfo : ∀ {hash view}, tree.index.hashDiffMap hash = some view →
      tree'.blockInfo view = tree.blockInfo view := fun hmap => by
    obtain ⟨_, htop, htoplt, -⟩ := h.linked.view _ _ hmap
    rw [blockInfo_of_head htop, blockInfo_of_head htop, hold htoplt]
  have hhash : ∀ {hash view}, (tree'.publish block tree.arena.length bottomNum).index.hashDiffMap hash =
      some view ↔ _ := publish_hashDiffMap
  have hnum : ∀ {number view}, (tree'.publish block tree.arena.length bottomNum).index.numDiffMap number =
      some view ↔ _ := publish_numDiffMap
  obtain ⟨index, hlatest, heq⟩ := publish_eq tree' block tree.arena.length bottomNum
  rw [heq] at hlinked hhash hnum ⊢
  have hlatestInfo : ({ tree' with index := index } : StateTree).latestInfo = block.info := by
    rw [latestInfo, hlatest]
    exact hinfo
  have hancestry : ancestry ({ tree' with index := index } : StateTree).accepted block.info.hash =
      block :: ancestry tree.accepted block.info.parentHash := by
    refine (congrArg (ancestry · block.info.hash) haccepted).trans ?_
    rw [ancestry, if_pos rfl]
  refine ⟨hlinked, fun number view hmap => ?_, fun _ => ⟨fun number view hmap => ?_, ?_, ?_, ?_, ?_⟩⟩
  · rw [hlatestInfo, hancestry]
    obtain ⟨⟨rfl, rfl⟩ | ⟨hne, hmap⟩, -⟩ := hnum.mp hmap
    · exact ⟨tree.arena.length, hview, hid, congrArg (·.block.info.number) hlayer,
        by rw [show ({ tree' with index := index } : StateTree).layer tree.arena.length = _ from hlayer]
           exact .head _⟩
    rw [hsame.index] at hmap
    obtain ⟨id, hhead', hlt, hidnum, hmem⟩ := h.canonical number view hmap
    have hidlayer : ({ tree' with index := index } : StateTree).layer id = tree.layer id := hold hlt
    refine ⟨id, hhead', hlt.trans hid, by rw [hidlayer]; exact hidnum, ?_⟩
    rw [hidlayer]
    rcases hhead.mem_ancestry hparent hextends hmem with hbelow | ⟨hself, hbeside⟩
    · exact .tail _ hbelow
    -- The latest itself is replaced, and its number with it.
    · refine absurd (Fin.ext ?_) hne
      rw [← hidnum, hself, hbeside, hnumber parent hparent]
  · rw [hlatestInfo]
    obtain ⟨⟨rfl, -⟩ | ⟨-, hmap⟩, -⟩ := hnum.mp hmap
    · exact le_rfl
    · rw [hsame.index] at hmap
      exact (hhead.number_le number view hmap).trans hpublishes
  · exact ⟨block, tree.accepted, haccepted, hlatestInfo.symm⟩
  · rw [hlatestInfo]
    exact hbottom
  · intro hnone
    rw [hlatest, hview] at hnone
    cases hnone
  · intro _
    rw [hlatestInfo]
    refine ⟨fun hself => ?_, fun hnone => ?_, fun view hmap => ?_⟩
    · rw [hself, hparent] at hnew
      cases hnew
    · have hpresent := hhash.mpr ⟨.inl ⟨rfl, rfl⟩, by rw [hinfo]; exact hheight⟩
      rw [hnone] at hpresent
      cases hpresent
    · obtain ⟨⟨hself, -⟩ | ⟨-, hmap⟩, -⟩ := hhash.mp hmap
      · rw [hself, hnew] at hparent
        cases hparent
      rw [hsame.index] at hmap
      have hsameParent : parent = view := Option.some.inj (hparent.symm.trans hmap)
      rw [show ({ tree' with index := index } : StateTree).blockInfo view = _ from hviewInfo hmap]
      exact hsameParent ▸ hnumber parent hparent

/-- A call that panics leaves the index as it was, and the head where it was or, when that is still
the disk, at the disk the loop moved. -/
theorem MainChain.panicked (hcap : (tree.link block parent).capDiffToDb tree.arena.length = .panicked tree')
    (hlinked : ({ tree' with poisoned := true } : StateTree).Linked) :
    ({ tree' with poisoned := true } : StateTree).MainChain := by
  set joined := tree.link block parent
  have hhead := h.head husable
  have hsame : joined.SameBlocks tree' := by
    have hsame := capDiffToDb_sameBlocks joined tree.arena.length
    rwa [hcap] at hsame
  have hbottom := capDiffToDb_bottom joined tree.arena.length
  rw [hcap] at hbottom
  have hold : ∀ {id}, id < tree.arena.length → tree'.layer id = tree.layer id := fun hlt => by
    rw [hsame.layer, tree.layer_link_of_lt hlt]
  have haccepted : tree'.accepted = block :: tree.accepted := by rw [hsame.accepted, accepted_link]
  -- The hash of the old head is in the index, so it is not the new block's.
  have hkeep : ∀ {hash}, tree.index.hashDiffMap hash ≠ none →
      ancestry tree'.accepted hash = ancestry tree.accepted hash := fun {hash} hindexed => by
    have hne : block.info.hash ≠ hash := fun heq => hindexed (heq ▸ hnew)
    rw [haccepted, ancestry, if_neg hne]
  have hlatest : ∀ ancestor ∈ ancestry tree.accepted tree.latestInfo.hash,
      ancestor ∈ ancestry tree'.accepted (tree'.blockInfo tree.index.latest).hash := by
    intro _ hmem
    cases htop : tree.index.latest.head with
    | some top =>
      have hinfo : tree'.blockInfo tree.index.latest = tree.latestInfo := by
        rw [latestInfo, blockInfo_of_head htop, blockInfo_of_head htop, hold (h.linked.latest top htop)]
      rw [hinfo, hkeep (hhead.indexed (by simp [htop])).2.1]
      exact hmem
    | none =>
      obtain ⟨hlength, hroot⟩ := hhead.start htop
      have hparentHash : block.info.parentHash = tree.latestInfo.hash := hroot _ _ hparent
      have hindexed : tree.index.hashDiffMap tree.latestInfo.hash ≠ none := by
        rw [← hparentHash, hparent]
        nofun
      have hview : tree.index.latest = ⟨[]⟩ := by
        cases hlatest : tree.index.latest with
        | mk layers =>
          rw [hlatest] at htop
          cases layers with
          | nil => rfl
          | cons => cases htop
      have hinfo : tree.latestInfo = tree.blockInfo ⟨[]⟩ := by rw [latestInfo, hview]
      rw [hview]
      rcases hbottom with hsameInfo | ⟨other, hother, hotherInfo⟩
      · have hdisk : tree'.blockInfo ⟨[]⟩ = tree.latestInfo := hsameInfo.trans hinfo.symm
        rw [hdisk, hkeep hindexed]
        exact hmem
      have hdisk : tree'.blockInfo ⟨[]⟩ = (joined.layer other).block.info := hotherInfo
      rw [hdisk]
      by_cases hself : other = tree.arena.length
      · rw [hself, layer_link_self, DiffLayer.new_block, haccepted, ancestry, if_pos rfl]
        refine .tail _ ?_
        rw [hparentHash]
        exact hmem
      -- The only other layer is the one the tree started from, the parent of the new block.
      · have hlt := Arena.lt_of_mem_chain hother
        obtain ⟨top, -, htoplt, htophash⟩ := h.linked.view _ _ hparent
        have hlength' : tree.arena.length = 1 := by
          rw [← hlength]
          exact (List.length_map _).symm
        have hotherlt : other < tree.arena.length :=
          lt_of_le_of_ne (Nat.lt_succ_iff.mp hlt) hself
        have hlayer : joined.layer other = _ := tree.layer_link_of_lt hotherlt
        rw [hlength', lt_one_iff] at htoplt hotherlt
        have heq : other = top := hotherlt.trans htoplt.symm
        rw [hlayer, heq, htophash, hparentHash, hkeep hindexed]
        exact hmem
  refine ⟨hlinked, fun number view hmap => ?_, fun husable' => ?_⟩
  · have hmap' : tree.index.numDiffMap number = some view := by
      rw [← hmap]
      exact congrArg (fun index => index.numDiffMap number) hsame.index.symm
    obtain ⟨id, hhead', hlt, hidnum, hmem⟩ := h.canonical number view hmap'
    have hidlayer : ({ tree' with poisoned := true } : StateTree).layer id = tree.layer id := hold hlt
    have hindex : ({ tree' with poisoned := true } : StateTree).latestInfo =
        tree'.blockInfo tree.index.latest :=
      congrArg (fun index : StateIndex => tree'.blockInfo index.latest) hsame.index
    refine ⟨id, hhead', ?_, by rw [hidlayer]; exact hidnum, ?_⟩
    · exact hlt.trans_le (by rw [show _ = _ from hsame.length]; exact le_succ _)
    · rw [hidlayer, hindex]
      exact hlatest _ hmem
  · cases husable'
end

/-- **One call of `update_block`.** -/
theorem MainChain.updateBlock (h : tree.MainChain) (hnumber : tree.Numbered block) (hextends : tree.ExtendsMainChain block) :
    (tree.updateBlock block).2.MainChain := by
  have hlinked := h.linked.updateBlock hnumber
  rcases updateBlock_cases tree block with ⟨-, heq, -⟩ | ⟨parent, husable, hnew, hparent, hcase⟩
  · rwa [heq]
  have hactive : ¬ tree.Ignores block := by simp [Ignores, husable, hnew, hparent]
  obtain ⟨hpublishes, hmain⟩ := hextends hactive
  rcases hcase with ⟨hbelow, -⟩ | ⟨-, _, tree', hcap, heq⟩ | ⟨-, tree', hcap, heq⟩
  · exact absurd hpublishes hbelow
  · rw [heq] at hlinked ⊢
    have hsame := capDiffToDb_sameBlocks (tree.link block parent) tree.arena.length
    have hlink := h.linked.link hparent hnumber
    obtain ⟨hbottom, hheight⟩ := capDiffToDb_bounded block.info.number.val (tree.link block parent)
      tree.arena.length
      (fun _ hother => by
        refine (hlink.number_le_of_mem_chain (lt_succ_self _) hother).trans ?_
        rw [layer_link_self]
        exact le_rfl)
      ((h.head husable).bottom_le.trans hpublishes)
    rw [hcap] at hsame hbottom
    exact h.publish husable hnew hparent hnumber hmain hpublishes hsame hbottom (hheight _ _ hcap) hlinked
  · rw [heq] at hlinked ⊢
    exact h.panicked husable hnew hparent hcap hlinked

theorem MainChain.step (h : tree.MainChain) {event : TreeEvent} (hnumber : OnUpdate Numbered tree event)
    (hextends : OnUpdate ExtendsMainChain tree event) : (tree.step event).MainChain := by
  rcases step_cases tree event with ⟨_, rfl⟩ | ⟨entries, heq⟩
  · exact h.updateBlock hnumber hextends
  rw [heq]
  refine ⟨h.linked.of_sameBlocks (sameBlocks_setEntries tree entries), h.canonical, fun husable => ?_⟩
  have hhead := h.head husable
  exact { hhead with }

/-- **The index by number is the main chain.** In every state of a run whose accepted blocks each
become the head on the latest or on its parent, the block found at a number is an ancestor of the
latest, or the latest, and has that number. -/
theorem numDiffMap_on_main_chain (config : StateTreeConfig) (clears : Bool) (disk₀ : DiskState)
    (events : List TreeEvent) (hnumbered : RunMeets step (OnUpdate Numbered) (new config clears disk₀) events)
    (hextends : RunMeets step (OnUpdate ExtendsMainChain) (new config clears disk₀) events) :
    ((new config clears disk₀).run events).NumbersOnMainChain :=
  (run_invariant MainChain (fun _ _ h hmeets => h.step hmeets.1 hmeets.2)
    (mainChain_new config clears disk₀) (hnumbered.and hextends)).canonical

/-- A block on the start of the tree and one beside it. -/
theorem numDiffMap_on_main_chain_sibling :
    let tree := (new {} false genesisDisk).run
      [.update (slotBlock 101 100 1 11), .update (emptyBlock 201 100 1)]
    tree.latestInfo.hash = 201 ∧ tree.NumbersOnMainChain := by
  refine ⟨by decide, numDiffMap_on_main_chain {} false genesisDisk
    [.update (slotBlock 101 100 1 11), .update (emptyBlock 201 100 1)] (by decide) ⟨?_, ?_, trivial⟩⟩
  · exact fun _ => ⟨by decide, .inl rfl⟩
  · exact fun _ => ⟨by decide, .inr rfl⟩

/-- Block 201 arrives beside 101 when 102 is the latest, and number 1 then leads to it. When a branch
101, 102, 103 comes back over 202, number 2 still leads to 202. -/
theorem fork_takes_number_of_main_chain : (let start := new {} false genesisDisk
      let events := [.update (emptyBlock 101 100 1), .update (emptyBlock 102 101 2),
        .update (emptyBlock 201 100 1)]
      RunMeets step (OnUpdate Numbered) start events ∧
        (start.run events).latestInfo.hash = 102 ∧
        ((start.run events).index.numDiffMap 1).map (start.run events).blockInfo = some ⟨201, 100, 1⟩ ∧
        (ancestry (start.run events).accepted 102).map (·.info.hash) = [102, 101, 100]) ∧
    (let start := new {} false genesisDisk
      let events := [.update (emptyBlock 101 100 1), .update (emptyBlock 102 101 2),
        .update (emptyBlock 201 100 1), .update (emptyBlock 202 201 2), .update (emptyBlock 103 102 3)]
      RunMeets step (OnUpdate Numbered) start events ∧
        (start.run events).latestInfo.hash = 103 ∧
        ((start.run events).index.numDiffMap 2).map (start.run events).blockInfo = some ⟨202, 201, 2⟩ ∧
        (ancestry (start.run events).accepted 103).map (·.info.hash) = [103, 102, 101, 100]) := by
  decide

end LeafageEvm.StateTree
