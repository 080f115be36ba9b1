import LeafageEvm.TreeLinks
import Mathlib.Data.List.Nodup

/-! What reaches the database: one chain of blocks, each the child of the one before. The layer to
be committed is the only one linked to the cache and not committed yet, and the loop that commits it
hands that place to its child. The block committed last stays in the index, though, and its layer is
linked to the cache too: a fork that grows from it to the height of the latest leads the loop to the
same layer again, and the assertion of `commit` fails. -/

namespace LeafageEvm.StateTree
open Arena Nat List

def BottomUncommitted (tree : StateTree) (block : Block) : Prop :=
  ¬ tree.Ignores block → tree.Publishes block →
    ∀ parent, tree.index.hashDiffMap block.info.parentHash = some parent →
    tree.config.diffTreeDepthLimit ≤ (tree.arena.chain parent.head).length →
    ∀ bottom, (tree.arena.chain parent.head).getLast? = some bottom → bottom ∉ tree.committed

instance (tree : StateTree) (block : Block) : Decidable (tree.BottomUncommitted block) :=
  inferInstanceAs (Decidable (¬ tree.Ignores block → tree.Publishes block →
    ∀ parent ∈ tree.index.hashDiffMap block.info.parentHash,
      tree.config.diffTreeDepthLimit ≤ (tree.arena.chain parent.head).length →
      ∀ bottom ∈ (tree.arena.chain parent.head).getLast?, bottom ∉ tree.committed))

def ChildOf (child parent : Block) : Prop :=
  child.info.parentHash = parent.info.hash ∧ child.info.number.val = parent.info.number.val + 1

instance (child parent : Block) : Decidable (ChildOf child parent) :=
  inferInstanceAs (Decidable (_ ∧ _))

/-- The blocks handed to the database, the newest first. -/
def committedBlocks (tree : StateTree) : List Block := tree.committed.map fun id => (tree.layer id).block

/-- **The invariant.** `bottom` is the layer the next commit takes. -/
structure CommitsInOrder (tree : StateTree) : Prop where
  linked : tree.Linked
  depth : 1 ≤ tree.config.diffTreeDepthLimit
  usable : tree.poisoned = false
  old : tree.cacheLayer.oldDiffLayer = tree.committed.head?.map tree.layer
  chain : tree.committedBlocks.IsChain ChildOf
  committed_lt : ∀ id ∈ tree.committed, id < tree.arena.length
  committed_next : ∀ id ∈ tree.committed, tree.arena.next? id = none
  bottom : ∃ bottom < tree.arena.length,
    (∀ id < tree.arena.length, tree.arena.next? id = none → id ∉ tree.committed → id = bottom) ∧
    ∀ last, tree.committed.head? = some last → ChildOf (tree.layer bottom).block (tree.layer last).block

theorem commitsInOrder_new (config : StateTreeConfig) (clears : Bool) (db : DiskState)
    (hdepth : 1 ≤ config.diffTreeDepthLimit) : (new config clears db).CommitsInOrder where
  linked := linked_new config clears db
  depth := hdepth
  usable := rfl
  old := rfl
  chain := .nil
  committed_lt id h := by cases h
  committed_next id h := by cases h
  bottom := ⟨0, one_pos, fun id hid _ _ => lt_one_iff.mp hid, nofun⟩

variable {tree : StateTree}

section
variable (h : tree.CommitsInOrder)
include h
theorem CommitsInOrder.link {block : Block} {parent : FlattenedLayerView}
    (hparent : tree.index.hashDiffMap block.info.parentHash = some parent) (hnumber : tree.Numbered block) :
    (tree.link block parent).CommitsInOrder := by
  obtain ⟨_, htop, -⟩ := h.linked.view _ _ hparent
  have hlayer : ∀ id ∈ tree.committed, (tree.link block parent).layer id = tree.layer id :=
    fun id hid => tree.layer_link_of_lt (h.committed_lt id hid)
  have hblocks : (tree.link block parent).committedBlocks = tree.committedBlocks :=
    map_congr_left fun id hid => by rw [hlayer id hid]
  refine ⟨h.linked.link hparent hnumber, h.depth, h.usable, ?_, ?_,
    fun id hid => (h.committed_lt id hid).trans (lt_succ_self _), fun id hid => ?_, ?_⟩
  · refine h.old.trans ?_
    cases hcommitted : tree.committed with
    | nil => simp [StateTree.link, hcommitted]
    | cons last =>
      have := hlayer last (hcommitted ▸ mem_cons_self)
      simp only [StateTree.link, hcommitted, head?_cons, Option.map_some, Option.some.injEq]
      exact this.symm
  · rw [hblocks]
    exact h.chain
  · exact (next?_push_of_lt _ _ (h.committed_lt id hid)).trans (h.committed_next id hid)
  · obtain ⟨bottom, hbottom, hunique, hchild⟩ := h.bottom
    refine ⟨bottom, hbottom.trans (lt_succ_self _), fun id hid hnone hnot => ?_, fun last hlast => ?_⟩
    · by_cases heq : id = tree.arena.length
      -- The new layer is linked to its parent.
      · have hnext : parent.head = none := by
          rw [heq] at hnone
          exact (next?_push_self ..).symm.trans hnone
        rw [htop] at hnext
        cases hnext
      · have hidlt : id < tree.arena.length := lt_of_le_of_ne (Nat.lt_succ_iff.mp hid) heq
        exact hunique id hidlt ((next?_push_of_lt _ _ hidlt).symm.trans hnone) hnot
    · rw [tree.layer_link_of_lt hbottom, hlayer last (mem_of_head? hlast)]
      exact hchild last hlast

/-- A commit of the bottom layer succeeds and makes the layer above it the bottom. -/
theorem CommitsInOrder.commit {id next : LayerId} (hid : id < tree.arena.length) (hlast : tree.arena.next? id = none)
    (hfresh : id ∉ tree.committed) (hnext : tree.arena.next? next = some id) :
    tree.commit id = some (tree.store id) ∧ ((tree.store id).retarget next).CommitsInOrder := by
  obtain ⟨bottom, -, hunique, hchild⟩ := h.bottom
  obtain rfl := hunique id hid hlast hfresh
  have hsame := (sameBlocks_store tree id).trans (sameBlocks_retarget _ next)
  have hnextlt := lt_of_next? hnext
  have hcut : ∀ other, ((tree.store id).retarget next).arena.next? other =
      if other = next then _ else tree.arena.next? _ := next?_cut tree.arena next
  constructor
  · unfold StateTree.commit
    rw [h.old]
    cases hhead : tree.committed.head? with
    | none => rfl
    | some last => exact if_pos (hchild last hhead).1.symm
  refine ⟨h.linked.of_sameBlocks hsame, h.depth, h.usable, ?_, ?_, fun other hother => ?_,
    fun other hother => ?_, next, ?_, fun other hother hnone hnot => ?_, fun last hlast' => ?_⟩
  · exact congrArg some (hsame.layer id).symm
  · have hblocks : ((tree.store id).retarget next).committedBlocks =
        (tree.layer id).block :: tree.committedBlocks := by
      simp only [committedBlocks, hsame.layer]
      rfl
    rw [hblocks]
    refine isChain_cons.mpr ⟨fun _ hnewer => ?_, h.chain⟩
    rw [committedBlocks, head?_map] at hnewer
    obtain ⟨last, hlast', rfl⟩ := Option.map_eq_some_iff.mp hnewer
    exact hchild last hlast'
  · rw [hsame.length]
    rcases mem_cons.mp hother with rfl | hold
    · exact hid
    · exact h.committed_lt other hold
  · rw [hcut]
    split
    · rfl
    · rcases mem_cons.mp hother with rfl | hold
      · exact hlast
      · exact h.committed_next _ hold
  · rw [hsame.length]
    exact hnextlt
  · by_contra hne
    rw [hcut, if_neg hne] at hnone
    rw [hsame.length] at hother
    have hnot' := not_or.mp (mt mem_cons.mpr hnot)
    exact hnot'.1 (hunique other hother hnone hnot'.2)
  · cases hlast'
    rw [hsame.layer, hsame.layer]
    exact h.linked.parent next id hnext

/-- **The loop of `cap_diff_to_db`.** From the bottom layer up, along linked layers none of which is
committed, it commits in order and never panics. -/
theorem CommitsInOrder.capLoop (ids : List LayerId) (bottomNum : U64) (hids : ∀ id ∈ ids, id < tree.arena.length)
    (hnodup : ids.Nodup) (hfirst : ∀ id, ids.head? = some id → tree.arena.next? id = none)
    (hlinks : ids.IsChain fun lower upper => tree.arena.next? upper = some lower) (hfresh : ∀ id ∈ ids, id ∉ tree.committed) :
    ∃ bottomNum' tree', capLoop tree.config.diffTreeDepthLimit ids bottomNum tree =
      .done bottomNum' tree' ∧ tree'.CommitsInOrder := by
  induction ids generalizing tree bottomNum with
  | nil => exact ⟨_, _, rfl, h⟩
  | cons id rest ih =>
    by_cases hover : tree.config.diffTreeDepthLimit < rest.length + 1
    · cases rest with
      | nil => exact absurd (h.depth.trans_lt hover) (by simp)
      | cons next =>
        have hnext := (isChain_cons_cons.mp hlinks).1
        obtain ⟨hcommit, hinv⟩ := h.commit (hids id (.head _)) (hfirst id rfl)
          (hfresh id (.head _)) hnext
        have hcut : ∀ other, ((tree.store id).retarget next).arena.next? other =
            if other = next then _ else tree.arena.next? _ := next?_cut tree.arena next
        have hrest := nodup_cons.mp hnodup
        rw [capLoop, if_pos hover, hcommit]
        refine ih hinv _ (fun other hother => ?_) hrest.2
          (fun other hother => ?_) ?_ (fun other hother => ?_)
        · exact (length_cut tree.arena next).symm ▸ hids other (.tail _ hother)
        · cases hother
          rw [hcut, if_pos rfl]
        -- Only the link of `next` is cut, and the walk goes on above it.
        · refine (isChain_cons_cons.mp hlinks).2.imp_of_mem_tail_imp fun lower upper _ hupper hlink => ?_
          have hne : upper ≠ next := fun heq => (nodup_cons.mp hrest.2).1 (heq ▸ hupper)
          rw [hcut, if_neg hne]
          exact hlink
        · intro hmem
          rcases mem_cons.mp hmem with rfl | hold
          · exact hrest.1 hother
          · exact hfresh other (.tail _ hother) hold
    · exact ⟨bottomNum, tree, by rw [capLoop, if_neg hover], h⟩

theorem CommitsInOrder.setIndex {index : StateIndex} (hlinked : ({ tree with index := index } : StateTree).Linked) :
    ({ tree with index := index } : StateTree).CommitsInOrder :=
  { h with linked := hlinked }

/-- Capping from a head: it commits in order if it has nothing to commit or a bottom that is not
committed yet. -/
theorem CommitsInOrder.capDiffToDb {id : LayerId} (hid : id < tree.arena.length)
    (hfresh : tree.config.diffTreeDepthLimit < (tree.arena.chain (some id)).length →
      ∀ bottom, (tree.arena.chain (some id)).getLast? = some bottom → bottom ∉ tree.committed) :
    ∃ bottomNum tree', tree.capDiffToDb id = .done bottomNum tree' ∧ tree'.CommitsInOrder := by
  by_cases hle : (tree.arena.chain (some id)).length ≤ tree.config.diffTreeDepthLimit
  · exact ⟨_, tree, capDiffToDb_of_le hle, h⟩
  obtain ⟨last, hlast, hnone⟩ := next?_getLast? h.linked.wellLinked hid
  have hlastFresh := hfresh (Nat.lt_of_not_le hle) last hlast
  have hlinks := isChain_chain h.linked.wellLinked hid
  obtain ⟨bottomNum, tree', hloop, hinv⟩ := h.capLoop (tree.arena.chain (some id)).reverse 0
    (fun other hother => lt_of_mem_chain (mem_reverse.mp hother))
    (nodup_reverse.mpr (chain_nodup ..))
    (fun other hother => by
      rw [head?_reverse, hlast] at hother
      cases hother
      exact hnone)
    (isChain_reverse.mpr hlinks)
    (fun other hother hcommitted => by
      -- A committed layer has no link, so it could only be the last.
      obtain ⟨_, hsplit⟩ := eq_append_of_next?_eq_none h.linked.wellLinked hid
        (mem_reverse.mp hother) (h.committed_next _ hcommitted)
      rw [hsplit, getLast?_concat] at hlast
      cases hlast
      exact hlastFresh hcommitted)
  exact ⟨if bottomNum = 0 then (tree'.blockInfo ⟨[]⟩).number else bottomNum, tree',
    by rw [StateTree.capDiffToDb, hloop], hinv⟩

/-- **One call of `update_block`** returns and commits in order. -/
theorem CommitsInOrder.updateBlock {block : Block} (hnumber : tree.Numbered block) (hfresh : tree.BottomUncommitted block) :
    (tree.updateBlock block).1 ≠ .panic ∧ (tree.updateBlock block).2.CommitsInOrder := by
  rcases updateBlock_cases tree block with ⟨-, heq, hpanic⟩ | ⟨parent, hpoisoned, hnew, hparent, hcase⟩
  · rw [heq]
    refine ⟨fun h' => ?_, h⟩
    have hpoisoned := hpanic h'
    rw [h.usable] at hpoisoned
    cases hpoisoned
  have hactive : ¬ tree.Ignores block := by simp [Ignores, hpoisoned, hnew, hparent]
  have hlink := h.link hparent hnumber
  have hid := tree.length_lt_link block parent
  have hhash := tree.hash_link block parent
  rcases hcase with ⟨-, heq⟩ | hcapped
  · rw [heq]
    exact ⟨nofun, hlink.setIndex (hlink.linked.insertView hid hhash)⟩
  have hpublishes : tree.Publishes block := by
    rcases hcapped with ⟨hpub, -⟩ | ⟨hpub, -⟩ <;> exact hpub
  have hchain := tree.chain_link block parent
  obtain ⟨bottomNum, tree', hcap, hinv⟩ := hlink.capDiffToDb hid fun hover _ hbottom => by
    obtain ⟨_, htop, htoplt, -⟩ := h.linked.view _ _ hparent
    obtain ⟨last, hlast, -⟩ := next?_getLast? h.linked.wellLinked htoplt
    rw [hchain, getLast?_cons, htop, hlast] at hbottom
    cases hbottom
    refine hfresh hactive hpublishes parent hparent ?_ last (by rw [htop]; exact hlast)
    rw [hchain] at hover
    exact Nat.lt_succ_iff.mp hover
  have hsame := capDiffToDb_sameBlocks (tree.link block parent) tree.arena.length
  rw [hcap] at hsame
  rcases hcapped with ⟨-, _, tree'', hcap', heq⟩ | ⟨-, tree'', hcap', -⟩
  · rw [hcap] at hcap'
    cases hcap'
    rw [heq]
    refine ⟨nofun, ?_⟩
    have hpublish := hinv.linked.publish (hsame.length ▸ hid)
      ((congrArg (·.block.info.hash) (hsame.layer _)).trans hhash) bottomNum
    obtain ⟨_, -, hpub⟩ := publish_eq tree' block tree.arena.length bottomNum
    rw [hpub] at hpublish ⊢
    exact hinv.setIndex hpublish
  · rw [hcap] at hcap'
    cases hcap'

theorem CommitsInOrder.step {event : TreeEvent} (hnumber : OnUpdate Numbered tree event)
    (hfresh : OnUpdate BottomUncommitted tree event) : (tree.step event).CommitsInOrder := by
  rcases step_cases tree event with ⟨_, rfl⟩ | ⟨entries, heq⟩
  · exact (h.updateBlock hnumber hfresh).2
  · rw [heq]
    exact { h with linked := h.linked.of_sameBlocks (sameBlocks_setEntries tree entries) }
end

theorem nodup_of_isChain_childOf {blocks : List Block} (h : blocks.IsChain ChildOf) : blocks.Nodup := by
  have hfall : (blocks.map (·.info.number)).IsChain (· > ·) := by
    rw [isChain_map]
    exact h.imp fun _ _ hchild => Fin.lt_def.mpr (by rw [hchild.2]; exact lt_succ_self _)
  exact Nodup.of_map _ ((isChain_iff_pairwise.mp hfall).imp fun hgt => hgt.ne')

/-- **Commit discipline.** In every run with a positive depth limit in which no call has to commit a
layer that is committed already, every call returns, and the blocks in the database form one chain of
children with consecutive numbers, each committed once. -/
theorem updates_commit_in_order (config : StateTreeConfig) (clears : Bool) (disk₀ : DiskState)
    (events : List TreeEvent) (hdepth : 1 ≤ config.diffTreeDepthLimit)
    (hnumbered : RunMeets step (OnUpdate Numbered) (new config clears disk₀) events)
    (hfresh : RunMeets step (OnUpdate BottomUncommitted) (new config clears disk₀) events) :
    RunMeets step (OnUpdate fun tree block => (tree.updateBlock block).1 ≠ .panic)
        (new config clears disk₀) events ∧
      ((new config clears disk₀).run events).committedBlocks.IsChain ChildOf ∧
      ((new config clears disk₀).run events).committedBlocks.Nodup := by
  have hinit := commitsInOrder_new config clears disk₀ hdepth
  have hmeets := hnumbered.and hfresh
  have hinv : ((new config clears disk₀).run events).CommitsInOrder :=
    run_invariant CommitsInOrder (fun _ _ h hmeets => h.step hmeets.1 hmeets.2) hinit hmeets
  refine ⟨hmeets.of_invariant CommitsInOrder (fun _ _ h hmeets => h.step hmeets.1 hmeets.2)
    (fun tree event h hmeets => ?_) hinit, hinv.chain, nodup_of_isChain_childOf hinv.chain⟩
  cases event with
  | update => exact (h.updateBlock hmeets.1 hmeets.2).1
  | read _ k => trivial
  | evict k => trivial

/-- With depth limit 2 and a fork from 101: the call for 102 commits the block of the disk, the call for 103 commits 101. -/
theorem updates_commit_in_order_fork :
    let tree := (new { diffTreeDepthLimit := 2 } false genesisDisk).run [.update (slotBlock 101 100 1 11),
      .update (slotBlock 102 101 2 12), .update (slotBlock 202 101 2 22), .update (slotBlock 103 102 3 13)]
    tree.committedBlocks = [slotBlock 101 100 1 11, { info := ⟨100, 0, 0⟩ }] ∧ tree.committedBlocks.IsChain ChildOf ∧
      tree.committedBlocks.Nodup :=
  ⟨by decide, (updates_commit_in_order { diffTreeDepthLimit := 2 } false genesisDisk _ (by decide) (by decide) (by decide)).2⟩

/-- With depth limit 2 the call for 103 commits 101. The branch 202, 203 grows from 101 to the same
height; the call for 203 walks down to 101, already committed, and panics. With depth limit 0 the
first block panics the loop, after it is committed itself. -/
theorem fork_from_committed_panics : (let start := new { diffTreeDepthLimit := 2 } false genesisDisk
      let events := [.update (slotBlock 101 100 1 11), .update (slotBlock 102 101 2 12),
        .update (slotBlock 103 102 3 13), .update (emptyBlock 202 101 2)]
      RunMeets step (OnUpdate Numbered) start (events ++ [.update (emptyBlock 203 202 3)]) ∧
        ((start.run events).updateBlock (emptyBlock 203 202 3)).1 = .panic) ∧
    ((new { diffTreeDepthLimit := 0 } false genesisDisk).updateBlock (slotBlock 101 100 1 11)).1 =
      .panic := by
  decide

end LeafageEvm.StateTree
