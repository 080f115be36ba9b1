import LeafageEvm.TreeSteps

/-! The shape of the tree: a link leads to the parent, one block lower, and an indexed view starts
at the layer of the block it is indexed under. -/

namespace LeafageEvm
open Arena HashMap Nat

/-- A condition on the calls of `update_block`; reads and evictions meet it trivially. -/
def OnUpdate (condition : StateTree → Block → Prop) : StateTree → TreeEvent → Prop
  | tree, .update block => condition tree block
  | _, _ => True

instance (condition : StateTree → Block → Prop) [∀ tree block, Decidable (condition tree block)]
    (tree : StateTree) (event : TreeEvent) : Decidable (OnUpdate condition tree event) :=
  match event with
  | .update block => inferInstanceAs (Decidable (condition tree block))
  | .read _ _ => .isTrue trivial
  | .evict _ => .isTrue trivial

namespace StateTree

variable {parent : FlattenedLayerView} {tree' : StateTree} {number : U64} {view : FlattenedLayerView} {id : LayerId}
  {hash : H256} {block : Block} {bottomHeight : U64}

def Numbered (tree : StateTree) (block : Block) : Prop :=
  ∀ parent, tree.index.hashDiffMap block.info.parentHash = some parent →
    block.info.number.val = (tree.blockInfo parent).number.val + 1

instance (tree : StateTree) (block : Block) : Decidable (tree.Numbered block) :=
  match h : tree.index.hashDiffMap block.info.parentHash with
  | none => .isTrue fun parent hparent => by rw [h] at hparent; cases hparent
  | some parent =>
    decidable_of_iff (block.info.number.val = (tree.blockInfo parent).number.val + 1)
      ⟨fun hnumber parent' hparent => by rw [h] at hparent; cases hparent; exact hnumber,
        fun hnumber => hnumber parent h⟩

structure Linked (tree : StateTree) : Prop where
  wellLinked : tree.arena.WellLinked
  layer_new : ∀ id, tree.layer id = .new (tree.layer id).block
  parent : ∀ id below, tree.arena.next? id = some below →
    (tree.layer id).block.info.parentHash = (tree.layer below).block.info.hash ∧
      (tree.layer id).block.info.number.val = (tree.layer below).block.info.number.val + 1
  view : ∀ hash view, tree.index.hashDiffMap hash = some view →
    ∃ id, view.head = some id ∧ id < tree.arena.length ∧ (tree.layer id).block.info.hash = hash
  latest : ∀ id, tree.index.latest.head = some id → id < tree.arena.length

/-- The part of it that does not rest on the blocks' numbers. -/
structure Shaped (tree : StateTree) : Prop where
  wellLinked : tree.arena.WellLinked
  view : ∀ hash view, tree.index.hashDiffMap hash = some view →
    ∃ id, view.head = some id ∧ id < tree.arena.length ∧ (tree.layer id).block.info.hash = hash

theorem Linked.shaped {tree : StateTree} (hlinked : tree.Linked) : tree.Shaped :=
  ⟨hlinked.wellLinked, hlinked.view⟩

theorem blockInfo_of_head {tree : StateTree} (h : view.head = some id) : tree.blockInfo view = (tree.layer id).block.info := by
  simp [blockInfo, h]

theorem layer_new_of_ge (tree : StateTree) (h : tree.arena.length ≤ id) : tree.layer id = default := by
  have hnone : tree.arena.node? id = none := by
    refine Option.eq_none_iff_forall_ne_some.mpr fun node hnode => ?_
    exact absurd (lt_of_node? hnode) h.not_gt
  simp [layer, hnone]

theorem hashDiffMap_new {config : StateTreeConfig} {clears : Bool} {db : DiskState}
    (h : (new config clears db).index.hashDiffMap hash = some view) : hash = db.latest.hash ∧ view = ⟨[0]⟩ := by
  rcases insert_eq_some.mp h with ⟨rfl, rfl⟩ | ⟨-, hempty⟩
  · exact ⟨rfl, rfl⟩
  · cases hempty

theorem linked_new (config : StateTreeConfig) (clears : Bool) (db : DiskState) : (new config clears db).Linked := by
  have hnext : ∀ id below, (new config clears db).arena.next? id ≠ some below := by
    intro id _ h
    have hid : id < 1 := lt_of_next? h
    have : id = 0 := by omega
    subst this
    cases h
  refine ⟨wellLinked_iff.mpr fun id below h => absurd h (hnext id below), fun id => ?_,
    fun id below h => absurd h (hnext id _), fun _ _ h => ?_, nofun⟩
  · rcases Nat.eq_zero_or_pos id with rfl | hpos
    · rfl
    · rw [layer_new_of_ge _ hpos]
      rfl
  · obtain ⟨rfl, rfl⟩ := hashDiffMap_new h
    exact ⟨0, rfl, one_pos, rfl⟩

variable {tree : StateTree}

theorem blockInfo_link (block : Block) (parent : FlattenedLayerView)
    (hlt : ∀ id, view.head = some id → id < tree.arena.length) :
    (tree.link block parent).blockInfo view = tree.blockInfo view := by
  cases hhead : view.head with
  | none => simp [blockInfo, hhead, StateTree.link]
  | some id =>
    rw [blockInfo_of_head hhead, blockInfo_of_head hhead, tree.layer_link_of_lt (hlt id hhead)]

section
variable (hparent : tree.index.hashDiffMap block.info.parentHash = some parent)
include hparent
theorem Shaped.link (hshaped : tree.Shaped) : (tree.link block parent).Shaped := by
  obtain ⟨_, htop, htoplt, -⟩ := hshaped.view _ _ hparent
  constructor
  · refine hshaped.wellLinked.push ⟨.new block, parent.head⟩ fun p hp => ?_
    rw [htop] at hp
    cases hp
    exact htoplt
  · intro hash view hview
    obtain ⟨id, hhead, hidlt, hhash⟩ := hshaped.view hash view hview
    refine ⟨id, hhead, hidlt.trans (lt_succ_self _), ?_⟩
    rw [tree.layer_link_of_lt hidlt]
    exact hhash

theorem Linked.link (hlinked : tree.Linked) (hnumber : tree.Numbered block) : (tree.link block parent).Linked := by
  obtain ⟨_, htop, htoplt, htophash⟩ := hlinked.view _ _ hparent
  have hlt : ∀ id, id < (tree.link block parent).arena.length → id ≠ tree.arena.length →
      id < tree.arena.length := fun id hid _ => by
    simp only [StateTree.link, length_push] at hid
    omega
  have hshaped := hlinked.shaped.link hparent
  refine ⟨hshaped.wellLinked, fun id => ?_, fun id below hnext => ?_, hshaped.view,
    fun id h => (hlinked.latest id h).trans (lt_succ_self _)⟩
  · rcases lt_trichotomy id tree.arena.length with h | rfl | h
    · rw [tree.layer_link_of_lt h]
      exact hlinked.layer_new id
    · rw [layer_link_self]
      rfl
    · rw [layer_new_of_ge _ h]
      rfl
  · by_cases hid : id = tree.arena.length
    · subst hid
      have hbelow : parent.head = some below := (next?_push_self ..).symm.trans hnext
      rw [htop] at hbelow
      cases hbelow
      rw [layer_link_self, tree.layer_link_of_lt htoplt]
      exact ⟨htophash.symm, by rw [← blockInfo_of_head htop]; exact hnumber parent hparent⟩
    have hidlt := hlt id (lt_of_next? hnext) hid
    have hold : tree.arena.next? id = some below := (next?_push_of_lt _ _ hidlt).symm.trans hnext
    have hbelow := wellLinked_iff.mp hlinked.wellLinked id below hold
    rw [tree.layer_link_of_lt hidlt, tree.layer_link_of_lt (hbelow.trans hidlt)]
    exact hlinked.parent id below hold
end

theorem Shaped.of_sameBlocks (hshaped : tree.Shaped) (hsame : tree.SameBlocks tree') : tree'.Shaped where
  wellLinked := wellLinked_iff.mpr fun id below h =>
    wellLinked_iff.mp hshaped.wellLinked id below (hsame.next id below h)
  view hash view h := by
    rw [hsame.index] at h
    obtain ⟨id, hhead, hlt, hhash⟩ := hshaped.view hash view h
    exact ⟨id, hhead, hsame.length ▸ hlt, by rw [hsame.layer]; exact hhash⟩

theorem Linked.of_sameBlocks (hlinked : tree.Linked) (hsame : tree.SameBlocks tree') : tree'.Linked where
  wellLinked := (hlinked.shaped.of_sameBlocks hsame).wellLinked
  layer_new id := by
    rw [hsame.layer]
    exact hlinked.layer_new id
  parent id below h := by
    rw [hsame.layer, hsame.layer]
    exact hlinked.parent id below (hsame.next id _ h)
  view := (hlinked.shaped.of_sameBlocks hsame).view
  latest id h := by
    rw [hsame.index] at h
    rw [hsame.length]
    exact hlinked.latest id h

section
variable (hid : id < tree.arena.length)
include hid
theorem Shaped.head_buildView (hshaped : tree.Shaped) : (tree.buildView id).head = some id :=
  head?_chain hshaped.wellLinked hid

theorem Shaped.insertView (hshaped : tree.Shaped) (hhash : (tree.layer id).block.info.hash = block.info.hash) :
    (tree.insertView block (tree.buildView id)).Shaped where
  wellLinked := hshaped.wellLinked
  view hash view h := by
    rcases insert_eq_some.mp h with ⟨rfl, rfl⟩ | ⟨-, hold⟩
    · exact ⟨id, hshaped.head_buildView hid, hid, hhash⟩
    · exact hshaped.view hash view hold

theorem Linked.insertView (hlinked : tree.Linked) (hhash : (tree.layer id).block.info.hash = block.info.hash) :
    (tree.insertView block (tree.buildView id)).Linked where
  wellLinked := hlinked.wellLinked
  layer_new := hlinked.layer_new
  parent := hlinked.parent
  view := (hlinked.shaped.insertView hid hhash).view
  latest := hlinked.latest
end

theorem clearDiffMap_hashDiffMap : (tree.clearDiffMap bottomHeight).index.hashDiffMap hash = some view ↔
      tree.index.hashDiffMap hash = some view ∧ bottomHeight ≤ (tree.blockInfo view).number := by
  unfold clearDiffMap
  split
  · next h =>
      subst h
      exact ⟨fun hview => ⟨hview, Fin.zero_le _⟩, And.left⟩
  · simp only [retain_eq_some, decide_eq_true_eq]

theorem clearDiffMap_numDiffMap : (tree.clearDiffMap bottomHeight).index.numDiffMap number = some view ↔
      tree.index.numDiffMap number = some view ∧ bottomHeight ≤ number := by
  unfold clearDiffMap
  split
  · next h =>
      subst h
      exact ⟨fun hview => ⟨hview, Fin.zero_le _⟩, And.left⟩
  · simp only [retain_eq_some, decide_eq_true_eq]

/-! ### Publishing -/

theorem clearDiffMap_eq (tree : StateTree) (bottomHeight : U64) : ∃ index, index.latest = tree.index.latest ∧
      tree.clearDiffMap bottomHeight = { tree with index := index } := by
  unfold clearDiffMap
  split
  · exact ⟨tree.index, rfl, rfl⟩
  · refine ⟨_, ?_, rfl⟩
    rfl

theorem publish_eq (tree : StateTree) (block : Block) (id : LayerId) (bottomHeight : U64) :
    ∃ index, index.latest = tree.buildView id ∧
      tree.publish block id bottomHeight = { tree with index := index } := by
  obtain ⟨index, hlatest, heq⟩ := clearDiffMap_eq { tree.insertView block (tree.buildView id) with
      index := { (tree.insertView block (tree.buildView id)).index with latest := tree.buildView id } }
    bottomHeight
  exact ⟨index, hlatest, heq⟩

theorem publish_hashDiffMap : (tree.publish block id bottomHeight).index.hashDiffMap hash = some view ↔
      ((hash = block.info.hash ∧ tree.buildView id = view) ∨
        (hash ≠ block.info.hash ∧ tree.index.hashDiffMap hash = some view)) ∧
      bottomHeight ≤ (tree.blockInfo view).number := by
  unfold publish
  rw [clearDiffMap_hashDiffMap]
  refine and_congr ?_ Iff.rfl
  exact insert_eq_some

theorem publish_numDiffMap : (tree.publish block id bottomHeight).index.numDiffMap number = some view ↔
      ((number = block.info.number ∧ tree.buildView id = view) ∨
        (number ≠ block.info.number ∧ tree.index.numDiffMap number = some view)) ∧
      bottomHeight ≤ number := by
  unfold publish
  rw [clearDiffMap_numDiffMap]
  refine and_congr ?_ Iff.rfl
  exact insert_eq_some

theorem Shaped.publish (hshaped : tree.Shaped) (hid : id < tree.arena.length)
    (hhash : (tree.layer id).block.info.hash = block.info.hash) (bottomHeight : U64) :
    (tree.publish block id bottomHeight).Shaped := by
  obtain ⟨index, -, heq⟩ := publish_eq tree block id bottomHeight
  have hview : ∀ hash view, (tree.publish block id bottomHeight).index.hashDiffMap hash = some view →
      ∃ id, view.head = some id ∧ id < tree.arena.length ∧ (tree.layer id).block.info.hash = hash := by
    intro hash view h
    rcases (publish_hashDiffMap.mp h).1 with ⟨rfl, rfl⟩ | ⟨-, hold⟩
    · exact ⟨id, hshaped.head_buildView hid, hid, hhash⟩
    · exact hshaped.view hash view hold
  rw [heq] at hview ⊢
  exact ⟨hshaped.wellLinked, hview⟩

section
variable (hlinked : tree.Linked) (hid : id < tree.arena.length)
include hlinked hid
theorem Linked.publish (hhash : (tree.layer id).block.info.hash = block.info.hash) (bottomHeight : U64) :
    (tree.publish block id bottomHeight).Linked := by
  have hshaped := hlinked.shaped.publish hid hhash bottomHeight
  obtain ⟨_, hlatest, heq⟩ := publish_eq tree block id bottomHeight
  rw [heq] at hshaped ⊢
  refine { hlinked with view := hshaped.view, latest := fun _ htop => ?_ }
  rw [hlatest, hlinked.shaped.head_buildView hid] at htop
  cases htop
  exact hid

theorem Linked.number_chain : ∃ last, (tree.arena.chain (some id)).getLast? = some last ∧
      (tree.layer id).block.info.number.val + 1 =
        (tree.layer last).block.info.number.val + (tree.arena.chain (some id)).length := by
  refine chain_induction hlinked.wellLinked (P := fun id ids => ∃ last, ids.getLast? = some last ∧
      (tree.layer id).block.info.number.val + 1 = (tree.layer last).block.info.number.val + ids.length)
    (fun id _ _ => ⟨id, rfl, rfl⟩) (fun id _ below hnext _ ih => ?_) hid
  obtain ⟨last, hlast, hnumber⟩ := ih
  refine ⟨last, by rw [List.getLast?_cons, hlast]; rfl, ?_⟩
  rw [(hlinked.parent id below hnext).2, hnumber, List.length_cons, add_assoc]

theorem Linked.number_le_of_mem_chain {other : LayerId} (hmem : other ∈ tree.arena.chain (some id)) :
    (tree.layer other).block.info.number.val ≤ (tree.layer id).block.info.number.val := by
  refine chain_induction hlinked.wellLinked (P := fun id ids => ∀ other ∈ ids,
      (tree.layer other).block.info.number.val ≤ (tree.layer id).block.info.number.val)
    (fun id _ _ other hother => ?_) (fun id _ below hnext _ ih other hother => ?_) hid other hmem
  · rw [List.mem_singleton.mp hother]
  · rcases List.mem_cons.mp hother with rfl | hbelow
    · exact le_rfl
    · rw [(hlinked.parent id below hnext).2]
      exact (ih other hbelow).trans (le_succ _)
end

/-- **Every numbered step keeps the shape of the tree.** -/
theorem Linked.updateBlock (hlinked : tree.Linked) (hnumber : tree.Numbered block) :
    (tree.updateBlock block).2.Linked := by
  rcases updateBlock_cases tree block with ⟨-, heq, -⟩ | ⟨parent, -, -, hparent, hcase⟩
  · rwa [heq]
  have hlink := hlinked.link hparent hnumber
  have hid := tree.length_lt_link block parent
  have hhash := tree.hash_link block parent
  have hsame := capDiffToDb_sameBlocks (tree.link block parent) tree.arena.length
  rcases hcase with ⟨-, heq⟩ | ⟨-, bottomNum, tree', hcap, heq⟩ | ⟨-, tree', hcap, heq⟩
  · rw [heq]
    exact hlink.insertView hid hhash
  · rw [heq]
    rw [hcap] at hsame
    exact (hlink.of_sameBlocks hsame).publish (hsame.length ▸ hid)
      ((congrArg (·.block.info.hash) (hsame.layer _)).trans hhash) bottomNum
  rw [heq]
  rw [hcap] at hsame
  have hcut := hlink.of_sameBlocks hsame
  exact { hcut with }

/-- Reads and evictions change nothing but cache entries. -/
theorem step_cases (tree : StateTree) (event : TreeEvent) : (∃ block, event = .update block) ∨
      ∃ entries, tree.step event = tree.setEntries entries := by
  cases event with
  | update block => exact .inl ⟨block, rfl⟩
  | read _ k =>
    refine .inr ?_
    simp only [step]
    split
    · exact ⟨_, rfl⟩
    · exact ⟨tree.cacheLayer.entries, rfl⟩
  | evict k => exact .inr ⟨_, rfl⟩

end StateTree
end LeafageEvm
