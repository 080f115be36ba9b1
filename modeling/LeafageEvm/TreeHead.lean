import LeafageEvm.TreeLinks

/-! Where the database stands. Whatever blocks arrive, and whether a call returns, panics or is cut off
by a crash in between two writes, the block the database stands at only moves to its descendants: the
first block committed is the one the tree started from, and the assertion of `commit` lets only a child
follow. -/

namespace LeafageEvm
open Arena Nat List

/-- The blocks there are, by hash. -/
structure BlockSource where
  block : H256 → Block
  hash_eq : ∀ hash, (block hash).info.hash = hash

namespace BlockSource

variable (source : BlockSource)

def parent (hash : H256) : H256 := (source.block hash).info.parentHash

/-- The block is the other one, or comes after it along the parent hashes. -/
def Descends (hash ancestor : H256) : Prop :=
  Relation.ReflTransGen (fun child parent => source.parent child = parent) hash ancestor

/-- The block comes after the other one. -/
def StrictlyDescends (hash ancestor : H256) : Prop :=
  Relation.TransGen (fun child parent => source.parent child = parent) hash ancestor

end BlockSource

namespace StateTree

/-- The trees that the loop of `cap_diff_to_db` passes through, one after each write to the database. -/
def capStates (limit : Nat) : List LayerId → StateTree → List StateTree
  | [], _ => []
  | id :: rest, tree =>
    if limit < rest.length + 1 then
      match tree.commit id with
      | none => []
      | some tree' =>
        match rest with
        | [] => [tree']
        | next :: _ => tree' :: capStates limit rest (tree'.retarget next)
    else []

/-- The trees in the course of a call of `update_block`, one after each write to the database. -/
def updateStates (tree : StateTree) (block : Block) : List StateTree :=
  match tree.index.hashDiffMap block.info.parentHash with
  | some parent =>
    if tree.poisoned = false ∧ tree.index.hashDiffMap block.info.hash = none ∧
        (tree.blockInfo tree.index.latest).number ≤ block.info.number then
      let linked := tree.link block parent
      capStates linked.config.diffTreeDepthLimit (linked.arena.chain (some tree.arena.length)).reverse linked
    else []
  | none => []

/-- The block that the database stands at, as the tree sees it. -/
structure Grounded (source : BlockSource) (tree : StateTree) : Prop where
  shaped : tree.Shaped
  blocks : ∀ id < tree.arena.length, (tree.layer id).block.info = (source.block (tree.layer id).block.info.hash).info
  latest : tree.db.latest = (source.block tree.db.latest.hash).info
  bottom : (tree.cacheLayer.oldDiffLayer = none ∧ 0 < tree.arena.length ∧ (tree.layer 0).block.info = tree.db.latest ∧
      ∀ id < tree.arena.length, tree.arena.next? id = none → id = 0) ∨
    ∃ id < tree.arena.length, tree.cacheLayer.oldDiffLayer = some (tree.layer id) ∧
      (tree.layer id).block.info = tree.db.latest

variable {source : BlockSource} {tree : StateTree} {block : Block} {id : LayerId}

theorem grounded_new (config : StateTreeConfig) (clears : Bool) {db : DiskState}
    (hlatest : db.latest = (source.block db.latest.hash).info) : (new config clears db).Grounded source where
  shaped := (linked_new config clears db).shaped
  blocks id hid := by
    obtain rfl : id = 0 := lt_one_iff.mp hid
    exact hlatest
  latest := hlatest
  bottom := .inl ⟨rfl, one_pos, rfl, fun _ hid _ => lt_one_iff.mp hid⟩

/-- A commit leaves the database where it is or moves it to a child. -/
theorem Grounded.commit (h : tree.Grounded source) (hid : id < tree.arena.length)
    (hlast : tree.arena.next? id = none) {tree' : StateTree} (hcommit : tree.commit id = some tree') :
    tree' = tree.store id ∧ tree'.Grounded source ∧ tree'.db.latest = (tree.layer id).block.info ∧
      source.Descends tree'.db.latest.hash tree.db.latest.hash := by
  obtain ⟨rfl, hfollows⟩ := tree.commit_eq_some hcommit
  have hlatest : (tree.store id).db.latest = (tree.layer id).block.info := rfl
  refine ⟨rfl, ⟨h.shaped.of_sameBlocks (sameBlocks_store tree id), h.blocks, ?_, .inr ⟨id, hid, rfl, rfl⟩⟩, hlatest, ?_⟩
  · exact h.blocks id hid
  · rw [hlatest]
    rcases h.bottom with ⟨-, -, hzero, hfirst⟩ | ⟨_, -, hold, hinfo⟩
    · rw [hfirst id hid hlast, hzero]
      exact .refl
    · refine .single ?_
      rw [BlockSource.parent, ← h.blocks id hid, ← hinfo]
      exact (hfollows _ hold).symm

/-- After a commit the links can be cut. -/
theorem Grounded.retarget (h : (tree.store id).Grounded source) (hid : id < tree.arena.length)
    (next : LayerId) : ((tree.store id).retarget next).Grounded source := by
  have hsame := sameBlocks_retarget (tree.store id) next
  refine ⟨h.shaped.of_sameBlocks hsame, fun other hother => ?_, h.latest, .inr ⟨id, ?_, ?_, ?_⟩⟩
  · rw [hsame.layer]
    exact h.blocks other (hsame.length ▸ hother)
  · rw [hsame.length]
    exact hid
  · rw [hsame.layer]
    rfl
  · rw [hsame.layer]
    rfl

/-- **The loop of `cap_diff_to_db`**, and every state it passes through. -/
theorem Grounded.capLoop (h : tree.Grounded source) (limit : Nat) (ids : List LayerId) (bottomNum : U64)
    (hids : ∀ id ∈ ids, id < tree.arena.length) (hfirst : ∀ id, ids.head? = some id → tree.arena.next? id = none) :
    ∀ state ∈ (capLoop limit ids bottomNum tree).result :: capStates limit ids tree,
      state.Grounded source ∧ source.Descends state.db.latest.hash tree.db.latest.hash := by
  induction ids generalizing tree bottomNum with
  | nil =>
    intro _ hstate
    rw [mem_singleton.mp hstate]
    exact ⟨h, .refl⟩
  | cons id rest ih =>
    unfold capLoop capStates
    split
    · cases hcommit : tree.commit id with
      | none =>
        intro _ hstate
        rw [mem_singleton.mp hstate]
        exact ⟨h, .refl⟩
      | some =>
        have hid := hids id (.head _)
        obtain ⟨rfl, hground, -, hmoved⟩ := h.commit hid (hfirst id rfl) hcommit
        cases rest with
        | nil =>
          intro state hstate
          obtain rfl : state = tree.store id := by simpa [Capped.result] using hstate
          exact ⟨hground, hmoved⟩
        | cons next =>
          have hstep := ih (hground.retarget hid next) (tree.layer id).block.info.number
            (fun other hother => (length_cut tree.arena next).symm ▸ hids other (.tail _ hother))
            (fun other hother => by
              cases hother
              exact (next?_cut tree.arena next _).trans (if_pos rfl))
          intro state hstate
          rcases mem_cons.mp hstate with rfl | hlater
          · obtain ⟨hgrounded, hdescends⟩ := hstep _ (.head _)
            exact ⟨hgrounded, hdescends.trans hmoved⟩
          rcases mem_cons.mp hlater with rfl | hlater
          · exact ⟨hground, hmoved⟩
          · obtain ⟨hgrounded, hdescends⟩ := hstep state (.tail _ hlater)
            exact ⟨hgrounded, hdescends.trans hmoved⟩
    · intro _ hstate
      rw [mem_singleton.mp hstate]
      exact ⟨h, .refl⟩

theorem Grounded.capDiffToDb (h : tree.Grounded source) (hid : id < tree.arena.length) :
    ∀ state ∈ (tree.capDiffToDb id).result ::
        capStates tree.config.diffTreeDepthLimit (tree.arena.chain (some id)).reverse tree,
      state.Grounded source ∧ source.Descends state.db.latest.hash tree.db.latest.hash := by
  obtain ⟨_, hlast, hnone⟩ := next?_getLast? h.shaped.wellLinked hid
  have hloop := h.capLoop tree.config.diffTreeDepthLimit (tree.arena.chain (some id)).reverse 0
    (fun other hother => lt_of_mem_chain (mem_reverse.mp hother))
    (fun other hother => by
      rw [head?_reverse, hlast] at hother
      cases hother
      exact hnone)
  rw [capDiffToDb_result]
  exact hloop

section
variable (hblock : block.info = (source.block block.info.hash).info) (h : tree.Grounded source)
include hblock h
theorem Grounded.link {parent : FlattenedLayerView}
    (hparent : tree.index.hashDiffMap block.info.parentHash = some parent) :
    (tree.link block parent).Grounded source := by
  obtain ⟨_, htop, -⟩ := h.shaped.view _ _ hparent
  have hlt : ∀ id < (tree.link block parent).arena.length, id ≠ tree.arena.length → id < tree.arena.length :=
    fun id hid hne => lt_of_le_of_ne (Nat.lt_succ_iff.mp hid) hne
  refine ⟨h.shaped.link hparent, fun id hid => ?_, h.latest, ?_⟩
  · by_cases heq : id = tree.arena.length
    · rw [heq, layer_link_self]
      exact hblock
    · rw [tree.layer_link_of_lt (hlt id hid heq)]
      exact h.blocks id (hlt id hid heq)
  · rcases h.bottom with ⟨hnone, hpos, hzero, hfirst⟩ | ⟨id, hid, hold, hinfo⟩
    · refine .inl ⟨hnone, hpos.trans (lt_succ_self _), ?_, fun id hid hnext => ?_⟩
      · rw [tree.layer_link_of_lt hpos]
        exact hzero
      · by_cases heq : id = tree.arena.length
        · have hhead : parent.head = none := by
            rw [heq] at hnext
            exact (next?_push_self ..).symm.trans hnext
          rw [htop] at hhead
          cases hhead
        · have hidlt := hlt id hid heq
          exact hfirst id hidlt ((next?_push_of_lt _ _ hidlt).symm.trans hnext)
    · refine .inr ⟨id, hid.trans (lt_succ_self _), ?_, ?_⟩
      · rw [tree.layer_link_of_lt hid]
        exact hold
      · rw [tree.layer_link_of_lt hid]
        exact hinfo

/-- **A call of `update_block`**, however it ends, and every state a crash can leave it in. -/
theorem Grounded.updateBlock :
    ∀ state ∈ (tree.updateBlock block).2 :: tree.updateStates block,
      state.Grounded source ∧ source.Descends state.db.latest.hash tree.db.latest.hash := by
  intro state hstate
  rcases mem_cons.mp hstate with rfl | hduring
  · rcases updateBlock_cases tree block with ⟨-, heq, -⟩ | ⟨parent, -, -, hparent, hcase⟩
    · rw [heq]
      exact ⟨h, .refl⟩
    have hlink := h.link hblock hparent
    have hid := tree.length_lt_link block parent
    have hhash := tree.hash_link block parent
    have hcapped := hlink.capDiffToDb hid _ (.head _)
    have hsame := capDiffToDb_sameBlocks (tree.link block parent) tree.arena.length
    rcases hcase with ⟨-, heq⟩ | ⟨-, bottomNum, tree', hcap, heq⟩ | ⟨-, tree', hcap, heq⟩
    · rw [heq]
      exact ⟨{ hlink with shaped := hlink.shaped.insertView hid hhash }, .refl⟩
    · rw [heq]
      rw [hcap] at hcapped hsame
      obtain ⟨hground, hmoved⟩ := hcapped
      have hshaped : (tree'.publish block tree.arena.length bottomNum).Shaped := hground.shaped.publish (hsame.length ▸ hid)
        ((congrArg (·.block.info.hash) (hsame.layer _)).trans hhash) bottomNum
      obtain ⟨_, -, hpublish⟩ := publish_eq tree' block tree.arena.length bottomNum
      rw [hpublish] at hshaped ⊢
      exact ⟨{ hground with shaped := hshaped }, hmoved⟩
    rw [heq]
    rw [hcap] at hcapped
    obtain ⟨hground, hmoved⟩ := hcapped
    exact ⟨{ hground with shaped := ⟨hground.shaped.wellLinked, hground.shaped.view⟩ }, hmoved⟩
  · unfold updateStates at hduring
    split at hduring
    · next _ hparent =>
      split at hduring
      · have hlink := h.link hblock hparent
        exact hlink.capDiffToDb (lt_succ_self _) state (.tail _ hduring)
      · cases hduring
    · cases hduring
end

/-- A call of `update_block`, or a crash after some of its writes and a restart. -/
def callOrCrash (source : BlockSource) (tree : StateTree) (call : H256 × Option Nat) : StateTree :=
  match call.2.bind ((tree.updateStates (source.block call.1))[·]?) with
  | some state => new tree.config tree.clears state.db
  | none => (tree.updateBlock (source.block call.1)).2

/-- **The database only moves to descendants** of the block it started at, whatever the calls and crashes. -/
theorem latest_descends (config : StateTreeConfig) (clears : Bool) (db : DiskState) (start : H256)
    (calls : List (H256 × Option Nat)) :
    let tree := calls.foldl (callOrCrash source) (new config clears { db with latest := (source.block start).info })
    tree.Grounded source ∧ source.Descends tree.db.latest.hash (source.block start).info.hash := by
  intro tree
  have hinfo (hash : H256) : (source.block hash).info = (source.block (source.block hash).info.hash).info := by
    rw [source.hash_eq]
  refine foldlRecOn calls _ (motive := fun state => Grounded source state ∧ source.Descends state.db.latest.hash _)
    ?_ fun state h call _ => ?_
  · exact ⟨grounded_new config clears (hinfo start), .refl⟩
  have hcall := Grounded.updateBlock (hinfo call.1) h.1
  unfold callOrCrash
  split
  · next hcrash =>
    obtain ⟨_, -, hstate⟩ := Option.bind_eq_some_iff.mp hcrash
    obtain ⟨hground, hmoved⟩ := hcall _ (.tail _ (mem_of_getElem? hstate))
    exact ⟨grounded_new _ _ hground.latest, hmoved.trans h.2⟩
  · exact (hcall _ (.head _)).imp_right (·.trans h.2)

end StateTree
end LeafageEvm
