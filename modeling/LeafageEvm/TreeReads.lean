import LeafageEvm.TreeLinks

/-! What a block of the tree reads as: the layers of its view over the disk show the diffs of the
block's ancestry over the disk the tree started from. A commit moves the disk under every view at
once, so this holds as long as a commit only happens under views that lie over the committed block.
The tree prunes by height, not by descent, and a fork beside the committed block that is high enough
to survive then reads a block it does not descend from. -/

namespace LeafageEvm
open Arena List

/-- A layer written below layers it is among changes nothing above. -/
theorem overlay_of_mem {layers : List DiffLayer} {layer : DiffLayer} (hmem : layer ∈ layers)
    (k : StateKey) (base : k.Value) : overlay layers k (overlay [layer] k base) = overlay layers k base := by
  induction layers with
  | nil => cases hmem
  | cons _ _ ih =>
    simp only [overlay_cons] at ih ⊢
    rcases mem_cons.mp hmem with rfl | hmem
    · cases layer.get k <;> rfl
    · rw [ih hmem]

namespace StateTree

variable {parent view : FlattenedLayerView} {top : LayerId} {layers : List LayerId} {block : Block} {hash : H256}
  {bottom next : LayerId}

/-- The database stores what the blocks of the ancestry commit under the key: none deletes the
account the key is a slot of, or writes an account that is read back with another code hash. -/
def Kept (tree : StateTree) (hash : H256) (k : StateKey) : Prop :=
  ∀ block ∈ ancestry tree.accepted hash, block.keeps k = true

instance (tree : StateTree) (hash : H256) (k : StateKey) : Decidable (tree.Kept hash k) :=
  inferInstanceAs (Decidable (∀ block ∈ ancestry tree.accepted hash, block.keeps k = true))

/-- The layers read as the ancestry of `hash` over the disk the tree started from. -/
def ReadsAs (disk₀ : DiskState) (tree : StateTree) (hash : H256) (layers : List LayerId) : Prop :=
  ∀ k, tree.Kept hash k → overlay (layers.map tree.layer) k (tree.db.get k) =
    overlay ((ancestry tree.accepted hash).map .new) k (disk₀.get k)

/-- What a view owes to the hash it is indexed under. The links of its head may have been cut since
it was built, so the walk from the head is followed beside the layers of the view. -/
structure Shows (disk₀ : DiskState) (tree : StateTree) (hash : H256) (view : FlattenedLayerView) :
    Prop where
  layers_lt : ∀ id ∈ view.layers, id < tree.arena.length
  chain_prefix : tree.arena.chain view.head <+: view.layers
  layers_prefix : view.layers.map (fun id => (tree.layer id).block) <+: ancestry tree.accepted hash
  committed : ∀ id ∈ tree.committed, (tree.layer id).block ∈ ancestry tree.accepted hash
  reads_layers : ReadsAs disk₀ tree hash view.layers
  reads_chain : ReadsAs disk₀ tree hash (tree.arena.chain view.head)
  low : tree.bottomNumber + (tree.arena.chain view.head).length ≤ (tree.blockInfo view).number.val + 1
  high : (tree.blockInfo view).number.val ≤ tree.bottomNumber + (tree.arena.chain view.head).length

/-- A cache in use holds what the disk holds, under keys that the disk keeps. -/
def CacheCoherent (tree : StateTree) : Prop :=
  tree.cacheLayer.enabled = true → ∀ k, (∀ id ∈ tree.committed, (tree.layer id).block.keeps k = true) →
    ∀ tag value, tree.cacheLayer.entries k = some (tag, value) → value = tree.db.get k

structure ReadsAncestry (disk₀ : DiskState) (tree : StateTree) : Prop where
  linked : tree.Linked
  depth : 1 ≤ tree.config.diffTreeDepthLimit
  committed_lt : ∀ id ∈ tree.committed, id < tree.arena.length
  latest_le : (tree.blockInfo tree.index.latest).number.val ≤
    tree.bottomNumber + tree.config.diffTreeDepthLimit
  shows : ∀ hash view, tree.index.hashDiffMap hash = some view → Shows disk₀ tree hash view
  number_le : ∀ hash view, tree.index.hashDiffMap hash = some view →
    (tree.blockInfo view).number.val ≤ (tree.blockInfo tree.index.latest).number.val
  length_le : ∀ hash view, tree.index.hashDiffMap hash = some view →
    (tree.arena.chain view.head).length ≤ tree.config.diffTreeDepthLimit
  coherent : tree.CacheCoherent

variable {disk₀ : DiskState} {tree : StateTree}

/-! ### A new layer -/

theorem ancestry_link_of_ne (hne : hash ≠ block.info.hash) :
    ancestry (tree.link block parent).accepted hash = ancestry tree.accepted hash := by
  rw [accepted_link, ancestry, if_neg hne.symm]

section
variable (parent : FlattenedLayerView)

theorem bottomNumber_link (block : Block) : (tree.link block parent).bottomNumber = tree.bottomNumber := rfl

theorem map_layer_link (block : Block) (hlt : ∀ id ∈ layers, id < tree.arena.length) :
    layers.map (tree.link block parent).layer = layers.map tree.layer :=
  map_congr_left fun id hid => tree.layer_link_of_lt (hlt id hid)

theorem ancestry_link_self (block : Block) : ancestry (tree.link block parent).accepted block.info.hash =
      block :: ancestry tree.accepted block.info.parentHash := by
  rw [accepted_link, ancestry, if_pos rfl]

theorem ReadsAs.link (hreads : ReadsAs disk₀ tree hash layers) (hne : hash ≠ block.info.hash)
    (hlt : ∀ id ∈ layers, id < tree.arena.length) : ReadsAs disk₀ (tree.link block parent) hash layers := by
  intro k hkept
  rw [Kept, ancestry_link_of_ne hne] at hkept
  rw [ancestry_link_of_ne hne, map_layer_link parent block hlt]
  exact hreads k hkept

theorem Shows.link (hshows : Shows disk₀ tree hash view) (hcommitted : ∀ id ∈ tree.committed, id < tree.arena.length)
    (htop : view.head = some top) (htoplt : top < tree.arena.length)
    (hne : hash ≠ block.info.hash) : Shows disk₀ (tree.link block parent) hash view := by
  have hchain : (tree.link block parent).arena.chain view.head = tree.arena.chain view.head := by
    rw [htop]
    exact chain_push_of_lt _ _ htoplt
  have hinfo : (tree.link block parent).blockInfo view = tree.blockInfo view := by
    rw [blockInfo_of_head htop, blockInfo_of_head htop, tree.layer_link_of_lt htoplt]
  have hblocks : view.layers.map (fun id => ((tree.link block parent).layer id).block) =
      view.layers.map fun id => (tree.layer id).block :=
    map_congr_left fun id hid => by rw [tree.layer_link_of_lt (hshows.layers_lt id hid)]
  refine ⟨fun id hid => (hshows.layers_lt id hid).trans (Nat.lt_succ_self _), ?_, ?_, fun id hid => ?_,
    hshows.reads_layers.link parent hne hshows.layers_lt, ?_, ?_, ?_⟩
  · rw [hchain]
    exact hshows.chain_prefix
  · rw [hblocks, ancestry_link_of_ne hne]
    exact hshows.layers_prefix
  · rw [ancestry_link_of_ne hne, tree.layer_link_of_lt (hcommitted id hid)]
    exact hshows.committed id hid
  · rw [hchain]
    exact hshows.reads_chain.link parent hne fun id hid => hshows.layers_lt id (hshows.chain_prefix.subset hid)
  · rw [hchain, hinfo]
    exact hshows.low
  · rw [hchain, hinfo]
    exact hshows.high
end

/-- The layer above `bottom` is linked to the cache once `bottom` is committed. -/
def storeRetarget (tree : StateTree) (bottom next : LayerId) : StateTree :=
  (tree.store bottom).retarget next

theorem sameBlocks_storeRetarget (tree : StateTree) (bottom next : LayerId) :
    tree.SameBlocks (tree.storeRetarget bottom next) :=
  (sameBlocks_store tree bottom).trans (sameBlocks_retarget _ next)

section
variable (hlinked : tree.Linked)
include hlinked
/-- The new layer shows its block over what its parent shows. -/
theorem Shows.build (hshows : Shows disk₀ tree block.info.parentHash parent)
    (hcommitted : ∀ id ∈ tree.committed, id < tree.arena.length)
    (hparent : tree.index.hashDiffMap block.info.parentHash = some parent) (hnumber : tree.Numbered block) :
    Shows disk₀ (tree.link block parent) block.info.hash
      ((tree.link block parent).buildView tree.arena.length) := by
  set joined := tree.link block parent
  have hlink := hlinked.link hparent hnumber
  have hid := tree.length_lt_link block parent
  have hchain := tree.chain_link block parent
  have hhead := hlink.shaped.head_buildView hid
  have hlt : ∀ id ∈ tree.arena.chain parent.head, id < tree.arena.length :=
    fun id hmem => lt_of_mem_chain hmem
  have hinfo : (joined.blockInfo
      (joined.buildView tree.arena.length)).number.val =
        (tree.blockInfo parent).number.val + 1 := by
    rw [blockInfo_of_head hhead, layer_link_self]
    exact hnumber parent hparent
  have hreads : ReadsAs disk₀ joined block.info.hash
      (joined.arena.chain (some tree.arena.length)) := by
    intro k hkept
    rw [Kept, ancestry_link_self] at hkept
    rw [ancestry_link_self, hchain, map_cons, map_cons, overlay_cons, overlay_cons,
      layer_link_self, map_layer_link parent block hlt]
    congr 1
    exact hshows.reads_chain k fun b hb => hkept b (.tail _ hb)
  refine ⟨fun id hmem => lt_of_mem_chain hmem, ?_, ?_, fun id hmem => ?_, hreads, ?_, ?_, ?_⟩
  · rw [hhead]
    exact prefix_rfl
  · rw [buildView, hchain, ancestry_link_self, map_cons, layer_link_self]
    refine prefix_cons_inj _ |>.mpr ?_
    have hblocks : (tree.arena.chain parent.head).map
        (fun id => (joined.layer id).block) =
          (tree.arena.chain parent.head).map fun id => (tree.layer id).block :=
      map_congr_left fun id hmem => by rw [tree.layer_link_of_lt (hlt id hmem)]
    rw [hblocks]
    exact (hshows.chain_prefix.map _).trans hshows.layers_prefix
  · rw [ancestry_link_self, tree.layer_link_of_lt (hcommitted id hmem)]
    exact .tail _ (hshows.committed id hmem)
  · rw [hhead]
    exact hreads
  · rw [hhead, hchain, bottomNumber_link, length_cons]
    have := hshows.low
    omega
  · rw [hhead, hchain, bottomNumber_link, length_cons]
    have := hshows.high
    omega

/-! ### A commit -/

theorem store_get (id : LayerId) {k : StateKey} (hkept : (tree.layer id).block.keeps k = true) :
    (tree.store id).db.get k = overlay [tree.layer id] k (tree.db.get k) := by
  rw [overlay_cons, hlinked.layer_new id]
  exact DiskState.updateBlock_get_of_keeps tree.clears tree.db hkept

theorem ReadsAs.storeRetarget (hbottom : (tree.layer bottom).block ∈ ancestry tree.accepted hash)
    (hreads : ∀ k, tree.Kept hash k →
      overlay (layers.map tree.layer) k (overlay [tree.layer bottom] k (tree.db.get k)) =
        overlay ((ancestry tree.accepted hash).map .new) k (disk₀.get k)) :
    ReadsAs disk₀ (tree.storeRetarget bottom next) hash layers := by
  have hsame := sameBlocks_storeRetarget tree bottom next
  have hlayers : layers.map (tree.storeRetarget bottom next).layer = layers.map tree.layer :=
    map_congr_left fun id _ => hsame.layer id
  intro k hkept
  rw [Kept, hsame.accepted] at hkept
  have hdb : (tree.storeRetarget bottom next).db.get k = overlay [tree.layer bottom] k (tree.db.get k) :=
    store_get hlinked bottom (hkept _ hbottom)
  rw [hsame.accepted, hlayers, hdb]
  exact hreads k hkept

/-- A commit under a view that lies over the committed layer is invisible through the view. -/
theorem Shows.storeRetarget (hshows : Shows disk₀ tree hash view) (htop : view.head = some top)
    (htoplt : top < tree.arena.length) (hnext : tree.arena.next? next = some bottom) (hlast : tree.arena.next? bottom = none)
    (hmem : bottom ∈ tree.arena.chain view.head) : Shows disk₀ (tree.storeRetarget bottom next) hash view := by
  have hsame := sameBlocks_storeRetarget tree bottom next
  have hlayers : bottom ∈ view.layers := hshows.chain_prefix.subset hmem
  have hbottom : (tree.layer bottom).block ∈ ancestry tree.accepted hash :=
    hshows.layers_prefix.subset (mem_map_of_mem hlayers)
  -- The walk from the head ends in the committed layer or, past a cut, just above it.
  rw [htop] at hmem
  have hcut := chain_cut_above_last hlinked.wellLinked htoplt hnext hlast
  have hchain : (tree.storeRetarget bottom next).arena.chain view.head =
      (tree.arena.cut next).chain (some top) := by rw [htop]; rfl
  have hnumber : (tree.blockInfo view).number.val + 1 =
      (tree.layer bottom).block.info.number.val + (tree.arena.chain (some top)).length := by
    obtain ⟨_, hgetLast, heq⟩ := hlinked.number_chain htoplt
    obtain ⟨_, hsplit⟩ := eq_append_of_next?_eq_none hlinked.wellLinked htoplt hmem hlast
    rw [hsplit, getLast?_concat] at hgetLast
    cases hgetLast
    rw [blockInfo_of_head htop]
    exact heq
  have hinfo : (tree.storeRetarget bottom next).blockInfo view = tree.blockInfo view := by
    rw [blockInfo_of_head htop, blockInfo_of_head htop, hsame.layer]
  have hbase : (tree.storeRetarget bottom next).bottomNumber =
      (tree.layer bottom).block.info.number.val := rfl
  refine ⟨fun id hid => ?_, ?_, ?_, fun id hid => ?_, ?_, ?_, ?_, ?_⟩
  · rw [hsame.length]
    exact hshows.layers_lt id hid
  · rw [hchain, chain_cut]
    have hprefix := hshows.chain_prefix
    rw [htop] at hprefix
    exact (Arena.through_prefix next _).trans hprefix
  · have hblocks : view.layers.map (fun id => ((tree.storeRetarget bottom next).layer id).block) =
        view.layers.map fun id => (tree.layer id).block :=
      map_congr_left fun id _ => by rw [hsame.layer]
    rw [hblocks, hsame.accepted]
    exact hshows.layers_prefix
  · rw [hsame.accepted, hsame.layer]
    rcases mem_cons.mp hid with rfl | hold
    · exact hbottom
    · exact hshows.committed id hold
  · refine .storeRetarget hlinked hbottom fun k hkept => ?_
    rw [overlay_of_mem (mem_map_of_mem hlayers)]
    exact hshows.reads_layers k hkept
  · rw [hchain]
    have hreads := hshows.reads_chain
    rw [htop] at hreads
    refine .storeRetarget hlinked hbottom fun k hkept => ?_
    rcases hcut with hsamechain | hshorter
    · rw [hsamechain, overlay_of_mem (mem_map_of_mem hmem)]
      exact hreads k hkept
    · have := hreads k hkept
      rw [hshorter, map_append, overlay_append] at this
      exact this
  · rw [hinfo, hchain]
    rcases hcut with hsamechain | hshorter
    · rw [hsamechain]
      omega
    · rw [hshorter, length_append] at hnumber
      omega
  · rw [hinfo, hchain]
    rcases hcut with hsamechain | hshorter
    · rw [hsamechain]
      omega
    · rw [hshorter, length_append, length_singleton] at hnumber
      omega

theorem CacheCoherent.storeRetarget (hcoherent : tree.CacheCoherent)
    (bottom next : LayerId) : (tree.storeRetarget bottom next).CacheCoherent := by
  have hsame := sameBlocks_storeRetarget tree bottom next
  intro henabled k hkept tag value hentry
  have hbottom : (tree.layer bottom).block.keeps k = true := by
    rw [← hsame.layer]
    exact hkept bottom (.head _)
  have hdb : (tree.storeRetarget bottom next).db.get k = overlay [tree.layer bottom] k (tree.db.get k) :=
    store_get hlinked bottom hbottom
  have hold : ∀ tag value, tree.cacheLayer.entries k = some (tag, value) → value = tree.db.get k :=
    hcoherent henabled k fun id hid => by
      rw [← hsame.layer]
      exact hkept id (.tail _ hid)
  have hentries : (tree.storeRetarget bottom next).cacheLayer.entries =
      tree.cacheLayer.entries.writeThrough (tree.layer bottom) := if_pos henabled
  rw [hentries, CacheEntries.writeThrough] at hentry
  rw [hdb, overlay_cons]
  cases hget : (tree.layer bottom).get k with
  | none =>
    rw [hget] at hentry
    exact hold tag value hentry
  | some =>
    rw [hget] at hentry
    cases hentry
    rfl
end

/-! ### Capping -/

theorem capDiffToDb_of_succ {id : LayerId} {upper : List LayerId}
    (hchain : tree.arena.chain (some id) = upper ++ [next, bottom])
    (hlength : upper.length + 1 = tree.config.diffTreeDepthLimit) :
    tree.capDiffToDb id = .panicked tree ∨ tree.FollowsLast bottom ∧ tree.capDiffToDb id =
        .done (tree.layer bottom).block.info.number (tree.storeRetarget bottom next) := by
  have hreverse : (tree.arena.chain (some id)).reverse = bottom :: next :: upper.reverse := by
    rw [hchain]
    simp
  have hover : tree.config.diffTreeDepthLimit < (next :: upper.reverse).length + 1 := by
    rw [length_cons, length_reverse]
    omega
  rw [capDiffToDb, hreverse, capLoop, if_pos hover]
  cases hcommit : tree.commit bottom with
  | none => exact .inl rfl
  | some =>
    obtain ⟨rfl, hfollows⟩ := tree.commit_eq_some hcommit
    refine .inr ⟨hfollows, ?_⟩
    simp only
    rw [capLoop_of_le (by rw [length_cons, length_reverse]; omega)]
    simp only [Capped.done.injEq]
    refine ⟨?_, rfl⟩
    split <;> rfl

end StateTree
end LeafageEvm
