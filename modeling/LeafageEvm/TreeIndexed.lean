import LeafageEvm.TreeHead

/-! The index over the database. Where block numbers count up along the parent hashes, the index holds
exactly the layers from the number of the database's block on, as long as the calls return. -/

namespace LeafageEvm
open Arena HashMap Fin List Option

/-! ### Numbers -/

namespace BlockSource

/-- The zero hash is no block, and a block with a parent is numbered one above it. -/
structure WellNumbered (source : BlockSource) : Prop where
  zero : source.parent 0 = 0
  numbered : ∀ hash, source.parent hash = 0 ∨
    (source.block hash).info.number.val = (source.block (source.parent hash)).info.number.val + 1

variable {source : BlockSource}

theorem WellNumbered.eq_zero (h : source.WellNumbered) {ancestor : H256} (hdescends : source.Descends 0 ancestor) :
    ancestor = 0 := by
  induction hdescends with
  | refl => rfl
  | tail _ hparent ih => rw [← hparent, ih, h.zero]

theorem WellNumbered.number_lt (h : source.WellNumbered) {hash ancestor : H256} (hne : ancestor ≠ 0)
    (hdescends : source.StrictlyDescends hash ancestor) :
    (source.block ancestor).info.number.val < (source.block hash).info.number.val := by
  induction hdescends using Relation.TransGen.head_induction_on with
  | single hparent =>
    rcases h.numbered _ with hzero | hnumber
    · exact absurd (hparent.symm.trans hzero) hne
    · rw [hparent] at hnumber
      omega
  | head hparent hrest ih =>
    rcases h.numbered _ with hzero | hnumber
    · rw [← hparent, hzero] at hrest
      exact absurd (h.eq_zero hrest.to_reflTransGen) hne
    · rw [hparent] at hnumber
      omega

theorem strictlyDescends_of_isChain {first : H256} {rest : List H256}
    (hchain : (first :: rest).IsChain fun parent child => source.parent child = parent) :
    ∀ hash ∈ rest, source.StrictlyDescends hash first := by
  induction rest generalizing first with
  | nil => exact nofun
  | cons _ _ ih =>
    obtain ⟨hparent, hrest⟩ := isChain_cons_cons.mp hchain
    intro hash hmem
    rcases mem_cons.mp hmem with rfl | hmem
    · exact .single hparent
    · exact (ih hrest hash hmem).tail hparent

end BlockSource

namespace StateTree

variable {hash : H256} {num : U64} {block : Block} {fresh : List H256}
variable {id : LayerId} {tree' : StateTree} {source : BlockSource} {tree : StateTree}

/-- The index over the block that the database stands at: nothing below it, and every layer from it on. -/
structure Indexed (source : BlockSource) (tree : StateTree) : Prop where
  linked : tree.Linked
  grounded : tree.Grounded source
  nonzero : ∀ id < tree.arena.length, (tree.layer id).block.info.hash ≠ 0
  floor : ∀ hash view, tree.index.hashDiffMap hash = some view → tree.db.latest.number ≤ (tree.blockInfo view).number
  kept : ∀ id < tree.arena.length, tree.db.latest.number ≤ (tree.layer id).block.info.number →
    tree.index.hashDiffMap (tree.layer id).block.info.hash ≠ none

theorem indexed_new (config : StateTreeConfig) (clears : Bool) {db : DiskState}
    (hlatest : db.latest = (source.block db.latest.hash).info) (hne : db.latest.hash ≠ 0) :
    (new config clears db).Indexed source where
  linked := linked_new config clears db
  grounded := grounded_new config clears hlatest
  nonzero id hid := by
    obtain rfl : id = 0 := Nat.lt_one_iff.mp hid
    exact hne
  floor hash view h := by
    obtain ⟨-, rfl⟩ := hashDiffMap_new h
    exact le_refl _
  kept id hid _ := by
    obtain rfl : id = 0 := Nat.lt_one_iff.mp hid
    show empty.insert db.latest.hash _ db.latest.hash ≠ none
    rw [insert_self]
    exact some_ne_none _

section
variable (h : tree.Indexed source)
include h
theorem Indexed.info {view : FlattenedLayerView} (hview : tree.index.hashDiffMap hash = some view) :
    tree.blockInfo view = (source.block hash).info ∧ hash ≠ 0 := by
  obtain ⟨id, hhead, hid, hhash⟩ := h.linked.view hash view hview
  rw [blockInfo_of_head hhead, h.grounded.blocks id hid, hhash]
  exact ⟨rfl, hhash ▸ h.nonzero id hid⟩

theorem Indexed.numbered (hsource : source.WellNumbered) (hash : H256) : tree.Numbered (source.block hash) := by
  intro _ hparent
  obtain ⟨hinfo, hne⟩ := h.info hparent
  rw [hinfo]
  exact (hsource.numbered hash).resolve_left hne

theorem Indexed.latest : tree.index.hashDiffMap tree.db.latest.hash ≠ none := by
  have hlayer : ∃ id < tree.arena.length, (tree.layer id).block.info = tree.db.latest := by
    rcases h.grounded.bottom with ⟨-, hpos, hzero, -⟩ | ⟨id, hid, -, hinfo⟩
    · exact ⟨0, hpos, hzero⟩
    · exact ⟨id, hid, hinfo⟩
  obtain ⟨id, hid, hinfo⟩ := hlayer
  rw [← hinfo]
  exact h.kept id hid (by rw [hinfo])
end

theorem Grounded.blockInfo_nil (h : tree.Grounded source) : tree.blockInfo ⟨[]⟩ = tree.db.latest := by
  have hhead : (⟨[]⟩ : FlattenedLayerView).head = none := rfl
  rcases h.bottom with ⟨hnone, -⟩ | ⟨_, -, hold, hinfo⟩
  · simp only [blockInfo, hhead, hnone]
  · simp only [blockInfo, hold]
    exact hinfo

section
variable (hsource : source.WellNumbered) (h : tree.Grounded source)
include hsource h
theorem Grounded.commit_number (hid : id < tree.arena.length)
    (hlast : tree.arena.next? id = none) (hne : tree.db.latest.hash ≠ 0) (hcommit : tree.commit id = some tree') :
    tree.db.latest.number ≤ tree'.db.latest.number := by
  obtain ⟨-, hground, -, hmoved⟩ := h.commit hid hlast hcommit
  rcases Relation.reflTransGen_iff_eq_or_transGen.mp hmoved with heq | hafter
  · rw [h.latest, hground.latest, heq]
  · have hlt := hsource.number_lt hne hafter
    rw [← h.latest, ← hground.latest] at hlt
    exact le_def.mpr hlt.le

/-- The loop of `cap_diff_to_db` returns the number that the database then stands at. -/
theorem Grounded.capLoop_number (limit : Nat) (ids : List LayerId)
    (bottomNum : U64) (hids : ∀ id ∈ ids, id < tree.arena.length)
    (hfirst : ∀ id, ids.head? = some id → tree.arena.next? id = none) (hne : tree.db.latest.hash ≠ 0)
    (hdone : StateTree.capLoop limit ids bottomNum tree = .done num tree') :
    tree.db.latest.number ≤ tree'.db.latest.number ∧ ((num = bottomNum ∧ tree' = tree) ∨ num = tree'.db.latest.number) := by
  induction ids generalizing tree bottomNum with
  | nil =>
    cases hdone
    exact ⟨le_refl _, .inl ⟨rfl, rfl⟩⟩
  | cons id rest ih =>
    unfold StateTree.capLoop at hdone
    split at hdone
    · cases hcommit : tree.commit id with
      | none =>
        rw [hcommit] at hdone
        cases hdone
      | some =>
        rw [hcommit] at hdone
        have hid := hids id (.head _)
        have hnumber := h.commit_number hsource hid (hfirst id rfl) hne hcommit
        obtain ⟨rfl, hground, -, hmoved⟩ := h.commit hid (hfirst id rfl) hcommit
        cases rest with
        | nil => cases hdone
        | cons next =>
          have hne' : (tree.store id).db.latest.hash ≠ 0 := by
            intro hzero
            rw [hzero] at hmoved
            exact hne (hsource.eq_zero hmoved)
          obtain ⟨hle, hnum⟩ := ih (hground.retarget hid next) (tree.layer id).block.info.number
            (fun other hother => (length_cut tree.arena next).symm ▸ hids other (.tail _ hother))
            (fun other hother => by
              cases hother
              exact (next?_cut tree.arena next _).trans (if_pos rfl))
            hne' hdone
          refine ⟨hnumber.trans hle, .inr ?_⟩
          rcases hnum with ⟨hnum, rfl⟩ | hnum <;> exact hnum
    · cases hdone
      exact ⟨le_refl _, .inl ⟨rfl, rfl⟩⟩

theorem Grounded.capDiffToDb_number (hid : id < tree.arena.length)
    (hne : tree.db.latest.hash ≠ 0) (hdone : tree.capDiffToDb id = .done num tree') :
    tree.db.latest.number ≤ tree'.db.latest.number ∧ num = tree'.db.latest.number := by
  obtain ⟨_, hlast, hnone⟩ := next?_getLast? h.shaped.wellLinked hid
  have hground := h.capDiffToDb hid _ (.head _)
  rw [hdone] at hground
  unfold StateTree.capDiffToDb at hdone
  cases hcap : StateTree.capLoop tree.config.diffTreeDepthLimit (tree.arena.chain (some id)).reverse 0 tree with
  | panicked =>
    rw [hcap] at hdone
    cases hdone
  | done =>
    rw [hcap] at hdone
    cases hdone
    obtain ⟨hle, hnum⟩ := h.capLoop_number hsource _ _ _
      (fun other hother => lt_of_mem_chain (mem_reverse.mp hother))
      (fun other hother => by
        rw [head?_reverse, hlast] at hother
        cases hother
        exact hnone) hne hcap
    refine ⟨hle, ?_⟩
    split
    · exact congrArg BlockInfo.number hground.1.blockInfo_nil
    · next hnonzero =>
      rcases hnum with ⟨rfl, -⟩ | hnum
      · exact absurd rfl hnonzero
      · exact hnum
end

variable {parent : FlattenedLayerView}

/-- A block comes above the one that the database stands at. -/
theorem Indexed.latest_le (hsource : source.WellNumbered) (h : tree.Indexed source)
    (hparent : tree.index.hashDiffMap (source.block hash).info.parentHash = some parent) :
    tree.db.latest.number ≤ (source.block hash).info.number := by
  have hfloor := le_def.mp (h.floor _ _ hparent)
  have hnumber := h.numbered hsource hash parent hparent
  exact le_def.mpr (by omega)

theorem Indexed.link_layers (h : tree.Indexed source) (hne : hash ≠ 0)
    (hid : id < (tree.link (source.block hash) parent).arena.length) :
    let layer := (tree.link (source.block hash) parent).layer id
    layer.block.info.hash ≠ 0 ∧
      (layer.block.info = (source.block hash).info ∨ id < tree.arena.length ∧ layer = tree.layer id) := by
  by_cases heq : id = tree.arena.length
  · rw [heq, layer_link_self]
    exact ⟨by show (source.block hash).info.hash ≠ 0; rwa [source.hash_eq], .inl rfl⟩
  · have hlt : id < tree.arena.length := lt_of_le_of_ne (Nat.lt_succ_iff.mp hid) heq
    rw [tree.layer_link_of_lt hlt]
    exact ⟨h.nonzero id hlt, .inr ⟨hlt, rfl⟩⟩

section
variable (hsource : source.WellNumbered) (h : tree.Indexed source) (hne : hash ≠ 0)
  (hparent : tree.index.hashDiffMap (source.block hash).info.parentHash = some parent)
include hsource h hne hparent
/-- A block below the latest. -/
theorem Indexed.insertView (heq : tree' = (tree.link (source.block hash) parent).insertView (source.block hash)
      ((tree.link (source.block hash) parent).buildView tree.arena.length))
    (hlinked : tree'.Linked) (hground : tree'.Grounded source) :
    tree'.Indexed source ∧ tree'.index.hashDiffMap hash ≠ none := by
  have hlink := h.linked.link hparent (h.numbered hsource hash)
  set linked := tree.link (source.block hash) parent
  have hid := tree.length_lt_link (source.block hash) parent
  subst heq
  have hinsert : ∀ other, (linked.insertView (source.block hash)
      (linked.buildView tree.arena.length)).index.hashDiffMap other =
        insert tree.index.hashDiffMap hash
          (linked.buildView tree.arena.length) other := by
    intro other
    show insert tree.index.hashDiffMap (source.block hash).info.hash _ other = _
    rw [source.hash_eq]
  refine ⟨⟨hlinked, hground, fun id hid => (h.link_layers hne hid).1, fun other view hview => ?_, fun id hid hle => ?_⟩, ?_⟩
  · rw [hinsert] at hview
    set joined := tree.link (source.block other) parent
    rcases insert_eq_some.mp hview with ⟨rfl, rfl⟩ | ⟨-, hold⟩
    · have hinfo : (joined.blockInfo
          (joined.buildView tree.arena.length)) = (source.block other).info := by
        rw [blockInfo_of_head (hlink.shaped.head_buildView hid), layer_link_self]
        rfl
      show tree.db.latest.number ≤ (joined.blockInfo _).number
      rw [hinfo]
      exact h.latest_le hsource hparent
    obtain ⟨_, htop, htoplt, -⟩ := h.linked.view other view hold
    show tree.db.latest.number ≤ (linked.blockInfo view).number
    rw [blockInfo_link _ _ (fun id hid => by rw [htop] at hid; cases hid; exact htoplt)]
    exact h.floor other view hold
  · rw [hinsert]
    by_cases hsame : (linked.layer id).block.info.hash = hash
    · show insert _ _ _ (linked.layer id).block.info.hash ≠ none
      rw [hsame, insert_self]
      exact some_ne_none _
    rcases (h.link_layers hne hid).2 with hinfo | ⟨hlt, hlayer⟩
    · exact absurd (by rw [hinfo, source.hash_eq]) hsame
    show insert _ _ _ (linked.layer id).block.info.hash ≠ none
    rw [insert_of_ne _ _ hsame, hlayer]
    refine h.kept id hlt ?_
    rw [← hlayer]
    exact hle
  · rw [hinsert, insert_self]
    exact some_ne_none _

/-- A block at the height of the latest or above, after the commits that it causes. -/
theorem Indexed.publish {bottomNum : U64} {capped : StateTree}
    (hcap : (tree.link (source.block hash) parent).capDiffToDb tree.arena.length = .done bottomNum capped)
    (heq : tree' = capped.publish (source.block hash) tree.arena.length bottomNum) (hlinked : tree'.Linked)
    (hground : tree'.Grounded source) : tree'.Indexed source ∧ tree'.index.hashDiffMap hash ≠ none := by
  set added := source.block hash
  have hlink := h.linked.link hparent (h.numbered hsource hash)
  set linked := tree.link added parent
  have hinfo : added.info = (source.block added.info.hash).info := by rw [source.hash_eq]
  have hid := tree.length_lt_link added parent
  have hlatest : tree.db.latest.hash ≠ 0 := by
    obtain ⟨_, hview⟩ := ne_none_iff_exists'.mp h.latest
    exact (h.info hview).2
  obtain ⟨hle, hnum⟩ := (h.grounded.link hinfo hparent).capDiffToDb_number hsource hid hlatest hcap
  have hsame : linked.SameBlocks capped := by
    have := capDiffToDb_sameBlocks linked tree.arena.length
    rwa [hcap] at this
  have hcapped : capped.Linked := hlink.of_sameBlocks hsame
  have hhead := hcapped.shaped.head_buildView (hsame.length ▸ hid)
  have hnew : capped.blockInfo (capped.buildView tree.arena.length) = added.info := by
    rw [blockInfo_of_head hhead]
    refine (congrArg (·.block.info) (hsame.layer _)).trans ?_
    rw [layer_link_self]
    rfl
  -- The height committed is at most that of the new block.
  have htop : bottomNum ≤ added.info.number := by
    refine (capDiffToDb_bounded added.info.number _ _ (fun other hother => ?_) ?_).2 _ _ hcap
    · have hchain := hlink.number_le_of_mem_chain hid hother
      rwa [layer_link_self] at hchain
    · have habove : tree.db.latest.number.val ≤ added.info.number.val :=
        le_def.mp (h.latest_le hsource hparent)
      rw [bottomNumber, (h.grounded.link hinfo hparent).blockInfo_nil]
      exact habove
  have hmap : ∀ other view, tree'.index.hashDiffMap other = some view ↔
      ((other = hash ∧ capped.buildView tree.arena.length = view) ∨
        (other ≠ hash ∧ tree.index.hashDiffMap other = some view)) ∧ bottomNum ≤ (capped.blockInfo view).number := by
    intro _ _
    rw [heq, publish_hashDiffMap, source.hash_eq, hsame.index]
    rfl
  obtain ⟨_, -, hpublish⟩ := publish_eq capped added tree.arena.length bottomNum
  have hlayer : ∀ id, tree'.layer id = linked.layer id := by
    intro id
    rw [heq, hpublish]
    exact hsame.layer id
  have hdb : tree'.db = capped.db := by rw [heq, hpublish]
  have hlength : tree'.arena.length = linked.arena.length := by
    rw [heq, hpublish]
    exact hsame.length
  have hview : ∀ view, tree'.blockInfo view = capped.blockInfo view := by
    intro _
    rw [heq, hpublish]
    rfl
  refine ⟨⟨hlinked, hground, fun id hid => ?_, fun other view hother => ?_, fun id hid hfloor => ?_⟩, ?_⟩
  · rw [hlayer]
    exact (h.link_layers hne (hlength ▸ hid)).1
  · rw [hdb, ← hnum, hview]
    exact ((hmap other view).mp hother).2
  · rw [hlayer] at hfloor ⊢
    rw [hdb, ← hnum] at hfloor
    by_cases hsame' : (linked.layer id).block.info.hash = hash
    · rw [ne_none_iff_exists']
      exact ⟨_, (hmap ..).mpr ⟨.inl ⟨hsame', rfl⟩, by rwa [hnew]⟩⟩
    rcases (h.link_layers hne (hlength ▸ hid)).2 with hinfo' | ⟨hlt, hold⟩
    · exact absurd (by rw [hinfo', source.hash_eq]) hsame'
    rw [hold] at hfloor hsame' ⊢
    have hkept := h.kept id hlt (hle.trans (hnum ▸ hfloor))
    obtain ⟨view, hfound⟩ := ne_none_iff_exists'.mp hkept
    obtain ⟨top, htop, htoplt, -⟩ := h.linked.view _ view hfound
    have hsource' := (h.info hfound).1
    rw [ne_none_iff_exists']
    refine ⟨view, (hmap ..).mpr ⟨.inr ⟨hsame', hfound⟩, ?_⟩⟩
    have hunchanged : capped.blockInfo view = tree.blockInfo view := by
      rw [blockInfo_of_head htop, blockInfo_of_head htop]
      refine (congrArg (·.block.info) (hsame.layer top)).trans ?_
      rw [tree.layer_link_of_lt htoplt]
    rw [hunchanged, hsource', ← h.grounded.blocks id hlt]
    exact hfloor
  · rw [ne_none_iff_exists']
    exact ⟨_, (hmap ..).mpr ⟨.inl ⟨rfl, rfl⟩, by rwa [hnew]⟩⟩
end

/-- **One call of `update_block`** that returns: the index stays over the database, and a block that is
taken in is indexed. -/
theorem Indexed.updateBlock (hsource : source.WellNumbered) (h : tree.Indexed source) (hne : hash ≠ 0)
    (hreturns : (tree.updateBlock (source.block hash)).1 ≠ .panic) :
    (tree.updateBlock (source.block hash)).2.Indexed source ∧
      ((tree.updateBlock (source.block hash)).1 = .ok →
        (tree.updateBlock (source.block hash)).2.index.hashDiffMap hash ≠ none) := by
  have hinfo : (source.block hash).info = (source.block (source.block hash).info.hash).info := by rw [source.hash_eq]
  have hlinked := h.linked.updateBlock (h.numbered hsource hash)
  obtain ⟨hground, -⟩ := h.grounded.updateBlock hinfo _ (.head _)
  rcases updateBlock_cases tree (source.block hash) with ⟨hignores, heq, -⟩ | ⟨_, -, -, hparent, hcase⟩
  · rw [heq]
    refine ⟨h, fun hok hnone => ?_⟩
    rcases hignores with hpoisoned | hknown | hunknown
    · exact hreturns (by rw [StateTree.updateBlock, if_pos hpoisoned])
    · rw [source.hash_eq] at hknown
      exact hknown hnone
    rw [StateTree.updateBlock] at hok
    split at hok
    · cases hok
    · rw [source.hash_eq, hnone, hunknown] at hok
      cases hok
  · rcases hcase with ⟨-, heq⟩ | ⟨-, _, capped, hcap, heq⟩ | ⟨-, capped, -, heq⟩
    · rw [heq] at hlinked hground ⊢
      obtain ⟨hindexed, hfound⟩ := h.insertView hsource hne hparent rfl hlinked hground
      exact ⟨hindexed, fun _ => hfound⟩
    · rw [heq] at hlinked hground ⊢
      obtain ⟨hindexed, hfound⟩ := h.publish hsource hne hparent hcap rfl hlinked hground
      exact ⟨hindexed, fun _ => hfound⟩
    · exact absurd (by rw [heq]) hreturns

/-- A call that returns leaves the lock usable. -/
theorem updateBlock_poisoned (hreturns : (tree.updateBlock block).1 ≠ .panic) :
    (tree.updateBlock block).2.poisoned = false := by
  rcases updateBlock_cases tree block with ⟨-, heq, -⟩ | ⟨parent, husable, -, -, hcase⟩
  · rw [heq]
    by_contra hpoisoned
    exact hreturns (by rw [updateBlock, if_pos (Bool.eq_true_of_not_eq_false hpoisoned)])
  rcases hcase with ⟨-, heq⟩ | ⟨-, bottomNum, capped, hcap, heq⟩ | ⟨-, capped, -, heq⟩
  · rw [heq]
    exact husable
  · obtain ⟨_, -, hpublish⟩ := publish_eq capped block tree.arena.length bottomNum
    have hloop := capLoop_invariant (P := fun state => state.poisoned = tree.poisoned) (fun _ _ h => h) (fun _ _ h => h)
      (tree.link block parent).config.diffTreeDepthLimit
      ((tree.link block parent).arena.chain (some tree.arena.length)).reverse 0 (tree.link block parent) rfl
    rw [← capDiffToDb_result, hcap] at hloop
    rw [heq, hpublish]
    exact hloop.trans husable
  · exact absurd (by rw [heq]) hreturns

theorem updateBlock_hashDiffMap_of_ne (tree : StateTree) (hne : hash ≠ block.info.hash)
    (hnone : tree.index.hashDiffMap hash = none) : (tree.updateBlock block).2.index.hashDiffMap hash = none := by
  rcases updateBlock_cases tree block with ⟨-, heq, -⟩ | ⟨parent, -, -, -, hcase⟩
  · rw [heq, hnone]
  have hsame : ∀ capped, ((tree.link block parent).capDiffToDb tree.arena.length).result = capped →
      capped.index.hashDiffMap hash = none := by
    rintro _ rfl
    rw [((tree.link block parent).capDiffToDb_sameBlocks tree.arena.length).index]
    exact hnone
  rcases hcase with ⟨-, heq⟩ | ⟨-, _, capped, hcap, heq⟩ | ⟨-, capped, hcap, heq⟩
  · rw [heq]
    exact (insert_of_ne _ _ hne).trans hnone
  · rw [heq]
    by_contra hsome
    obtain ⟨_, hview⟩ := ne_none_iff_exists'.mp hsome
    rcases (publish_hashDiffMap.mp hview).1 with ⟨rfl, -⟩ | ⟨-, hold⟩
    · exact hne rfl
    · rw [hsame capped (by rw [hcap]; rfl)] at hold
      cases hold
  · rw [heq]
    exact hsame capped (by rw [hcap]; rfl)

/-- The calls of `update_block` for the blocks, one after the other, meet the condition. -/
def Calls (source : BlockSource) (good : UpdateResult → Prop) : StateTree → List H256 → Prop
  | _, [] => True
  | tree, hash :: rest => good (tree.updateBlock (source.block hash)).1 ∧
      Calls source good (tree.updateBlock (source.block hash)).2 rest

/-- The tree after them. -/
def applyAll (source : BlockSource) (tree : StateTree) (hashes : List H256) : StateTree :=
  hashes.foldl (fun tree hash => (tree.updateBlock (source.block hash)).2) tree

/-! ### Calls that return -/

/-- The layers of an indexed block rest on one that may be committed next. -/
def Extends (tree : StateTree) (hash : H256) : Prop :=
  ∀ view, tree.index.hashDiffMap hash = some view → ∀ bottom, (tree.arena.chain view.head).getLast? = some bottom →
    tree.FollowsLast bottom

/-- Nothing is committed yet after a start. -/
theorem extends_new (config : StateTreeConfig) (clears : Bool) (db : DiskState) (hash : H256) :
    (new config clears db).Extends hash := by
  intro _ _ _ _ old hold
  cases hold

theorem commit_of_followsLast (h : tree.FollowsLast id) : tree.commit id = some (tree.store id) := by
  unfold commit
  split
  · next old hold => exact if_pos (h old hold)
  · rfl

/-- The loop of `cap_diff_to_db` commits a layer and then its child, so only the first commit can fail. -/
theorem Linked.capLoop_returns {limit : Nat} {ids : List LayerId} (hlinked : tree.Linked) (hdepth : 1 ≤ limit)
    (hid : id < tree.arena.length) (hchain : tree.arena.chain (some id) = ids.reverse)
    (hfollows : ∀ bottom, ids.head? = some bottom → tree.FollowsLast bottom) (bottomNum : U64) :
    ∃ num tree', capLoop limit ids bottomNum tree = .done num tree' ∧
      ∀ bottom, (tree'.arena.chain (some id)).getLast? = some bottom → tree'.FollowsLast bottom := by
  induction ids generalizing tree bottomNum with
  | nil =>
    refine ⟨bottomNum, tree, rfl, fun bottom hlast => ?_⟩
    rw [hchain] at hlast
    cases hlast
  | cons first rest ih =>
    by_cases hover : limit < rest.length + 1
    · cases rest with
      | nil => exact absurd (hdepth.trans_lt hover) (by simp)
      | cons next more =>
        have hsame := (sameBlocks_store tree first).trans (sameBlocks_retarget _ next)
        have hcut : ((tree.store first).retarget next).arena.chain (some id) = (next :: more).reverse := by
          refine (chain_cut tree.arena next (some id)).trans ?_
          have hnodup := chain_nodup tree.arena (some id)
          rw [hchain, reverse_cons, reverse_cons, List.append_assoc] at hnodup
          have hnext : next ∉ more.reverse := fun hmem => (nodup_append.mp hnodup).2.2 next hmem next (.head _) rfl
          rw [hchain, reverse_cons, reverse_cons, List.append_assoc]
          exact through_append_cons _ hnext
        have hnext : tree.arena.next? next = some first := by
          have hlinks := isChain_chain hlinked.wellLinked hid
          rw [hchain, isChain_reverse] at hlinks
          exact (isChain_cons_cons.mp hlinks).1
        rw [capLoop, if_pos hover, commit_of_followsLast (hfollows first rfl)]
        refine ih (hlinked.of_sameBlocks hsame) (hsame.length.symm ▸ hid) hcut (fun bottom hbottom => ?_) _
        cases hbottom
        intro old hold
        cases hold
        rw [hsame.layer]
        exact (hlinked.parent next first hnext).1.symm
    · refine ⟨bottomNum, tree, by rw [capLoop, if_neg hover], fun bottom hlast => hfollows bottom ?_⟩
      rwa [hchain, getLast?_reverse] at hlast

/-- **A call for a child of such a block** returns, and leaves the child such a block. -/
theorem Linked.updateBlock_returns (hlinked : tree.Linked) (hnumber : tree.Numbered block)
    (hdepth : 1 ≤ tree.config.diffTreeDepthLimit) (husable : tree.poisoned = false)
    (hparent : tree.index.hashDiffMap block.info.parentHash ≠ none) (hnew : tree.index.hashDiffMap block.info.hash = none)
    (h : tree.Extends block.info.parentHash) :
    (tree.updateBlock block).1 ≠ .panic ∧ (tree.updateBlock block).2.Extends block.info.hash ∧
      (tree.updateBlock block).2.config = tree.config := by
  rcases updateBlock_cases tree block with ⟨hignores, -⟩ | ⟨parent, -, -, hview, hcase⟩
  · rcases hignores with hpoisoned | hknown | hunknown
    · rw [husable] at hpoisoned
      cases hpoisoned
    · exact absurd hnew hknown
    · exact absurd hunknown hparent
  have hid := tree.length_lt_link block parent
  have hlinked' := hlinked.link hview hnumber
  have hhead := hlinked'.shaped.head_buildView hid
  have hbottom : ∀ bottom, ((tree.link block parent).arena.chain (some tree.arena.length)).getLast? = some bottom →
      (tree.link block parent).FollowsLast bottom := by
    intro bottom hlast
    obtain ⟨top, htop, htoplt, -⟩ := hlinked.view _ _ hview
    obtain ⟨last, hlast', -⟩ := next?_getLast? hlinked.wellLinked htoplt
    rw [chain_link, getLast?_cons, htop, hlast'] at hlast
    cases hlast
    have hmem := lt_of_mem_chain (mem_of_getLast? hlast')
    intro old hold
    show old.block.info.hash = ((tree.link block parent).layer last).block.info.parentHash
    rw [tree.layer_link_of_lt hmem]
    exact h parent hview last (by rw [htop]; exact hlast') old hold
  have hextends : ∀ {final : StateTree}, (∀ view, final.index.hashDiffMap block.info.hash = some view →
      view.head = some tree.arena.length) → (∀ bottom, (final.arena.chain (some tree.arena.length)).getLast? = some bottom →
      final.FollowsLast bottom) → final.Extends block.info.hash := by
    intro _ hviews hfollows view hfound bottom hlast
    rw [hviews view hfound] at hlast
    exact hfollows bottom hlast
  have hdepth' : 1 ≤ (tree.link block parent).config.diffTreeDepthLimit := hdepth
  obtain ⟨num, capped, hloop, hfollows⟩ := hlinked'.capLoop_returns hdepth' hid (reverse_reverse _).symm
    (fun bottom hlast => hbottom bottom (by rwa [head?_reverse] at hlast)) 0
  rcases hcase with ⟨-, heq⟩ | ⟨-, bottomNum, tree', hcap, heq⟩ | ⟨-, tree', hcap, -⟩
  · rw [heq]
    refine ⟨nofun, hextends (fun view hfound => ?_) hbottom, rfl⟩
    obtain rfl := some.inj ((insert_self ..).symm.trans hfound)
    exact hhead
  · have hsame := capDiffToDb_sameBlocks (tree.link block parent) tree.arena.length
    rw [hcap] at hsame
    obtain ⟨_, -, hpublish⟩ := publish_eq tree' block tree.arena.length bottomNum
    rw [heq]
    refine ⟨nofun, hextends (fun view hfound => ?_) ?_, by rw [hpublish]; exact hsame.config⟩
    · rcases (publish_hashDiffMap.mp hfound).1 with ⟨-, rfl⟩ | ⟨hne, -⟩
      · exact (hlinked'.shaped.of_sameBlocks hsame).head_buildView (hsame.length.symm ▸ hid)
      · exact absurd rfl hne
    · rw [capDiffToDb, hloop] at hcap
      cases hcap
      rw [hpublish]
      exact hfollows
  · rw [capDiffToDb, hloop] at hcap
    cases hcap

section
variable (hsource : source.WellNumbered)
include hsource
/-- **A block of the persisted chain that arrives again** is known if it is the one the database stands at.
Any other is below everything indexed, and so is its parent. -/
theorem Indexed.updateBlock_persisted (h : tree.Indexed source)
    (husable : tree.poisoned = false) (hne : hash ≠ 0) (hpersisted : source.Descends tree.db.latest.hash hash) :
    tree.updateBlock (source.block hash) =
      (if hash = tree.db.latest.hash then .ok
        else .error (.parentBlockHashNotFound hash (source.block hash).info.number (source.parent hash)), tree) := by
  have hbelow : ∀ other, (source.block other).info.number.val < tree.db.latest.number.val →
      tree.index.hashDiffMap other = none := by
    intro other hlt
    by_contra hsome
    obtain ⟨view, hview⟩ := ne_none_iff_exists'.mp hsome
    have hfloor := le_def.mp (h.floor other view hview)
    rw [(h.info hview).1] at hfloor
    exact absurd hlt hfloor.not_gt
  split
  · next heq =>
    have hknown : (tree.index.hashDiffMap (source.block hash).info.hash).isSome := by
      rw [source.hash_eq, heq]
      exact isSome_iff_ne_none.mpr h.latest
    rw [StateTree.updateBlock, if_neg (by rw [husable]; decide), if_pos hknown]
  · next hother =>
    have hlt : (source.block hash).info.number.val < tree.db.latest.number.val := by
      have hafter := (Relation.reflTransGen_iff_eq_or_transGen.mp hpersisted).resolve_left hother
      have hnumber := hsource.number_lt hne hafter
      rwa [← h.grounded.latest] at hnumber
    have hunknown : tree.index.hashDiffMap hash = none := hbelow hash hlt
    have horphan : tree.index.hashDiffMap (source.parent hash) = none := by
      rcases hsource.numbered hash with hzero | hnumber
      · by_contra hsome
        obtain ⟨_, hview⟩ := ne_none_iff_exists'.mp hsome
        exact (h.info hview).2 hzero
      · exact hbelow _ (by omega)
    rw [StateTree.updateBlock, if_neg (by rw [husable]; decide), source.hash_eq, hunknown,
      if_neg (by decide), show (source.block hash).info.parentHash = source.parent hash from rfl, horphan]

/-! ### One call after another -/

/-- The block the database stands at, again and again. -/
theorem calls_latest (hindexed : tree.Indexed source) (husable : tree.poisoned = false)
    (hne : tree.db.latest.hash ≠ 0) {replayed : List H256} (hreplayed : ∀ hash ∈ replayed, hash = tree.db.latest.hash)
    (hfresh : Calls source (· = .ok) tree fresh) :
    Calls source (· = .ok) tree (replayed ++ fresh) ∧ applyAll source tree (replayed ++ fresh) = applyAll source tree fresh := by
  induction replayed with
  | nil => exact ⟨hfresh, rfl⟩
  | cons hash _ ih =>
    obtain rfl := hreplayed hash (.head _)
    have hcall := hindexed.updateBlock_persisted hsource husable hne .refl
    rw [if_pos rfl] at hcall
    obtain ⟨hcalls, htree⟩ := ih fun other hother => hreplayed other (.tail _ hother)
    refine ⟨⟨by rw [hcall], by rw [hcall]; exact hcalls⟩, ?_⟩
    rw [cons_append, applyAll, foldl_cons, hcall]
    exact htree

/-- A chain on top of an indexed block. -/
theorem calls_chain (hindexed : tree.Indexed source) {parent : H256} (hparent : tree.index.hashDiffMap parent ≠ none)
    (hchain : (parent :: fresh).IsChain fun parent child => source.parent child = parent) (hne : ∀ hash ∈ fresh, hash ≠ 0)
    (hreturn : Calls source (· ≠ .panic) tree fresh) :
    Calls source (· = .ok) tree fresh ∧
      (applyAll source tree fresh).index.hashDiffMap ((parent :: fresh).getLast (cons_ne_nil _ _)) ≠ none := by
  induction fresh generalizing tree parent with
  | nil => exact ⟨trivial, hparent⟩
  | cons hash _ ih =>
    obtain ⟨hlink, hrest⟩ := isChain_cons_cons.mp hchain
    have hok : (tree.updateBlock (source.block hash)).1 = .ok := by
      rcases updateBlock_cases tree (source.block hash) with ⟨hignores, -⟩ | ⟨_, -, -, -, hcase⟩
      · rcases hignores with hpoisoned | hknown | hunknown
        · exact absurd (by rw [updateBlock, if_pos hpoisoned]) hreturn.1
        · rw [updateBlock]
          split
          · next hpoisoned => exact absurd (by rw [updateBlock, if_pos hpoisoned]) hreturn.1
          · rw [if_pos (isSome_iff_ne_none.mpr hknown)]
        · rw [← hlink] at hparent
          exact absurd hunknown hparent
      rcases hcase with ⟨-, heq⟩ | ⟨-, _, _, -, heq⟩ | ⟨-, _, -, heq⟩
      · rw [heq]
      · rw [heq]
      · exact absurd (by rw [heq]) hreturn.1
    obtain ⟨hindexed', hfound⟩ := hindexed.updateBlock hsource (hne hash (.head _)) hreturn.1
    obtain ⟨hcalls, hlast⟩ := ih hindexed' (hfound hok) hrest (fun other hother => hne other (.tail _ hother))
      hreturn.2
    refine ⟨⟨hok, hcalls⟩, ?_⟩
    exact hlast

/-- Blocks that are not known yet, on top of one whose layers may be committed. -/
theorem calls_return (hindexed : tree.Indexed source) (husable : tree.poisoned = false)
    (hdepth : 1 ≤ tree.config.diffTreeDepthLimit) {parent : H256} (hparent : tree.index.hashDiffMap parent ≠ none)
    (hextends : tree.Extends parent) (hchain : (parent :: fresh).IsChain fun parent child => source.parent child = parent)
    (hne : ∀ hash ∈ fresh, hash ≠ 0) (hnew : ∀ hash ∈ fresh, tree.index.hashDiffMap hash = none) :
    Calls source (· ≠ .panic) tree fresh := by
  induction fresh generalizing tree parent with
  | nil => trivial
  | cons hash rest ih =>
    obtain ⟨rfl, hrest⟩ := isChain_cons_cons.mp hchain
    rw [forall_mem_cons] at hne hnew
    have hhash := source.hash_eq hash
    obtain ⟨hreturns, hextends', hconfig⟩ := hindexed.linked.updateBlock_returns (hindexed.numbered hsource hash) hdepth
      husable hparent (hhash.symm ▸ hnew.1) hextends
    rw [hhash] at hextends'
    obtain ⟨hindexed', hfound⟩ := hindexed.updateBlock hsource hne.1 hreturns
    have hok : (tree.updateBlock (source.block hash)).1 = .ok := by
      have hcalls : Calls source (· ≠ .panic) tree [hash] := ⟨hreturns, trivial⟩
      exact (calls_chain hsource hindexed hparent (.cons_cons rfl (.singleton _)) (forall_mem_singleton.mpr hne.1) hcalls).1.1
    refine ⟨hreturns, ih hindexed' (updateBlock_poisoned hreturns) (hconfig ▸ hdepth) (hfound hok) hextends' hrest
      hne.2 fun other hmem => updateBlock_hashDiffMap_of_ne tree (fun heq => ?_) (hnew.2 other hmem)⟩
    have hlt := hsource.number_lt hne.1 (BlockSource.strictlyDescends_of_isChain hrest other hmem)
    rw [heq, hhash] at hlt
    exact absurd hlt (Nat.lt_irrefl _)

omit hsource in
/-- Blocks that the tree has are passed over. -/
theorem calls_known (husable : tree.poisoned = false) {known : List H256}
    (hknown : ∀ hash ∈ known, tree.index.hashDiffMap hash ≠ none) (hfresh : Calls source (· ≠ .panic) tree fresh) :
    Calls source (· ≠ .panic) tree (known ++ fresh) := by
  induction known with
  | nil => exact hfresh
  | cons hash _ ih =>
    rw [forall_mem_cons] at hknown
    have hcall : tree.updateBlock (source.block hash) = (.ok, tree) := by
      rw [updateBlock, husable, if_neg (by decide), source.hash_eq, if_pos (isSome_iff_ne_none.mpr hknown.1)]
    refine ⟨by rw [hcall]; nofun, ?_⟩
    rw [hcall]
    exact ih hknown.2
end

end StateTree
end LeafageEvm
