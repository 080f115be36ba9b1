import LeafageEvm.Tree
import LeafageEvm.Runs

/-! What the steps of the state tree change and what they leave alone. -/

namespace LeafageEvm.StateTree
open Arena
variable (tree : StateTree) {id : LayerId} {tree' : StateTree} (block : Block)

/-! ### Layers -/

@[simp] theorem layer_retarget (id other : LayerId) : (tree.retarget id).layer other = tree.layer other := by
  simp only [layer, retarget, node?_cut, Option.map_map]
  congr 2
  funext node
  split <;> rfl

section
variable (parent : FlattenedLayerView)

@[simp] theorem layer_link_self : (tree.link block parent).layer tree.arena.length = .new block := by
  simp [layer, link]

theorem hash_link : ((tree.link block parent).layer tree.arena.length).block.info.hash = block.info.hash := by
  rw [layer_link_self]
  rfl

theorem length_lt_link : tree.arena.length < (tree.link block parent).arena.length := Nat.lt_succ_self _

theorem chain_link :
    (tree.link block parent).arena.chain (some tree.arena.length) = tree.arena.length :: tree.arena.chain parent.head :=
  chain_push_self _ _
end

theorem layer_link_of_lt {block : Block} {parent : FlattenedLayerView}
    (h : id < tree.arena.length) : (tree.link block parent).layer id = tree.layer id := by
  simp only [layer, link, node?_push_of_lt _ _ h]

@[simp] theorem accepted_link (parent : FlattenedLayerView) :
    (tree.link block parent).accepted = block :: tree.accepted := rfl

theorem accepted_cut (arena : Arena DiffLayer) (id : Nat) :
    (arena.cut id).map (fun node => node.value.block) = arena.map fun node => node.value.block := by
  induction arena with
  | nil => rfl
  | cons _ _ ih =>
    unfold cut
    split <;> simp [ih]

/-! ### Commits -/

/-- The assertion of `commit`: the layer is a child of the one committed last. -/
def FollowsLast (tree : StateTree) (id : LayerId) : Prop :=
  ∀ old, tree.cacheLayer.oldDiffLayer = some old →
    old.block.info.hash = (tree.layer id).block.info.parentHash

theorem commit_eq_some (h : tree.commit id = some tree') : tree' = tree.store id ∧ tree.FollowsLast id := by
  unfold commit at h
  split at h
  · next _ hold =>
      split at h
      · next hparent =>
          refine ⟨(Option.some.inj h).symm, fun _ hold' => ?_⟩
          rw [hold] at hold'
          cases hold'
          exact hparent
      · cases h
  · next hnone =>
      refine ⟨(Option.some.inj h).symm, fun old hold => ?_⟩
      rw [hnone] at hold
      cases hold

/-- What capping a chain leaves as it was: everything but the database, the cache, the history of
commits and the links. -/
structure SameBlocks (tree' : StateTree) : Prop where
  config : tree'.config = tree.config
  clears : tree'.clears = tree.clears
  index : tree'.index = tree.index
  accepted : tree'.accepted = tree.accepted
  length : tree'.arena.length = tree.arena.length
  layer : ∀ id, tree'.layer id = tree.layer id
  next : ∀ id below, tree'.arena.next? id = some below → tree.arena.next? id = some below

variable {tree}

theorem SameBlocks.trans {tree'' : StateTree} (h : tree.SameBlocks tree')
    (h' : tree'.SameBlocks tree'') : tree.SameBlocks tree'' where
  config := h'.config.trans h.config
  clears := h'.clears.trans h.clears
  index := h'.index.trans h.index
  accepted := h'.accepted.trans h.accepted
  length := h'.length.trans h.length
  layer id := (h'.layer id).trans (h.layer id)
  next id below hnext := h.next id below (h'.next id below hnext)

section
variable (tree : StateTree)

theorem SameBlocks.refl : tree.SameBlocks tree := ⟨rfl, rfl, rfl, rfl, rfl, fun _ => rfl, fun _ _ h => h⟩

theorem sameBlocks_store (id : LayerId) : tree.SameBlocks (tree.store id) :=
  ⟨rfl, rfl, rfl, rfl, rfl, fun _ => rfl, fun _ _ h => h⟩

theorem sameBlocks_retarget (id : LayerId) : tree.SameBlocks (tree.retarget id) :=
  ⟨rfl, rfl, rfl, accepted_cut tree.arena id, length_cut tree.arena id,
    tree.layer_retarget id, fun other below h => by
      simp only [retarget, next?_cut] at h
      split at h
      · cases h
      · exact h⟩

theorem sameBlocks_setEntries (entries : CacheEntries) : tree.SameBlocks (tree.setEntries entries) :=
  ⟨rfl, rfl, rfl, rfl, rfl, fun _ => rfl, fun _ _ h => h⟩
end

/-- The tree a capping ends with, however it ends. -/
def Capped.result : Capped → StateTree
  | .done _ tree => tree
  | .panicked tree => tree

/-- What a commit and a cut keep, the loop keeps. -/
theorem capLoop_invariant {P : StateTree → Prop} (hstore : ∀ tree id, P tree → P (tree.store id))
    (hretarget : ∀ tree next, P tree → P (tree.retarget next)) (limit : Nat) (ids : List LayerId) (bottomNum : U64)
    (tree : StateTree) (h : P tree) : P (capLoop limit ids bottomNum tree).result := by
  induction ids generalizing bottomNum tree with
  | nil => exact h
  | cons id rest ih =>
    unfold capLoop
    split
    · cases hcommit : tree.commit id with
      | none => exact h
      | some =>
        obtain ⟨rfl, -⟩ := tree.commit_eq_some hcommit
        cases rest with
        | nil => exact hstore _ id h
        | cons next => exact ih _ _ (hretarget _ next (hstore _ id h))
    · exact h

theorem capLoop_sameBlocks (limit : Nat) (ids : List LayerId) (bottomNum : U64) (tree : StateTree) :
    tree.SameBlocks (capLoop limit ids bottomNum tree).result :=
  capLoop_invariant (fun _ id h => h.trans (sameBlocks_store _ id)) (fun _ next h => h.trans (sameBlocks_retarget _ next))
    limit ids bottomNum tree (.refl tree)

theorem capDiffToDb_result (tree : StateTree) (id : LayerId) : (tree.capDiffToDb id).result =
    (capLoop tree.config.diffTreeDepthLimit (tree.arena.chain (some id)).reverse 0 tree).result := by
  rw [capDiffToDb]
  cases capLoop tree.config.diffTreeDepthLimit (tree.arena.chain (some id)).reverse 0 tree with
  | panicked | _ => rfl

theorem capDiffToDb_sameBlocks (tree : StateTree) (id : LayerId) : tree.SameBlocks (tree.capDiffToDb id).result := by
  rw [capDiffToDb_result]
  exact capLoop_sameBlocks ..

theorem capLoop_of_le {limit : Nat} {ids : List LayerId} (h : ids.length ≤ limit) (bottomNum : U64)
    (tree : StateTree) : capLoop limit ids bottomNum tree = .done bottomNum tree := by
  cases ids with
  | nil => rfl
  | cons id =>
    rw [List.length_cons] at h
    rw [capLoop, if_neg h.not_gt]

theorem capDiffToDb_of_le (h : (tree.arena.chain (some id)).length ≤ tree.config.diffTreeDepthLimit) :
    tree.capDiffToDb id = .done (tree.blockInfo ⟨[]⟩).number tree := by
  rw [capDiffToDb, capLoop_of_le (by rwa [List.length_reverse])]
  rfl

/-- The height the disk stands at: the block committed last, or the one the tree started from. -/
def bottomNumber (tree : StateTree) : Nat := (tree.blockInfo ⟨[]⟩).number.val

/-- After the loop the disk stands where it stood or at one of the layers, and the number returned
is the one passed in or that of a layer. -/
theorem capLoop_bottom (limit : Nat) (ids : List LayerId) (bottomNum : U64) (tree : StateTree) :
    ((capLoop limit ids bottomNum tree).result.blockInfo ⟨[]⟩ = tree.blockInfo ⟨[]⟩ ∨
        ∃ id ∈ ids, (capLoop limit ids bottomNum tree).result.blockInfo ⟨[]⟩ = (tree.layer id).block.info) ∧
      ∀ num tree', capLoop limit ids bottomNum tree = .done num tree' →
        num = bottomNum ∨ ∃ id ∈ ids, num = (tree.layer id).block.info.number := by
  induction ids generalizing bottomNum tree with
  | nil => exact ⟨.inl rfl, fun _ _ heq => by cases heq; exact .inl rfl⟩
  | cons id rest ih =>
    unfold capLoop
    split
    · cases hcommit : tree.commit id with
      | none => exact ⟨.inl rfl, nofun⟩
      | some tree' =>
        obtain ⟨rfl, -⟩ := tree.commit_eq_some hcommit
        cases rest with
        | nil => exact ⟨.inr ⟨id, .head _, rfl⟩, nofun⟩
        | cons next =>
          obtain ⟨hinfo, hnum⟩ := ih (tree.layer id).block.info.number ((tree.store id).retarget next)
          simp only [layer_retarget] at hinfo hnum
          refine ⟨.inr ?_, fun num tree' heq => .inr ?_⟩
          · rcases hinfo with hsame | ⟨other, hother, heq⟩
            · exact ⟨id, .head _, hsame⟩
            · exact ⟨other, .tail _ hother, heq⟩
          · rcases hnum num tree' heq with hsame | ⟨other, hother, heq⟩
            · exact ⟨id, .head _, hsame⟩
            · exact ⟨other, .tail _ hother, heq⟩
    · exact ⟨.inl rfl, fun num tree' heq => by cases heq; exact .inl rfl⟩

/-- After capping the disk stands where it stood or at a layer of the chain. -/
theorem capDiffToDb_bottom (tree : StateTree) (id : LayerId) :
    (tree.capDiffToDb id).result.blockInfo ⟨[]⟩ = tree.blockInfo ⟨[]⟩ ∨ ∃ other ∈ tree.arena.chain (some id),
        (tree.capDiffToDb id).result.blockInfo ⟨[]⟩ = (tree.layer other).block.info := by
  have hloop := (capLoop_bottom tree.config.diffTreeDepthLimit (tree.arena.chain (some id)).reverse 0 tree).1
  simp only [List.mem_reverse] at hloop
  rw [capDiffToDb_result]
  exact hloop

theorem capDiffToDb_bounded (bound : Nat) (tree : StateTree) (id : LayerId)
    (hids : ∀ other ∈ tree.arena.chain (some id), (tree.layer other).block.info.number.val ≤ bound)
    (hbottom : tree.bottomNumber ≤ bound) : (tree.capDiffToDb id).result.bottomNumber ≤ bound ∧
      ∀ num tree', tree.capDiffToDb id = .done num tree' → num.val ≤ bound := by
  have hresult : (tree.capDiffToDb id).result.bottomNumber ≤ bound := by
    unfold bottomNumber
    rcases tree.capDiffToDb_bottom id with heq | ⟨other, hother, heq⟩
    · rw [heq]
      exact hbottom
    · rw [heq]
      exact hids other hother
  refine ⟨hresult, fun num tree' heq => ?_⟩
  rw [heq] at hresult
  unfold capDiffToDb at heq
  cases hcap : capLoop tree.config.diffTreeDepthLimit (tree.arena.chain (some id)).reverse 0 tree with
  | panicked =>
    rw [hcap] at heq
    cases heq
  | done =>
    rw [hcap] at heq
    cases heq
    split
    · exact hresult
    · next hne =>
        rcases (capLoop_bottom ..).2 _ _ hcap with rfl | ⟨other, hother, rfl⟩
        · exact absurd rfl hne
        · exact hids other (List.mem_reverse.mp hother)

/-! ### The block step -/

/-- A call that does nothing: the lock is poisoned, the block is known or its parent is not. -/
def Ignores (tree : StateTree) (block : Block) : Prop :=
  tree.poisoned = true ∨ tree.index.hashDiffMap block.info.hash ≠ none ∨
    tree.index.hashDiffMap block.info.parentHash = none

instance (tree : StateTree) (block : Block) : Decidable (tree.Ignores block) :=
  inferInstanceAs (Decidable (_ ∨ ¬ (_ = none) ∨ _ = none))

def Publishes (tree : StateTree) (block : Block) : Prop :=
  (tree.blockInfo tree.index.latest).number ≤ block.info.number

instance (tree : StateTree) (block : Block) : Decidable (tree.Publishes block) :=
  inferInstanceAs (Decidable (_ ≤ _))

/-- Everything a call of `update_block` can do. -/
theorem updateBlock_cases (tree : StateTree) (block : Block) : (tree.Ignores block ∧ (tree.updateBlock block).2 = tree ∧
      ((tree.updateBlock block).1 = .panic → tree.poisoned = true)) ∨
    ∃ parent, tree.poisoned = false ∧ tree.index.hashDiffMap block.info.hash = none ∧
      tree.index.hashDiffMap block.info.parentHash = some parent ∧
      ((¬ tree.Publishes block ∧ tree.updateBlock block = (.ok, (tree.link block parent).insertView block
            ((tree.link block parent).buildView tree.arena.length))) ∨
        (tree.Publishes block ∧ ∃ bottomNum tree',
          (tree.link block parent).capDiffToDb tree.arena.length = .done bottomNum tree' ∧
          tree.updateBlock block = (.ok, tree'.publish block tree.arena.length bottomNum)) ∨
        (tree.Publishes block ∧ ∃ tree',
          (tree.link block parent).capDiffToDb tree.arena.length = .panicked tree' ∧
          tree.updateBlock block = (.panic, { tree' with poisoned := true }))) := by
  unfold updateBlock
  cases hpoisoned : tree.poisoned with
  | true => exact .inl ⟨.inl hpoisoned, by simp, fun _ => rfl⟩
  | false =>
    cases hhash : tree.index.hashDiffMap block.info.hash with
    | some => exact .inl ⟨.inr (.inl (by simp [hhash])), by simp, by simp⟩
    | none =>
      cases hparent : tree.index.hashDiffMap block.info.parentHash with
      | none => exact .inl ⟨.inr (.inr hparent), by simp, by simp⟩
      | some parent =>
        refine .inr ⟨parent, rfl, rfl, rfl, ?_⟩
        by_cases hpub : tree.Publishes block
        · have hle : (tree.blockInfo tree.index.latest).number ≤ block.info.number := hpub
          cases hcap : (tree.link block parent).capDiffToDb tree.arena.length with
          | done bottomNum tree' => exact .inr (.inl ⟨hpub, bottomNum, tree', rfl, by simp [hle, hcap]⟩)
          | panicked tree' => exact .inr (.inr ⟨hpub, tree', rfl, by simp [hle, hcap]⟩)
        · have hlt : ¬ (tree.blockInfo tree.index.latest).number ≤ block.info.number := hpub
          exact .inl ⟨hpub, by simp [hlt]⟩

end LeafageEvm.StateTree
