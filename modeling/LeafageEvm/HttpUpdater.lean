import LeafageEvm.TreeIndexed

/-! The updater that polls an upstream node over HTTP. A call asks for the block after the tree's head,
walks back along the parent hashes to a block that the tree has, and applies what it has queued. The
queue survives a call that fails or gives up. -/

namespace LeafageEvm
open StateTree Nat List

/-- A block as the upstream sends it. `stateDiff` is what its bytes decode to, if they do. -/
structure DebankOutPut where
  header : BlockInfo
  stateDiff : Option BlockStorageDiff
  deriving DecidableEq

/-- What one call meets, a missing answer being an error: the upstream's number, its block of a number
and of a hash (the request is told by the length of the queue when it is made), the database's latest
state, whether the database has a state for a hash that is not in the tree, and its use by an update
(told by the number of blocks that are left). -/
structure Answers where
  blockNumber : Option U64
  byNumber : U64 → Option DebankOutPut
  byHash : Nat → H256 → Option DebankOutPut
  dbLatest : Bool := true
  dbState : H256 → Option Bool := fun _ => some false
  usable : Nat → Bool := fun _ => true

def BlockSource.output (source : BlockSource) (hash : H256) : DebankOutPut where
  header := (source.block hash).info
  stateDiff := some (source.block hash).diff

/-- The upstream answers with blocks that there are, and with the one that was asked for. -/
structure Answers.Honest (source : BlockSource) (answers : Answers) : Prop where
  byNumber : ∀ number output, answers.byNumber number = some output → ∃ hash, hash ≠ 0 ∧ output = source.output hash
  byHash : ∀ i hash output, answers.byHash i hash = some output → hash ≠ 0 ∧ output = source.output hash

/-- `blockQueue` has the front first. `stopped` is the task after a panic. -/
structure HttpUpdater where
  tree : StateTree
  blockQueue : List DebankOutPut
  maxDiffDepth : Nat
  stopped : Bool

inductive UpdateCall where
  | done (updated : Bool)
  | failed
  | panicked
  deriving DecidableEq

inductive WalkBack where
  | found
  | dropped
  | failed
  deriving DecidableEq

namespace HttpUpdater

variable {queue : List DebankOutPut} {hash first : H256} {rest hashes : List H256}

def new (tree : StateTree) (maxDiffDepth : Nat) : HttpUpdater where
  tree := tree
  blockQueue := []
  maxDiffDepth := maxDiffDepth
  stopped := false

/-- The queue that a call starts with, or its result if there is nothing to do. -/
def fillQueue (updater : HttpUpdater) (answers : Answers) : Except UpdateCall (List DebankOutPut) :=
  match updater.blockQueue with
  | first :: rest => .ok (first :: rest)
  | [] =>
    if answers.dbLatest then
      let current := (updater.tree.blockInfo updater.tree.index.latest).number
      match answers.blockNumber with
      | none => .error .failed
      | some latest =>
        if latest ≤ current then .error (.done false)
        else
          match answers.byNumber (current + 1) with
          | none => .error .failed
          | some output => .ok [output]
    else .error .failed

/-- `state_at` for a hash: whether there is a state. -/
def stateAt (tree : StateTree) (answers : Answers) (hash : H256) : Option Bool :=
  match tree.index.hashDiffMap hash with
  | some _ => if answers.dbLatest then some true else none
  | none => answers.dbState hash

/-- The loop that looks for a block whose parent is in the tree. `room` is the number of blocks that the
queue is short of too many. -/
def walkBack (tree : StateTree) (answers : Answers) : Nat → List DebankOutPut → WalkBack × List DebankOutPut
  | 0, queue => (.dropped, queue)
  | _ + 1, [] => (.failed, [])
  | room + 1, first :: rest =>
    match stateAt tree answers first.header.parentHash with
    | none => (.failed, first :: rest)
    | some true => (.found, first :: rest)
    | some false =>
      match answers.byHash (first :: rest).length first.header.parentHash with
      | none => (.failed, first :: rest)
      | some output => walkBack tree answers room (output :: first :: rest)

/-- The loop that applies the queue. A block is taken off before it is applied. -/
def applyQueue (answers : Answers) : StateTree → List DebankOutPut → UpdateCall × StateTree × List DebankOutPut
  | tree, [] => (.done true, tree, [])
  | tree, output :: rest =>
    match output.stateDiff with
    | none => (.failed, tree, rest)
    | some diff =>
      if answers.usable rest.length then
        match tree.updateBlock { info := output.header, diff := diff } with
        | (.ok, tree) => applyQueue answers tree rest
        | (.error _, tree) => (.failed, tree, rest)
        | (.panic, tree) => (.panicked, tree, rest)
      else (.failed, tree, rest)

def update (updater : HttpUpdater) (answers : Answers) : UpdateCall × HttpUpdater :=
  match updater.fillQueue answers with
  | .error result => (result, updater)
  | .ok queue =>
    match walkBack updater.tree answers (updater.maxDiffDepth + 1 - queue.length) queue with
    | (.dropped, queue) => (.done false, { updater with blockQueue := queue })
    | (.failed, queue) => (.failed, { updater with blockQueue := queue })
    | (.found, queue) =>
      match applyQueue answers updater.tree queue with
      | (result, tree, queue) =>
        (result, { updater with tree := tree, blockQueue := queue, stopped := result = .panicked })

/-- One call of the loop in `start`. -/
def step (updater : HttpUpdater) (answers : Answers) : HttpUpdater :=
  if updater.stopped then updater else (updater.update answers).2

variable {source : BlockSource} {updater : HttpUpdater} {answers : Answers} {tree : StateTree}

section
variable (answers : Answers)

theorem step_cases (updater : HttpUpdater) : updater.step answers = updater ∨
      (updater.stopped = false ∧ ∃ queue, updater.fillQueue answers = .ok queue ∧
        let walk := walkBack updater.tree answers (updater.maxDiffDepth + 1 - queue.length) queue
        (walk.1 ≠ .found ∧ updater.step answers = { updater with blockQueue := walk.2 }) ∨ (walk.1 = .found ∧
            let applied := applyQueue answers updater.tree walk.2
            updater.step answers = { updater with
                tree := applied.2.1, blockQueue := applied.2.2, stopped := applied.1 = .panicked })) := by
  unfold step
  split
  · exact .inl rfl
  · next hrunning =>
    unfold update
    cases updater.fillQueue answers with
    | error => exact .inl rfl
    | ok queue =>
      refine .inr ⟨Bool.eq_false_of_not_eq_true hrunning, queue, rfl, ?_⟩
      cases hwalk : walkBack updater.tree answers (updater.maxDiffDepth + 1 - queue.length) queue with
      | mk result =>
        cases result with
        | found => exact .inr ⟨rfl, by simp only [hwalk]⟩
        | dropped | _ => exact .inl ⟨by simp, by simp only [hwalk]⟩

/-! ### The length of the queue -/

theorem walkBack_length (tree : StateTree) (room : Nat) (queue : List DebankOutPut) :
    (walkBack tree answers room queue).2.length ≤ room + queue.length := by
  induction room generalizing queue with
  | zero => exact Nat.le_add_left ..
  | succ _ ih =>
    cases queue with
    | nil => exact zero_le _
    | cons first rest =>
      unfold walkBack
      split
      · exact Nat.le_add_left ..
      · exact Nat.le_add_left ..
      split
      · exact Nat.le_add_left ..
      · next output _ =>
        have hlength := ih (output :: first :: rest)
        simp only [length_cons] at hlength ⊢
        omega

theorem applyQueue_length (tree : StateTree) (queue : List DebankOutPut) :
    (applyQueue answers tree queue).2.2.length ≤ queue.length := by
  induction queue generalizing tree with
  | nil => exact le_rfl
  | cons output rest ih =>
    have hrest : rest.length ≤ (output :: rest).length := le_succ _
    unfold applyQueue
    split
    · exact hrest
    split
    · split
      · exact (ih _).trans hrest
      · exact hrest
      · exact hrest
    · exact hrest

theorem step_maxDiffDepth (updater : HttpUpdater) : (updater.step answers).maxDiffDepth = updater.maxDiffDepth := by
  rcases updater.step_cases answers with heq | ⟨-, _, -, ⟨-, heq⟩ | ⟨-, heq⟩⟩ <;> rw [heq]
end

/-- Blocks linked by their parent hashes, of which only the last may be in the tree. -/
structure Pending (source : BlockSource) (tree : StateTree) (hashes : List H256) : Prop where
  nonzero : ∀ hash ∈ hashes, hash ≠ 0
  linked : hashes.IsChain fun parent child => source.parent child = parent
  missing : ∀ hash ∈ hashes.dropLast, tree.index.hashDiffMap hash = none

theorem Pending.singleton (hne : hash ≠ 0) : Pending source tree [hash] where
  nonzero other hother := by
    obtain rfl := mem_singleton.mp hother
    exact hne
  linked := .singleton _
  missing _ hother := absurd hother not_mem_nil

theorem Pending.push (h : Pending source tree (first :: rest)) (hne : source.parent first ≠ 0)
    (hmissing : tree.index.hashDiffMap (source.parent first) = none) :
    Pending source tree (source.parent first :: first :: rest) where
  nonzero hash hmem := by
    rcases mem_cons.mp hmem with rfl | hmem
    · exact hne
    · exact h.nonzero hash hmem
  linked := .cons_cons rfl h.linked
  missing hash hmem := by
    rcases mem_cons.mp hmem with rfl | hmem
    · exact hmissing
    · exact h.missing hash hmem

theorem hashDiffMap_of_stateAt_false (h : stateAt tree answers hash = some false) :
    tree.index.hashDiffMap hash = none := by
  unfold stateAt at h
  split at h
  · split at h <;> cases h
  · next hnone => exact hnone

theorem Pending.walkBack (hhonest : answers.Honest source) (room : Nat) (h : Pending source tree hashes) :
    ∃ hashes', (HttpUpdater.walkBack tree answers room (hashes.map source.output)).2 = hashes'.map source.output ∧
      Pending source tree hashes' := by
  induction room generalizing hashes with
  | zero => exact ⟨_, rfl, h⟩
  | succ _ ih =>
    cases hashes with
    | nil => exact ⟨[], rfl, h⟩
    | cons =>
      rw [map_cons, HttpUpdater.walkBack]
      split
      · exact ⟨_, rfl, h⟩
      · exact ⟨_, rfl, h⟩
      · next hfalse =>
        split
        · exact ⟨_, rfl, h⟩
        · next _ hanswer =>
          obtain ⟨hne, rfl⟩ := hhonest.byHash _ _ _ hanswer
          exact ih (h.push hne (hashDiffMap_of_stateAt_false hfalse))

/-- **The invariant** of the calls. -/
structure Queued (source : BlockSource) (updater : HttpUpdater) : Prop where
  queue : ∃ hashes, updater.blockQueue = hashes.map source.output ∧ Pending source updater.tree hashes
  live : updater.stopped = false → updater.tree.poisoned = false ∧ updater.tree.Indexed source

theorem queued_new (config : StateTreeConfig) (clears : Bool) {db : DiskState}
    (hlatest : db.latest = (source.block db.latest.hash).info) (hne : db.latest.hash ≠ 0) (maxDiffDepth : Nat) :
    (new (.new config clears db) maxDiffDepth).Queued source where
  queue := ⟨[], rfl, nofun, .nil, nofun⟩
  live _ := ⟨rfl, indexed_new config clears hlatest hne⟩

section
variable (hfill : updater.fillQueue answers = .ok queue)
include hfill
theorem fillQueue_cases :
    queue = updater.blockQueue ∨ ∃ output,
      answers.byNumber ((updater.tree.blockInfo updater.tree.index.latest).number + 1) = some output ∧ queue = [output] := by
  unfold fillQueue at hfill
  split at hfill
  · next heq =>
    cases hfill
    exact .inl heq.symm
  split at hfill
  · simp only at hfill
    split at hfill
    · cases hfill
    split at hfill
    · cases hfill
    split at hfill
    · cases hfill
    · next output hanswer =>
      cases hfill
      exact .inr ⟨output, hanswer, rfl⟩
  · cases hfill

/-! ### What the queue holds -/

theorem fillQueue_pending (hhonest : answers.Honest source) (h : updater.Queued source) :
    ∃ hashes, queue = hashes.map source.output ∧ Pending source updater.tree hashes := by
  rcases fillQueue_cases hfill with rfl | ⟨_, hanswer, rfl⟩
  · exact h.queue
  · obtain ⟨hash, hne, rfl⟩ := hhonest.byNumber _ _ hanswer
    exact ⟨[hash], rfl, .singleton hne⟩
end

theorem step_length (hlength : updater.blockQueue.length ≤ updater.maxDiffDepth + 1) (answers : Answers) :
    (updater.step answers).blockQueue.length ≤ updater.maxDiffDepth + 1 := by
  rcases updater.step_cases answers with heq | ⟨-, queue, hfill, hcase⟩
  · rw [heq]
    exact hlength
  have hqueue : queue.length ≤ updater.maxDiffDepth + 1 := by
    rcases fillQueue_cases hfill with rfl | ⟨_, -, rfl⟩
    · exact hlength
    · exact Nat.le_add_left ..
  have hwalk := walkBack_length answers updater.tree (updater.maxDiffDepth + 1 - queue.length) queue
  rcases hcase with ⟨-, heq⟩ | ⟨-, heq⟩
  · rw [heq]
    show (walkBack ..).2.length ≤ _
    omega
  · rw [heq]
    refine (applyQueue_length answers updater.tree _).trans ?_
    omega

section
variable (hsource : source.WellNumbered)
include hsource
/-- The block at the front is applied, or not, and the others stay. -/
theorem Pending.pop (h : Pending source tree (first :: rest)) :
    Pending source tree rest ∧ Pending source (tree.updateBlock (source.block first)).2 rest := by
  have hmem : ∀ hash ∈ rest.dropLast, hash ∈ rest := fun _ hhash => dropLast_subset _ hhash
  have hmissing : ∀ hash ∈ rest.dropLast, tree.index.hashDiffMap hash = none := by
    intro hash hhash
    have hne : rest ≠ [] := ne_nil_of_mem (hmem hash hhash)
    refine h.missing hash ?_
    rw [dropLast_cons_of_ne_nil hne]
    exact .tail _ hhash
  have hnonzero : ∀ hash ∈ rest, hash ≠ 0 := fun hash hhash => h.nonzero hash (.tail _ hhash)
  refine ⟨⟨hnonzero, h.linked.tail, hmissing⟩, hnonzero, h.linked.tail, fun hash hhash => ?_⟩
  refine updateBlock_hashDiffMap_of_ne tree ?_ (hmissing hash hhash)
  rw [source.hash_eq]
  rintro rfl
  have hafter := BlockSource.strictlyDescends_of_isChain h.linked hash (hmem hash hhash)
  exact absurd (hsource.number_lt (h.nonzero hash (.head _)) hafter) (lt_irrefl _)

/-- The tree that a call is left with, unless it panics, is one that the next can use. -/
theorem Pending.applyQueue (answers : Answers) (h : Pending source tree hashes)
    (husable : tree.poisoned = false) (hindexed : tree.Indexed source) :
    let applied := HttpUpdater.applyQueue answers tree (hashes.map source.output)
    (∃ hashes', applied.2.2 = hashes'.map source.output ∧ Pending source applied.2.1 hashes') ∧
      (applied.1 ≠ .panicked → applied.2.1.poisoned = false ∧ applied.2.1.Indexed source) := by
  induction hashes generalizing tree with
  | nil => exact ⟨⟨[], rfl, h⟩, fun _ => ⟨husable, hindexed⟩⟩
  | cons first rest ih =>
    obtain ⟨hkept, hpopped⟩ := h.pop hsource
    have hne := h.nonzero first (.head _)
    rw [map_cons, HttpUpdater.applyQueue]
    simp only [BlockSource.output]
    split
    · cases hresult : tree.updateBlock (source.block first) with
      | mk result tree' =>
        have htree : (tree.updateBlock (source.block first)).2 = tree' := by rw [hresult]
        have hreturn : result ≠ .panic → tree'.poisoned = false ∧ tree'.Indexed source := by
          intro _
          have hreturns' : (tree.updateBlock (source.block first)).1 ≠ .panic := by rwa [hresult]
          rw [← htree]
          exact ⟨updateBlock_poisoned hreturns', (hindexed.updateBlock hsource hne hreturns').1⟩
        rw [htree] at hpopped
        cases result with
        | ok =>
          obtain ⟨husable', hindexed'⟩ := hreturn (by simp)
          exact ih hpopped husable' hindexed'
        | error e => exact ⟨⟨rest, rfl, hpopped⟩, fun _ => hreturn (by simp)⟩
        | panic => exact ⟨⟨_, rfl, hpopped⟩, absurd rfl⟩
    · exact ⟨⟨rest, rfl, hkept⟩, fun _ => ⟨husable, hindexed⟩⟩

theorem Queued.step (hhonest : answers.Honest source) (h : updater.Queued source) :
    (updater.step answers).Queued source := by
  rcases updater.step_cases answers with heq | ⟨hrunning, _, hfill, hcase⟩
  · rwa [heq]
  obtain ⟨hashes, rfl, hpending⟩ := fillQueue_pending hfill hhonest h
  obtain ⟨walked, hwalk, hwalked⟩ := hpending.walkBack hhonest (updater.maxDiffDepth + 1 - (hashes.map source.output).length)
  rcases hcase with ⟨-, heq⟩ | ⟨-, heq⟩
  · rw [heq]
    exact ⟨⟨walked, hwalk, hwalked⟩, h.live⟩
  rw [heq, hwalk]
  obtain ⟨husable, hindexed⟩ := h.live hrunning
  obtain ⟨happlied, hreturned⟩ := hwalked.applyQueue hsource answers husable hindexed
  exact ⟨happlied, fun hgoing => hreturned (of_decide_eq_false hgoing)⟩
end

end HttpUpdater
end LeafageEvm
