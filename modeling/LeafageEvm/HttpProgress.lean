import LeafageEvm.HttpUpdater

/-! Whether the HTTP updater goes on. A queue that ends in the block to be applied next is completed and
applied, however many calls fail on the way. -/

namespace LeafageEvm.HttpUpdater
open Nat Option List
variable {hashes : List H256} {target : H256} {source : BlockSource} {updater : HttpUpdater} {answers : Answers}
  {tree : StateTree}

section
variable (hfull : updater.maxDiffDepth < updater.blockQueue.length)
include hfull
/-- A queue that is too long is never touched again. -/
theorem step_of_overfull (answers : Answers) : updater.step answers = updater := by
  rcases updater.step_cases answers with heq | ⟨-, queue, hfill, hcase⟩
  · exact heq
  have hqueue : queue = updater.blockQueue := by
    unfold fillQueue at hfill
    split at hfill
    · next heq =>
      cases hfill
      exact heq.symm
    · next heq =>
      rw [heq] at hfull
      exact absurd hfull (not_lt_zero _)
  have hroom : updater.maxDiffDepth + 1 - queue.length = 0 := by
    rw [hqueue]
    omega
  rw [hroom, hqueue] at hcase
  rcases hcase with ⟨-, heq⟩ | ⟨hfound, -⟩
  · exact heq
  · cases hfound

theorem run_of_overfull (calls : List Answers) : calls.foldl step updater = updater := by
  induction calls with
  | nil => rfl
  | cons _ _ ih => rw [foldl_cons, step_of_overfull hfull, ih]
end

/-- A branch over the tree, from its block's child to the block after the head's number, that the upstream
serves; the database answers and has no block of the branch. -/
structure Serves (source : BlockSource) (tree : StateTree) (branch : List H256) (answers : Answers) : Prop where
  blockNumber : ∃ latest, answers.blockNumber = some latest ∧ (tree.blockInfo tree.index.latest).number < latest
  byNumber : ∀ target, branch.getLast? = some target →
    answers.byNumber ((tree.blockInfo tree.index.latest).number + 1) = some (source.output target)
  byHash : ∀ i, ∀ hash ∈ branch, answers.byHash i hash = some (source.output hash)
  dbLatest : answers.dbLatest = true
  dbState : ∀ hash ∈ branch, answers.dbState hash = some false
  usable : ∀ i, answers.usable i = true

/-- The nearest block of the tree below the branch is its first block's parent, and rests on a layer that may be committed
next. -/
structure Branch (source : BlockSource) (tree : StateTree) (branch : List H256) : Prop where
  nonzero : ∀ hash ∈ branch, hash ≠ 0
  linked : branch.IsChain fun parent child => source.parent child = parent
  anchored : ∀ first, branch.head? = some first → tree.index.hashDiffMap (source.parent first) ≠ none
  rests : ∀ first, branch.head? = some first → tree.Extends (source.parent first)
  missing : ∀ hash ∈ branch, tree.index.hashDiffMap hash = none

variable {branch : List H256} {queue : List DebankOutPut} {base : Nat}

/-- The walk from a tail of the branch goes back to its first block. -/
theorem walkBack_branch (hbranch : Branch source tree branch) (hserves : Serves source tree branch answers)
    {before after : List H256} (hsplit : branch = before ++ after) (hne : after ≠ []) {room : Nat}
    (hroom : before.length < room) :
    walkBack tree answers room (after.map source.output) = (.found, branch.map source.output) := by
  induction before using reverseRecOn generalizing after room with
  | nil =>
    obtain ⟨first, _, rfl⟩ := exists_cons_of_ne_nil hne
    obtain ⟨_, rfl⟩ := Nat.exists_eq_add_one_of_ne_zero (Nat.ne_zero_of_lt hroom)
    rw [nil_append] at hsplit
    obtain ⟨_, hview⟩ := ne_none_iff_exists'.mp (hbranch.anchored first (by rw [hsplit]; rfl))
    have hstate : stateAt tree answers (source.output first).header.parentHash = some true := by
      show stateAt tree answers (source.parent first) = some true
      rw [stateAt, hview]
      simp only [hserves.dbLatest, if_true]
    rw [hsplit, map_cons, walkBack, hstate]
  | append_singleton _ parent ih =>
    obtain ⟨first, rest, rfl⟩ := exists_cons_of_ne_nil hne
    obtain ⟨_, rfl⟩ := Nat.exists_eq_add_one_of_ne_zero (Nat.ne_zero_of_lt hroom)
    rw [append_assoc] at hsplit
    have hlinked : source.parent first = parent := by
      have hchain := hbranch.linked
      rw [hsplit] at hchain
      exact (isChain_cons_cons.mp hchain.right_of_append).1
    have hmem : parent ∈ branch := by
      rw [hsplit]
      exact mem_append_right _ (.head _)
    have hstate : stateAt tree answers (source.output first).header.parentHash = some false := by
      show stateAt tree answers (source.parent first) = some false
      rw [hlinked, stateAt, hbranch.missing parent hmem]
      exact hserves.dbState parent hmem
    have hanswer : answers.byHash (first :: rest).length (source.output first).header.parentHash =
        some (source.output parent) := by
      show answers.byHash _ (source.parent first) = _
      rw [hlinked]
      exact hserves.byHash _ parent hmem
    rw [length_append, length_singleton] at hroom
    rw [map_cons, walkBack, hstate, ← map_cons, length_map, hanswer]
    exact ih hsplit (cons_ne_nil _ _) (by omega)

theorem applyQueue_calls (husable : ∀ i, answers.usable i = true) (hcalls : tree.Calls source (· = .ok) hashes) :
    applyQueue answers tree (hashes.map source.output) = (.done true, tree.applyAll source hashes, []) := by
  induction hashes generalizing tree with
  | nil => rfl
  | cons first _ ih =>
    obtain ⟨hok, hrest⟩ := hcalls
    have hcall : tree.updateBlock { info := (source.block first).info, diff := (source.block first).diff } =
        (.ok, (tree.updateBlock (source.block first)).2) := Prod.ext hok rfl
    rw [map_cons, applyQueue]
    simp only [BlockSource.output]
    rw [if_pos (husable _), hcall]
    exact ih hrest

/-- Two chains of parent hashes that end in one block: one is the tail of the other. -/
theorem suffix_or_suffix_of_isChain {left right : List H256} {last : H256}
    (hleft : left.IsChain fun parent child => source.parent child = parent)
    (hright : right.IsChain fun parent child => source.parent child = parent) (hlast : left.getLast? = some last)
    (hlast' : right.getLast? = some last) : left <:+ right ∨ right <:+ left := by
  have hprefix : ∀ up up', up.IsChain (fun child parent => source.parent child = parent) →
      up'.IsChain (fun child parent => source.parent child = parent) → up.head? = up'.head? → up <+: up' ∨ up' <+: up := by
    intro up
    induction up with
    | nil => exact fun _ _ _ _ => .inl nil_prefix
    | cons first rest ih =>
      intro up' hup hup' hhead
      cases up' with
      | nil => exact .inr nil_prefix
      | cons first' rest' =>
        obtain rfl : first = first' := some.inj hhead
        rw [prefix_cons_inj, prefix_cons_inj]
        cases rest with
        | nil => exact .inl nil_prefix
        | cons =>
          cases rest' with
          | nil => exact .inr nil_prefix
          | cons =>
            obtain ⟨hsecond, hup⟩ := isChain_cons_cons.mp hup
            obtain ⟨hsecond', hup'⟩ := isChain_cons_cons.mp hup'
            exact ih _ hup hup' (by rw [head?_cons, head?_cons, ← hsecond, hsecond'])
  have hreverse := hprefix left.reverse right.reverse (isChain_reverse.mpr hleft) (isChain_reverse.mpr hright)
    (by rw [head?_reverse, head?_reverse, hlast, hlast'])
  exact hreverse.imp reverse_prefix.mp reverse_prefix.mp

section
variable (htarget : branch.getLast? = some target)
include htarget
/-- A queue that ends in the block after the head's number does not reach below the branch. -/
theorem Pending.suffix (h : Pending source tree hashes) (hbranch : Branch source tree branch) (hlast : hashes.getLast? = some target) : hashes <:+ branch := by
  rcases suffix_or_suffix_of_isChain h.linked hbranch.linked hlast htarget with hsuffix | ⟨below, hbelow⟩
  · exact hsuffix
  rcases eq_nil_or_concat below with rfl | ⟨_, parent, rfl⟩
  · exact ⟨[], hbelow.symm⟩
  exfalso
  obtain ⟨first, _, rfl⟩ := exists_cons_of_ne_nil (ne_nil_of_mem (mem_of_getLast? htarget))
  rw [concat_eq_append, append_assoc, singleton_append] at hbelow
  have hlinked : source.parent first = parent := by
    have hchain := h.linked
    rw [← hbelow] at hchain
    exact (isChain_cons_cons.mp hchain.right_of_append).1
  refine hbranch.anchored first rfl ?_
  rw [hlinked]
  refine h.missing parent ?_
  rw [← hbelow, dropLast_append_of_ne_nil (cons_ne_nil _ _), dropLast_cons_of_ne_nil (cons_ne_nil _ _)]
  exact mem_append_right _ (.head _)

theorem fillQueue_branch (hserves : Serves source updater.tree branch answers)
    (hqueue : updater.blockQueue = hashes.map source.output) (hsuffix : hashes <:+ branch) :
    ∃ after, after ≠ [] ∧ after <:+ branch ∧ updater.fillQueue answers = .ok (after.map source.output) := by
  unfold fillQueue
  cases hashes with
  | nil =>
    refine ⟨[target], cons_ne_nil _ _, ?_, ?_⟩
    · obtain ⟨before, hbefore⟩ := getLast?_eq_some_iff.mp htarget
      exact ⟨before, hbefore.symm⟩
    · obtain ⟨_, hlatest, hlt⟩ := hserves.blockNumber
      rw [hqueue]
      simp only [hserves.dbLatest, hlatest, if_neg hlt.not_ge, hserves.byNumber target htarget]
      rfl
  | cons first rest =>
    refine ⟨first :: rest, cons_ne_nil _ _, hsuffix, ?_⟩
    rw [hqueue]
    rfl

/-- **One call** applies the branch. -/
theorem step_branch (hsource : source.WellNumbered) (h : updater.Queued source) (hrunning : updater.stopped = false)
    (hbranch : Branch source updater.tree branch) (hserves : Serves source updater.tree branch answers)
    (hshort : branch.length ≤ updater.maxDiffDepth) (hdepth : 1 ≤ updater.tree.config.diffTreeDepthLimit)
    (hqueue : updater.blockQueue = [] ∨ updater.blockQueue.getLast? = some (source.output target)) :
    (updater.step answers).blockQueue = [] ∧ (updater.step answers).tree.index.hashDiffMap target ≠ none := by
  obtain ⟨hashes, hhashes, hpending⟩ := h.queue
  have hsuffix : hashes <:+ branch := by
    rcases hqueue with hnil | hlast
    · rw [hhashes, map_eq_nil_iff] at hnil
      rw [hnil]
      exact nil_suffix
    rw [hhashes, getLast?_map, map_eq_some_iff] at hlast
    obtain ⟨_, hlast, houtput⟩ := hlast
    have hsame := congrArg (fun output => output.header.hash) houtput
    simp only [BlockSource.output, source.hash_eq] at hsame
    exact hpending.suffix htarget hbranch (hsame ▸ hlast)
  obtain ⟨after, hne, ⟨before, hsplit⟩, hfill⟩ := fillQueue_branch htarget hserves hhashes hsuffix
  have hlength := congrArg length hsplit
  rw [length_append] at hlength
  have hroom : before.length < updater.maxDiffDepth + 1 - (after.map source.output).length := by
    rw [length_map]
    omega
  have hwalk := walkBack_branch hbranch hserves hsplit.symm hne hroom
  obtain ⟨hlive, hindexed⟩ := h.live hrunning
  obtain ⟨first, rest, rfl⟩ := exists_cons_of_ne_nil (ne_nil_of_mem (mem_of_getLast? htarget))
  have hreturn := StateTree.calls_return hsource hindexed hlive hdepth (hbranch.anchored first rfl) (hbranch.rests first rfl)
    (.cons_cons rfl hbranch.linked) hbranch.nonzero hbranch.missing
  obtain ⟨hcalls, hlast⟩ := StateTree.calls_chain hsource hindexed (hbranch.anchored first rfl)
    (.cons_cons rfl hbranch.linked) hbranch.nonzero hreturn
  have happly := applyQueue_calls hserves.usable hcalls
  have hstep : updater.step answers =
      { updater with tree := updater.tree.applyAll source (first :: rest), blockQueue := [], stopped := false } := by
    rw [step, if_neg (by rw [hrunning]; decide), update, hfill]
    simp only [hwalk, happly]
    rfl
  rw [hstep]
  refine ⟨rfl, ?_⟩
  rw [getLast_cons (cons_ne_nil _ _)] at hlast
  rw [getLast?_eq_some_getLast (cons_ne_nil _ _), some.injEq] at htarget
  rwa [htarget] at hlast
end

theorem run_length {maxDiffDepth : Nat} (hdepth : updater.maxDiffDepth = maxDiffDepth)
    (hlength : updater.blockQueue.length ≤ maxDiffDepth + 1) (calls : List Answers) :
    (calls.foldl step updater).maxDiffDepth = maxDiffDepth ∧
      (calls.foldl step updater).blockQueue.length ≤ maxDiffDepth + 1 := by
  induction calls generalizing updater with
  | nil => exact ⟨hdepth, hlength⟩
  | cons answers _ ih =>
    subst hdepth
    exact ih (updater.step_maxDiffDepth answers) (step_length hlength answers)

theorem queued_run (hsource : source.WellNumbered) (h : updater.Queued source) {calls : List Answers}
    (hhonest : ∀ answers ∈ calls, answers.Honest source) : (calls.foldl step updater).Queued source := by
  induction calls generalizing updater with
  | nil => exact h
  | cons answers _ ih =>
    refine ih (h.step hsource (hhonest answers (.head _))) fun other hother => ?_
    exact hhonest other (.tail _ hother)

/-! ### Calls that fail on the way -/

/-- The queue is empty or ends in the block. -/
def Toward (target : DebankOutPut) (queue : List DebankOutPut) : Prop := queue = [] ∨ queue.getLast? = some target

theorem Toward.walkBack {target : DebankOutPut} (tree : StateTree) (answers : Answers) (room : Nat)
    (h : Toward target queue) : Toward target (walkBack tree answers room queue).2 := by
  induction room generalizing queue with
  | zero => exact h
  | succ _ ih =>
    cases queue with
    | nil => exact .inl rfl
    | cons =>
      unfold walkBack
      split
      · exact h
      · exact h
      split
      · exact h
      · refine ih (.inr ?_)
        exact h.resolve_left (cons_ne_nil _ _)

theorem Toward.tail {target first : DebankOutPut} {rest : List DebankOutPut} (h : Toward target (first :: rest)) :
    Toward target rest := by
  cases rest with
  | nil => exact .inl rfl
  | cons =>
    have hlast := h.resolve_left (cons_ne_nil _ _)
    exact .inr hlast

theorem Toward.applyQueue {target : DebankOutPut} (answers : Answers) (tree : StateTree)
    (h : Toward target queue) : Toward target (applyQueue answers tree queue).2.2 := by
  induction queue generalizing tree with
  | nil => exact .inl rfl
  | cons _ _ ih =>
    unfold HttpUpdater.applyQueue
    split
    · exact h.tail
    split
    · split
      · exact ih _ h.tail
      · exact h.tail
      · exact h.tail
    · exact h.tail

/-- The upstream has the block after the head's number, or fails to send it. -/
def Answering (source : BlockSource) (target : H256) (updater : HttpUpdater) (answers : Answers) : Prop :=
  answers.Honest source ∧ ∀ output,
    answers.byNumber ((updater.tree.blockInfo updater.tree.index.latest).number + 1) = some output →
      output = source.output target

theorem Toward.step (h : Toward (source.output target) updater.blockQueue)
    (hanswering : Answering source target updater answers) :
    Toward (source.output target) (updater.step answers).blockQueue := by
  rcases updater.step_cases answers with heq | ⟨-, queue, hfill, hcase⟩
  · rwa [heq]
  have hqueue : Toward (source.output target) queue := by
    rcases fillQueue_cases hfill with rfl | ⟨output, hanswer, rfl⟩
    · exact h
    · rw [hanswering.2 output hanswer]
      exact .inr rfl
  have hwalk := hqueue.walkBack updater.tree answers (updater.maxDiffDepth + 1 - queue.length)
  rcases hcase with ⟨-, heq⟩ | ⟨-, heq⟩
  · rw [heq]
    exact hwalk
  · rw [heq]
    exact hwalk.applyQueue answers updater.tree

/-- **The queue.** In every run it holds at most one block more than the depth limit, and once it does, no
call changes anything any more. If the upstream answers with the blocks that it is asked for, they are
linked by their parent hashes. And while it has one block after the head's number, with the queue empty
or ending in that block at first, then after any calls, failing where they may, the next one that is
served a branch of at most the limit's length from the tree to that block applies it. -/
theorem queue_applied_toward_target (hsource : source.WellNumbered) (config : StateTreeConfig) (clears : Bool)
    {db : DiskState} (hlatest : db.latest = (source.block db.latest.hash).info) (hne : db.latest.hash ≠ 0)
    (maxDiffDepth : Nat) (calls : List Answers) :
    let updater := calls.foldl step (new (.new config clears db) maxDiffDepth)
    updater.blockQueue.length ≤ maxDiffDepth + 1 ∧
      (maxDiffDepth < updater.blockQueue.length → ∀ more : List Answers, more.foldl step updater = updater) ∧
      ((∀ answers ∈ calls, answers.Honest source) →
        (updater.blockQueue.IsChain fun parent child => child.header.parentHash = parent.header.hash) ∧
          ∀ target, Toward (source.output target) updater.blockQueue →
            ∀ more, RunMeets step (Answering source target) updater more →
              let later := more.foldl step updater
              later.stopped = false → ∀ branch answers, Branch source later.tree branch →
                branch.getLast? = some target → branch.length ≤ maxDiffDepth →
                Serves source later.tree branch answers → 1 ≤ later.tree.config.diffTreeDepthLimit →
                (later.step answers).blockQueue = [] ∧ (later.step answers).tree.index.hashDiffMap target ≠ none) := by
  intro updater
  obtain ⟨hdepth, hlength⟩ := @run_length (new (.new config clears db) maxDiffDepth) maxDiffDepth rfl (zero_le _) calls
  refine ⟨hlength, fun hfull => run_of_overfull (hdepth.trans_lt hfull), fun hhonest => ?_⟩
  have hqueued : updater.Queued source := queued_run hsource (queued_new config clears hlatest hne maxDiffDepth) hhonest
  constructor
  · obtain ⟨hashes, hhashes, hpending⟩ := hqueued.queue
    rw [hhashes, isChain_map]
    refine hpending.linked.imp fun parent child hparent => ?_
    exact hparent.trans (source.hash_eq parent).symm
  · intro target htoward more hmore later hrunning _ _ hbranch htarget hshort hserves hlimit
    obtain ⟨hlater, hstill⟩ : later.Queued source ∧ Toward (source.output target) later.blockQueue :=
      run_invariant (fun updater => updater.Queued source ∧ Toward (source.output target) updater.blockQueue)
        (fun _ _ h hanswering => ⟨h.1.step hsource hanswering.1, h.2.step hanswering⟩) ⟨hqueued, htoward⟩ hmore
    obtain ⟨hdepth', -⟩ := run_length hdepth hlength more
    exact step_branch htarget hsource hlater hrunning hbranch hserves (hdepth'.symm ▸ hshort) hlimit hstill

def forkSource : BlockSource where
  block hash := { info :=
    { hash := hash
      parentHash :=
        if hash.val = 201 then 100
        else if 100 < hash.val ∧ hash.val ≤ 150 ∨ 201 < hash.val ∧ hash.val ≤ 250 then
          ⟨(hash.val - 1) % 2 ^ 256, Nat.mod_lt _ (by decide)⟩
        else 0
      number := ⟨hash.val % 100 % 2 ^ 64, Nat.mod_lt _ (by decide)⟩ } }
  hash_eq _ := rfl

theorem forkSource_wellNumbered : forkSource.WellNumbered where
  zero := by decide
  numbered hash := by
    by_cases hfirst : hash.val = 201
    · obtain rfl : hash = 201 := Fin.ext hfirst
      exact .inr (by decide)
    by_cases hinner : 100 < hash.val ∧ hash.val ≤ 150 ∨ 201 < hash.val ∧ hash.val ≤ 250
    · have hparent : forkSource.parent hash = ⟨(hash.val - 1) % 2 ^ 256, mod_lt _ (by decide)⟩ :=
        (if_neg hfirst).trans (if_pos hinner)
      refine .inr ?_
      rw [hparent]
      show hash.val % 100 % 2 ^ 64 = (hash.val - 1) % 2 ^ 256 % 100 % 2 ^ 64 + 1
      omega
    · exact .inl ((if_neg hfirst).trans (if_neg hinner))

/-- An upstream at the fiftieth block of a chain whose blocks follow the hash `base`. -/
def chainAnswers (base : Nat) : Answers where
  blockNumber := some 50
  byNumber number := some (forkSource.output ⟨(base + number.val) % 2 ^ 256, Nat.mod_lt _ (by decide)⟩)
  byHash _ hash := if base < hash.val ∧ hash.val ≤ base + 50 then some (forkSource.output hash) else none

/-- It does not find blocks by their hash. -/
def forgetfulAnswers (base : Nat) : Answers := { chainAnswers base with byHash := fun _ _ => none }

theorem chainAnswers_honest (hbase : base ≠ 0) (hlt : base < 300) : (chainAnswers base).Honest forkSource where
  byNumber number output h := by
    refine ⟨_, fun hzero => ?_, (some.inj h).symm⟩
    have hval : (base + number.val) % 2 ^ 256 = 0 := congrArg Fin.val hzero
    omega
  byHash i hash output h := by
    simp only [chainAnswers] at h
    split at h
    · next hserved =>
      refine ⟨fun hzero => ?_, (some.inj h).symm⟩
      rw [hzero] at hserved
      exact absurd hserved.1 (not_lt_zero _)
    · cases h

theorem forgetfulAnswers_honest (hbase : base ≠ 0) (hlt : base < 300) : (forgetfulAnswers base).Honest forkSource where
  byNumber := (chainAnswers_honest hbase hlt).byNumber
  byHash _ _ _ h := by cases h

/-- The tree over the genesis block, and the depth limit of the updater. -/
def genesisUpdater (maxDiffDepth : Nat) : HttpUpdater := new (.new {} true genesisDisk) maxDiffDepth

/-- A block of the chain is applied, then the upstream is on the fork and fails. -/
def interrupted : HttpUpdater := [chainAnswers 100, forgetfulAnswers 200].foldl step (genesisUpdater 2)

theorem serves_fork : Serves forkSource (interrupted.step (forgetfulAnswers 200)).tree [201, 202] (chainAnswers 200) where
  blockNumber := ⟨50, rfl, by decide⟩
  byNumber target htarget := by
    obtain rfl := some.inj htarget
    decide
  byHash _ := forall_mem_cons.mpr ⟨rfl, forall_mem_singleton.mpr rfl⟩
  dbLatest := rfl
  dbState _ _ := rfl
  usable _ := rfl

theorem branch_fork : Branch forkSource (interrupted.step (forgetfulAnswers 200)).tree [201, 202] where
  nonzero := forall_mem_cons.mpr ⟨by decide, forall_mem_singleton.mpr (by decide)⟩
  linked := .cons_cons (by decide) (.singleton _)
  anchored first hfirst := by
    obtain rfl := some.inj hfirst
    decide
  rests _ _ _ _ _ _ _ hold := by cases hold
  missing := forall_mem_cons.mpr ⟨by decide, forall_mem_singleton.mpr (by decide)⟩

/-- It fails once more, and the fork is applied with the next call. -/
theorem queue_applied_toward_fork : (interrupted.step (forgetfulAnswers 200)).blockQueue = [forkSource.output 202] ∧
      ((interrupted.step (forgetfulAnswers 200)).step (chainAnswers 200)).blockQueue = [] ∧
      ((interrupted.step (forgetfulAnswers 200)).step (chainAnswers 200)).tree.index.hashDiffMap 202 ≠ none := by
  have hhonest : ∀ answers ∈ [chainAnswers 100, forgetfulAnswers 200], answers.Honest forkSource :=
    forall_mem_cons.mpr ⟨chainAnswers_honest (by decide) (by decide),
      forall_mem_singleton.mpr (forgetfulAnswers_honest (by decide) (by decide))⟩
  obtain ⟨-, -, hrun⟩ := queue_applied_toward_target forkSource_wellNumbered {} true
    (by decide : genesisDisk.latest = (forkSource.block genesisDisk.latest.hash).info) (by decide) 2
    [chainAnswers 100, forgetfulAnswers 200]
  obtain ⟨-, hprogress⟩ := hrun hhonest
  have hmore : RunMeets step (Answering forkSource 202) interrupted [forgetfulAnswers 200] := by
    refine ⟨⟨forgetfulAnswers_honest (by decide) (by decide), fun output hanswer => ?_⟩, trivial⟩
    exact (some.inj hanswer).symm
  exact ⟨by decide, hprogress 202 (.inr (by decide)) [forgetfulAnswers 200] hmore (by decide) [201, 202] (chainAnswers 200)
    branch_fork rfl (by decide) serves_fork (by decide)⟩

/-- A block of the chain is applied, then the upstream is on the fork, with depth limit 1. -/
def abandoned : HttpUpdater := [chainAnswers 100, chainAnswers 200].foldl step (genesisUpdater 1)

/-- **Wedged.** The chain's block 101 is applied; then the upstream is on the fork, whose block 202 is the
next. With depth limit 1 the walk back to 201 is given up with both in the queue; with a larger limit it
may fail at 201. The upstream is back on the chain, whose next block 102 has its parent in the tree: in
the first case no call does anything any more, and in the second the calls go on asking for 201. -/
theorem abandoned_walk_wedges : (abandoned.blockQueue = [forkSource.output 201, forkSource.output 202] ∧
      (chainAnswers 100).byNumber ((abandoned.tree.blockInfo abandoned.tree.index.latest).number + 1) =
        some (forkSource.output 102) ∧
      abandoned.tree.index.hashDiffMap (forkSource.parent 102) ≠ none ∧
      ∀ calls : List Answers, calls.foldl step abandoned = abandoned) ∧
    (interrupted.blockQueue = [forkSource.output 202] ∧
      (chainAnswers 100).byNumber ((interrupted.tree.blockInfo interrupted.tree.index.latest).number + 1) =
        some (forkSource.output 102) ∧
      interrupted.tree.index.hashDiffMap (forkSource.parent 102) ≠ none ∧
      ∀ n, (replicate n (chainAnswers 100)).foldl step interrupted = interrupted) := by
  refine ⟨⟨by decide, by decide, by decide, run_of_overfull (by decide)⟩, by decide, by decide, by decide, fun n => ?_⟩
  induction n with
  | zero => rfl
  | succ n ih =>
    rw [replicate_succ, foldl_cons]
    have hstep : interrupted.step (chainAnswers 100) = interrupted := rfl
    rw [hstep, ih]

end LeafageEvm.HttpUpdater
