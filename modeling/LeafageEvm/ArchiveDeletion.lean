import LeafageEvm.ArchiveRefine

/-! What the deletion of an account does to its slots. A backend that clears zeroes the slots that it
finds set; one that does not keeps them. The two part exactly at the slots that outlive a deletion:
set when the account is deleted, and not written since. -/

namespace LeafageEvm
open DiffLayer List

/-- The versions of a slot after more blocks, over a base with the versions `held`. -/
def slotVersionsOver (clears : Bool) (address slot : H256) (base : List Block) (held : List (U64 × U256)) :
    List Block → List (U64 × U256)
  | [] => held
  | block :: older =>
    let versions := slotVersionsOver clears address slot base held older
    let value := slotValue versions (handleHeight (older ++ base))
    ((slotWrite clears address slot value block).map fun value => (block.info.number, value)).toList ++
      versions

theorem slotVersions_append (clears : Bool) (address slot : H256) (history base : List Block) :
    slotVersions clears address slot (history ++ base) =
      slotVersionsOver clears address slot base (slotVersions clears address slot base) history := by
  induction history with
  | nil => rfl
  | cons _ _ ih => rw [cons_append, slotVersions, slotVersionsOver, ih]

/-- The slot outlives a deletion, as read at a height from the writes of the diffs over `held`: a
block at or below the height deletes the account, finds the slot set, and neither it nor a newer
block up to the height writes the slot, which was left set. -/
def Outlives (base : List Block) (held : List (U64 × U256)) (history : List Block) (address slot : H256)
    (blockNum : U64) : Prop :=
  ∃ newer block older, history = newer ++ block :: older ∧ block.info.number ≤ blockNum ∧
    address ∈ block.diff.deletedAccounts ∧
    (∀ written ∈ newer ++ [block], written.info.number ≤ blockNum →
      (DiffLayer.new written).storage (address, slot) = none) ∧
    slotValue (slotVersionsOver false address slot base held older) (handleHeight (older ++ base)) ≠ 0 ∧
    slotValue (slotVersionsOver false address slot base held older) blockNum ≠ 0

theorem slotValue_append (n : U64) (write : Option U256) (versions : List (U64 × U256)) (blockNum : U64) :
    slotValue ((write.map fun value => (n, value)).toList ++ versions) blockNum =
      if n ≤ blockNum then write.getD (slotValue versions blockNum) else slotValue versions blockNum := by
  cases write with
  | none => simp
  | some => by_cases hn : n ≤ blockNum <;> simp [slotValue, hn]

variable {versions : List (U64 × U256)}

theorem slotValue_above {a b : U64} (ha : ∀ version ∈ versions, version.1 ≤ a)
    (hb : ∀ version ∈ versions, version.1 ≤ b) : slotValue versions a = slotValue versions b := by
  cases versions with
  | nil => rfl
  | cons version =>
    have hversion := ha version (.head _)
    have hversion' := hb version (.head _)
    simp [slotValue, hversion, hversion']

theorem slotValue_of_forall_lt {blockNum : U64}
    (h : ∀ version ∈ versions, blockNum < version.1) : slotValue versions blockNum = 0 := by
  have hnone : versions.find? (fun version => version.1 ≤ blockNum) = none := by
    rw [find?_eq_none]
    intro version hversion
    simpa using h version hversion
  rw [slotValue, hnone]
  rfl

section
variable {address slot : H256} {base history : List Block} {held : List (U64 × U256)} {blockNum : U64}

def FromBlocks {W : Type} (history : List Block) (versions : List (U64 × W)) : Prop :=
  ∀ version ∈ versions, ∃ block ∈ history, block.info.number = version.1

theorem fromBlocks_slotVersions (clears : Bool) (address slot : H256) (history : List Block) :
    FromBlocks history (slotVersions clears address slot history) := by
  intro _ hversion
  rw [slotVersions_eq_writesOf] at hversion
  exact mem_writesOf hversion

theorem FromBlocks.slotVersionsOver (hheld : FromBlocks base held) (clears : Bool) (address slot : H256)
    (history : List Block) : FromBlocks (history ++ base) (slotVersionsOver clears address slot base held history) := by
  induction history with
  | nil => exact hheld
  | cons block older ih =>
    intro version hversion
    rcases mem_append.mp hversion with hnew | hold
    · obtain ⟨value, -, rfl⟩ := Option.map_eq_some_iff.mp (Option.mem_toList.mp hnew)
      exact ⟨block, .head _, rfl⟩
    · obtain ⟨block', hmem, hnumber⟩ := ih version hold
      exact ⟨block', .tail _ hmem, hnumber⟩

theorem Ascending.le_head {block : Block} (hasc : Ascending (block :: history)) {other : Block}
    (hmem : other ∈ block :: history) : other.info.number ≤ block.info.number := by
  rcases mem_cons.mp hmem with rfl | hmem
  · exact le_rfl
  · exact ((pairwise_cons.mp hasc).1 other hmem).le

/-- Versions of blocks below a height read there as at the handle's, unless the newest block has no
hash. -/
theorem FromBlocks.slotValue_handleHeight (hheld : FromBlocks history held) (hasc : Ascending history)
    (hbelow : ∀ block ∈ history, block.info.number ≤ blockNum) :
    slotValue held (handleHeight history) = slotValue held blockNum ∨ handleHeight history = 0 := by
  cases history with
  | nil => exact .inr rfl
  | cons block older =>
    by_cases hhash : block.info.hash = 0
    · exact .inr (if_pos hhash)
    left
    have hhandle : handleHeight (block :: older) = block.info.number := if_neg hhash
    rw [hhandle]
    apply slotValue_above
    · intro version hversion
      obtain ⟨_, hmem, hnumber⟩ := hheld version hversion
      rw [← hnumber]
      exact hasc.le_head hmem
    · intro version hversion
      obtain ⟨other, hmem, hnumber⟩ := hheld version hversion
      rw [← hnumber]
      exact hbelow other hmem

theorem outlives_cons (block : Block) (older : List Block) (blockNum : U64) :
    Outlives base held (block :: older) address slot blockNum ↔
      (block.info.number ≤ blockNum → (new block).storage (address, slot) = none) ∧
      ((block.info.number ≤ blockNum ∧ address ∈ block.diff.deletedAccounts ∧
        slotValue (slotVersionsOver false address slot base held older) (handleHeight (older ++ base)) ≠ 0 ∧
        slotValue (slotVersionsOver false address slot base held older) blockNum ≠ 0) ∨
      Outlives base held older address slot blockNum) := by
  constructor
  · rintro ⟨newer, deleting, below, heq, hle, hdeleted, hwritten, hset⟩
    cases newer with
    | nil =>
      obtain ⟨rfl, rfl⟩ := cons.inj heq
      exact ⟨hwritten block (by simp), .inl ⟨hle, hdeleted, hset⟩⟩
    | cons _ newer =>
      obtain ⟨rfl, rfl⟩ := cons.inj heq
      obtain ⟨hfirst, hrest⟩ := forall_mem_cons.mp hwritten
      exact ⟨hfirst, .inr ⟨newer, deleting, below, rfl, hle, hdeleted, hrest, hset⟩⟩
  · rintro ⟨hfirst, ⟨hle, hdeleted, hset⟩ | ⟨newer, deleting, below, rfl, hle, hdeleted, hrest, hset⟩⟩
    · refine ⟨[], block, older, rfl, hle, hdeleted, ?_, hset⟩
      intro _ hmem
      rw [nil_append, mem_singleton] at hmem
      rw [hmem]
      exact hfirst
    · exact ⟨block :: newer, deleting, below, rfl, hle, hdeleted, forall_mem_cons.mpr ⟨hfirst, hrest⟩, hset⟩

theorem slotWrite_false (value : U256) (block : Block) :
    slotWrite false address slot value block = (new block).storage (address, slot) := by
  simp [slotWrite]

theorem cleared_eq_or_zero (address slot : H256) (base : List Block) (held : List (U64 × U256))
    (history : List Block) (blockNum : U64) :
    slotValue (slotVersionsOver true address slot base held history) blockNum =
      slotValue (slotVersionsOver false address slot base held history) blockNum ∨
    slotValue (slotVersionsOver true address slot base held history) blockNum = 0 := by
  induction history with
  | nil => exact .inl rfl
  | cons block _ ih =>
    rw [slotVersionsOver, slotVersionsOver, slotValue_append, slotValue_append]
    split
    · cases hwrite : (new block).storage (address, slot) with
      | some => exact .inl (by simp [slotWrite, hwrite])
      | none =>
        simp only [slotWrite, hwrite]
        split
        · exact .inr rfl
        · exact ih
    · exact ih

section
variable (hasc : Ascending (history ++ base))
include hasc
/-- Where the handle reads at block zero, no deletion was made before. -/
theorem not_outlives_zero (hheld : FromBlocks base held) : ¬ Outlives base held history address slot 0 := by
  rintro ⟨_, _, older, rfl, hle, -, -, -, hset⟩
  apply hset
  apply slotValue_of_forall_lt
  intro version hversion
  obtain ⟨other, hmem, -⟩ := hheld.slotVersionsOver false address slot older version hversion
  rw [append_assoc] at hasc
  have hother := (pairwise_cons.mp (pairwise_append.mp hasc).2.1).1 other hmem
  exact absurd (hother.trans_le hle) (Fin.not_lt_zero _)

theorem cleared_ne_of_handle (address slot : H256) (hheld : FromBlocks base held) (hbelow : ∀ block ∈ history ++ base, block.info.number ≤ blockNum)
    (hzero : slotValue (slotVersionsOver true address slot base held history) 0 =
      slotValue (slotVersionsOver false address slot base held history) 0)
    (hne : slotValue (slotVersionsOver true address slot base held history) (handleHeight (history ++ base)) ≠
      slotValue (slotVersionsOver false address slot base held history) (handleHeight (history ++ base))) :
    slotValue (slotVersionsOver true address slot base held history) blockNum ≠
      slotValue (slotVersionsOver false address slot base held history) blockNum := by
  have htrue := (hheld.slotVersionsOver true address slot history).slotValue_handleHeight hasc hbelow
  have hfalse := (hheld.slotVersionsOver false address slot history).slotValue_handleHeight hasc hbelow
  rcases htrue with htrue | hhandle
  · rcases hfalse with hfalse | hhandle
    · rwa [htrue, hfalse] at hne
    · rw [hhandle] at hne
      exact absurd hzero hne
  · rw [hhandle] at hne
    exact absurd hzero hne

/-- **Clearing shows exactly at the slots that outlive a deletion.** -/
theorem cleared_ne_iff_outlives (hheld : FromBlocks base held) (blockNum : U64) :
    slotValue (slotVersionsOver true address slot base held history) blockNum ≠
      slotValue (slotVersionsOver false address slot base held history) blockNum ↔
    Outlives base held history address slot blockNum := by
  induction history generalizing blockNum with
  | nil =>
    refine ⟨absurd rfl, ?_⟩
    rintro ⟨_, _, _, heq, -⟩
    simp at heq
  | cons block older ih =>
    obtain ⟨hfirst, hrest⟩ := pairwise_cons.mp hasc
    rw [slotVersionsOver, slotVersionsOver, slotValue_append, slotValue_append, slotWrite_false, outlives_cons,
      ← ih hrest]
    by_cases hle : block.info.number ≤ blockNum
    · cases hwrite : (new block).storage (address, slot) with
      | some => simp [slotWrite, hwrite, hle]
      | none =>
        have hkept := cleared_ne_of_handle hrest address slot hheld
          (fun other hmem => ((hfirst other hmem).trans_le hle).le)
          (not_not.mp fun hne => not_outlives_zero hrest hheld ((ih hrest 0).mp hne))
        have hhere := cleared_eq_or_zero address slot base held older blockNum
        simp only [slotWrite]
        grind
    · simp [hle]
end

end

/-! ### The backends -/

namespace Archive

/-- Codes have no versions: a commit overwrites. -/
theorem updateBlock_codes (codec : Codec) (archive : Archive) (block : Block) (codeHash : H256) :
    (archive.updateBlock codec block).codes codeHash =
      ((new block).contracts codeHash).or (archive.codes codeHash) := by
  rw [Archive.updateBlock, commit, blockBatch_codeWrites, foldl_map]
  exact HashMap.foldl_insert_or _ _ _ _ _

theorem updateBlocks_codes (codec : Codec) (archive : Archive) (history : List Block) (codeHash : H256) :
    (archive.updateBlocks codec history).codes codeHash = (codeOf history codeHash).or (archive.codes codeHash) := by
  induction history with
  | nil => rfl
  | cons block older ih =>
    refine (updateBlock_codes codec (archive.updateBlocks codec older) block codeHash).trans ?_
    rw [ih]
    simp only [codeOf, findSome?_cons]
    cases (new block).contracts codeHash <;> rfl

/-- **The RocksDB and the MDBX archive of one history.** They return the same accounts and codes; a
slot reads differently exactly if it outlives a deletion of its account, which only RocksDB clears. -/
theorem backends_agree_iff (codec : Codec) {history : List Block} (hasc : Ascending history)
    (schema : ArchiveSchema) (inverted : Bool) (blockNum : U64) (address slot codeHash : H256) :
    let rocksdb := (empty (.rocksdb schema)).updateBlocks codec history
    let mdbx := (empty (.mdbx inverted)).updateBlocks codec history
    rocksdb.readAccount codec blockNum address = mdbx.readAccount codec blockNum address ∧
    rocksdb.readCode codeHash = mdbx.readCode codeHash ∧
    (rocksdb.readStorage blockNum address slot = mdbx.readStorage blockNum address slot ↔
      ¬ Outlives [] [] history address slot blockNum) := by
  have hrocksdb := holds_updateBlocks codec (.rocksdb schema) hasc
  have hmdbx := holds_updateBlocks codec (.mdbx inverted) hasc
  refine ⟨?_, ?_, ?_⟩
  · rw [hrocksdb.readAccount hasc, hmdbx.readAccount hasc]
  · rw [readCode, readCode, updateBlocks_codes, updateBlocks_codes]
    rfl
  · have hversions : ∀ clears, slotVersions clears address slot history =
        slotVersionsOver clears address slot [] [] history := by
      intro clears
      have happend := slotVersions_append clears address slot history []
      rwa [append_nil] at happend
    have hbranch : Ascending (history ++ []) := by rwa [append_nil]
    rw [hrocksdb.readStorage hasc, hmdbx.readStorage hasc, updateBlocks_backend, updateBlocks_backend,
      hversions, hversions,
      ← cleared_ne_iff_outlives hbranch (fun _ hmem => absurd hmem not_mem_nil), not_not]
    rfl

/-- An account created with a slot, deleted and created again: in MDBX the new account has the slot of
the old one. -/
theorem backends_differ_after_deletion :
    let recreated : Block := { info := ⟨3, 2, 2⟩, diff := { newAccounts := [⟨7, 1, 0, 9⟩] } }
    let history := [recreated, deletingBlock 1, accountBlock 0 9 300]
    Ascending history ∧
    ((empty (.rocksdb .v2)).updateBlocks fixedCodec history).readStorage 2 7 3 = 0 ∧
    ((empty (.mdbx true)).updateBlocks fixedCodec history).readStorage 2 7 3 = 300 := by
  unfold Ascending
  decide +kernel

/-- The same history at block 2, which writes the slot again. -/
theorem backends_agree_rewritten :
    let history := [accountBlock 2 9 1, deletingBlock 1, accountBlock 0 9 300]
    Ascending history ∧
    ((empty (.rocksdb .v3)).updateBlocks fixedCodec history).readStorage 2 7 3 =
      ((empty (.mdbx false)).updateBlocks fixedCodec history).readStorage 2 7 3 := by
  have hasc : Ascending [accountBlock 2 9 1, deletingBlock 1, accountBlock 0 9 300] := by
    unfold Ascending
    decide
  refine ⟨hasc, (backends_agree_iff fixedCodec hasc .v3 false 2 7 3 9).2.2.mpr ?_⟩
  rw [outlives_cons]
  rintro ⟨hwritten, -⟩
  exact absurd (hwritten (by decide)) (by decide)

end Archive
end LeafageEvm
