import LeafageEvm.ReplayTracking

/-! The diff of a replayed block against the states before and after it. -/

namespace LeafageEvm.Replay
open BlockReplay DiskState DiffLayer Bool Prod HashMap Option OrderedMap AccountChange List AccountInfo
variable {keepEmpty : Bool} {keccak : Keccak} {disk : DiskState} {db : CacheDB} {changes : ChangeSet} {address : Address}
  {change : AccountChange}

/-! ### Collected entries -/

variable {V : Type} {entries : List (H256 × V)} {entry : H256 × V} {listing : List (H256 × U256)}

theorem mem_foldl_put {map : OrderedMap H256 V}
    (h : entry ∈ (entries.foldl (fun map entry => map.put entry.1 entry.2) map).entries) :
    entry ∈ entries ∨ entry ∈ map.entries := by
  induction entries generalizing map with
  | nil => exact .inr h
  | cons _ _ ih =>
    rcases ih h with hlater | hput
    · exact .inl (.tail _ hlater)
    · rcases mem_put.mp hput with rfl | ⟨hold, -⟩
      · exact .inl (.head _)
      · exact .inr hold

theorem mem_of_mem_collect (h : entry ∈ (collect entries).entries) :
    entry ∈ entries := (mem_foldl_put h).resolve_right not_mem_nil

/-- A key that is given stays, with one of the values it is given. -/
theorem exists_mem_collect {key : H256} {value : V} (h : (key, value) ∈ entries) :
    ∃ last, (key, last) ∈ (collect entries).entries := by
  have hkept : ∀ (entries : List (H256 × V)) (map : OrderedMap H256 V), (∃ value, (key, value) ∈ entries) ∨ map.get key ≠ none →
      (entries.foldl (fun map entry => map.put entry.1 entry.2) map).get key ≠ none := by
    intro entries
    induction entries with
    | nil => exact fun _ hgiven => hgiven.resolve_left fun ⟨_, hmem⟩ => absurd hmem not_mem_nil
    | cons first _ ih =>
      intro _ hgiven
      apply ih
      by_cases hkey : key = first.1
      · right
        rw [hkey, get_put_self]
        exact some_ne_none _
      rcases hgiven with ⟨value, hmem⟩ | hsome
      · rcases mem_cons.mp hmem with rfl | hmem
        · exact absurd rfl hkey
        · exact .inl ⟨value, hmem⟩
      · right
        rwa [get_put_of_ne _ _ hkey]
  obtain ⟨last, hlast⟩ := ne_none_iff_exists'.mp (hkept entries .empty (.inl ⟨value, h⟩))
  exact ⟨last, get_eq_some.mp hlast⟩

/-! ### Slots -/

def before (keccak : Keccak) (disk : DiskState) : CacheDB := (BlockReplay.start keccak true disk).db

section
variable (hlisting : parentSlots keccak disk address = some listing)
include hlisting
theorem exists_mem_parentSlots {index : H256} (h : disk.get (.slot (keccak.address address) index) ≠ (0 : U256)) :
    ∃ last, (index, last) ∈ (collect listing).entries := by
  cases hlisting
  have hmem : (index, disk.get (.slot (keccak.address address) index)) ∈ (disk.storageSlots (keccak.address address)).map
      fun index => (index, disk.get (.slot (keccak.address address) index)) :=
    mem_map.mpr ⟨index, mem_storageSlots.mpr h, rfl⟩
  exact exists_mem_collect hmem

/-- The listing of the storage before the block. -/
theorem getD_collect_parentSlots
    (index : H256) : ((collect listing).get index).getD 0 = disk.get (.slot (keccak.address address) index) := by
  cases hget : (collect listing).get index with
  | some =>
    cases hlisting
    obtain ⟨_, -, heq⟩ := mem_map.mp (mem_of_mem_collect (get_eq_some.mp hget))
    cases heq
    rfl
  | none =>
    by_contra hne
    obtain ⟨_, hlast⟩ := exists_mem_parentSlots hlisting (Ne.symm hne)
    rw [get_eq_some.mpr hlast] at hget
    cases hget
end

section
variable (h : Follows keepEmpty (before keccak disk) db address change)
include h
theorem Follows.slotBefore_eq {key : U256} {slot : SlotChange} (hslot : change.storage.get key = some slot) :
    slotBefore keccak (change.slotsBefore (some (parentSlots keccak disk)) address) key slot =
      disk.get (.slot (keccak.address address) (keccak.slot key)) := by
  unfold slotsBefore
  simp only
  split
  · exact getD_collect_parentSlots rfl _
  rename_i hknown
  refine h.slotOriginal key slot hslot ?_
  by_cases hdestroyed : change.destroyed = true
  · right
    by_contra hsome
    exact hknown (by rw [hdestroyed, Bool.true_and, isSome_iff_ne_none]; exact hsome)
  · exact .inl (not_eq_true _ ▸ hdestroyed)

/-- What the pairs of an account say: the present value of a slot, which it did not have before. -/
theorem Follows.of_mem_diffPairs {pair : IndexValuePair}
    (hpair : pair ∈ diffPairs keccak change.storage (change.slotsBefore (some (parentSlots keccak disk)) address)) :
    pair.value ≠ disk.get (.slot (keccak.address address) pair.index) ∧
      ∀ key, keccak.slot key = pair.index → db.slots address key = pair.value := by
  rcases mem_append.mp hpair with hpair | hpair
  · obtain ⟨⟨key, slot⟩, hmem, rfl⟩ := mem_map.mp hpair
    obtain ⟨hmem, hchanged⟩ := mem_filter.mp hmem
    have hslot := get_eq_some.mpr hmem
    have hchanged : slot.present ≠ _ := of_decide_eq_true hchanged
    rw [h.slotBefore_eq hslot] at hchanged
    refine ⟨hchanged, ?_⟩
    intro _ hother
    rw [keccak.slot_injective hother]
    exact (h.present key slot hslot).symm
  · -- A slot the block did not touch is lost with its account.
    obtain ⟨⟨_, _⟩, hmem, rfl⟩ := mem_map.mp hpair
    obtain ⟨hmem, huntouched⟩ := mem_filter.mp hmem
    unfold slotsBefore at hmem
    simp only at hmem
    split at hmem
    · rename_i hdestroyed
      obtain ⟨_, hother, heq⟩ := mem_map.mp (mem_of_mem_collect hmem)
      cases heq
      refine ⟨(mem_storageSlots.mp hother).symm, ?_⟩
      intro key hkey
      have hnone : change.storage.get key = none := by
        cases hslot : change.storage.get key with
        | none => rfl
        | some =>
          have hne := of_decide_eq_true (all_eq_true.mp huntouched _ (get_eq_some.mp hslot))
          exact absurd hkey hne
      rw [h.rest key hnone, if_pos (and_eq_true_iff.mp hdestroyed).1]
    · cases hmem

theorem Follows.exists_pair (hstray : NoStrayStorage keepEmpty (before keccak disk)) {key : U256}
    (hchanged : db.slots address key ≠ disk.get (.slot (keccak.address address) (keccak.slot key))) :
    ∃ pair ∈ diffPairs keccak change.storage (change.slotsBefore (some (parentSlots keccak disk)) address),
      pair.index = keccak.slot key := by
  cases hslot : change.storage.get key with
  | some slot =>
    refine ⟨⟨keccak.slot key, slot.present⟩, mem_append_left _ ?_, rfl⟩
    refine mem_map.mpr ⟨(key, slot), mem_filter.mpr ⟨get_eq_some.mp hslot, ?_⟩, rfl⟩
    refine decide_eq_true ?_
    rw [h.slotBefore_eq hslot, h.present key slot hslot]
    exact hchanged
  | none =>
    have hrest := h.rest key hslot
    have hdestroyed : change.destroyed = true := by
      by_contra hnot
      rw [if_neg hnot] at hrest
      exact hchanged hrest
    rw [if_pos hdestroyed] at hrest
    have hsome : change.original.isSome = true := by
      rw [isSome_iff_ne_none]
      intro hnone
      apply hchanged
      rw [hrest]
      exact (hstray address key (h.original ▸ hnone)).symm
    rw [hrest] at hchanged
    obtain ⟨last, hlast⟩ := exists_mem_parentSlots rfl hchanged.symm
    refine ⟨⟨keccak.slot key, 0⟩, mem_append_right _ (mem_map.mpr ⟨(keccak.slot key, last), ?_, rfl⟩), rfl⟩
    refine mem_filter.mpr ⟨?_, ?_⟩
    · unfold slotsBefore
      simp only [hdestroyed, hsome]
      exact hlast
    · refine all_eq_true.mpr fun _ hentry => decide_eq_true fun heq => ?_
      rw [← keccak.slot_injective heq, get_eq_some.mpr hentry] at hslot
      cases hslot
end

/-! ### The diff -/

theorem mem_hashed {give : Address → AccountChange → Option V} {key : H256} {value : V} :
    (key, value) ∈ (changes.hashed keccak give).entries ↔
      ∃ address change, changes.accounts.get address = some change ∧ keccak.address address = key ∧
        give address change = some value := by
  constructor
  · intro h
    obtain ⟨⟨address, change⟩, hmem, hgive⟩ := mem_filterMap.mp (mem_of_mem_collect h)
    obtain ⟨_, hvalue, heq⟩ := map_eq_some_iff.mp hgive
    cases heq
    exact ⟨address, change, get_eq_some.mpr hmem, rfl, hvalue⟩
  · rintro ⟨address, change, hget, rfl, hvalue⟩
    have hmem : (keccak.address address, value) ∈ changes.accounts.entries.filterMap fun entry =>
        (give entry.1 entry.2).map fun value => (keccak.address entry.1, value) :=
      mem_filterMap.mpr ⟨(address, change), get_eq_some.mp hget, by rw [hvalue]; rfl⟩
    obtain ⟨_, hlast⟩ := exists_mem_collect hmem
    -- No other account has this hash.
    obtain ⟨⟨other, _⟩, hother, hgive⟩ := mem_filterMap.mp (mem_of_mem_collect hlast)
    obtain ⟨_, hlast', heq⟩ := map_eq_some_iff.mp hgive
    obtain ⟨haddress, rfl⟩ := mk.inj heq
    have haddress : other = address := keccak.address_injective haddress
    subst haddress
    cases (get_eq_some.mpr hother).symm.trans hget
    cases hlast'.symm.trans hvalue
    exact hlast

section Diff
variable (codeByHash : H256 → Bytes)

def blockDiff (keccak : Keccak) (disk : DiskState) (changes : ChangeSet) : BlockStorageDiff :=
  changes.toStorageDiff keccak codeByHash (some (parentSlots keccak disk))

theorem mem_slotWrites {owner index : H256} {value : U256} :
    ((owner, index), value) ∈ (blockDiff codeByHash keccak disk changes).slotWrites ↔
      ∃ address change, changes.accounts.get address = some change ∧ keccak.address address = owner ∧
        ⟨index, value⟩ ∈ diffPairs keccak change.storage (change.slotsBefore (some (parentSlots keccak disk)) address) := by
  unfold BlockStorageDiff.slotWrites
  rw [mem_flatMap]
  constructor
  · rintro ⟨_, haccount, hpair⟩
    obtain ⟨⟨_, _⟩, hmem, rfl⟩ := mem_map.mp haccount
    obtain ⟨address, change, hget, rfl, hdiff⟩ := mem_hashed.mp hmem
    unfold storageDiff at hdiff
    simp only at hdiff
    split at hdiff <;> cases hdiff
    obtain ⟨_, hsorted, heq⟩ := mem_map.mp hpair
    cases heq
    exact ⟨address, change, hget, rfl, mem_mergeSort.mp hsorted⟩
  · rintro ⟨address, change, hget, rfl, hpair⟩
    have hdiff : storageDiff keccak (keccak.address address) change.storage
        (change.slotsBefore (some (parentSlots keccak disk)) address) = some ⟨keccak.address address,
          (diffPairs keccak change.storage (change.slotsBefore (some (parentSlots keccak disk)) address)).mergeSort
            fun a b => a.index ≤ b.index⟩ := by
      unfold storageDiff
      rw [if_neg]
      intro hempty
      rw [isEmpty_iff.mp hempty] at hpair
      cases hpair
    refine ⟨_, mem_map.mpr ⟨_, mem_hashed.mpr ⟨address, change, hget, rfl, hdiff⟩, rfl⟩, ?_⟩
    exact mem_map.mpr ⟨⟨index, value⟩, mem_mergeSort.mpr hpair, rfl⟩

theorem normalizeCodeHash_idem (codeHash : H256) : normalizeCodeHash (normalizeCodeHash codeHash) = normalizeCodeHash codeHash := by
  have hne : keccak256Empty ≠ 0 := by decide
  unfold normalizeCodeHash
  by_cases hzero : codeHash = 0
  · rw [if_pos hzero, if_neg hne]
  · rw [if_neg hzero, if_neg hzero]

theorem readBack_idem (info : AccountInfo) : info.readBack.readBack = info.readBack := by
  show ({ info with codeHash := normalizeCodeHash (normalizeCodeHash info.codeHash) } : AccountInfo) = _
  rw [normalizeCodeHash_idem]
  rfl

theorem live_map_readBack (keepEmpty : Bool) (info : Option AccountInfo) :
    live keepEmpty (info.map readBack) = (live keepEmpty info).map readBack := by
  have hempty info : isEmpty info.readBack = isEmpty info := by
    show decide (info.balance = 0 ∧ info.nonce = 0 ∧ normalizeCodeHash (normalizeCodeHash info.codeHash) = keccak256Empty) = _
    rw [normalizeCodeHash_idem]
    rfl
  cases info with
  | none => rfl
  | some =>
    unfold live
    rw [map_some, filter_some, filter_some, hempty]
    split <;> rfl

theorem before_readBack (address : Address) :
    ((before keccak disk).accounts address).map readBack = (before keccak disk).accounts address := by
  show ((disk.accounts (keccak.address address)).map readBack).map readBack = _
  rw [Option.map_map]
  congr 1
  funext info
  exact readBack_idem info

theorem unchanged_iff {first second : AccountInfo} :
    unchanged first second = true ↔ first.readBack = second.readBack := by
  unfold unchanged
  rw [decide_eq_true_iff]
  constructor
  · rintro ⟨hbalance, hnonce, hcode⟩
    show ({ first with codeHash := normalizeCodeHash first.codeHash } : AccountInfo) = _
    rw [hcode]
    cases first
    cases hbalance
    cases hnonce
    rfl
  · intro heq
    have hbalance : first.readBack.balance = second.readBack.balance := congrArg balance heq
    have hnonce : first.readBack.nonce = second.readBack.nonce := congrArg nonce heq
    have hcode : first.readBack.codeHash = second.readBack.codeHash := congrArg codeHash heq
    exact ⟨hbalance, hnonce, hcode⟩

section
variable (h : Follows keepEmpty (before keccak disk) db address change)
include h
theorem Follows.account_cases :
    live keepEmpty ((db.accounts address).map readBack) = (live keepEmpty change.info).map readBack ∧
      live keepEmpty (disk.get (.account (keccak.address address))) = change.original := by
  refine ⟨?_, h.original.symm⟩
  rw [live_map_readBack, h.info]

/-- An account that is neither gone nor changed is as it was. -/
theorem Follows.account_same (hgone : live keepEmpty change.info = none → change.original = none)
    (hsame : ∀ info, live keepEmpty change.info = some info →
      (change.original.any fun before => unchanged before info) = true) :
    live keepEmpty (disk.get (.account (keccak.address address))) =
      live keepEmpty ((db.accounts address).map readBack) := by
  obtain ⟨hafter, hbefore⟩ := h.account_cases
  rw [hafter, hbefore]
  cases hinfo : live keepEmpty change.info with
  | none => exact hgone hinfo
  | some info =>
    have hunchanged := hsame info hinfo
    cases horiginal : change.original with
    | none =>
      rw [horiginal] at hunchanged
      cases hunchanged
    | some old =>
      rw [horiginal] at hunchanged
      have hold : old.readBack = old := by
        have hmapped := live_map_readBack keepEmpty ((before keccak disk).accounts address)
        have hlive : live keepEmpty ((before keccak disk).accounts address) = some old := hbefore.trans horiginal
        rw [before_readBack, hlive] at hmapped
        exact (some.inj hmapped).symm
      rw [map_some, ← unchanged_iff.mp hunchanged, hold]
end

theorem mem_accountWrites {key : H256} {write : Option AccountInfo} :
    (key, write) ∈ (blockDiff codeByHash keccak disk changes).accountWrites ↔
      ∃ address change, changes.accounts.get address = some change ∧ keccak.address address = key ∧
        ((write = none ∧ live changes.keepEmpty change.info = none ∧ change.original ≠ none) ∨
          ∃ info, write = some info ∧ live changes.keepEmpty change.info = some info ∧
            (change.original.any fun before => unchanged before info) = false) := by
  unfold BlockStorageDiff.accountWrites
  rw [mem_append]
  constructor
  · rintro (hdeleted | hnew)
    · obtain ⟨_, haddress, heq⟩ := mem_map.mp hdeleted
      cases heq
      obtain ⟨⟨_, _⟩, hmem, rfl⟩ := mem_map.mp haddress
      obtain ⟨address, change, hget, hkey, hgive⟩ := mem_hashed.mp hmem
      unfold deleted at hgive
      split at hgive
      · rename_i hgone
        exact ⟨address, change, hget, hkey, .inl ⟨rfl, hgone⟩⟩
      · cases hgive
    · obtain ⟨_, haccount, heq⟩ := mem_map.mp hnew
      cases heq
      obtain ⟨⟨_, _⟩, hmem, rfl⟩ := mem_map.mp haccount
      obtain ⟨address, change, hget, -, hgive⟩ := mem_hashed.mp hmem
      obtain ⟨info, hinfo, hgive⟩ := bind_eq_some_iff.mp hgive
      unfold newAccount at hgive
      split at hgive <;> cases hgive
      rename_i hchanged
      exact ⟨address, change, hget, rfl, .inr ⟨info, rfl, hinfo, not_eq_true _ ▸ hchanged⟩⟩
  · rintro ⟨address, change, hget, rfl, ⟨rfl, hgone⟩ | ⟨info, rfl, hinfo, hchanged⟩⟩
    · left
      refine mem_map.mpr ⟨keccak.address address, mem_map.mpr ⟨(keccak.address address, ()), ?_, rfl⟩, rfl⟩
      exact mem_hashed.mpr ⟨address, change, hget, rfl, if_pos hgone⟩
    · right
      refine mem_map.mpr ⟨⟨keccak.address address, info.balance, info.nonce, info.codeHash⟩, ?_, rfl⟩
      refine mem_map.mpr ⟨(keccak.address address, _), mem_hashed.mpr ⟨address, change, hget, rfl, ?_⟩, rfl⟩
      rw [hinfo]
      show change.newAccount (keccak.address address) info = _
      rw [newAccount, hchanged, if_neg Bool.false_ne_true]

theorem eq_of_normalizeCodeHash {first second : H256} (heq : normalizeCodeHash first = normalizeCodeHash second)
    (hcode : normalizeCodeHash second ≠ keccak256Empty) : first = second := by
  have hnonzero {codeHash : H256} (h : normalizeCodeHash codeHash ≠ keccak256Empty) : normalizeCodeHash codeHash = codeHash := by
    unfold normalizeCodeHash
    split
    · rename_i hzero
      exact absurd (if_pos hzero) h
    · rfl
  rw [← hnonzero hcode, ← heq, hnonzero (heq ▸ hcode)]

section
variable (h : Tracks keepEmpty (before keccak disk) db changes)
include h
/-- **The slots after the diff.** -/
theorem Tracks.slot_after (hstray : NoStrayStorage keepEmpty (before keccak disk)) (info : BlockInfo) (address : Address) (key : U256) :
    (disk.updateBlock false ⟨info, blockDiff codeByHash keccak disk changes⟩).get
      (.slot (keccak.address address) (keccak.slot key)) = db.slots address key := by
  rw [updateBlock_slot]
  cases hwrite : (new ⟨info, blockDiff codeByHash keccak disk changes⟩).storage
      (keccak.address address, keccak.slot key) with
  | some =>
    rw [new_storage] at hwrite
    rcases foldl_insert_eq_some hwrite with ⟨⟨⟨_, _⟩, _⟩, hmem, heq, rfl⟩ | hempty
    · cases heq
      obtain ⟨_, change, hget, haddress, hpair⟩ := (mem_slotWrites codeByHash).mp hmem
      cases keccak.address_injective haddress
      exact (((h.tracked _ change hget).of_mem_diffPairs hpair).2 key rfl).symm
    · cases hempty
  | none =>
    by_contra hchanged
    have hchanged : db.slots address key ≠ disk.get (.slot (keccak.address address) (keccak.slot key)) := Ne.symm hchanged
    cases hget : changes.accounts.get address with
    | none => exact hchanged (congrFun (h.untracked _ hget).2 _)
    | some change =>
      obtain ⟨⟨_, _⟩, hpair, rfl⟩ := (h.tracked address change hget).exists_pair hstray hchanged
      have hmem := (mem_slotWrites codeByHash).mpr ⟨address, change, hget, rfl, hpair⟩
      rw [new_storage] at hwrite
      exact foldl_insert_ne_none _ _ (.inl (mem_map_of_mem hmem)) hwrite

/-! ### Accounts -/

/-- **The accounts after the diff.** -/
theorem Tracks.account_after (info : BlockInfo) (address : Address) :
    live keepEmpty ((disk.updateBlock false ⟨info, blockDiff codeByHash keccak disk changes⟩).get
        (.account (keccak.address address))) =
      live keepEmpty ((db.accounts address).map readBack) := by
  rw [updateBlock_account_get]
  cases hwrite : (new ⟨info, blockDiff codeByHash keccak disk changes⟩).accounts (keccak.address address) with
  | some =>
    rw [new_accounts] at hwrite
    rcases foldl_insert_eq_some hwrite with ⟨⟨_, _⟩, hmem, heq, rfl⟩ | hempty
    · obtain ⟨other, change, hget, haddress, hcases⟩ := (mem_accountWrites codeByHash).mp hmem
      have hother : other = address := keccak.address_injective (haddress.trans heq)
      subst hother
      obtain ⟨hafter, -⟩ := (h.tracked other change hget).account_cases
      rw [hafter, map_some, getD_some, live_map_readBack]
      congr 1
      rw [h.kept] at hcases
      rcases hcases with ⟨rfl, hgone, -⟩ | ⟨_, rfl, hinfo, -⟩
      · rw [hgone]
        rfl
      · rw [← hinfo, live_live]
    · cases hempty
  | none =>
    cases hget : changes.accounts.get address with
    | none =>
      rw [(h.untracked address hget).1, before_readBack]
      rfl
    | some change =>
      have hunlisted : ∀ write, (keccak.address address, write) ∉
          (blockDiff codeByHash keccak disk changes).accountWrites := by
        intro _ hmem
        rw [new_accounts] at hwrite
        exact foldl_insert_ne_none _ _ (.inl (mem_map_of_mem hmem)) hwrite
      refine (h.tracked address change hget).account_same (fun hinfo => ?_) fun info' hinfo => ?_
      · by_contra hsome
        exact hunlisted none ((mem_accountWrites codeByHash).mpr
          ⟨address, change, hget, rfl, .inl ⟨rfl, h.kept ▸ hinfo, hsome⟩⟩)
      · by_contra hchanged
        exact hunlisted (some info') ((mem_accountWrites codeByHash).mpr
          ⟨address, change, hget, rfl, .inr ⟨info', rfl, h.kept ▸ hinfo, not_eq_true _ ▸ hchanged⟩⟩)

/-! ### Codes and net changes -/

/-- **The code of an account whose code changed is there.** -/
theorem Tracks.code_after {info : AccountInfo}
    (hinfo : live keepEmpty (db.accounts address) = some info) (hcode : normalizeCodeHash info.codeHash ≠ keccak256Empty)
    (hchanged : (live keepEmpty ((before keccak disk).accounts address)).map (fun old => normalizeCodeHash old.codeHash) ≠
      some (normalizeCodeHash info.codeHash)) :
    ⟨normalizeCodeHash info.codeHash, codeByHash info.codeHash⟩ ∈ (blockDiff codeByHash keccak disk changes).newCodes := by
  cases hget : changes.accounts.get address with
  | none =>
    rw [(h.untracked address hget).1] at hinfo
    rw [hinfo] at hchanged
    exact absurd rfl hchanged
  | some change =>
    have hfollows := h.tracked address change hget
    have hgive : (live changes.keepEmpty change.info).bind (change.newCode codeByHash) =
        some ⟨normalizeCodeHash info.codeHash, codeByHash info.codeHash⟩ := by
      rw [h.kept, hfollows.info, hinfo]
      show change.newCode codeByHash info = _
      unfold newCode
      rw [hfollows.original, if_pos ⟨hcode, hchanged⟩]
    have hmem : (normalizeCodeHash info.codeHash, ⟨normalizeCodeHash info.codeHash, codeByHash info.codeHash⟩) ∈
        changes.accounts.entries.filterMap fun entry =>
          ((live changes.keepEmpty entry.2.info).bind (entry.2.newCode codeByHash)).map fun code => (code.codeHash, code) :=
      mem_filterMap.mpr ⟨(address, change), get_eq_some.mp hget, by rw [hgive]; rfl⟩
    obtain ⟨_, hlast⟩ := exists_mem_collect hmem
    refine mem_map.mpr ⟨_, hlast, ?_⟩
    -- Another account with this code has the same code.
    obtain ⟨⟨_, _⟩, -, hother⟩ := mem_filterMap.mp (mem_of_mem_collect hlast)
    obtain ⟨_, hcode', heq⟩ := map_eq_some_iff.mp hother
    obtain ⟨hhash, rfl⟩ := mk.inj heq
    obtain ⟨_, -, hnew⟩ := bind_eq_some_iff.mp hcode'
    unfold newCode at hnew
    simp only at hnew
    split at hnew <;> cases hnew
    rw [eq_of_normalizeCodeHash hhash hcode]

/-- **Nothing is listed that did not change.** -/
theorem Tracks.net : let diff := blockDiff codeByHash keccak disk changes
    (∀ account ∈ diff.newAccounts,
        live keepEmpty (disk.get (.account account.address)) ≠ some account.toAccountInfo.readBack) ∧
      (∀ hashed ∈ diff.deletedAccounts, live keepEmpty (disk.get (.account hashed)) ≠ none) ∧
      ∀ write ∈ diff.slotWrites,
        disk.get (.slot write.1.1 write.1.2) ≠ write.2 := by
  intro diff
  refine ⟨?_, ?_, ?_⟩
  · intro account haccount hsame
    have hmem : (account.address, some account.toAccountInfo) ∈ diff.accountWrites :=
      mem_append_right _ (mem_map.mpr ⟨account, haccount, rfl⟩)
    obtain ⟨address, change, hget, haddress, ⟨hnone, -⟩ | ⟨_, hinfo, -, hchanged⟩⟩ := (mem_accountWrites codeByHash).mp hmem
    · cases hnone
    cases hinfo
    rw [← haddress, (h.tracked address change hget).account_cases.2] at hsame
    rw [hsame] at hchanged
    have hunchanged := unchanged_iff.mpr (readBack_idem account.toAccountInfo)
    rw [any_some, hunchanged] at hchanged
    cases hchanged
  · intro hashed hdeleted hnone
    have hmem : (hashed, none) ∈ diff.accountWrites := mem_append_left _ (mem_map.mpr ⟨hashed, hdeleted, rfl⟩)
    obtain ⟨address, change, hget, haddress, ⟨-, -, hsome⟩ | ⟨_, hinfo, -⟩⟩ := (mem_accountWrites codeByHash).mp hmem
    · rw [← haddress, (h.tracked address change hget).account_cases.2] at hnone
      exact hsome hnone
    · cases hinfo
  · rintro ⟨⟨_, _⟩, _⟩ hwrite hsame
    obtain ⟨address, change, hget, rfl, hpair⟩ := (mem_slotWrites codeByHash).mp hwrite
    exact ((h.tracked address change hget).of_mem_diffPairs hpair).1 hsame.symm
end

end Diff

/-! ### Whole blocks -/

theorem start_tracks (keccak : Keccak) (keepEmpty : Bool) (disk : DiskState) :
    (start keccak keepEmpty disk).Faithful keepEmpty (before keccak disk) :=
  ⟨rfl, fun _ _ => ⟨rfl, rfl⟩, nofun⟩

/-- **The diff of a replayed block is faithful**: written over the state before the block it gives every account and slot as
the block leaves it, with the code of every account whose code changed, and it lists nothing that did not change. -/
theorem replay_diff_faithful {events : List BlockEvent} (codeByHash : H256 → Bytes) (info : BlockInfo)
    (hstray : ∀ address key, live keepEmpty (disk.get (.account (keccak.address address))) = none →
      disk.get (.slot (keccak.address address) (keccak.slot key)) = (0 : U256))
    (hadmits : RunMeets step BlockReplay.Admits (.start keccak keepEmpty disk) events) :
    let replay := events.foldl step (.start keccak keepEmpty disk)
    let diff := replay.changes.toStorageDiff keccak codeByHash (some (parentSlots keccak disk))
    let after := disk.updateBlock false ⟨info, diff⟩
    (∀ address, live keepEmpty (after.get (.account (keccak.address address))) =
        live keepEmpty ((replay.db.accounts address).map readBack)) ∧
      (∀ address key, after.get (.slot (keccak.address address) (keccak.slot key)) = replay.db.slots address key) ∧
      (∀ address account, live keepEmpty (replay.db.accounts address) = some account →
        normalizeCodeHash account.codeHash ≠ keccak256Empty →
        (live keepEmpty (disk.get (.account (keccak.address address)))).map (fun old => normalizeCodeHash old.codeHash) ≠
          some (normalizeCodeHash account.codeHash) →
        ⟨normalizeCodeHash account.codeHash, codeByHash account.codeHash⟩ ∈ diff.newCodes) ∧
      (∀ account ∈ diff.newAccounts,
        live keepEmpty (disk.get (.account account.address)) ≠ some account.toAccountInfo.readBack) ∧
      (∀ hashed ∈ diff.deletedAccounts, live keepEmpty (disk.get (.account hashed)) ≠ none) ∧
      ∀ write ∈ diff.slotWrites, disk.get (.slot write.1.1 write.1.2) ≠ write.2 := by
  intro replay _ _
  have htracks : Tracks keepEmpty (before keccak disk) replay.db replay.changes :=
    run_invariant (BlockReplay.Faithful keepEmpty (before keccak disk))
      (fun replay event h hevent => step_faithful h hstray event hevent) (start_tracks keccak keepEmpty disk) hadmits
  obtain ⟨hnew, hdeleted, hslots⟩ := htracks.net codeByHash
  exact ⟨htracks.account_after codeByHash info, htracks.slot_after codeByHash hstray info,
    fun address account => htracks.code_after codeByHash, hnew, hdeleted, hslots⟩

def plainKeccak : Keccak where
  address := fun address => ⟨address.val, lt_trans address.isLt (by decide)⟩
  slot := id
  address_injective := fun _ _ h => Fin.ext (Fin.mk.inj h)
  slot_injective := fun _ _ h => h

def oneSlot (account : AccountInfo) : DiskState where
  latest := default
  accounts := fun address => if address = ⟨7, by decide⟩ then some account else none
  slots := [((⟨7, by decide⟩, ⟨3, by decide⟩), ⟨5, by decide⟩)]
  codes := fun _ => none
  blockHashes := fun _ => 0

/-- A transaction that leaves one account. -/
def oneAccount (account : EvmAccount) : EvmState := OrderedMap.empty.put ⟨7, by decide⟩ account

theorem oneSlot_stray {account : AccountInfo} (haccount : live false (some account.readBack) ≠ none) (address : Address) (key : U256)
    (h : live false ((oneSlot account).get (.account (plainKeccak.address address))) = none) :
    (oneSlot account).get (.slot (plainKeccak.address address) (plainKeccak.slot key)) = (0 : U256) := by
  by_cases heq : plainKeccak.address address = ⟨7, by decide⟩
  · rw [heq] at h
    exact absurd h haccount
  have hnone : (oneSlot account).slots.lookup (plainKeccak.address address, plainKeccak.slot key) = none := by
    rw [lookup_eq_none_iff]
    intro _ hentry
    rw [mem_singleton.mp hentry]
    have hne : (plainKeccak.address address, plainKeccak.slot key) ≠ (⟨7, by decide⟩, ⟨3, by decide⟩) :=
      fun hpair => heq (mk.inj hpair).1
    exact bne_iff_ne.mpr hne
  show ((oneSlot account).slots.lookup _).getD 0 = 0
  rw [hnone]
  rfl

theorem eq_of_get_oneAccount {account other : EvmAccount} {address : Address}
    (hget : (oneAccount account).get address = some other) : other = account :=
  congrArg snd (mem_singleton.mp (get_eq_some.mp hget))

/-- A contract is destroyed without a touch of its slot, and its address is funded again. -/
theorem replay_diff_faithful_destroyed :
    let contract : AccountInfo := ⟨1, 1, 9⟩
    let events := [.commit false (oneAccount ⟨true, true, false, contract, .empty⟩),
      .execute (oneAccount ⟨true, false, false, ⟨2, 0, keccak256Empty⟩, .empty⟩)]
    let replay := events.foldl step (.start plainKeccak false (oneSlot contract))
    let diff := replay.changes.toStorageDiff plainKeccak (fun _ => []) (some (parentSlots plainKeccak (oneSlot contract)))
    ((oneSlot contract).updateBlock false ⟨default, diff⟩).get (.slot ⟨7, by decide⟩ ⟨3, by decide⟩) = (0 : U256) := by
  intro contract events _ _
  have hadmits : RunMeets step BlockReplay.Admits (.start plainKeccak false (oneSlot contract)) events := by
    refine ⟨fun address account hget _ => ?_, ⟨rfl, fun address account hget _ => ?_⟩, trivial⟩
    · rw [eq_of_get_oneAccount hget]
      exact ⟨nofun, nofun⟩
    · rw [eq_of_get_oneAccount hget]
      exact ⟨⟨nofun, nofun⟩, fun hempty => absurd hempty (by decide)⟩
  exact ((replay_diff_faithful (fun _ => []) default (oneSlot_stray (by decide)) hadmits).2.1 ⟨7, by decide⟩ ⟨3, by decide⟩).trans
    (by decide)

/-- A contract is created at an account with a balance and, without code, storage; or, in a BSC block, such an account
gives its balance away: the storage is cleared, and the diff does not say so. -/
theorem storage_left_behind :
    let funded : AccountInfo := ⟨1, 0, keccak256Empty⟩
    ∀ event ∈ [BlockEvent.commit false (oneAccount ⟨true, false, true, ⟨1, 1, 9⟩, .empty⟩),
      .execute (oneAccount ⟨true, false, false, ⟨0, 0, keccak256Empty⟩, .empty⟩)],
    let replay := step (.start plainKeccak false (oneSlot funded)) event
    let diff := replay.changes.toStorageDiff plainKeccak (fun _ => []) (some (parentSlots plainKeccak (oneSlot funded)))
    replay.db.slots ⟨7, by decide⟩ ⟨3, by decide⟩ = 0 ∧
      ((oneSlot funded).updateBlock false ⟨default, diff⟩).get (.slot ⟨7, by decide⟩ ⟨3, by decide⟩) = (⟨5, by decide⟩ : U256) := by
  intro _ event hmem
  rcases mem_cons.mp hmem with rfl | hmem
  · decide
  · rw [mem_singleton.mp hmem]
    decide

end LeafageEvm.Replay
