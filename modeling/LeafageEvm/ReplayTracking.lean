import LeafageEvm.Replay

/-! The change set of a replay follows the state: after every event of the block it knows what each account and slot was
before the block and what it is now. -/

namespace LeafageEvm.Replay
open SlotChange CacheDB ChangeSet Bool Option Function
open OrderedMap (get_eq_some get_mapValues get_put_of_ne get_put_self)
variable {destroyed : Bool} {storage : OrderedMap U256 SlotChange} {slots : List (U256 × EvmStorageSlot)} {key : U256}
  {account : EvmAccount} {db' : CacheDB} {keepEmpty : Bool} {parent db : CacheDB} {changes : ChangeSet} {address : Address}
  {change : AccountChange}

theorem live_live (keepEmpty : Bool) (info : Option AccountInfo) : live keepEmpty (live keepEmpty info) = live keepEmpty info := by
  unfold live
  rw [filter_filter]
  congr 1
  funext _
  rw [Bool.and_self]

/-! ### Recorded slots -/

section
variable (storage : OrderedMap U256 SlotChange)

theorem get_setSlot_self (slot original value : U256) : (setSlot storage slot original value).get slot =
      some ⟨((storage.get slot).map SlotChange.original).getD original, value⟩ := get_put_self ..

theorem get_setSlot_of_ne {slot other : U256} (original value : U256) (h : other ≠ slot) :
    (setSlot storage slot original value).get other = storage.get other := get_put_of_ne _ _ h

theorem get_recordSlot_of_ne (destroyed : Bool) {entry : U256 × EvmStorageSlot}
    (h : key ≠ entry.1) : (recordSlot destroyed storage entry).get key = storage.get key := by
  unfold recordSlot
  split
  · exact get_setSlot_of_ne _ _ _ h
  · rfl
end

theorem get_recordSlots_of_not (h : ∀ slot, (key, slot) ∈ slots → (slot.isChanged || destroyed) = false) :
    (recordSlots destroyed storage slots).get key = storage.get key := by
  induction slots generalizing storage with
  | nil => rfl
  | cons entry slots ih =>
    have hrest : ∀ slot, (key, slot) ∈ slots → (slot.isChanged || destroyed) = false :=
      fun slot hslot => h slot (.tail _ hslot)
    refine (ih hrest).trans ?_
    by_cases hkey : key = entry.1
    · subst hkey
      rw [recordSlot, h entry.2 (.head _), if_neg Bool.false_ne_true]
    · exact get_recordSlot_of_ne storage destroyed hkey

theorem get_recordSlots_of_mem (hsorted : slots.Pairwise fun a b => a.1 < b.1) {slot : EvmStorageSlot}
    (hmem : (key, slot) ∈ slots) (hrecord : (slot.isChanged || destroyed) = true) :
    (recordSlots destroyed storage slots).get key =
      some ⟨((storage.get key).map original).getD slot.originalValue,
        if destroyed then 0 else slot.presentValue⟩ := by
  induction slots generalizing storage with
  | nil => cases hmem
  | cons entry slots ih =>
    obtain ⟨hfirst, hsorted⟩ := List.pairwise_cons.mp hsorted
    rcases List.mem_cons.mp hmem with rfl | hmem
    · -- No later entry has this key.
      have hlater : ∀ other, (key, other) ∈ slots → (other.isChanged || destroyed) = false :=
        fun other hother => absurd (hfirst _ hother) (lt_irrefl _)
      refine (get_recordSlots_of_not hlater).trans ?_
      rw [recordSlot, if_pos hrecord]
      exact get_setSlot_self ..
    · have hne : key ≠ entry.1 := (hfirst _ hmem).ne'
      refine (ih hsorted hmem).trans ?_
      rw [get_recordSlot_of_ne storage destroyed hne]

/-! ### One account -/

/-- What a change knows of its account. -/
structure Follows (keepEmpty : Bool) (parent db : CacheDB) (address : Address) (change : AccountChange) : Prop where
  original : change.original = live keepEmpty (parent.accounts address)
  info : live keepEmpty change.info = live keepEmpty (db.accounts address)
  present : ∀ key slot, change.storage.get key = some slot → slot.present = db.slots address key
  slotOriginal : ∀ key slot, change.storage.get key = some slot → change.destroyed = false ∨ change.original = none →
    slot.original = parent.slots address key
  rest : ∀ key, change.storage.get key = none → db.slots address key = if change.destroyed then 0 else parent.slots address key

def NoStrayStorage (keepEmpty : Bool) (parent : CacheDB) : Prop :=
  ∀ address key, live keepEmpty (parent.accounts address) = none → parent.slots address key = 0

/-- What the EVM says of an account fits the database: slots were what they are there, and a contract is created where no
storage is. -/
structure EvmAccount.Consistent (db : CacheDB) (address : Address) (account : EvmAccount) : Prop where
  original : ∀ key slot, account.storage.get key = some slot → slot.originalValue = db.slots address key
  created : account.isCreated = true → ∀ key, db.slots address key = 0

/-- The slots before what a transaction writes are recorded. -/
def reset (account : EvmAccount) (change : AccountChange) : OrderedMap U256 SlotChange :=
  if account.isSelfdestructed || account.isCreated then change.storage.mapValues fun slot => { slot with present := 0 }
  else change.storage

theorem map_original_reset (account : EvmAccount) (change : AccountChange) (key : U256) :
    ((reset account change).get key).map original = (change.storage.get key).map original := by
  unfold reset
  split
  · rw [get_mapValues, map_map]
    rfl
  · rfl

section
variable (h : Follows keepEmpty parent db address change) (hstray : NoStrayStorage keepEmpty parent)
include h hstray
theorem Follows.original_getD (hknown : change.destroyed = false ∨ change.original = none) (key : U256) :
    ((change.storage.get key).map SlotChange.original).getD (db.slots address key) = parent.slots address key := by
  cases hslot : change.storage.get key with
  | some slot => exact h.slotOriginal key slot hslot hknown
  | none =>
    show db.slots address key = parent.slots address key
    rw [h.rest key hslot]
    split
    · rename_i hdestroyed
      have hnone : change.original = none := hknown.resolve_left (by rw [hdestroyed]; nofun)
      rw [hstray address key (h.original ▸ hnone)]
    · rfl

/-- The change of a destroyed account: nothing is left of it. -/
theorem Follows.destroy (hconsistent : account.Consistent db address) (hdestroyed : account.isSelfdestructed = true)
    (haccounts : db'.accounts address = none) (hslots : ∀ key, db'.slots address key = 0) :
    Follows keepEmpty parent db' address { change with
        destroyed := change.destroyed || true
        info := none
        storage := recordSlots true (reset account change) account.storage.entries } := by
  have hreset : ∀ key slot, (reset account change).get key = some slot → slot.present = 0 := by
    intro _ _ hslot
    rw [reset, hdestroyed, Bool.true_or, if_pos rfl, get_mapValues] at hslot
    obtain ⟨_, -, rfl⟩ := map_eq_some_iff.mp hslot
    rfl
  have hget key slot
      (hslot : (recordSlots true (reset account change) account.storage.entries).get key = some slot) :
      slot.present = 0 ∧ (change.original = none → slot.original = parent.slots address key) := by
    cases hentry : account.storage.get key with
    | some entry =>
      rw [get_recordSlots_of_mem account.storage.sorted (get_eq_some.mp hentry) (or_true _)] at hslot
      cases hslot
      refine ⟨rfl, fun hnone => ?_⟩
      rw [map_original_reset, hconsistent.original key entry hentry, h.original_getD hstray (.inr hnone)]
    | none =>
      rw [get_recordSlots_of_not fun entry hmem => by
        rw [get_eq_some.mpr hmem] at hentry
        cases hentry] at hslot
      refine ⟨hreset key slot hslot, fun hnone => ?_⟩
      have hmapped := map_original_reset account change key
      rw [hslot] at hmapped
      obtain ⟨old, hold, horiginal⟩ := map_eq_some_iff.mp hmapped.symm
      rw [← horiginal]
      exact h.slotOriginal key old hold (.inr hnone)
  constructor
  · exact h.original
  · rw [haccounts]
  · intro key slot hslot
    rw [hslots, (hget key slot hslot).1]
  · intro key slot hslot hknown
    refine (hget key slot hslot).2 (hknown.resolve_left ?_)
    rw [Bool.or_true]
    nofun
  · intro _ _
    rw [hslots]
    rw [Bool.or_true, if_pos rfl]
end

/-- How a slot of the change fits the slot of the account: it is recorded with the value the slot has now and the original
it had, or it is not recorded, was not before, and the slot is as it was. -/
def Recorded (found old : Option SlotChange) (before now : U256) : Prop :=
  (∃ slot, found = some slot ∧ slot.present = now ∧ slot.original = (old.map SlotChange.original).getD before) ∨
    found = none ∧ old = none ∧ now = before

section
variable (h : Follows keepEmpty parent db address change)
include h
section
variable (hconsistent : account.Consistent db address) (hkept : account.isSelfdestructed = false)
  (key : U256)
include hconsistent hkept
theorem Follows.recorded_reset :
    Recorded ((reset account change).get key) (change.storage.get key) (db.slots address key) (db.slots address key) := by
  rw [reset, hkept]
  split
  · rename_i hcreated
    rw [get_mapValues]
    cases hold : change.storage.get key with
    | none => exact .inr ⟨rfl, rfl, rfl⟩
    | some => exact .inl ⟨_, rfl, (hconsistent.created hcreated key).symm, rfl⟩
  · cases hold : change.storage.get key with
    | none => exact .inr ⟨rfl, rfl, rfl⟩
    | some old => exact .inl ⟨old, rfl, h.present key old hold, rfl⟩

/-- What a transaction writes is recorded, and what it only reads stays as it was. -/
theorem Follows.recorded_touch :
    Recorded ((recordSlots false (reset account change) account.storage.entries).get key) (change.storage.get key)
      (db.slots address key)
      (((account.storage.get key).map EvmStorageSlot.presentValue).getD
        (if account.isCreated then 0 else db.slots address key)) := by
  cases hentry : account.storage.get key with
  | none =>
    have hunwritten : (if account.isCreated then 0 else db.slots address key) = db.slots address key := by
      split
      · rename_i hcreated
        rw [hconsistent.created hcreated]
      · rfl
    rw [get_recordSlots_of_not fun slot hmem => by
      rw [get_eq_some.mpr hmem] at hentry
      cases hentry]
    rw [hunwritten]
    exact h.recorded_reset hconsistent hkept key
  | some entry =>
    rw [map_some]
    by_cases hchanged : entry.isChanged = true
    · left
      rw [get_recordSlots_of_mem account.storage.sorted (get_eq_some.mp hentry) (by rw [hchanged]; rfl)]
      refine ⟨_, rfl, rfl, ?_⟩
      rw [map_original_reset, hconsistent.original key entry hentry]
    have hequal : entry.originalValue = entry.presentValue := by
      simpa [EvmStorageSlot.isChanged] using hchanged
    rw [get_recordSlots_of_not fun slot hmem => by
      rw [get_eq_some.mpr hmem] at hentry
      cases hentry
      rw [Bool.or_false]
      exact Bool.not_eq_true _ ▸ hchanged]
    rw [← hequal, hconsistent.original key entry hentry]
    exact h.recorded_reset hconsistent hkept key
end

theorem Follows.touch (hstray : NoStrayStorage keepEmpty parent) (hconsistent : account.Consistent db address)
    (hkept : account.isSelfdestructed = false) (haccounts : db'.accounts address = some account.info)
    (hslots : ∀ key, db'.slots address key = ((account.storage.get key).map EvmStorageSlot.presentValue).getD
      (if account.isCreated then 0 else db.slots address key)) :
    Follows keepEmpty parent db' address
      { change with
        destroyed := change.destroyed || false
        info := some account.info
        storage := recordSlots false (reset account change) account.storage.entries } := by
  have hget key := hslots key ▸ h.recorded_touch hconsistent hkept key
  rw [Bool.or_false]
  constructor
  · exact h.original
  · rw [haccounts]
  · intro key _ hslot
    rcases hget key with ⟨_, hslot', hpresent, -⟩ | ⟨hnone, -⟩
    · cases hslot.symm.trans hslot'
      exact hpresent
    · cases hslot.symm.trans hnone
  · intro key _ hslot hknown
    rcases hget key with ⟨_, hslot', -, horiginal⟩ | ⟨hnone, -⟩
    · cases hslot.symm.trans hslot'
      rw [horiginal, h.original_getD hstray hknown]
    · cases hslot.symm.trans hnone
  · intro key hslot
    rcases hget key with ⟨_, hslot', -⟩ | ⟨-, hold, hsame⟩
    · cases hslot.symm.trans hslot'
    · rw [hsame, h.rest key hold]
end

/-! ### The whole state -/

/-- The change set follows the database from the state before the block. -/
structure Tracks (keepEmpty : Bool) (parent db : CacheDB) (changes : ChangeSet) : Prop where
  kept : changes.keepEmpty = keepEmpty
  untracked : ∀ address, changes.accounts.get address = none →
    db.accounts address = parent.accounts address ∧ db.slots address = parent.slots address
  tracked : ∀ address change, changes.accounts.get address = some change → Follows keepEmpty parent db address change

/-- Only what counts of an account matters. -/
theorem Follows.congr (h : Follows keepEmpty parent db address change)
    (haccounts : live keepEmpty (db'.accounts address) = live keepEmpty (db.accounts address))
    (hslots : db'.slots address = db.slots address) : Follows keepEmpty parent db' address change := by
  refine ⟨h.original, h.info.trans haccounts.symm, ?_, h.slotOriginal, ?_⟩
  · rw [hslots]
    exact h.present
  · rw [hslots]
    exact h.rest

theorem commitAccount_of_ne (db : CacheDB) {address other : Address} (account : EvmAccount) (hne : other ≠ address) :
    (db.commitAccount address account).accounts other = db.accounts other ∧
      (db.commitAccount address account).slots other = db.slots other := by
  unfold commitAccount
  split
  · exact ⟨rfl, rfl⟩
  · split <;> exact ⟨update_of_ne hne .., update_of_ne hne ..⟩

section
variable (h : Tracks keepEmpty parent db changes)
include h
/-- An entry that is made now has the value before the block. -/
theorem Tracks.follows (address : Address) : Follows keepEmpty parent db address (changes.track db address) := by
  unfold track
  cases hget : changes.accounts.get address with
  | some change => exact h.tracked address change hget
  | none =>
    obtain ⟨haccounts, hslots⟩ := h.untracked address hget
    rw [h.kept, haccounts]
    refine ⟨rfl, ?_, nofun, nofun, fun _ _ => ?_⟩
    · rw [haccounts]
      exact live_live ..
    · rw [hslots]
      rfl

theorem Tracks.put
    (hothers : ∀ other, other ≠ address → db'.accounts other = db.accounts other ∧ db'.slots other = db.slots other)
    (hfollows : Follows keepEmpty parent db' address change) : Tracks keepEmpty parent db' (changes.put address change) := by
  refine ⟨h.kept, ?_, ?_⟩
  · intro other hnone
    have hne : other ≠ address := by
      rintro rfl
      rw [put, get_put_self] at hnone
      cases hnone
    rw [ChangeSet.put, get_put_of_ne _ _ hne] at hnone
    obtain ⟨haccounts, hslots⟩ := h.untracked other hnone
    rw [(hothers other hne).1, (hothers other hne).2]
    exact ⟨haccounts, hslots⟩
  · intro other otherChange hsome
    by_cases hne : other = address
    · subst hne
      rw [put, get_put_self] at hsome
      cases hsome
      exact hfollows
    rw [ChangeSet.put, get_put_of_ne _ _ hne] at hsome
    obtain ⟨haccounts, hslots⟩ := hothers other hne
    exact (h.tracked other otherChange hsome).congr (by rw [haccounts]) hslots

/-- **One account of a transaction is recorded as it is committed.** -/
theorem Tracks.recordAccount (hstray : NoStrayStorage keepEmpty parent)
    (hconsistent : account.isTouched = true → account.Consistent db address) :
    Tracks keepEmpty parent (db.commitAccount address account) (changes.recordAccount db address account) := by
  by_cases htouched : account.isTouched = false
  · rw [commitAccount, if_pos htouched, ChangeSet.recordAccount, if_pos htouched]
    exact h
  have hconsistent := hconsistent (not_eq_false _ ▸ htouched)
  have hfollows := h.follows address
  rw [ChangeSet.recordAccount, if_neg htouched]
  refine h.put (fun _ hne => commitAccount_of_ne db account hne) ?_
  by_cases hdestroyed : account.isSelfdestructed = true
  · have haccounts : (db.commitAccount address account).accounts address = none := by
      rw [commitAccount, if_neg htouched, if_pos hdestroyed]
      exact update_self ..
    have hslots : ∀ key, (db.commitAccount address account).slots address key = 0 := by
      intro key
      rw [commitAccount, if_neg htouched, if_pos hdestroyed]
      show update db.slots address _ address key = 0
      rw [update_self]
    have hgone := hfollows.destroy hstray hconsistent hdestroyed haccounts hslots
    rw [reset] at hgone
    simp only [hdestroyed] at hgone ⊢
    exact hgone
  · have hkept : account.isSelfdestructed = false := not_eq_true _ ▸ hdestroyed
    have haccounts : (db.commitAccount address account).accounts address = some account.info := by
      rw [commitAccount, if_neg htouched, if_neg hdestroyed]
      exact update_self ..
    have hslots : ∀ key, (db.commitAccount address account).slots address key =
        ((account.storage.get key).map EvmStorageSlot.presentValue).getD
          (if account.isCreated then 0 else db.slots address key) := by
      intro key
      rw [commitAccount, if_neg htouched, if_neg hdestroyed]
      show update db.slots address _ address key = _
      rw [update_self]
    have hleft := hfollows.touch hstray hconsistent hkept haccounts hslots
    rw [reset] at hleft
    simp only [hkept] at hleft ⊢
    exact hleft
end

section
variable (h : db'.accounts address = db.accounts address)
include h
theorem track_congr : changes.track db' address = changes.track db address := by
  rw [track, track, h]

theorem recordAccount_congr (account : EvmAccount) :
    changes.recordAccount db' address account = changes.recordAccount db address account := by
  rw [recordAccount, recordAccount, track_congr h]
end

theorem commitAccount_slots_congr (hslots : db'.slots address = db.slots address) :
    (db'.commitAccount address account).slots address = (db.commitAccount address account).slots address := by
  unfold commitAccount
  split
  · exact hslots
  · split <;> simp only [update_self, hslots]

/-- What BSC does with an account: it is recorded as the transaction leaves it, and then deleted if that is empty. -/
theorem Tracks.recordEmpty (hstray : NoStrayStorage keepEmpty parent) (h : Tracks keepEmpty parent db changes)
    (hconsistent : account.isTouched = true → account.Consistent db address)
    (hempty : account.isTouched = true → isEmpty account.info = true → account.isSelfdestructed = false →
      keepEmpty = false ∧ ∀ key, (db.commitAccount address account).slots address key = 0) :
    Tracks keepEmpty parent (db.commitAccount address account.markEmpty) (changes.recordAccount db address account) := by
  have htracks := h.recordAccount hstray hconsistent
  unfold EvmAccount.markEmpty
  split
  · rename_i hmark
    obtain ⟨htouched, hinfo⟩ := (Bool.and_eq_true _ _).mp hmark
    by_cases hkept : account.isSelfdestructed = false
    · obtain ⟨hkeep, hslots⟩ := hempty htouched hinfo hkept
      have hgone : db.commitAccount address { account with isSelfdestructed := true } =
          { accounts := update db.accounts address none, slots := update db.slots address fun _ => 0 } := by
        simp only [commitAccount, htouched, if_true]
        rfl
      rw [ChangeSet.recordAccount, if_neg (by rw [htouched]; nofun)] at htracks ⊢
      refine h.put (fun _ hne => commitAccount_of_ne db _ hne) ((htracks.tracked address _ (get_put_self ..)).congr ?_ ?_)
      · rw [hgone, commitAccount, if_neg (by rw [htouched]; nofun), if_neg (by rw [hkept]; nofun), hkeep]
        simp only [update_self, live, Option.filter_some, hinfo]
        rfl
      · funext key
        rw [hgone, hslots]
        show update db.slots address (fun _ => 0) address key = 0
        rw [update_self]
    · have hsame : { account with isSelfdestructed := true } = account := by
        rw [← (not_eq_false _).mp hkept]
      rw [hsame]
      exact htracks
  · exact htracks

/-- The accounts of a transaction are recorded against the state before it, and committed one by one, as `mark` leaves
them. -/
theorem Tracks.commit (h : Tracks keepEmpty parent db changes) {state : EvmState} {mark : EvmAccount → EvmAccount}
    (hentry : ∀ address account, state.get address = some account → ∀ current changes,
      current.accounts address = db.accounts address → current.slots address = db.slots address →
      Tracks keepEmpty parent current changes →
      Tracks keepEmpty parent (current.commitAccount address (mark account)) (changes.recordAccount current address account)) :
    Tracks keepEmpty parent (db.commit (state.mapValues mark)) (changes.record db state) := by
  have hentries := fun (entry : Address × EvmAccount) hmem => hentry entry.1 entry.2 (get_eq_some.mpr hmem)
  show Tracks keepEmpty parent ((state.entries.map fun entry => (entry.1, mark entry.2)).foldl _ db) _
  rw [List.foldl_map]
  -- The accounts that are still to come are as they were before the transaction.
  suffices ∀ (entries : List (Address × EvmAccount)) current changes, entries.Pairwise (fun a b => a.1 < b.1) →
      (∀ entry ∈ entries, current.accounts entry.1 = db.accounts entry.1 ∧ current.slots entry.1 = db.slots entry.1) →
      entries ⊆ state.entries → Tracks keepEmpty parent current changes →
      Tracks keepEmpty parent (entries.foldl (fun db entry => db.commitAccount entry.1 (mark entry.2)) current)
        (entries.foldl (fun changes entry => changes.recordAccount db entry.1 entry.2) changes) from
    this state.entries db changes state.sorted (fun _ _ => ⟨rfl, rfl⟩) (List.Subset.refl _) h
  intro entries
  induction entries with
  | nil => exact fun _ _ _ _ _ htracks => htracks
  | cons entry _ ih =>
    intro current changes hsorted hcurrent hsubset htracks
    obtain ⟨hfirst, hsorted⟩ := List.pairwise_cons.mp hsorted
    obtain ⟨hsame, hcurrent⟩ := List.forall_mem_cons.mp hcurrent
    obtain ⟨hmem, hsubset⟩ := List.cons_subset.mp hsubset
    refine ih _ _ hsorted ?_ hsubset ?_
    · intro other hother
      obtain ⟨haccounts, hslots⟩ := commitAccount_of_ne current (mark entry.2) (hfirst other hother).ne'
      rw [haccounts, hslots]
      exact hcurrent other hother
    · show Tracks keepEmpty parent _ (changes.recordAccount db entry.1 entry.2)
      rw [← recordAccount_congr hsame.1]
      exact hentries entry hmem current changes hsame.1 hsame.2 htracks

theorem EvmAccount.Consistent.congr (h : account.Consistent db address) (hslots : db'.slots address = db.slots address) :
    account.Consistent db' address := by
  obtain ⟨_, _⟩ := h
  exact ⟨by rwa [hslots], by rwa [hslots]⟩

/-- A transaction that is committed as it is recorded. -/
theorem Tracks.commit_recorded (hstray : NoStrayStorage keepEmpty parent) (h : Tracks keepEmpty parent db changes)
    {state : EvmState} (hconsistent : ∀ address account, state.get address = some account → account.isTouched = true →
      account.Consistent db address) : Tracks keepEmpty parent (db.commit state) (changes.record db state) := by
  have hstate : state.mapValues id = state := by
    cases state
    simp [OrderedMap.mapValues]
  have hcommit : Tracks keepEmpty parent (db.commit (state.mapValues id)) (changes.record db state) :=
    h.commit fun address account hget _ _ _ hslots htracks =>
      htracks.recordAccount hstray fun htouched => (hconsistent address account hget htouched).congr hslots
  rwa [hstate] at hcommit

namespace BlockReplay

variable {replay : BlockReplay}

/-- The change set of the replay follows its database. -/
def Faithful (keepEmpty : Bool) (parent : CacheDB) (replay : BlockReplay) : Prop :=
  Tracks keepEmpty parent replay.db replay.changes

/-- What the EVM says of the accounts of a transaction fits the database. In a BSC block, where empty accounts do not
count, an account with storage is not left empty. -/
def Admits (replay : BlockReplay) : BlockEvent → Prop
  | .commit _ state => ∀ address account, state.get address = some account → account.isTouched = true →
      account.Consistent replay.db address
  | .execute state => replay.changes.keepEmpty = false ∧
      ∀ address account, state.get address = some account → account.isTouched = true → account.Consistent replay.db address ∧
        (isEmpty account.info = true → account.isSelfdestructed = false →
          ∀ key, (replay.db.commitAccount address account).slots address key = 0)
  | _ => True

section
variable (h : replay.Faithful keepEmpty parent)
include h
theorem setInfo_faithful (address : Address) (info : AccountInfo) :
    (replay.setInfo address info).Faithful keepEmpty parent := by
  obtain ⟨original, -, present, slotOriginal, rest⟩ := Tracks.follows h address
  refine Tracks.put h (fun _ hne => ⟨update_of_ne hne .., rfl⟩) ⟨original, ?_, present, slotOriginal, rest⟩
  show live keepEmpty (some info) = live keepEmpty (update replay.db.accounts address (some info) address)
  rw [update_self]

theorem writeStorage_faithful (hstray : NoStrayStorage keepEmpty parent)
    (address : Address) (slot value : U256) : (replay.writeStorage address slot value).Faithful keepEmpty parent := by
  have hfollows := Tracks.follows h address
  have htrack : replay.changes.track (replay.db.insertAccountStorage address slot value) address =
      replay.changes.track replay.db address := track_congr rfl
  unfold writeStorage Faithful
  simp only [htrack]
  generalize replay.changes.track replay.db address = change at hfollows
  have hwritten key : (replay.db.insertAccountStorage address slot value).slots address key =
      if key = slot then value else replay.db.slots address key := by
    show update replay.db.slots address _ address key = _
    rw [update_self, Function.update_apply]
  refine Tracks.put h (fun _ hne => ⟨rfl, update_of_ne hne ..⟩) ?_
  constructor
  · exact hfollows.original
  · -- A change without an account has the one of the database, which counts as absent.
    show live keepEmpty (change.info.or (replay.db.accounts address)) = live keepEmpty (replay.db.accounts address)
    cases hinfo : change.info with
    | none => rfl
    | some info =>
      rw [← hfollows.info, hinfo]
      rfl
  · intro key entry hentry
    rw [hwritten]
    by_cases hkey : key = slot
    · subst hkey
      rw [get_setSlot_self] at hentry
      cases hentry
      rw [if_pos rfl]
    · rw [get_setSlot_of_ne _ _ _ hkey] at hentry
      rw [if_neg hkey]
      exact hfollows.present key entry hentry
  · intro key entry hentry hknown
    by_cases hkey : key = slot
    · subst hkey
      rw [get_setSlot_self] at hentry
      cases hentry
      exact hfollows.original_getD hstray hknown key
    · rw [get_setSlot_of_ne _ _ _ hkey] at hentry
      exact hfollows.slotOriginal key entry hentry hknown
  · intro key hentry
    have hkey : key ≠ slot := by
      rintro rfl
      rw [get_setSlot_self] at hentry
      cases hentry
    rw [get_setSlot_of_ne _ _ _ hkey] at hentry
    rw [hwritten, if_neg hkey]
    exact hfollows.rest key hentry

/-- **Every event keeps the change set faithful.** -/
theorem step_faithful (hstray : NoStrayStorage keepEmpty parent) (event : BlockEvent)
    (hadmits : replay.Admits event) : (replay.step event).Faithful keepEmpty parent := by
  cases event with
  | commit =>
    refine Tracks.commit_recorded hstray h ?_
    intro address account hget htouched
    split at hget
    · -- The accounts left empty are the same but for the mark.
      rw [deleteTouchedEmpty, get_mapValues] at hget
      obtain ⟨before, hbefore, rfl⟩ := map_eq_some_iff.mp hget
      unfold EvmAccount.markEmpty at htouched ⊢
      split
      · rename_i hempty
        rw [if_pos hempty] at htouched
        obtain ⟨original, created⟩ := hadmits address before hbefore htouched
        exact ⟨original, created⟩
      · rename_i hkept
        rw [if_neg hkept] at htouched
        exact hadmits address before hbefore htouched
    · exact hadmits address account hget htouched
  | execute =>
    obtain ⟨hkeep, hadmits⟩ := hadmits
    refine Tracks.commit h fun address account hget current _ haccounts hslots htracks => ?_
    refine htracks.recordEmpty hstray (fun htouched => (hadmits address account hget htouched).1.congr hslots)
      fun htouched hinfo hkept => ⟨h.kept.symm.trans hkeep, fun key => ?_⟩
    rw [commitAccount_slots_congr hslots]
    exact (hadmits address account hget htouched).2 hinfo hkept key
  | setInfo address info => exact setInfo_faithful h address info
  | setCode address => exact setInfo_faithful h address _
  | setStorage address slot value =>
    refine writeStorage_faithful ?_ hstray address slot value
    split
    · exact setInfo_faithful h address defaultInfo
    · exact h
  | distributeIncoming coinbase =>
    show (replay.distributeIncoming coinbase).Faithful keepEmpty parent
    unfold distributeIncoming
    split
    · exact h
    · split
      · exact h
      · exact setInfo_faithful (setInfo_faithful h ..) _ _
end

end BlockReplay
end LeafageEvm.Replay
