import LeafageEvm.ArchiveModel
import Mathlib.Data.List.Dedup

/-! `storage_slots` lists the slots of an account that are not zero, in every layout. -/

namespace LeafageEvm.Archive
open VersionTable OrderedMap Nat List
variable {inverted : Bool} {address address' slot : H256} {n : U64}

theorem zeroTail_le (inverted : Bool) (n : U64) : replicate 32 0 ≤ encodeVersionTail inverted n := by
  cases inverted
  · exact encodeBlockNum_le_iff.mpr (Fin.zero_le n)
  · exact encodeBlockNum_le_iff.mpr (Fin.zero_le n.rev)

theorem slotTarget_le_iff {start : H256} :
    slotTarget address start ≤ versionKey inverted (slotOwner address' slot) n ↔
      address < address' ∨ address = address' ∧ start ≤ slot := by
  have hlength : (hashBytes address ++ hashBytes start).length =
      (hashBytes address' ++ hashBytes slot).length := by
    simp
  rw [slotTarget, versionKey, slotOwner, append_le_append_iff hlength,
    append_lt_append_iff (by simp), hashBytes_lt_iff, hashBytes_lt_iff, hashBytes_injective.eq_iff]
  constructor
  · rintro ((hlt | ⟨heq, hlt⟩) | ⟨heq, -⟩)
    · exact .inl hlt
    · exact .inr ⟨heq, hlt.le⟩
    · obtain ⟨haddress, hslot⟩ := append_inj heq (by simp)
      exact .inr ⟨hashBytes_injective haddress, (hashBytes_injective hslot).le⟩
  · rintro (hlt | ⟨rfl, hle⟩)
    · exact .inl (.inl hlt)
    · rcases hle.lt_or_eq with hlt | rfl
      · exact .inl (.inr ⟨rfl, hlt⟩)
      · exact .inr ⟨rfl, zeroTail_le inverted n⟩

theorem slotOwner_le_of_versionKey_le {slot' : H256} {n' : U64}
    (h : versionKey inverted (slotOwner address slot) n ≤ versionKey inverted (slotOwner address' slot') n') :
    address < address' ∨ address = address' ∧ slot ≤ slot' :=
  slotTarget_le_iff.mp ((slotTarget_le_iff.mpr (.inr ⟨rfl, le_rfl⟩)).trans h)

section
variable (inverted : Bool) (address slot : H256) (n : U64)

theorem slot_of_versionKey : ((versionKey inverted (slotOwner address slot) n).drop 32).take 32 = hashBytes slot := by
  rw [versionKey, slotOwner, append_assoc, drop_left' (length_hashBytes address),
    take_left' (length_hashBytes slot)]

theorem address_of_versionKey : (versionKey inverted (slotOwner address slot) n).take 32 = hashBytes address := by
  rw [versionKey, slotOwner, append_assoc, take_left' (length_hashBytes address)]
end

variable {archive : Archive} {blockNum : U64}

/-- The slot has a version. -/
def HasRow (archive : Archive) (address slot : H256) : Prop :=
  ∃ n raw, archive.storage.row archive.backend (versionKey archive.backend.inverted (slotOwner address slot) n) = some raw

theorem hasRow_of_readStorage_ne_zero (hwf : archive.storage.WellFormed archive.backend)
    (h : archive.readStorage blockNum address slot ≠ 0) : archive.HasRow address slot := by
  have hreads := find_readsLatest hwf (slotOwner address slot) blockNum
  unfold readStorage readStorageAndHeight at h
  cases hfind : archive.storage.find archive.backend (slotOwner address slot) blockNum with
  | none =>
    rw [hfind] at h
    exact absurd rfl h
  | some found =>
    rw [hfind] at hreads
    exact ⟨found.1, found.2, hreads.1⟩

/-- The slots of a range that are not zero, each once and with its value. -/
structure Lists (archive : Archive) (blockNum : U64) (address : H256) (range : H256 → Prop) (slots : List (H256 × U256)) :
    Prop where
  mem : ∀ slot, slot ∈ slots.map (·.1) ↔ range slot ∧ archive.readStorage blockNum address slot ≠ 0
  nodup : (slots.map (·.1)).Nodup
  value : ∀ item ∈ slots, item.2 = archive.readStorage blockNum address item.1

theorem Lists.nil {range : H256 → Prop} (h : ∀ slot, range slot → archive.readStorage blockNum address slot = 0) :
    Lists archive blockNum address range [] :=
  ⟨fun slot => iff_of_false not_mem_nil fun hin => hin.2 (h slot hin.1), nodup_nil, nofun⟩

/-- A round puts the slot it finds before those after it. -/
theorem Lists.round {start found : H256} {rest : List (H256 × U256)} (h : Lists archive blockNum address (found < ·) rest)
    (hstart : start ≤ found) (hfirst : ∀ slot, archive.readStorage blockNum address slot ≠ 0 → start ≤ slot → found ≤ slot) :
    Lists archive blockNum address (start ≤ ·) (if archive.readStorage blockNum address found ≠ 0 then
      (found, archive.readStorage blockNum address found) :: rest else rest) := by
  by_cases hzero : archive.readStorage blockNum address found = 0
  · rw [if_neg (not_not.mpr hzero)]
    refine { h with mem := fun slot => (h.mem slot).trans ⟨fun hin => ⟨hstart.trans hin.1.le, hin.2⟩, fun hin => ⟨?_, hin.2⟩⟩ }
    refine lt_of_le_of_ne (hfirst slot hin.2 hin.1) ?_
    rintro rfl
    exact hin.2 hzero
  rw [if_pos hzero]
  refine ⟨fun slot => ?_, nodup_cons.mpr ⟨fun hin => lt_irrefl _ ((h.mem found).mp hin).1, h.nodup⟩,
    forall_mem_cons.mpr ⟨rfl, h.value⟩⟩
  rw [map_cons, mem_cons, h.mem]
  constructor
  · rintro (rfl | hin)
    · exact ⟨hstart, hzero⟩
    · exact ⟨hstart.trans hin.1.le, hin.2⟩
  · exact fun hin => (hfirst slot hin.2 hin.1).eq_or_lt.imp Eq.symm fun hlt => ⟨hlt, hin.2⟩

/-! ### Reads that fail -/

/-- The slot at which the iterator stands after a seek, if it is the account's. -/
def firstSlot (rows : OrderedMap Bytes Bytes) (address start : H256) : Option H256 :=
  (rows.seek (slotTarget address start)).bind fun entry =>
    if entry.1.take 32 = hashBytes address then some (hashOfBytes ((entry.1.drop 32).take 32)) else none

/-- Which reads fail: the seeks of the slot iterator, by where they start, the lookups of slots, and the one iterator of
v3. -/
structure SlotFaults where
  seek : H256 → Bool
  lookup : H256 → Bool
  scan : Bool

inductive SlotsError where
  | read
  | unfinished

/-- The loop of `storage_slots` over reads that may fail. A failed iterator has no key, like one at its end, and the
loop does not ask for its status. -/
def trySlotsFrom (faults : SlotFaults) (archive : Archive) (rows : OrderedMap Bytes Bytes) (blockNum : U64) (address : H256) :
    Nat → H256 → Except SlotsError (List (H256 × U256))
  | 0, _ => .error .unfinished
  | fuel + 1, start =>
    match if faults.seek start then none else firstSlot rows address start with
    | none => .ok []
    | some slot =>
      if faults.lookup slot then .error .read
      else
        let value := archive.readStorage blockNum address slot
        let rest :=
          if h : (slot : Nat) + 1 < 2 ^ 256 then trySlotsFrom faults archive rows blockNum address fuel ⟨slot + 1, h⟩
          else .ok []
        rest.map fun rest => if value ≠ 0 then (slot, value) :: rest else rest

/-- `storage_slots`. The iterator of v3 is asked for its status. -/
def tryStorageSlots (faults : SlotFaults) (archive : Archive) (blockNum : U64) (address : H256) :
    Except SlotsError (List (H256 × U256)) :=
  match archive.storage with
  | .plain rows => trySlotsFrom faults archive rows blockNum address (rows.entries.length + 1) 0
  | .stamped _ => if faults.scan then .error .read else .ok (archive.storageSlots blockNum address)

/-- The seeks of a loop from `start`: there, and after each slot that has a row. -/
def Seeks (archive : Archive) (address start seek : H256) : Prop :=
  seek = start ∨ ∃ slot, archive.HasRow address slot ∧ start ≤ slot ∧ (seek : Nat) = slot + 1

/-- None of the reads of `storage_slots` fails. -/
def SlotFaults.Spare (faults : SlotFaults) (archive : Archive) (address : H256) : Prop :=
  match archive.storage with
  | .plain _ => (∀ seek, Seeks archive address 0 seek → faults.seek seek = false) ∧
    ∀ slot, archive.HasRow address slot → faults.lookup slot = false
  | .stamped _ => faults.scan = false

section Plain
variable {rows : OrderedMap Bytes Bytes}

def rowsAhead (rows : OrderedMap Bytes Bytes) (address start : H256) : List (Bytes × Bytes) :=
  rows.entries.filter fun entry => slotTarget address start ≤ entry.1

section
variable {start next : H256} {raw : Bytes} (hget : rows.get (versionKey inverted (slotOwner address slot) n) = some raw)
  (hstart : start ≤ slot)
include hget hstart
theorem mem_rowsAhead : (versionKey inverted (slotOwner address slot) n, raw) ∈ rowsAhead rows address start :=
  mem_filter.mpr ⟨get_eq_some.mp hget, by simpa [slotTarget_le_iff] using hstart⟩

/-- A round of the loop leaves the row it found behind. -/
theorem rowsAhead_lt (hnext : slot < next) : (rowsAhead rows address next).length < (rowsAhead rows address start).length := by
  have hsub : rowsAhead rows address next =
      (rowsAhead rows address start).filter fun entry => slotTarget address next ≤ entry.1 := by
    unfold rowsAhead
    rw [filter_filter]
    apply filter_congr
    intro entry _
    have htargets : slotTarget address start ≤ slotTarget address next := by
      unfold slotTarget
      rw [append_le_append_iff (by simp), append_lt_append_iff (by simp)]
      exact .inl (.inr ⟨rfl, hashBytes_lt_iff.mpr (hstart.trans_lt hnext)⟩)
    by_cases hle : slotTarget address next ≤ entry.1
    · simp [htargets.trans hle]
    · simp [hle]
  rw [hsub, length_filter_lt_length_iff_exists]
  exact ⟨_, mem_rowsAhead hget hstart, by simpa [slotTarget_le_iff] using hnext⟩
end

variable (hplain : archive.storage = .plain rows) (hwf : archive.storage.WellFormed archive.backend)
include hplain hwf
/-- What a round finds: the first slot at or after its start. -/
theorem firstSlot_cases (address start : H256) :
    firstSlot rows address start = none ∧ (∀ slot, archive.HasRow address slot → slot < start) ∨
    ∃ found, firstSlot rows address start = some found ∧ archive.HasRow address found ∧ start ≤ found ∧
      ∀ slot, archive.HasRow address slot → start ≤ slot → found ≤ slot := by
  simp only [firstSlot, HasRow, hplain]
  rw [hplain] at hwf
  cases hseek : rows.seek (slotTarget address start) with
  | none =>
    refine .inl ⟨rfl, ?_⟩
    rintro _ ⟨n, _, hget⟩
    by_contra hle
    exact (seek_none hseek hget).not_ge (slotTarget_le_iff.mpr (.inr ⟨rfl, not_lt.mp hle⟩))
  | some entry =>
    obtain ⟨key, raw⟩ := entry
    obtain ⟨hget, hle, hfirst⟩ := seek_some hseek
    obtain ⟨owner, n, rfl⟩ := hwf key raw hget
    obtain ⟨_, found, rfl⟩ := exists_slotOwner owner
    simp only [Option.bind_some, address_of_versionKey, slot_of_versionKey, hashOfBytes_hashBytes, hashBytes_injective.eq_iff]
    rcases slotTarget_le_iff.mp hle with hlater | ⟨rfl, hstart⟩
    · refine .inl ⟨if_neg hlater.ne', ?_⟩
      rintro _ ⟨n', raw', hget'⟩
      by_contra hle
      rcases slotOwner_le_of_versionKey_le (hfirst _ raw' hget' (slotTarget_le_iff.mpr (.inr ⟨rfl, not_lt.mp hle⟩))) with
        hlt | ⟨heq, -⟩
      · exact absurd hlt hlater.not_gt
      · exact hlater.ne' heq
    refine .inr ⟨found, if_pos rfl, ⟨n, raw, hget⟩, hstart, ?_⟩
    rintro _ ⟨n', raw', hget'⟩ hahead
    exact ((slotOwner_le_of_versionKey_le (hfirst _ raw' hget' (slotTarget_le_iff.mpr (.inr ⟨rfl, hahead⟩)))).resolve_left
      (lt_irrefl _)).2

/-- The loop ends. It gives an error only if a lookup fails, and the slots if no seek does. -/
theorem trySlotsFrom_cases (faults : SlotFaults) (blockNum : U64) (fuel : Nat) (start : H256)
    (hfuel : (rowsAhead rows address start).length < fuel) :
    trySlotsFrom faults archive rows blockNum address fuel start = .error .read ∧
        (∃ slot, archive.HasRow address slot ∧ faults.lookup slot = true) ∨
      ∃ slots, trySlotsFrom faults archive rows blockNum address fuel start = .ok slots ∧
        ((∀ seek, Seeks archive address start seek → faults.seek seek = false) →
          Lists archive blockNum address (start ≤ ·) slots ∧
            ∀ slot, archive.HasRow address slot → start ≤ slot → faults.lookup slot = false) := by
  have hrow : ∀ {slot}, archive.readStorage blockNum address slot ≠ 0 → archive.HasRow address slot :=
    hasRow_of_readStorage_ne_zero hwf
  induction fuel generalizing start with
  | zero => exact absurd hfuel (not_lt_zero _)
  | succ _ ih =>
    rw [trySlotsFrom]
    cases hseek : faults.seek start with
    | true => exact .inr ⟨[], rfl, fun hseeks => absurd (hseeks start (.inl rfl)) (by simp [hseek])⟩
    | false =>
      simp only [Bool.false_eq_true, if_false]
      rcases firstSlot_cases hplain hwf address start with ⟨hnone, hbehind⟩ | ⟨found, hfound, hfoundRow, hstart, hfirst⟩
      · rw [hnone]
        refine .inr ⟨[], rfl, fun _ => ⟨.nil fun slot hle => by_contra fun hne => ?_, fun slot hslot hle => ?_⟩⟩
        · exact hle.not_gt (hbehind slot (hrow hne))
        · exact absurd (hbehind slot hslot) hle.not_gt
      rw [hfound]
      cases hlookup : faults.lookup found with
      | true => exact .inl ⟨by simp [hlookup], _, hfoundRow, hlookup⟩
      | false =>
        simp only [hlookup, Bool.false_eq_true, if_false]
        by_cases hmax : (found : Nat) + 1 < 2 ^ 256
        · obtain ⟨n, _, hget⟩ := id hfoundRow
          rw [hplain] at hget
          have hlt : found < ⟨found + 1, hmax⟩ := lt_succ_self found
          have hahead := rowsAhead_lt hget hstart hlt
          rw [dif_pos hmax]
          rcases ih ⟨found + 1, hmax⟩ (by omega) with ⟨herror, hfails⟩ | ⟨_, hok, hrest⟩
          · rw [herror]
            exact .inl ⟨rfl, hfails⟩
          rw [hok]
          refine .inr ⟨_, rfl, fun hseeks => ?_⟩
          obtain ⟨hlists, hlookups⟩ := hrest fun seek hnext => hseeks _ (.inr (hnext.elim
            (fun heq => ⟨found, hfoundRow, hstart, congrArg Fin.val heq⟩)
            fun ⟨slot, hslot, hle, heq⟩ => ⟨slot, hslot, hstart.trans (hlt.le.trans hle), heq⟩))
          refine ⟨Lists.round hlists hstart fun slot hne => hfirst slot (hrow hne), fun slot hslot hle => ?_⟩
          rcases (hfirst slot hslot hle).eq_or_lt with rfl | hafter
          · exact hlookup
          · exact hlookups slot hslot hafter
        · have hlast : ∀ slot, ¬ found < slot := fun slot hlt => hmax (lt_of_le_of_lt hlt slot.isLt)
          rw [dif_neg hmax]
          refine .inr ⟨_, rfl, fun _ => ⟨Lists.round (.nil fun slot hlt => absurd hlt (hlast slot)) hstart
            fun slot hne => hfirst slot (hrow hne), fun slot hslot hle => ?_⟩⟩
          rw [← (hfirst slot hslot hle).eq_of_not_lt (hlast slot)]
          exact hlookup

/-- Without faults the loop is the one of `storageSlots`. -/
theorem trySlotsFrom_eq (fuel : Nat) (start : H256) (hfuel : (rowsAhead rows address start).length ≤ fuel) :
    trySlotsFrom ⟨fun _ => false, fun _ => false, false⟩ archive rows blockNum address (fuel + 1) start =
      .ok (archive.slotsFrom rows blockNum address fuel start) := by
  induction fuel generalizing start with
  | zero =>
    rcases firstSlot_cases hplain hwf address start with ⟨hnone, -⟩ | ⟨_, -, ⟨n, _, hget⟩, hstart, -⟩
    · simp [trySlotsFrom, slotsFrom, hnone]
    rw [hplain] at hget
    have hmem := mem_rowsAhead hget hstart
    rw [length_eq_zero_iff.mp (le_zero.mp hfuel)] at hmem
    cases hmem
  | succ _ ih =>
    have hcases := firstSlot_cases hplain hwf address start
    rw [slotsFrom, trySlotsFrom]
    rw [firstSlot] at hcases ⊢
    cases hseek : rows.seek (slotTarget address start) with
    | none => rfl
    | some entry =>
      simp only [hseek, Option.bind_some, Bool.false_eq_true, if_false] at hcases ⊢
      by_cases haddress : entry.1.take 32 = hashBytes address
      · simp only [haddress, if_true, reduceCtorEq, false_and, false_or, Option.some.injEq, exists_eq_left'] at hcases ⊢
        obtain ⟨⟨n, _, hget⟩, hstart, -⟩ := hcases
        rw [hplain] at hget
        generalize hashOfBytes ((entry.1.drop 32).take 32) = found at *
        by_cases hmax : (found : Nat) + 1 < 2 ^ 256
        · have hahead := rowsAhead_lt hget hstart (show found < ⟨found + 1, hmax⟩ from lt_succ_self found)
          rw [dif_pos hmax, dif_pos hmax, ih _ (by omega)]
          rfl
        · rw [dif_neg hmax, dif_neg hmax]
          rfl
      · simp only [haddress, if_false]

end Plain

/-- The keys of an account in v3 are its slots. -/
theorem exists_slot_of_mem_keys {backend : Backend} {rows : OrderedMap (Bytes ×ₗ U64ᵒᵈ) Bytes}
    (hwf : (stamped rows : VersionTable 64).WellFormed backend) {key : Bytes}
    (hkey : key ∈ (rows.entries.map fun entry => (ofLex entry.1).1).dedup.filter fun key => key.take 32 = hashBytes address) :
    ∃ slot, key = (slotOwner address slot).1 := by
  obtain ⟨hmem, haddress⟩ := mem_filter.mp hkey
  obtain ⟨entry, hentry, rfl⟩ := mem_map.mp (mem_dedup.mp hmem)
  obtain ⟨owner, n, heq⟩ := hwf entry.1 entry.2 (get_eq_some.mpr hentry)
  obtain ⟨address', slot, rfl⟩ := exists_slotOwner owner
  rw [heq] at haddress ⊢
  have hsame : hashBytes address' = hashBytes address := by simpa [slotOwner] using haddress
  exact ⟨slot, by rw [hashBytes_injective hsame]; rfl⟩

section
variable (hwf : archive.storage.WellFormed archive.backend) (blockNum : U64)
include hwf
/-- **`storage_slots` lists exactly the slots that are not zero.** -/
theorem storageSlots_lists (address : H256) :
    Lists archive blockNum address (0 ≤ ·) (archive.storageSlots blockNum address) := by
  cases htable : archive.storage with
  | plain rows =>
    simp only [storageSlots, htable]
    have hfuel : (rowsAhead rows address 0).length ≤ rows.entries.length := length_filter_le ..
    rcases trySlotsFrom_cases htable hwf ⟨fun _ => false, fun _ => false, false⟩ blockNum _ 0 (lt_succ_of_le hfuel) with
      ⟨-, slot, -, hfails⟩ | ⟨slots, hok, hslots⟩
    · cases hfails
    · cases (trySlotsFrom_eq htable hwf _ 0 hfuel).symm.trans hok
      exact (hslots fun _ _ => rfl).1
  | stamped rows =>
    simp only [storageSlots, htable]
    have hdrop : ∀ slot, hashOfBytes ((slotOwner address slot).1.drop 32) = slot := by simp [slotOwner]
    have hholds : (stamped rows).WellFormed archive.backend := htable ▸ hwf
    refine ⟨fun slot => ?_, ?_, fun item hitem => ?_⟩
    · simp only [mem_map, mem_filterMap, mem_filter, mem_dedup]
      constructor
      · rintro ⟨_, ⟨_, -, hvalue⟩, rfl⟩
        split at hvalue
        · next hne =>
          cases hvalue
          exact ⟨Fin.zero_le _, hne⟩
        · cases hvalue
      · rintro ⟨-, hne⟩
        obtain ⟨n, _, hget⟩ := hasRow_of_readStorage_ne_zero hwf hne
        rw [htable] at hget
        refine ⟨(slot, archive.readStorage blockNum address slot), ⟨(slotOwner address slot).1, ⟨?_, ?_⟩, ?_⟩, rfl⟩
        · exact ⟨_, get_eq_some.mp hget, rfl⟩
        · simp [slotOwner]
        · simp [hdrop, hne]
    · rw [Nodup, pairwise_map, pairwise_filterMap]
      refine ((nodup_dedup _).filter _).imp_of_mem fun {a b} ha hb hne => ?_
      obtain ⟨slot, rfl⟩ := exists_slot_of_mem_keys hholds ha
      obtain ⟨_, rfl⟩ := exists_slot_of_mem_keys hholds hb
      simp only [hdrop]
      intro _ hitem _ hitem' heq
      split at hitem <;> cases hitem
      split at hitem' <;> cases hitem'
      exact hne (congrArg (fun slot => (slotOwner address slot).1) heq)
    · obtain ⟨_, -, hvalue⟩ := mem_filterMap.mp hitem
      split at hvalue <;> cases hvalue
      rfl

theorem mem_storageSlots (address slot : H256) :
    slot ∈ (archive.storageSlots blockNum address).map (·.1) ↔ archive.readStorage blockNum address slot ≠ 0 := by
  rw [(storageSlots_lists hwf blockNum address).mem]
  exact and_iff_right (Fin.zero_le slot)
end

end LeafageEvm.Archive
