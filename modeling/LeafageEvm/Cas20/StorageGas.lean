import LeafageEvm.Types
import Mathlib.Algebra.BigOperators.Group.Finset.Piecewise
import Mathlib.Algebra.Order.BigOperators.Group.Finset
import Mathlib.Data.Fintype.Prod
import Mathlib.Tactic.Linarith

/-! What CAS20 tokens pay for their storage. A token writes without `SSTORE`, so its frames charge and
refund for themselves. -/

namespace LeafageEvm.Cas20
open Finset

/-- An account and a slot of it. -/
abbrev Slot := Fin (2 ^ 160) × H256

/-- A slot as the journal reports it. -/
structure SlotState where
  current : H256
  original : H256
  warm : Bool

def warmStorageRead : Nat := 100
def coldSload : Nat := 2100
def sstoreSet : Nat := 20000
def sstoreReset : Nat := 5000
def sstoreSentry : Nat := 2300
def sstoreClearsScheduleRefund : Nat := sstoreReset - coldSload + 1900

/-- A write that was paid for, with the slot as it was found. -/
structure SlotWrite where
  slot : Slot
  found : SlotState
  value : H256
  charge : Nat
  refund : Int

structure Journal where
  host : Slot → SlotState
  /-- The refunds of the frames kept, and of the frame that runs. -/
  refund : Int
  /-- Their writes. No step reads them. -/
  writes : List SlotWrite

structure Frame extends Journal where
  readOnly : Bool
  gas : Nat
  outOfGas : Bool
  writeProtected : Bool

/-- Charge and refund of a write, by the arms of `charge_storage_write`. -/
def writeGas (found : SlotState) (value : H256) : Nat × Int :=
  let cost := if found.warm then 0 else coldSload
  if found.current = value then (cost + warmStorageRead, 0)
  else if found.original = found.current then
    if found.original = 0 then (cost + sstoreSet, 0)
    else (cost + (sstoreReset - coldSload), if value = 0 then sstoreClearsScheduleRefund else 0)
  else
    let cleared : Int :=
      if found.original = 0 then 0
      else if found.current = 0 then -sstoreClearsScheduleRefund
      else if value = 0 then sstoreClearsScheduleRefund else 0
    let restored : Nat :=
      if found.original ≠ value then 0
      else if found.original = 0 then sstoreSet - warmStorageRead
      else sstoreReset - coldSload - warmStorageRead
    (cost + warmStorageRead, cleared + restored)

namespace Frame

def chargeGas (frame : Frame) (cost : Nat) : Bool × Frame :=
  if frame.outOfGas then (false, frame)
  else if frame.gas < cost then (false, { frame with gas := 0, outOfGas := true })
  else (true, { frame with gas := frame.gas - cost })

def accessSlot (frame : Frame) (slot : Slot) : Frame :=
  { frame with host := Function.update frame.host slot { frame.host slot with warm := true } }

def chargeRead (frame : Frame) (slot : Slot) : Bool × Frame :=
  (frame.accessSlot slot).chargeGas (if (frame.host slot).warm then warmStorageRead else coldSload)

def chargeStorageWrite (frame : Frame) (slot : Slot) (value : H256) : Bool × Frame :=
  if frame.readOnly then (false, { frame with writeProtected := true })
  else if frame.gas ≤ sstoreSentry then (false, { frame with outOfGas := true })
  else
    let (cost, refund) := writeGas (frame.host slot) value
    { frame.accessSlot slot with refund := frame.refund + refund }.chargeGas cost

def setWord (frame : Frame) (slot : Slot) (value : H256) : Bool × Frame :=
  let (paid, next) := frame.chargeStorageWrite slot value
  if paid then
    (true, { next with
      host := Function.update next.host slot { next.host slot with current := value }
      writes := frame.writes ++ [⟨slot, frame.host slot, value, frame.gas - next.gas, next.refund - frame.refund⟩] })
  else (false, next)

/-- What a token does: any other charge, a read, a write. -/
inductive Op
  | charge (cost : Nat)
  | read (slot : Slot)
  | write (slot : Slot) (value : H256)

def exec (frame : Frame) : Op → Frame
  | .charge cost => (frame.chargeGas cost).2
  | .read slot => (frame.chargeRead slot).2
  | .write slot value => (frame.setWord slot value).2

end Frame

/-- A call of a token, which runs its operations and then returns or reverts, or a frame around such
calls begins or ends. -/
inductive Event
  | call (readOnly : Bool) (gas : Nat) (ops : List Frame.Op) (returns : Bool)
  | enter
  | keep
  | revert

/-- The frames around have saved the journals to go back to. -/
def step : Journal × List Journal → Event → Journal × List Journal
  | (journal, saved), .call readOnly gas ops returns =>
    let frame := ops.foldl Frame.exec ⟨journal, readOnly, gas, false, false⟩
    (if frame.writeProtected || frame.outOfGas || !returns then journal else frame.toJournal, saved)
  | (journal, saved), .enter => (journal, journal :: saved)
  | (journal, saved), .keep => (journal, saved.tail)
  | (journal, saved), .revert => (saved.headD journal, saved.tail)

/-! ### The writes to a slot -/

def netGas (found : SlotState) (value : H256) : Int :=
  (writeGas found value).1 - (writeGas found value).2

def charged (writes : List SlotWrite) : Int :=
  (writes.map fun write => (write.charge - write.refund : Int)).sum

def refunds (writes : List SlotWrite) : Int :=
  (writes.map (·.refund)).sum

/-- What one write to a slot comes to that the transaction has not written before, by EIP-2200, EIP-2929 and EIP-3529: the
access if the slot is cold, and 100 if the value stays, 20000 if the slot is filled, 2900 if it is changed, and the
refund of 4800 less if it is cleared. -/
def slotPrice (original value : H256) (warm : Bool) : Int :=
  (if warm then 0 else 2100) +
    if value = original then 100 else if original = 0 then 20000 else if value = 0 then 2900 - 4800 else 2900

theorem netGas_eq (original value : H256) (warm : Bool) :
    netGas ⟨original, original, warm⟩ value = slotPrice original value warm := by
  unfold netGas writeGas slotPrice sstoreClearsScheduleRefund warmStorageRead coldSload sstoreSet sstoreReset
  dsimp only
  split_ifs <;> simp_all

/-- The slot and the value that an operation writes. -/
def Frame.Op.written : Frame.Op → Option (Slot × H256)
  | .write slot value => some (slot, value)
  | _ => none

/-- The slots and values written so far by the frames kept. -/
def Journal.written (journal : Journal) : List (Slot × H256) := journal.writes.map fun write => (write.slot, write.value)

/-- The refund of a cleared slot, which is taken back when it is filled again. -/
def outstanding (original current : H256) : Int :=
  if original ≠ 0 ∧ current = 0 then sstoreClearsScheduleRefund else 0

/-- The state of a slot after some writes, and what they come to. -/
def Amounts (original : H256) (now : SlotState) (writes : List SlotWrite) : Prop :=
  now.original = original ∧ match writes with
  | [] => now.current = original
  | first :: rest => now.warm = true ∧ (rest.getLastD first).value = now.current ∧
    outstanding original now.current ≤ refunds writes ∧
    ∃ warm, first.found = ⟨original, original, warm⟩ ∧
      charged writes = netGas first.found now.current + warmStorageRead * rest.length

/-- Two writes cost what one does, and a warm access. -/
theorem netGas_netGas (original current value : H256) (warm : Bool) :
    netGas ⟨original, original, warm⟩ current + netGas ⟨current, original, true⟩ value =
      netGas ⟨original, original, warm⟩ value + warmStorageRead := by
  unfold netGas writeGas sstoreClearsScheduleRefund warmStorageRead coldSload sstoreSet sstoreReset
  dsimp only
  split_ifs <;> simp_all

theorem outstanding_le (now : SlotState) (value : H256) : outstanding now.original value ≤
    outstanding now.original now.current + (writeGas now value).2 := by
  unfold outstanding writeGas sstoreClearsScheduleRefund warmStorageRead coldSload sstoreSet sstoreReset
  dsimp only
  split_ifs <;> simp_all

section
variable {original : H256} {now : SlotState} {writes : List SlotWrite} (h : Amounts original now writes)
include h
theorem Amounts.access : Amounts original { now with warm := true } writes := by
  cases writes with
  | nil => exact h
  | cons first rest => exact ⟨h.1, rfl, h.2.2⟩

theorem Amounts.write (slot : Slot) (value : H256) :
    Amounts original { now with current := value, warm := true }
      (writes ++ [⟨slot, now, value, (writeGas now value).1, (writeGas now value).2⟩]) := by
  obtain ⟨rfl, h⟩ := h
  have hbound := outstanding_le now value
  refine ⟨rfl, ?_⟩
  cases writes with
  | nil =>
    obtain ⟨current, _, warm⟩ := now
    cases h
    refine ⟨rfl, rfl, ?_, warm, rfl, by simp [charged, netGas]⟩
    simpa [refunds, outstanding] using hbound
  | cons first rest =>
    obtain ⟨hwarm, -, hrefunds, warm, hfound, hcharged⟩ := h
    have htwo := netGas_netGas now.original now.current value warm
    rw [← hwarm] at htwo
    refine ⟨rfl, by simp, ?_, warm, hfound, ?_⟩
    · simp [refunds] at hrefunds ⊢
      omega
    · simp [charged, hfound] at hcharged ⊢
      simp only [netGas] at *
      linarith

theorem Amounts.refunds_nonneg : 0 ≤ refunds writes := by
  cases writes with
  | nil => simp [refunds]
  | cons first rest =>
    refine le_trans ?_ h.2.2.2.1
    unfold outstanding
    split_ifs <;> simp
end

/-! ### Frames -/

def Sound (original : Slot → H256) (journal : Journal) : Prop :=
  refunds journal.writes = journal.refund ∧
    ∀ slot, Amounts (original slot) (journal.host slot) (journal.writes.filter (·.slot = slot))

variable {original : Slot → H256} {frame : Frame} {journal : Journal}

/-- A change of one slot. -/
theorem Sound.update (h : Sound original journal) {slot : Slot} {now : SlotState} (new : List SlotWrite)
    (hnew : ∀ write ∈ new, write.slot = slot)
    (hslot : Amounts (original slot) now (journal.writes.filter (·.slot = slot) ++ new)) :
    Sound original ⟨Function.update journal.host slot now, journal.refund + refunds new, journal.writes ++ new⟩ := by
  refine ⟨by simp [refunds, ← h.1], fun other => ?_⟩
  by_cases hother : other = slot
  · subst hother
    have hall : new.filter (·.slot = other) = new := by simpa using hnew
    simpa [hall] using hslot
  · have hnone : new.filter (·.slot = other) = [] := by
      simpa using fun write hwrite => (hnew write hwrite).trans_ne (Ne.symm hother)
    simpa [hnone, hother] using h.2 other

theorem Frame.chargeGas_eq {cost : Nat} (h : (frame.chargeGas cost).2.outOfGas = false) :
    frame.outOfGas = false ∧ cost ≤ frame.gas ∧
      frame.chargeGas cost = (true, { frame with gas := frame.gas - cost }) := by
  unfold chargeGas at h ⊢
  grind

theorem Sound.exec {op : Frame.Op} (h : frame.outOfGas = false → Sound original frame.toJournal)
    (hpaid : (frame.exec op).outOfGas = false) : Sound original (frame.exec op).toJournal := by
  cases op with
  | charge cost =>
    obtain ⟨hframe, -, heq⟩ := Frame.chargeGas_eq hpaid
    rw [Frame.exec, heq]
    exact h hframe
  | read slot =>
    obtain ⟨hframe, -, heq⟩ := Frame.chargeGas_eq hpaid
    rw [Frame.exec, Frame.chargeRead, heq]
    simpa [refunds, Frame.accessSlot] using (h hframe).update [] nofun (by simpa using ((h hframe).2 slot).access)
  | write slot value =>
    simp only [Frame.exec, Frame.setWord, Frame.chargeStorageWrite] at hpaid ⊢
    by_cases hreadOnly : frame.readOnly = true
    · rw [if_pos hreadOnly] at hpaid ⊢
      exact h hpaid
    rw [if_neg hreadOnly] at hpaid ⊢
    by_cases hsentry : frame.gas ≤ sstoreSentry
    · rw [if_pos hsentry] at hpaid
      cases hpaid
    rw [if_neg hsentry] at hpaid ⊢
    obtain ⟨hframe, (hle : _ ≤ frame.gas), heq⟩ := Frame.chargeGas_eq (by split at hpaid <;> exact hpaid)
    rw [heq]
    simpa [Frame.accessSlot, refunds, Nat.sub_sub_self hle] using
      (h hframe).update _ (by simp) (((h hframe).2 slot).write slot value)

/-- An operation that did not fail has written what it says, and so did those before it. -/
theorem Frame.exec_written {op : Frame.Op} (hpaid : (frame.exec op).outOfGas = false)
    (hopen : (frame.exec op).writeProtected = false) : frame.outOfGas = false ∧ frame.writeProtected = false ∧
      (frame.exec op).written = frame.written ++ op.written.toList := by
  cases op with
  | charge cost =>
    obtain ⟨hframe, -, heq⟩ := chargeGas_eq hpaid
    rw [exec, heq] at hopen ⊢
    exact ⟨hframe, hopen, (List.append_nil _).symm⟩
  | read slot =>
    obtain ⟨hframe, -, heq⟩ := chargeGas_eq hpaid
    rw [exec, chargeRead, heq] at hopen ⊢
    exact ⟨hframe, hopen, (List.append_nil _).symm⟩
  | write slot value =>
    simp only [exec, setWord, chargeStorageWrite] at hpaid hopen ⊢
    split at hpaid
    · rename_i hreadOnly
      rw [if_pos hreadOnly] at hopen
      cases hopen
    rename_i hreadOnly
    rw [if_neg hreadOnly] at hopen ⊢
    split at hpaid
    · cases hpaid
    rename_i hsentry
    rw [if_neg hsentry] at hopen ⊢
    obtain ⟨hframe, -, heq⟩ := chargeGas_eq (by split at hpaid <;> exact hpaid)
    rw [heq] at hopen ⊢
    exact ⟨hframe, hopen, List.map_append⟩

theorem Frame.foldl_written {ops : List Frame.Op} (hpaid : (ops.foldl exec frame).outOfGas = false)
    (hopen : (ops.foldl exec frame).writeProtected = false) : frame.outOfGas = false ∧ frame.writeProtected = false ∧
      (ops.foldl exec frame).written = frame.written ++ ops.filterMap Op.written := by
  induction ops generalizing frame with
  | nil => exact ⟨hpaid, hopen, (List.append_nil _).symm⟩
  | cons op ops ih =>
    obtain ⟨hpaid', hopen', hwritten⟩ := ih hpaid hopen
    obtain ⟨hframe, hprotected, hop⟩ := exec_written hpaid' hopen'
    refine ⟨hframe, hprotected, hwritten.trans ?_⟩
    rw [hop, List.append_assoc]
    cases hwrites : op.written <;> simp [hwrites]

/-- **A step of the transaction.** -/
theorem Sound.step {state : Journal × List Journal} (h : ∀ journal ∈ state.1 :: state.2, Sound original journal)
    (event : Event) : ∀ journal ∈ (step state event).1 :: (step state event).2, Sound original journal := by
  obtain ⟨journal, saved⟩ := state
  cases event with
  | call readOnly gas ops returns =>
    rw [List.forall_mem_cons] at h ⊢
    refine ⟨?_, h.2⟩
    rw [Cas20.step]
    split
    case isTrue => exact h.1
    case isFalse hkept =>
      simp only [Bool.or_eq_true, not_or, Bool.not_eq_true] at hkept
      exact List.foldlRecOn (motive := fun frame => frame.outOfGas = false → Sound original frame.toJournal)
        ops Frame.exec (fun _ => h.1) (fun frame hframe op _ => Sound.exec hframe) hkept.1.2
  | enter | keep | revert => cases saved <;> simp_all [Cas20.step]

theorem sum_refunds (writes : List SlotWrite) :
    ∑ slot : Slot, refunds (writes.filter (·.slot = slot)) = refunds writes := by
  induction writes with
  | nil => simp [refunds]
  | cons write writes ih =>
    have hcons : ∀ slot, refunds ((write :: writes).filter (·.slot = slot)) =
        (if write.slot = slot then write.refund else 0) + refunds (writes.filter (·.slot = slot)) := by
      intro slot
      by_cases hslot : write.slot = slot <;> simp [refunds, hslot]
    rw [sum_congr rfl fun slot _ => hcons slot, sum_add_distrib, ih, sum_ite_eq]
    simp [refunds]

/-- **The price of a slot.** From the start of a transaction on, the writes of the frames kept come to
one write of the last value over the first, and a warm access for each other write. A call that is not out of gas,
writes only where it may and returns adds its writes to them, and any other call none. -/
theorem storage_charges_net (original : Slot → H256) (warm : Slot → Bool) (events : List Event) :
    let start : Journal := ⟨fun slot => ⟨original slot, original slot, warm slot⟩, 0, []⟩
    let final := (events.foldl step (start, [])).1
    (0 ≤ final.refund ∧ ∀ slot, match final.writes.filter (·.slot = slot) with
      | [] => (final.host slot).current = original slot
      | first :: rest => ∃ warm last, first.found = ⟨original slot, original slot, warm⟩ ∧
        last = (rest.getLastD first).value ∧ (final.host slot).current = last ∧
        charged (first :: rest) = slotPrice (original slot) last warm + 100 * rest.length ∧
        (last = original slot → 0 ≤ charged (first :: rest))) ∧
    ∀ readOnly gas ops returns,
      let frame := ops.foldl Frame.exec ⟨final, readOnly, gas, false, false⟩
      (step (final, []) (.call readOnly gas ops returns)).1.written =
        if frame.outOfGas = false ∧ frame.writeProtected = false ∧ returns = true then
          final.written ++ ops.filterMap Frame.Op.written
        else final.written := by
  intro start final
  have hsound := List.foldlRecOn (motive := fun state => ∀ journal ∈ state.1 :: state.2, Sound original journal)
    events step (b := (start, [])) (by simpa using ⟨rfl, fun _ => ⟨rfl, rfl⟩⟩) fun state h event _ => Sound.step h event
  obtain ⟨hrefund, hslots⟩ := hsound final (.head _)
  refine ⟨⟨?_, fun slot => ?_⟩, fun readOnly gas ops returns => ?_⟩
  · rw [← hrefund, ← sum_refunds]
    exact sum_nonneg fun slot _ => (hslots slot).refunds_nonneg
  · have h := (hslots slot).2
    generalize final.writes.filter _ = writes at h ⊢
    cases writes with
    | nil => exact h
    | cons first rest =>
      obtain ⟨-, hlast, -, warm, hfound, hcharged⟩ := h
      rw [← hlast, hfound, netGas_eq] at hcharged
      refine ⟨warm, _, hfound, rfl, hlast.symm, hcharged, fun hrestored => ?_⟩
      rw [hcharged, hrestored, slotPrice, if_pos rfl]
      split <;> positivity
  · intro frame
    rw [Cas20.step]
    by_cases hkept : frame.outOfGas = false ∧ frame.writeProtected = false ∧ returns = true
    · rw [if_pos hkept, if_neg (by simp [frame] at hkept; simp [hkept])]
      exact (Frame.foldl_written hkept.1 hkept.2.1).2.2
    · rw [if_neg hkept, if_pos ?_]
      cases houtOfGas : frame.outOfGas <;> cases hprotected : frame.writeProtected <;> cases returns <;>
        simp_all [frame]

end LeafageEvm.Cas20
