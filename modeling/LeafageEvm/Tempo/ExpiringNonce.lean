import LeafageEvm.Tempo.Base

/-! Expiring nonces: a transaction is known by a hash that counts as used until its expiry. The hashes are kept in a
ring whose pointer moves over entries that have expired; T11 makes the ring and the window of expiries larger. -/

namespace LeafageEvm.Tempo
open List Function TempoHardfork

inductive NonceError where
  | invalidExpiringNonceExpiry
  | expiringNonceReplay
  | expiringNonceSetFull
  deriving DecidableEq

def TempoHardfork.expiringNonceSetCapacity (spec : TempoHardfork) : Nat := if .t11 ≤ spec then 3000000 else 300000

def TempoHardfork.expiringNonceMaxExpirySecs (spec : TempoHardfork) : Nat := if .t11 ≤ spec then 300 else 30

structure NonceManager where
  expiringNonceSeen : Nat → Nat := fun _ => 0
  expiringNonceRing : Nat → Nat := fun _ => 0
  expiringNonceRingPtr : Nat := 0

/-- One call, with the block it is made in. -/
structure NonceRecord where
  spec : TempoHardfork
  timestamp : Nat
  hash : Nat
  validBefore : Nat
  deriving DecidableEq

/-- The time of the block, as far as it fits. -/
def NonceRecord.now (record : NonceRecord) : Nat := min record.timestamp u64Max

namespace NonceManager

def isExpiringNonceSeen (manager : NonceManager) (hash now : Nat) : Bool :=
  manager.expiringNonceSeen hash ≠ 0 ∧ now < manager.expiringNonceSeen hash

/-- The seen set after the entry under the pointer is evicted. -/
def evict (manager : NonceManager) (now : Nat) : Except NonceError (Nat → Nat) :=
  let oldHash := manager.expiringNonceRing manager.expiringNonceRingPtr
  if oldHash ≠ 0 then
    (require (¬ (manager.expiringNonceSeen oldHash ≠ 0 ∧ now < manager.expiringNonceSeen oldHash))
      .expiringNonceSetFull).map fun _ => update manager.expiringNonceSeen oldHash 0
  else .ok manager.expiringNonceSeen

def checkAndMarkExpiringNonce (manager : NonceManager) (record : NonceRecord) : Except NonceError NonceManager :=
  (require (¬ (record.validBefore ≤ record.now ∨
      min (record.now + record.spec.expiringNonceMaxExpirySecs) u64Max < record.validBefore))
    .invalidExpiringNonceExpiry).bind fun _ =>
    (require (¬ (manager.expiringNonceSeen record.hash ≠ 0 ∧ record.now < manager.expiringNonceSeen record.hash))
      .expiringNonceReplay).bind fun _ =>
      (manager.evict record.now).map fun seen =>
        let ptr := manager.expiringNonceRingPtr
        { expiringNonceSeen := update seen record.hash record.validBefore
          expiringNonceRing := update manager.expiringNonceRing ptr record.hash
          expiringNonceRingPtr := if record.spec.expiringNonceSetCapacity ≤ ptr + 1 then 0 else ptr + 1 }

/-- A failing call is reverted. -/
def apply (manager : NonceManager) (record : NonceRecord) : NonceManager :=
  match manager.checkAndMarkExpiringNonce record with
  | .ok next => next
  | .error _ => manager

def run (manager : NonceManager) (records : List NonceRecord) : NonceManager := records.foldl apply manager

/-- The calls that succeed, in order. -/
def accepted : NonceManager → List NonceRecord → List NonceRecord
  | _, [] => []
  | manager, record :: records =>
    match manager.checkAndMarkExpiringNonce record with
    | .ok next => record :: accepted next records
    | .error _ => accepted manager records

variable {manager next : NonceManager} {record : NonceRecord} {log records : List NonceRecord}

/-- What a call that succeeds has checked, and what it leaves. -/
structure Accepts (manager : NonceManager) (record : NonceRecord) (next : NonceManager) : Prop where
  inTime : record.now < record.validBefore
  inWindow : record.validBefore ≤ record.now + record.spec.expiringNonceMaxExpirySecs
  unseen : manager.expiringNonceSeen record.hash ≤ record.now
  evicted : manager.expiringNonceRing manager.expiringNonceRingPtr ≠ 0 →
    manager.expiringNonceSeen (manager.expiringNonceRing manager.expiringNonceRingPtr) ≤ record.now
  self : next.expiringNonceSeen record.hash = record.validBefore
  seen : ∀ hash, hash ≠ record.hash → next.expiringNonceSeen hash = manager.expiringNonceSeen hash ∨
    next.expiringNonceSeen hash = 0 ∧ manager.expiringNonceSeen hash ≤ record.now
  ring : next.expiringNonceRing = update manager.expiringNonceRing manager.expiringNonceRingPtr record.hash
  ptr : next.expiringNonceRingPtr = if record.spec.expiringNonceSetCapacity ≤ manager.expiringNonceRingPtr + 1 then 0
    else manager.expiringNonceRingPtr + 1

theorem checkAndMark_accepts (h : manager.checkAndMarkExpiringNonce record = .ok next) : Accepts manager record next := by
  obtain ⟨hexpiry, h⟩ := check_ok h
  obtain ⟨hreplay, h⟩ := check_ok h
  obtain ⟨seen, hevict, rfl⟩ := map_ok h
  unfold evict at hevict
  have hevicted : manager.expiringNonceRing manager.expiringNonceRingPtr ≠ 0 →
      manager.expiringNonceSeen (manager.expiringNonceRing manager.expiringNonceRingPtr) ≤ record.now := by
    intro hold
    rw [if_pos hold] at hevict
    obtain ⟨_, hcheck, -⟩ := map_ok hevict
    have hcheck := require_eq_ok.mp hcheck
    omega
  have hseen : ∀ hash, seen hash = manager.expiringNonceSeen hash ∨
      seen hash = 0 ∧ manager.expiringNonceSeen hash ≤ record.now := by
    intro hash
    by_cases hold : manager.expiringNonceRing manager.expiringNonceRingPtr ≠ 0
    · have hle := hevicted hold
      rw [if_pos hold] at hevict
      obtain ⟨_, -, rfl⟩ := map_ok hevict
      by_cases heq : hash = manager.expiringNonceRing manager.expiringNonceRingPtr
      · subst heq
        exact .inr ⟨update_self .., hle⟩
      · exact .inl (update_of_ne heq ..)
    · rw [if_neg hold] at hevict
      cases hevict
      exact .inl rfl
  constructor
  · omega
  · omega
  · omega
  · exact hevicted
  · exact update_self ..
  · intro hash hne
    show update seen record.hash record.validBefore hash = _ ∨
      update seen record.hash record.validBefore hash = 0 ∧ _
    rw [update_of_ne hne]
    exact hseen hash
  · rfl
  · rfl

theorem checkAndMark_setFull (h : manager.checkAndMarkExpiringNonce record = .error .expiringNonceSetFull) :
    manager.expiringNonceRing manager.expiringNonceRingPtr ≠ 0 ∧
      record.now < manager.expiringNonceSeen (manager.expiringNonceRing manager.expiringNonceRingPtr) := by
  rcases require_bind_eq_error.mp h with ⟨-, herror⟩ | ⟨-, h⟩
  · cases herror
  rcases require_bind_eq_error.mp h with ⟨-, herror⟩ | ⟨-, h⟩
  · cases herror
  have hevict := map_eq_error.mp h
  unfold evict at hevict
  simp only at hevict
  split at hevict
  · rename_i hold
    have hlive := (require_eq_error.mp (map_eq_error.mp hevict)).1
    exact ⟨hold, by omega⟩
  · cases hevict

/-! ### The ring over a run -/

/-- The entry of a ring that has been overtaken by later calls: how many calls there were, while the pointer is
before it and while the pointer is behind it. -/
def Overtaken (ptr position : Nat) (record : NonceRecord) (later : List NonceRecord) : Prop :=
  (ptr ≤ position → record.spec.expiringNonceSetCapacity + ptr ≤ later.length + 1 + position) ∧
    (position < ptr → ptr ≤ later.length + 1 + position)

/-- The manager after the calls of a log, all of which succeeded. -/
structure Tracks (manager : NonceManager) (log : List NonceRecord) : Prop where
  /-- A hash stays until it has expired. -/
  kept : ∀ a ∈ log, (∀ b ∈ log, b.now < a.validBefore) → manager.expiringNonceSeen a.hash = a.validBefore
  window : ∀ a ∈ log, a.validBefore ≤ a.now + a.spec.expiringNonceMaxExpirySecs
  origin : ∀ hash, manager.expiringNonceSeen hash ≠ 0 →
    ∃ a ∈ log, a.hash = hash ∧ a.validBefore = manager.expiringNonceSeen hash
  ring : ∀ position, manager.expiringNonceRing position ≠ 0 → ∃ earlier a later, log = earlier ++ a :: later ∧
    a.hash = manager.expiringNonceRing position ∧ Overtaken manager.expiringNonceRingPtr position a later
  order : log.Pairwise fun a b => a.now ≤ b.now ∧ a.spec ≤ b.spec
  fresh : log.Pairwise fun a b => a.hash = b.hash → a.validBefore ≤ b.now

theorem Tracks.start : Tracks {} [] := by
  constructor
  · exact nofun
  · exact nofun
  · exact fun _ hne => absurd rfl hne
  · exact fun _ hne => absurd rfl hne
  · exact Pairwise.nil
  · exact Pairwise.nil

theorem capacity_mono {spec spec' : TempoHardfork} (h : spec ≤ spec') :
    spec.expiringNonceSetCapacity ≤ spec'.expiringNonceSetCapacity := by
  have hindex : spec.index ≤ spec'.index := h
  unfold expiringNonceSetCapacity
  split
  · rename_i hold
    have hnew : t11 ≤ spec' := (show t11.index ≤ spec.index from hold).trans hindex
    rw [if_pos hnew]
  · split <;> omega

theorem maxExpiry_mono {spec spec' : TempoHardfork} (h : spec ≤ spec') :
    spec.expiringNonceMaxExpirySecs ≤ spec'.expiringNonceMaxExpirySecs := by
  have hindex : spec.index ≤ spec'.index := h
  unfold expiringNonceMaxExpirySecs
  split
  · rename_i hold
    have hnew : t11 ≤ spec' := (show t11.index ≤ spec.index from hold).trans hindex
    rw [if_pos hnew]
  · split <;> omega

section
variable (haccepts : Accepts manager record next) (h : Tracks manager log)
include haccepts h
theorem Tracks.expired
    (hlater : ∀ a ∈ log, a.now ≤ record.now) {a : NonceRecord} (hmem : a ∈ log) (hhash : a.hash = record.hash) :
    a.validBefore ≤ record.now := by
  by_contra hlive
  have hkept := h.kept a hmem fun b hb => by
    have hle := hlater b hb
    omega
  have hunseen := haccepts.unseen
  rw [← hhash] at hunseen
  omega

/-- The pointer moves on, and the entry it leaves is the newest. -/
theorem Tracks.overtaken
    (hlater : ∀ a ∈ log, a.spec ≤ record.spec) {position : Nat} (hentry : next.expiringNonceRing position ≠ 0) :
    ∃ earlier a later, log ++ [record] = earlier ++ a :: later ∧ a.hash = next.expiringNonceRing position ∧
      Overtaken next.expiringNonceRingPtr position a later := by
  rw [haccepts.ring] at hentry ⊢
  rw [haccepts.ptr]
  unfold Overtaken
  by_cases hposition : position = manager.expiringNonceRingPtr
  · subst hposition
    refine ⟨log, record, [], rfl, by rw [update_self], ?_⟩
    split <;> omega
  rw [update_of_ne hposition] at hentry ⊢
  obtain ⟨earlier, a, later, rfl, hhash, hbefore, hbehind⟩ := h.ring position hentry
  have hcapacity := capacity_mono (hlater a (by simp))
  refine ⟨earlier, a, later ++ [record], by simp, hhash, ?_⟩
  rw [length_append, length_singleton]
  -- the pointer passes the end only when every position behind it has been overtaken
  split <;> omega

theorem Tracks.accept
    (hlater : ∀ a ∈ log, a.now ≤ record.now ∧ a.spec ≤ record.spec) : Tracks next (log ++ [record]) := by
  constructor
  · intro a hmem hlive
    rcases mem_append.mp hmem with hmem | hmem
    · have hnow := hlive record (by simp)
      have hkept := h.kept a hmem fun b hb => hlive b (mem_append_left _ hb)
      have hne : a.hash ≠ record.hash := by
        intro heq
        have hexpired := h.expired haccepts (fun b hb => (hlater b hb).1) hmem heq
        omega
      rcases haccepts.seen a.hash hne with hsame | ⟨-, hgone⟩
      · rw [hsame, hkept]
      · omega
    · cases mem_singleton.mp hmem
      exact haccepts.self
  · intro a hmem
    rcases mem_append.mp hmem with hmem | hmem
    · exact h.window a hmem
    · cases mem_singleton.mp hmem
      exact haccepts.inWindow
  · intro hash hne
    by_cases heq : hash = record.hash
    · subst heq
      exact ⟨record, by simp, rfl, haccepts.self.symm⟩
    rcases haccepts.seen hash heq with hsame | ⟨hzero, -⟩
    · rw [hsame] at hne ⊢
      obtain ⟨a, hmem, horigin⟩ := h.origin hash hne
      exact ⟨a, mem_append_left _ hmem, horigin⟩
    · exact absurd hzero hne
  · exact fun _ => h.overtaken haccepts fun a hmem => (hlater a hmem).2
  · refine pairwise_append.mpr ⟨h.order, pairwise_singleton .., fun a hmem b hb => ?_⟩
    cases mem_singleton.mp hb
    exact hlater a hmem
  · refine pairwise_append.mpr ⟨h.fresh, pairwise_singleton .., fun a hmem b hb hhash => ?_⟩
    cases mem_singleton.mp hb
    exact h.expired haccepts (fun b hb => (hlater b hb).1) hmem hhash
end

/-- Time and forks only go forward. -/
def Chronological (records : List NonceRecord) : Prop := records.Pairwise fun a b => a.timestamp ≤ b.timestamp ∧ a.spec ≤ b.spec

theorem now_mono {a b : NonceRecord} (h : a.timestamp ≤ b.timestamp) : a.now ≤ b.now := by
  unfold NonceRecord.now
  omega

theorem Tracks.run (h : Tracks manager log) (hlog : ∀ a ∈ log, ∀ b ∈ records, a.timestamp ≤ b.timestamp ∧ a.spec ≤ b.spec)
    (hchron : Chronological records) : Tracks (manager.run records) (log ++ manager.accepted records) := by
  induction records generalizing manager log with
  | nil =>
    rw [accepted, append_nil]
    exact h
  | cons record records ih =>
    obtain ⟨hfirst, hrest⟩ := pairwise_cons.mp hchron
    have hrun : manager.run (record :: records) = (manager.apply record).run records := rfl
    rw [hrun]
    unfold accepted apply
    cases hcheck : manager.checkAndMarkExpiringNonce record with
    | ok =>
      have hstep := h.accept (checkAndMark_accepts hcheck) fun a hmem =>
        ⟨now_mono (hlog a hmem record (.head _)).1, (hlog a hmem record (.head _)).2⟩
      have hnext := ih hstep (fun a hmem b hb => ?_) hrest
      · rw [append_assoc] at hnext
        exact hnext
      · rcases mem_append.mp hmem with hmem | hmem
        · exact hlog a hmem b (.tail _ hb)
        · cases mem_singleton.mp hmem
          exact hfirst b hb
    | error => exact ih h (fun a hmem b hb => hlog a hmem b (.tail _ hb)) hrest

theorem accepted_subset {record : NonceRecord} (h : record ∈ manager.accepted records) : record ∈ records := by
  induction records generalizing manager with
  | nil => cases h
  | cons _ _ ih =>
    unfold accepted at h
    split at h
    · rcases mem_cons.mp h with rfl | h
      · exact .head _
      · exact .tail _ (ih h)
    · exact .tail _ (ih h)

/-- No hash is accepted again once it has expired. -/
def NoneRevived (log : List NonceRecord) : Prop := log.Pairwise fun a b => a.hash = b.hash → b.now < a.validBefore

/-- A full ring: as many hashes as the ring had room for when the entry that blocks was made, all of them recent. -/
theorem Tracks.full (h : Tracks manager log) (hrevived : NoneRevived log)
    (hlater : ∀ a ∈ log, a.now ≤ record.now ∧ a.spec ≤ record.spec)
    (hfull : manager.checkAndMarkExpiringNonce record = .error .expiringNonceSetFull) :
    ∃ a ∈ log, a.hash = manager.expiringNonceRing manager.expiringNonceRingPtr ∧ record.now < a.validBefore ∧
      a.spec.expiringNonceSetCapacity ≤ log.countP fun b => decide (record.now < b.now + record.spec.expiringNonceMaxExpirySecs) := by
  obtain ⟨hentry, hlive⟩ := checkAndMark_setFull hfull
  obtain ⟨_, a, later, hlog, hhash, hbefore, -⟩ := h.ring _ hentry
  obtain ⟨b, hb, hbhash, hbexpiry⟩ := h.origin (manager.expiringNonceRing manager.expiringNonceRingPtr) (by omega)
  -- every hash was accepted once, so the entry's expiry is the one its call had
  have hdistinct : (log.map NonceRecord.hash).Nodup := by
    refine pairwise_map.mpr ((h.fresh.and hrevived).imp fun {a b} hboth heq => ?_)
    omega
  have hmem : a ∈ log := by
    rw [hlog]
    simp
  have hsame : b = a := inj_on_of_nodup_map hdistinct hb hmem (hbhash.trans hhash.symm)
  subst hsame
  have hexpiry : record.now < b.validBefore := by omega
  refine ⟨b, hmem, hhash, hexpiry, ?_⟩
  have hwindow := h.window b hmem
  have hmax := maxExpiry_mono (hlater b hmem).2
  have horder := h.order
  rw [hlog] at horder ⊢
  obtain ⟨hafter, -⟩ := pairwise_cons.mp (pairwise_append.mp horder).2.1
  have hall : (b :: later).countP (fun b => decide (record.now < b.now + record.spec.expiringNonceMaxExpirySecs)) =
      (b :: later).length := by
    refine countP_eq_length.mpr fun c hc => decide_eq_true ?_
    rcases mem_cons.mp hc with rfl | hc
    · omega
    · have hle := (hafter c hc).1
      omega
  rw [countP_append, hall, length_cons]
  omega

/-- A call that comes after others. -/
def Follows (records : List NonceRecord) (record : NonceRecord) : Prop :=
  ∀ b ∈ records, b.timestamp ≤ record.timestamp ∧ b.spec ≤ record.spec

/-- **Hashes are protected until they expire.** In every run a hash that was accepted is refused before its expiry and
reported as seen until then. If no hash comes back after its expiry, a call finds the ring full only if, within the
longest expiry before it, as many hashes were accepted as the ring had room for when the blocking hash was accepted. -/
theorem run_protects_hashes (hchron : Chronological records) :
    (∀ a ∈ accepted {} records, ∀ record, Follows records record → record.hash = a.hash → record.now < a.validBefore →
      ∃ error, (run {} records).checkAndMarkExpiringNonce record = .error error) ∧
    (∀ a ∈ accepted {} records, ∀ now, (∀ b ∈ records, b.now ≤ now) → now < a.validBefore →
      (run {} records).isExpiringNonceSeen a.hash now = true) ∧
    (NoneRevived (accepted {} records) → ∀ record, Follows records record →
      (run {} records).checkAndMarkExpiringNonce record = .error .expiringNonceSetFull →
      ∃ a ∈ accepted {} records, a.hash = (run {} records).expiringNonceRing (run {} records).expiringNonceRingPtr ∧
        record.now < a.validBefore ∧ a.spec.expiringNonceSetCapacity ≤
          (accepted {} records).countP fun b => decide (record.now < b.now + record.spec.expiringNonceMaxExpirySecs)) := by
  have htracks := Tracks.start.run nofun hchron
  refine ⟨fun a hmem record hfollows hhash hlive => ?_, fun a hmem now hpast hlive => ?_, fun hrevived record hfollows hfull => ?_⟩
  · cases hcheck : (run {} records).checkAndMarkExpiringNonce record with
    | error error => exact ⟨error, rfl⟩
    | ok =>
      have hexpired := htracks.expired (checkAndMark_accepts hcheck)
        (fun b hb => now_mono (hfollows b (accepted_subset hb)).1) hmem hhash.symm
      omega
  · have hkept := htracks.kept a hmem fun b hb => lt_of_le_of_lt (hpast b (accepted_subset hb)) hlive
    unfold isExpiringNonceSeen
    rw [decide_eq_true_eq]
    omega
  · refine htracks.full hrevived (fun a hmem => ?_) hfull
    have hpast := hfollows a (accepted_subset hmem)
    exact ⟨now_mono hpast.1, hpast.2⟩

/-! ### The ring at the fork -/

theorem accepted_append (records' : List NonceRecord) :
    manager.accepted (records ++ records') = manager.accepted records ++ (manager.run records).accepted records' := by
  induction records generalizing manager with
  | nil => rfl
  | cons record records ih =>
    have hrun : manager.run (record :: records) = (manager.apply record).run records := rfl
    rw [cons_append, hrun]
    cases hcheck : manager.checkAndMarkExpiringNonce record with
    | ok next =>
      have happly : manager.apply record = next := by rw [apply, hcheck]
      simp only [accepted, hcheck, happly]
      rw [ih, cons_append]
    | error =>
      have happly : manager.apply record = manager := by rw [apply, hcheck]
      simp only [accepted, hcheck, happly]
      exact ih

/-- The calls of one second, with hashes that count up. -/
def fill (count : Nat) : List NonceRecord := (List.range count).map fun index => ⟨.t10, 1000, index + 1, 1030⟩

/-- The ring after them. -/
def filled (count : Nat) : NonceManager where
  expiringNonceSeen hash := if 0 < hash ∧ hash ≤ count then 1030 else 0
  expiringNonceRing position := if position < count then position + 1 else 0
  expiringNonceRingPtr := if 300000 ≤ count then 0 else count

theorem filled_step {count : Nat} (h : count < 300000) :
    (filled count).checkAndMarkExpiringNonce ⟨.t10, 1000, count + 1, 1030⟩ = .ok (filled (count + 1)) := by
  have hptr : (filled count).expiringNonceRingPtr = count := if_neg (by omega)
  have hring : (filled count).expiringNonceRing count = 0 := if_neg (lt_irrefl _)
  have hevict : (filled count).evict (NonceRecord.now ⟨.t10, 1000, count + 1, 1030⟩) = .ok (filled count).expiringNonceSeen := by
    unfold evict
    rw [hptr, hring]
    rfl
  have hseen : (filled count).expiringNonceSeen (count + 1) = 0 := if_neg (by omega)
  unfold checkAndMarkExpiringNonce
  rw [hevict, hptr, hseen]
  show Except.ok _ = Except.ok _
  congr 1
  unfold filled
  rw [NonceManager.mk.injEq]
  refine ⟨funext fun hash => ?_, funext fun position => ?_, ?_⟩
  · by_cases heq : hash = count + 1
    · rw [heq, update_self, if_pos (by omega)]
    · rw [update_of_ne heq]
      exact if_congr (by omega) rfl rfl
  · by_cases heq : position = count
    · rw [heq, update_self, if_pos (by omega)]
    · rw [update_of_ne heq]
      exact if_congr (by omega) rfl rfl
  · rfl

theorem run_fill {count : Nat} (h : count ≤ 300000) :
    run {} (fill count) = filled count ∧ accepted {} (fill count) = fill count := by
  induction count with
  | zero =>
    refine ⟨?_, rfl⟩
    show ({} : NonceManager) = _
    unfold filled
    rw [NonceManager.mk.injEq]
    refine ⟨funext fun _ => ?_, funext fun _ => ?_, rfl⟩
    · rw [if_neg (by omega)]
    · rw [if_neg (by omega)]
  | succ count ih =>
    obtain ⟨hrun, haccepted⟩ := ih (by omega)
    have hfill : fill (count + 1) = fill count ++ [⟨.t10, 1000, count + 1, 1030⟩] := by
      unfold fill
      rw [range_succ, map_append]
      rfl
    have hstep := @filled_step count (by omega)
    rw [hfill]
    refine ⟨?_, ?_⟩
    · unfold run at hrun ⊢
      rw [foldl_append, hrun]
      unfold foldl apply
      rw [hstep]
      rfl
    · rw [accepted_append, hrun, haccepted]
      unfold accepted
      rw [hstep]
      rfl

theorem chronological_fill (count : Nat) : Chronological (fill count) := by
  refine pairwise_map.mpr (pairwise_of_forall fun _ _ => ?_)
  exact ⟨le_rfl, Nat.le_refl _⟩

theorem noneRevived_fill (count : Nat) : NoneRevived (fill count) := by
  refine pairwise_map.mpr (pairwise_of_forall fun _ _ _ => ?_)
  exact show 1000 < 1030 by decide

theorem follows_fill {count hash validBefore timestamp : Nat} {spec : TempoHardfork} (hspec : .t10 ≤ spec) (htime : 1000 ≤ timestamp) :
    Follows (fill count) ⟨spec, timestamp, hash, validBefore⟩ := by
  intro _ hmem
  obtain ⟨_, -, rfl⟩ := mem_map.mp hmem
  exact ⟨htime, hspec⟩

/-- A ring that is filled in one second: a hash in it comes again, and one more hash. -/
theorem run_protects_hashes_filled :
    (∃ error, (run {} (fill 300000)).checkAndMarkExpiringNonce ⟨.t10, 1020, 7, 1050⟩ = .error error) ∧
      (run {} (fill 300000)).isExpiringNonceSeen 7 1029 = true ∧
      ∃ a ∈ accepted {} (fill 300000),
        a.hash = (run {} (fill 300000)).expiringNonceRing (run {} (fill 300000)).expiringNonceRingPtr ∧
        NonceRecord.now ⟨.t10, 1001, 400000, 1031⟩ < a.validBefore ∧ a.spec.expiringNonceSetCapacity ≤
          (accepted {} (fill 300000)).countP fun b => decide (NonceRecord.now ⟨.t10, 1001, 400000, 1031⟩ <
            b.now + t10.expiringNonceMaxExpirySecs) := by
  obtain ⟨hrun, haccepted⟩ := run_fill (le_refl 300000)
  have hmem : ⟨.t10, 1000, 7, 1030⟩ ∈ accepted {} (fill 300000) := by
    rw [haccepted]
    exact mem_map.mpr ⟨6, mem_range.mpr (by decide), rfl⟩
  have hprotects := run_protects_hashes (chronological_fill 300000)
  refine ⟨hprotects.1 _ hmem _ (follows_fill (by decide) (by decide)) rfl (by decide), hprotects.2.1 _ hmem 1029 ?_ (by decide), ?_⟩
  · intro _ hother
    obtain ⟨_, -, rfl⟩ := mem_map.mp hother
    exact show 1000 ≤ 1029 by decide
  · have hrevived : NoneRevived (accepted {} (fill 300000)) := by
      rw [haccepted]
      exact noneRevived_fill 300000
    refine hprotects.2.2 hrevived ⟨.t10, 1001, 400000, 1031⟩ (follows_fill (by decide) (by decide)) ?_
    rw [hrun]
    rfl

/-- The ring is filled in the last second before T11. The first call after it finds the ring full, with a tenth of the
hashes the new ring has room for. -/
theorem setFull_below_capacity :
    let record : NonceRecord := ⟨.t11, 1001, 400000, 1100⟩
    Chronological (fill 300000 ++ [record]) ∧ NoneRevived (accepted {} (fill 300000)) ∧
      (run {} (fill 300000)).checkAndMarkExpiringNonce record = .error .expiringNonceSetFull ∧
      (accepted {} (fill 300000)).length < record.spec.expiringNonceSetCapacity := by
  obtain ⟨hrun, haccepted⟩ := run_fill (le_refl 300000)
  rw [hrun, haccepted]
  have hlength : (fill 300000).length = 300000 := by
    unfold fill
    rw [length_map, length_range]
  refine ⟨?_, noneRevived_fill 300000, rfl, ?_⟩
  · refine pairwise_append.mpr ⟨chronological_fill 300000, pairwise_singleton .., ?_⟩
    intro a ha _ hb
    cases mem_singleton.mp hb
    exact follows_fill (by decide) (by decide) a ha
  · rw [hlength]
    decide

end NonceManager
end LeafageEvm.Tempo
