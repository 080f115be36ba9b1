import LeafageEvm.Ledger
import LeafageEvm.Multicall
import LeafageEvm.Outcome

/-! The workers of a multicall give the answer of the serial loop, whatever the order of their steps. -/

namespace LeafageEvm.Multicall
open List Function
variable {P E : Type} {workers : Nat} {job : Job P E} {pool next : Pool P E workers}

/-! ### The scan and the serial loop -/

namespace Job

theorem fill_append (job : Job P E) (results : List (SingleCallResult P)) (result : SingleCallResult P) :
    job.fill (results ++ [result]) = if job.fastFail && decide (result.code ≠ 0) then some result else none := by
  rw [fill, getLast?_concat, Option.filter_some]

theorem fill_eq_some {results : List (SingleCallResult P)} {last : SingleCallResult P} (h : job.fill results = some last) :
    last ∈ results ∧ (job.fastFail && decide (last.code ≠ 0)) = true := by
  obtain ⟨hlast, hfails⟩ := Option.filter_eq_some_iff.mp h
  exact ⟨mem_of_getLast? hlast, hfails⟩

theorem scanLoop_eq_serialLoop (calls : List (CallOutcome P E)) (resp : MultiCallResp P)
    (hsuccess : resp.success = resp.results.all fun result => decide (result.code = 0)) :
    (job.scanLoop (calls.map job.runCallCatchingPanic) (job.fill resp.results) resp.results).map
        (fun results => (⟨results.all fun result => decide (result.code = 0), results⟩ : MultiCallResp P)) =
      job.serialLoop calls resp := by
  induction calls generalizing resp with
  | nil =>
    show Except.ok (⟨resp.results.all fun result => decide (result.code = 0), resp.results⟩ : MultiCallResp P) = .ok resp
    rw [← hsuccess]
  | cons call _ ih =>
    cases hfill : job.fill resp.results with
    | some last =>
      -- The failure is copied, and the request has failed already.
      obtain ⟨hmem, hfails⟩ := fill_eq_some hfill
      have hcode : ¬ last.code = 0 := by
        simpa using (Bool.and_eq_true_iff.mp hfails).2
      have hnext := ih { resp with results := resp.results ++ [last] } (by
        rw [hsuccess, all_append]
        have hall : (resp.results.all fun result => decide (result.code = 0)) = false :=
          all_eq_false.mpr ⟨last, hmem, by simpa using hcode⟩
        rw [hall, Bool.false_and])
      rw [fill_append, if_pos hfails] at hnext
      simp only [serialLoop, hfill]
      exact hnext
    | none =>
      cases call with
      | panic | error =>
        simp only [serialLoop, hfill]
        rfl
      | answer result =>
        have hnext := ih ⟨resp.success && decide (result.code = 0), resp.results ++ [result]⟩ (by
          rw [hsuccess]
          simp)
        rw [fill_append] at hnext
        simp only [serialLoop, hfill]
        exact hnext

theorem scan_eq_serial {slots : Nat → Option (Except E (SingleCallResult P))}
    (h : ∀ index res, slots index = some res → res = job.run index) : job.scan slots = job.serial := by
  have hslots : ((range job.calls.length).map fun index => (slots index).getD (job.run index)) =
      job.calls.map job.runCallCatchingPanic := by
    apply ext_getElem
    · rw [length_map, length_map, length_range]
    · intro index _ hright
      have hindex : index < job.calls.length := by simpa using hright
      have hrun : job.run index = job.runCallCatchingPanic job.calls[index] := by
        rw [run, getD_eq_getElem?_getD, getElem?_eq_getElem hindex]
        rfl
      rw [getElem_map, getElem_map, getElem_range, ← hrun]
      cases hslot : slots index with
      | none => rfl
      | some res => exact h index res hslot
  rw [scan, hslots]
  exact scanLoop_eq_serialLoop job.calls ⟨true, []⟩ rfl

end Job

/-! ### Claimed calls -/

/-- The index a worker has taken and whose slot it has not set. -/
def claim : Phase P E → Option Nat
  | .check index => some index
  | .execute index => some index
  | .store index _ => some index
  | _ => none

/-- The index a worker has taken and whose call it has not run. -/
def pending : Phase P E → Option Nat
  | .check index => some index
  | .execute index => some index
  | _ => none

theorem claim_of_pending {phase : Phase P E} {index : Nat} (h : pending phase = some index) : claim phase = some index := by
  cases phase <;> first | exact h | exact absurd h nofun

namespace Pool

variable {index : Nat}
variable {actor : Option (Fin workers)} {worker : Fin workers} {move : Move workers} {moves : List (Move workers)}
variable (gates : Fin workers → Gate)

/-- What holds whatever the order of the steps: slots hold what their calls give, no call is claimed twice, and a call that
was passed over comes after one that stops. -/
structure Sound (job : Job P E) (pool : Pool P E workers) : Prop where
  slot : ∀ index res, pool.slots index = some res → index < job.calls.length ∧ res = job.run index ∧ index ∈ pool.executed
  stopAfter : pool.stopAfter = usizeMax ∨ ∃ res, pool.slots pool.stopAfter = some res ∧ job.stops res = true
  claim_lt : ∀ actor index, claim (pool.phases actor) = some index →
    index < pool.next ∧ index < job.calls.length ∧ pool.slots index = none
  claim_inj : ∀ actor other index, claim (pool.phases actor) = some index → claim (pool.phases other) = some index → actor = other
  store : ∀ actor index res, pool.phases actor = .store index res → res = job.run index ∧ index ∈ pool.executed
  stop : ∀ actor index, pool.phases actor = .stop index → ∃ res, pool.slots index = some res ∧ job.stops res = true
  covered : ∀ index, index < pool.next → index < job.calls.length →
    pool.slots index ≠ none ∨ (∃ actor, claim (pool.phases actor) = some index) ∨ pool.stopAfter < index
  done : ∀ actor, pool.phases actor = .done → job.calls.length ≤ pool.next
  nodup : pool.executed.Nodup
  executed_lt : ∀ index ∈ pool.executed, index < pool.next
  pending : ∀ actor index, pending (pool.phases actor) = some index → index ∉ pool.executed

theorem start_sound (job : Job P E) : Sound job (start P E workers) := by
  have hclaim (actor : Option (Fin workers)) : claim ((start P E workers).phases actor) = none := by
    cases actor <;> rfl
  refine ⟨nofun, .inl rfl, ?_, ?_, ?_, ?_, fun index h => absurd h (Nat.not_lt_zero _), ?_, nodup_nil, nofun, ?_⟩
  · intro _ _ h
    rw [hclaim] at h
    cases h
  · intro _ _ _ h
    rw [hclaim] at h
    cases h
  · intro actor _ _ h
    cases actor <;> cases h
  · intro actor _ h
    cases actor <;> cases h
  · intro actor h
    cases actor <;> cases h
  · intro _ _ h
    have hclaimed := claim_of_pending h
    rw [hclaim] at hclaimed
    cases hclaimed

section SetPhase
variable (pool : Pool P E workers) (actor : Option (Fin workers)) (phase : Phase P E)

@[grind =] theorem slots_setPhase : (pool.setPhase actor phase).slots = pool.slots := rfl
@[grind =] theorem next_setPhase : (pool.setPhase actor phase).next = pool.next := rfl
@[grind =] theorem stopAfter_setPhase : (pool.setPhase actor phase).stopAfter = pool.stopAfter := rfl
@[grind =] theorem executed_setPhase : (pool.setPhase actor phase).executed = pool.executed := rfl

@[grind =] theorem phases_setPhase (other : Option (Fin workers)) :
    (pool.setPhase actor phase).phases other = if other = actor then phase else pool.phases other :=
  update_apply ..

end SetPhase

/-- A call that is covered before a step stays covered, but for the claim of the thread that makes the step. -/
theorem covered_setPhase {actor : Option (Fin workers)} {phase : Phase P E} (after : Pool P E workers)
    (hcovered : pool.slots index ≠ none ∨ (∃ holder, claim (pool.phases holder) = some index) ∨ pool.stopAfter < index)
    (hphases : after.phases = pool.phases) (hset : pool.slots index ≠ none → after.slots index ≠ none)
    (hpassed : pool.stopAfter < index → after.stopAfter < index)
    (hown : claim (pool.phases actor) = some index → claim phase = some index ∨ after.stopAfter < index) :
    after.slots index ≠ none ∨ (∃ holder, claim ((after.setPhase actor phase).phases holder) = some index) ∨
      after.stopAfter < index := by
  rcases hcovered with hold | ⟨holder, hholder⟩ | hold
  · exact .inl (hset hold)
  · by_cases heq : holder = actor
    · refine .inr ((hown (heq ▸ hholder)).imp_left fun _ => ⟨actor, ?_⟩)
      rwa [phases_setPhase, if_pos rfl]
    · refine .inr (.inl ⟨holder, ?_⟩)
      rwa [phases_setPhase, if_neg heq, hphases]
  · exact .inr (.inr (hpassed hold))

section
variable (h : Sound job pool) {actor : Option (Fin workers)}
include h
theorem fetch_sound (hphase : pool.phases actor = .fetch) :
    Sound job (({ pool with next := pool.next + 1 }).setPhase actor
      (if pool.next < job.calls.length then .check pool.next else .done)) := by
  obtain ⟨hslot, hstopAfter, hclaim, hinj, hstore, hstop, hcovered, hdone, hnodup, hexecuted, hpending⟩ := h
  -- The index that is taken is new: nobody has claimed it, its slot is empty, and its call has not run.
  have hfree : ∀ other, claim (pool.phases other) ≠ some pool.next := by
    intro other hother
    exact lt_irrefl _ (hclaim other _ hother).1
  have hfresh : pool.next ∉ pool.executed := fun hmem => lt_irrefl _ (hexecuted _ hmem)
  have hempty : pool.slots pool.next = none := by
    cases hset : pool.slots pool.next with
    | none => rfl
    | some res => exact absurd (hslot _ res hset).2.2 hfresh
  constructor
  case covered =>
    intro index hnext hlength
    by_cases heq : index = pool.next
    · subst heq
      refine .inr (.inl ⟨actor, ?_⟩)
      rw [phases_setPhase, if_pos rfl, if_pos hlength]
      rfl
    have hbefore : index < pool.next := lt_of_le_of_ne (Nat.le_of_lt_succ hnext) heq
    refine covered_setPhase _ (hcovered index hbefore hlength) rfl id id fun hown => ?_
    rw [hphase] at hown
    cases hown
  all_goals grind [claim, pending]

theorem check_sound (hphase : pool.phases actor = .check index) :
    Sound job (pool.setPhase actor (if pool.stopAfter < index then .fetch else .execute index)) := by
  obtain ⟨hslot, hstopAfter, hclaim, hinj, hstore, hstop, hcovered, hdone, hnodup, hexecuted, hpending⟩ := h
  constructor
  case covered =>
    intro other hnext hlength
    refine covered_setPhase _ (hcovered other hnext hlength) rfl id id fun hown => ?_
    rw [hphase] at hown
    cases hown
    by_cases hstopped : pool.stopAfter < index
    · exact .inr hstopped
    · rw [if_neg hstopped]
      exact .inl rfl
  all_goals grind [claim, pending]

/-- The call runs, for the first time. -/
theorem execute_sound (hphase : pool.phases actor = .execute index) :
    Sound job (({ pool with executed := pool.executed ++ [index] }).setPhase actor (.store index (job.run index))) := by
  obtain ⟨hslot, hstopAfter, hclaim, hinj, hstore, hstop, hcovered, hdone, hnodup, hexecuted, hpending⟩ := h
  have hfresh : index ∉ pool.executed := hpending actor index (by rw [hphase]; rfl)
  have hclaimed : claim (pool.phases actor) = some index := by rw [hphase]; rfl
  constructor
  case covered =>
    intro other hnext hlength
    refine covered_setPhase _ (hcovered other hnext hlength) rfl id id fun hown => ?_
    rw [hphase] at hown
    exact .inl hown
  case nodup => exact nodup_append.mpr ⟨hnodup, nodup_singleton _, by grind⟩
  case pending =>
    intro other otherIndex hother
    rw [phases_setPhase] at hother
    by_cases heq : other = actor
    · rw [if_pos heq] at hother
      cases hother
    rw [if_neg heq] at hother
    intro hmem
    rcases mem_append.mp hmem with hmem | hmem
    · exact hpending other otherIndex hother hmem
    · rw [mem_singleton.mp hmem] at hother
      exact heq (hinj other actor index (claim_of_pending hother) hclaimed)
  all_goals grind [claim, pending]

/-- The slot is set, and the call is not claimed any more. -/
theorem store_sound {res : Except E (SingleCallResult P)} (hphase : pool.phases actor = .store index res) :
    Sound job (({ pool with slots := update pool.slots index (some ((pool.slots index).getD res)) }).setPhase actor
      (if job.stops res then .stop index else .fetch)) := by
  obtain ⟨hslot, hstopAfter, hclaim, hinj, hstore, hstop, hcovered, hdone, hnodup, hexecuted, hpending⟩ := h
  obtain ⟨-, hlength, hempty⟩ := hclaim actor index (by rw [hphase]; rfl)
  rw [hempty, Option.getD_none]
  have hslots other : update pool.slots index (some res) other = if other = index then some res else pool.slots other :=
    update_apply ..
  generalize update pool.slots index (some res) = slots at hslots
  -- A slot that was set is another one.
  have hother : ∀ {other res'}, pool.slots other = some res' → other ≠ index := by
    rintro _ _ hset rfl
    rw [hempty] at hset
    cases hset
  constructor
  case stopAfter =>
    rcases hstopAfter with hmax | ⟨res', hset, hstops⟩
    · exact .inl hmax
    · refine .inr ⟨res', ?_, hstops⟩
      show slots pool.stopAfter = some res'
      rwa [hslots, if_neg (hother hset)]
  case covered =>
    intro other hnext hlength
    by_cases heq : other = index
    · left
      show slots other ≠ none
      rw [hslots, if_pos heq]
      exact Option.some_ne_none res
    refine covered_setPhase { pool with slots := slots } (hcovered other hnext hlength) rfl (fun _ => ?_) id fun hown => ?_
    · show slots other ≠ none
      rwa [hslots, if_neg heq]
    · rw [hphase] at hown
      exact absurd (Option.some.inj hown).symm heq
  all_goals grind [claim, pending]

theorem stop_sound (hphase : pool.phases actor = .stop index) :
    Sound job (({ pool with stopAfter := min pool.stopAfter index }).setPhase actor .fetch) := by
  obtain ⟨hslot, hstopAfter, hclaim, hinj, hstore, hstop, hcovered, hdone, hnodup, hexecuted, hpending⟩ := h
  obtain ⟨res, hset, hstops⟩ := hstop actor index hphase
  constructor
  case stopAfter =>
    by_cases hle : pool.stopAfter ≤ index
    · rwa [min_eq_left hle]
    · rw [min_eq_right (by omega)]
      exact .inr ⟨res, hset, hstops⟩
  case covered =>
    intro other hnext hlength
    refine covered_setPhase { pool with stopAfter := min pool.stopAfter index } (hcovered other hnext hlength) rfl id
      (lt_of_le_of_lt (min_le_left ..)) fun hown => ?_
    rw [hphase] at hown
    cases hown
  all_goals grind [claim, pending]

/-- **A step of a worker keeps the memory sound.** -/
theorem work_sound (hok : pool.work job actor = some next) : Sound job next := by
  unfold work at hok
  split at hok <;> cases hok
  case h_3 hphase => exact fetch_sound h hphase
  case h_4 _ hphase => exact check_sound h hphase
  case h_5 _ hphase => exact execute_sound h hphase
  case h_6 _ _ hphase => exact store_sound h hphase
  case h_7 _ hphase => exact stop_sound h hphase
end

/-! ### Stages -/

/-- A worker without a thread is idle, and the parent goes from stage to stage when the threads it waits for are done. -/
structure Staged (job : Job P E) (pool : Pool P E workers) : Prop where
  idle : ∀ worker, pool.gates worker ≠ .started → pool.phases (some worker) = .idle
  busy : ∀ worker, pool.gates worker = .started → pool.phases (some worker) ≠ .idle
  parent : pool.phases none ≠ .idle
  skipping : ∀ count, pool.stage = .skipping count →
    pool.phases none = .done ∧ ∀ worker, worker.val < count → pool.gates worker ≠ .queued
  joining : ∀ count, pool.stage = .joining count →
    pool.phases none = .done ∧ ∀ worker, pool.gates worker ≠ .queued ∧
      (worker.val < count → pool.gates worker = .started → pool.phases (some worker) = .done)
  finished : ∀ resp, pool.stage = .finished resp →
    resp = job.serial ∧ pool.phases none = .done ∧
      ∀ worker, pool.gates worker ≠ .queued ∧ (pool.gates worker = .started → pool.phases (some worker) = .done)

theorem start_staged (job : Job P E) : Staged job (start P E workers) :=
  ⟨fun _ _ => rfl, fun _ h => absurd h nofun, nofun, nofun, nofun, nofun⟩

/-- A step of the loop is made by a thread that is neither idle nor done, and leaves it not idle. -/
theorem work_eq_some (hok : pool.work job actor = some next) :
    pool.phases actor ≠ .idle ∧ pool.phases actor ≠ .done ∧ next.phases actor ≠ .idle ∧
      (∀ other, other ≠ actor → next.phases other = pool.phases other) ∧ next.gates = pool.gates ∧ next.stage = pool.stage := by
  unfold work at hok
  split at hok <;> cases hok
  all_goals
    rename_i hphase
    refine ⟨by simp [hphase], by simp [hphase], ?_, fun other hne => update_of_ne hne .., rfl, rfl⟩
    rw [phases_setPhase, if_pos rfl]
    first
    | split <;> nofun
    | nofun

theorem isDone_eq_true {phase : Phase P E} : isDone phase = true ↔ phase = .done := by
  cases phase <;> simp [isDone]

/-- The gates after the parent has come by a worker: it is skipped when no thread has taken it. -/
def skipGate (gates : Fin workers → Gate) (worker : Fin workers) : Fin workers → Gate :=
  if gates worker = .queued then update gates worker .skipped else gates

theorem skipGate_self_ne_queued (worker : Fin workers) : skipGate gates worker worker ≠ .queued := by
  unfold skipGate
  split
  · rw [update_self]
    nofun
  · assumption

theorem skipGate_of_ne {other : Fin workers} (hne : other ≠ worker) : skipGate gates worker other = gates other := by
  unfold skipGate
  split
  · rw [update_of_ne hne]
  · rfl

theorem skipGate_eq_started (worker other : Fin workers) :
    skipGate gates worker other = .started ↔ gates other = .started := by
  by_cases heq : other = worker
  · subst heq
    unfold skipGate
    split
    · rename_i hqueued
      rw [update_self, hqueued]
      constructor <;> nofun
    · rfl
  · rw [skipGate_of_ne gates heq]

theorem startWorker_sound (hstaged : Staged job pool) (h : Sound job pool)
    (hok : pool.startWorker worker = some next) : Sound job next := by
  unfold startWorker at hok
  split at hok <;> cases hok
  rename_i hqueued
  have hidle : pool.phases (some worker) = .idle := hstaged.idle worker (by rw [hqueued]; nofun)
  obtain ⟨hslot, hstopAfter, hclaim, hinj, hstore, hstop, hcovered, hdone, hnodup, hexecuted, hpending⟩ := h
  constructor
  case covered =>
    intro index hnext hlength
    refine covered_setPhase _ (hcovered index hnext hlength) rfl id id fun hown => ?_
    rw [hidle] at hown
    cases hown
  all_goals grind [claim, pending]

/-- How far a thread is from its next call. -/
def rank : Phase P E → Nat
  | .idle => 0
  | .done => 0
  | .fetch => 1
  | .stop _ => 2
  | .store _ _ => 3
  | .execute _ => 4
  | .check _ => 5

def stageRank (workers : Nat) : Stage P E → Nat
  | .working => 2 * workers + 5
  | .skipping count => workers - count + workers + 3
  | .joining count => workers - count + 1
  | .finished _ => 0

def gateRank (gate : Gate) : Nat := if gate = .queued then 2 else 0

/-- What is left to do. -/
def remaining (job : Job P E) (pool : Pool P E workers) : Nat :=
  5 * (job.calls.length - pool.next) + ∑ actor, rank (pool.phases actor) + ∑ worker, gateRank (pool.gates worker) +
    stageRank workers pool.stage

theorem remaining_setPhase (job : Job P E) (pool : Pool P E workers) (actor : Option (Fin workers)) (phase : Phase P E) :
    (pool.setPhase actor phase).remaining job + rank (pool.phases actor) = pool.remaining job + rank phase := by
  have hsum := sum_update (fun _ phase => rank phase) pool.phases actor phase
  unfold remaining setPhase
  simp only
  omega

theorem work_remaining (hok : pool.work job actor = some next) : next.remaining job < pool.remaining job := by
  unfold work at hok
  split at hok <;> cases hok
  case h_3 hphase =>
    have hset := remaining_setPhase job { pool with next := pool.next + 1 } actor
      (if pool.next < job.calls.length then .check pool.next else .done)
    have hnext : ({ pool with next := pool.next + 1 } : Pool P E _).remaining job + 5 * (job.calls.length - pool.next) =
        pool.remaining job + 5 * (job.calls.length - (pool.next + 1)) := by
      unfold remaining
      simp only
      omega
    simp only [hphase] at hset
    by_cases hlt : pool.next < job.calls.length
    · simp only [if_pos hlt, rank] at hset ⊢
      omega
    · simp only [if_neg hlt, rank] at hset ⊢
      omega
  case h_4 index hphase =>
    have hset := remaining_setPhase job pool actor (if pool.stopAfter < index then .fetch else .execute index)
    rw [hphase] at hset
    by_cases hlt : pool.stopAfter < index
    · simp only [if_pos hlt, rank] at hset ⊢
      omega
    · simp only [if_neg hlt, rank] at hset ⊢
      omega
  case h_5 index hphase =>
    have hset := remaining_setPhase job { pool with executed := pool.executed ++ [index] } actor (.store index (job.run index))
    have hsame : ({ pool with executed := pool.executed ++ [index] } : Pool P E workers).remaining job = pool.remaining job := rfl
    simp only [hphase, rank] at hset
    omega
  case h_6 index res hphase =>
    have hset := remaining_setPhase job
      { pool with slots := update pool.slots index (some ((pool.slots index).getD res)) } actor
      (if job.stops res then .stop index else .fetch)
    have hsame : ({ pool with slots := update pool.slots index (some ((pool.slots index).getD res)) } :
      Pool P E workers).remaining job = pool.remaining job := rfl
    simp only [hphase] at hset
    by_cases hstops : job.stops res = true
    · simp only [if_pos hstops, rank] at hset ⊢
      omega
    · simp only [if_neg hstops, rank] at hset ⊢
      omega
  case h_7 index hphase =>
    have hset := remaining_setPhase job { pool with stopAfter := min pool.stopAfter index } actor .fetch
    have hsame : ({ pool with stopAfter := min pool.stopAfter index } : Pool P E workers).remaining job = pool.remaining job := rfl
    simp only [hphase, rank] at hset
    omega

theorem startWorker_remaining (hok : pool.startWorker worker = some next) :
    next.remaining job < pool.remaining job := by
  unfold startWorker at hok
  split at hok <;> cases hok
  rename_i hqueued
  have hset := remaining_setPhase job { pool with gates := update pool.gates worker .started } (some worker) .fetch
  have hgates := sum_update (fun _ gate => gateRank gate) pool.gates worker .started
  have hstarted : gateRank .started = 0 := rfl
  have hbefore : gateRank .queued = 2 := rfl
  have hremaining : ({ pool with gates := update pool.gates worker .started } : Pool P E workers).remaining job + 2 =
      pool.remaining job := by
    simp only [hqueued] at hgates
    unfold remaining
    simp only
    omega
  simp only [rank] at hset
  omega

section
variable (hok : pool.parent job = some next)
include hok
theorem parent_fields :
    next.slots = pool.slots ∧ next.next = pool.next ∧ next.stopAfter = pool.stopAfter ∧ next.phases = pool.phases ∧
      next.executed = pool.executed := by
  unfold parent at hok
  split at hok
  case h_1 =>
    split at hok <;> cases hok
    exact ⟨rfl, rfl, rfl, rfl, rfl⟩
  case h_2 =>
    split at hok <;> cases hok <;> exact ⟨rfl, rfl, rfl, rfl, rfl⟩
  case h_3 =>
    split at hok
    · split at hok <;> cases hok
      exact ⟨rfl, rfl, rfl, rfl, rfl⟩
    · cases hok
      exact ⟨rfl, rfl, rfl, rfl, rfl⟩
  case h_4 => cases hok

theorem parent_sound (h : Sound job pool) : Sound job next := by
  obtain ⟨hslots, hnext, hstopAfter, hphases, hexecuted⟩ := parent_fields hok
  obtain ⟨_, _, _, _, _, _, _, _, _, _, _⟩ := h
  constructor <;> simp only [hslots, hnext, hstopAfter, hphases, hexecuted] <;> assumption

theorem parent_remaining : next.remaining job < pool.remaining job := by
  unfold parent at hok
  split at hok
  case h_1 hstage =>
    split at hok <;> cases hok
    unfold remaining
    simp only [hstage, stageRank]
    omega
  case h_2 count hstage =>
    split at hok <;> cases hok
    · rename_i hlt
      have hgates : ∑ worker, gateRank ((if pool.gates ⟨count, hlt⟩ = .queued then
          update pool.gates ⟨count, hlt⟩ .skipped else pool.gates) worker) ≤ ∑ worker, gateRank (pool.gates worker) := by
        split
        · have hsum := sum_update (fun _ gate => gateRank gate) pool.gates ⟨count, hlt⟩ .skipped
          have hskipped : gateRank .skipped = 0 := rfl
          omega
        · exact le_rfl
      unfold remaining
      simp only [hstage, stageRank]
      omega
    · unfold remaining
      simp only [hstage, stageRank]
      omega
  case h_3 _ hstage =>
    split at hok
    · split at hok <;> cases hok
      unfold remaining
      simp only [hstage, stageRank]
      omega
    cases hok
    unfold remaining
    simp only [hstage, stageRank]
    omega
  case h_4 => cases hok
end

/-- **Every step leaves less to do.** -/
theorem step_remaining (hok : pool.step job move = some next) : next.remaining job < pool.remaining job := by
  cases move with
  | work => exact work_remaining hok
  | start => exact startWorker_remaining hok
  | parent => exact parent_remaining hok

theorem exists_work (job : Job P E) (hidle : pool.phases actor ≠ .idle) (hdone : pool.phases actor ≠ .done) :
    ∃ next, pool.work job actor = some next := by
  unfold work
  split
  · exact absurd ‹_› hidle
  · exact absurd ‹_› hdone
  all_goals exact ⟨_, rfl⟩

section
variable (h : Staged job pool)
include h
theorem work_staged (hok : pool.work job actor = some next) : Staged job next := by
  obtain ⟨hidle, hdone, hmoved, hothers, hgates, hstage⟩ := work_eq_some hok
  -- A thread that is done takes no step, so it stays done.
  have hstays : ∀ other, pool.phases other = .done → next.phases other = .done := by
    intro other hother
    by_cases heq : other = actor
    · exact absurd (heq ▸ hother) hdone
    · rw [hothers other heq, hother]
  constructor
  · intro worker hgate
    rw [hgates] at hgate
    by_cases heq : some worker = actor
    · exact absurd (heq ▸ h.idle worker hgate) hidle
    · rw [hothers _ heq, h.idle worker hgate]
  · intro worker hgate
    rw [hgates] at hgate
    by_cases heq : some worker = actor
    · rwa [heq]
    · rw [hothers _ heq]
      exact h.busy worker hgate
  · by_cases heq : none = actor
    · rwa [heq]
    · rw [hothers _ heq]
      exact h.parent
  · intro count hcount
    obtain ⟨hparent, hskipped⟩ := h.skipping count (hstage ▸ hcount)
    exact ⟨hstays _ hparent, hgates ▸ hskipped⟩
  · intro count hcount
    obtain ⟨hparent, hjoined⟩ := h.joining count (hstage ▸ hcount)
    refine ⟨hstays _ hparent, fun worker => ?_⟩
    rw [hgates]
    exact ⟨(hjoined worker).1, fun hlt hgate => hstays _ ((hjoined worker).2 hlt hgate)⟩
  · intro resp hresp
    obtain ⟨hserial, hparent, hall⟩ := h.finished resp (hstage ▸ hresp)
    refine ⟨hserial, hstays _ hparent, fun worker => ?_⟩
    rw [hgates]
    exact ⟨(hall worker).1, fun hgate => hstays _ ((hall worker).2 hgate)⟩

theorem startWorker_staged (hok : pool.startWorker worker = some next) : Staged job next := by
  unfold startWorker at hok
  split at hok <;> cases hok
  rename_i hqueued
  constructor
  · intro other hgate
    have hne : other ≠ worker := by
      rintro rfl
      exact hgate (update_self ..)
    have hgate : pool.gates other ≠ .started := by
      rwa [← update_of_ne hne Gate.started pool.gates]
    rw [phases_setPhase, if_neg fun heq => hne (Option.some.inj heq)]
    exact h.idle other hgate
  · intro other hgate
    rw [phases_setPhase]
    by_cases heq : other = worker
    · rw [if_pos (congrArg some heq)]
      nofun
    rw [if_neg fun hsome => heq (Option.some.inj hsome)]
    have hgate : pool.gates other = .started := by
      rwa [← update_of_ne heq Gate.started pool.gates]
    exact h.busy other hgate
  · exact h.parent
  · intro count hcount
    obtain ⟨hparent, hskipped⟩ := h.skipping count hcount
    refine ⟨by rw [phases_setPhase]; exact hparent, ?_⟩
    intro other hlt
    show update pool.gates worker .started other ≠ .queued
    by_cases heq : other = worker
    · rw [heq, update_self]
      nofun
    · rw [update_of_ne heq]
      exact hskipped other hlt
  -- A parent that has come further has left no gate queued.
  · intro count hcount
    exact absurd hqueued ((h.joining count hcount).2 worker).1
  · intro resp hresp
    exact absurd hqueued ((h.finished resp hresp).2.2 worker).1

theorem skip_staged {count : Nat} (hstage : pool.stage = .skipping count) (hlt : count < workers) :
    Staged job { pool with gates := skipGate pool.gates ⟨count, hlt⟩, stage := .skipping (count + 1) } := by
  obtain ⟨hparent, hskipped⟩ := h.skipping count hstage
  refine ⟨fun worker hgate => ?_, fun worker hgate => ?_, h.parent, ?_, nofun, nofun⟩
  · exact h.idle worker fun hstarted => hgate ((skipGate_eq_started ..).mpr hstarted)
  · exact h.busy worker ((skipGate_eq_started ..).mp hgate)
  · intro _ hcount
    cases hcount
    refine ⟨hparent, fun worker _ => ?_⟩
    by_cases heq : worker = ⟨count, hlt⟩
    · rw [heq]
      exact skipGate_self_ne_queued _ _
    show skipGate _ _ worker ≠ .queued
    rw [skipGate_of_ne _ heq]
    have hne : worker.val ≠ count := fun hval => heq (Fin.ext hval)
    exact hskipped worker (by omega)

theorem join_staged {count : Nat} (hstage : pool.stage = .joining count) (hlt : count < workers)
    (hready : ¬ (pool.gates ⟨count, hlt⟩ = .started ∧ isDone (pool.phases (some ⟨count, hlt⟩)) = false)) :
    Staged job { pool with stage := .joining (count + 1) } := by
  obtain ⟨hparent, hjoined⟩ := h.joining count hstage
  refine ⟨h.idle, h.busy, h.parent, nofun, ?_, nofun⟩
  intro _ hcount
  cases hcount
  refine ⟨hparent, fun worker => ⟨(hjoined worker).1, fun _ hgate => ?_⟩⟩
  by_cases heq : worker = ⟨count, hlt⟩
  · rw [heq]
    rw [heq] at hgate
    by_contra hnot
    exact hready ⟨hgate, by simpa [← isDone_eq_true] using hnot⟩
  · have hne : worker.val ≠ count := fun hval => heq (Fin.ext hval)
    exact (hjoined worker).2 (by omega) hgate

theorem parent_staged (hsound : Sound job pool) (hok : pool.parent job = some next) : Staged job next := by
  unfold parent at hok
  split at hok
  case h_1 _ =>
    split at hok <;> cases hok
    rename_i hdone
    refine ⟨h.idle, h.busy, h.parent, ?_, nofun, nofun⟩
    intro _ hcount
    cases hcount
    exact ⟨isDone_eq_true.mp hdone, fun worker hlt => absurd hlt (Nat.not_lt_zero _)⟩
  case h_2 count hstage =>
    split at hok <;> cases hok
    · rename_i hlt
      exact skip_staged h hstage hlt
    obtain ⟨hparent, hskipped⟩ := h.skipping count hstage
    refine ⟨h.idle, h.busy, h.parent, nofun, ?_, nofun⟩
    intro _ hcount
    cases hcount
    refine ⟨hparent, fun worker => ⟨hskipped worker ?_, fun hlt => absurd hlt (Nat.not_lt_zero _)⟩⟩
    omega
  case h_3 count hstage =>
    split at hok
    · rename_i hlt
      split at hok <;> cases hok
      rename_i hready
      exact join_staged h hstage hlt hready
    cases hok
    obtain ⟨hparent, hjoined⟩ := h.joining count hstage
    refine ⟨h.idle, h.busy, h.parent, nofun, nofun, ?_⟩
    intro _ hresp
    cases hresp
    refine ⟨Job.scan_eq_serial fun index res hslot => (hsound.slot index res hslot).2.1, hparent, fun worker => ?_⟩
    exact ⟨(hjoined worker).1, (hjoined worker).2 (by omega)⟩
  case h_4 => cases hok

theorem Staged.filled (hsound : Sound job pool) (hlength : job.calls.length ≤ usizeMax)
    {resp : Except E (MultiCallResp P)} (hfinished : pool.stage = .finished resp) (hindex : index < job.calls.length)
    (hfirst : ∀ earlier < index, job.stops (job.run earlier) = false) :
    index ∈ pool.executed ∧ pool.slots index = some (job.run index) := by
  obtain ⟨-, hparent, hall⟩ := h.finished resp hfinished
  have hclaim (actor : Option (Fin workers)) : claim (pool.phases actor) = none := by
    cases actor with
    | none => rw [hparent]; rfl
    | some worker =>
      by_cases hgate : pool.gates worker = .started
      · rw [(hall worker).2 hgate]; rfl
      · rw [h.idle worker hgate]; rfl
  have hnext := hsound.done _ hparent
  rcases hsound.covered index (hindex.trans_le hnext) hindex with hset | ⟨_, hactor⟩ | hpassed
  · obtain ⟨res, hres⟩ := Option.ne_none_iff_exists'.mp hset
    obtain ⟨-, rfl, hran⟩ := hsound.slot index res hres
    exact ⟨hran, hres⟩
  · rw [hclaim] at hactor
    cases hactor
  -- A call that was passed over comes after one that stops.
  · rcases hsound.stopAfter with hmax | ⟨res, hset, hstops⟩
    · omega
    · obtain ⟨-, rfl, -⟩ := hsound.slot _ res hset
      rw [hfirst _ hpassed] at hstops
      cases hstops

/-! ### Progress -/

theorem Staged.exists_step (hunfinished : ∀ resp, pool.stage ≠ .finished resp) :
    ∃ move next, (∀ worker, move ≠ .start worker) ∧ pool.step job move = some next := by
  have hparent (hok : ∃ next, pool.parent job = some next) :
      ∃ move next, (∀ worker, move ≠ .start worker) ∧ pool.step job move = some next := ⟨.parent, hok.choose, nofun, hok.choose_spec⟩
  cases hstage : pool.stage with
  | working =>
    by_cases hdone : pool.phases none = .done
    · refine hparent ?_
      unfold Pool.parent
      rw [hstage]
      exact ⟨_, if_pos (isDone_eq_true.mpr hdone)⟩
    · obtain ⟨next, hok⟩ := exists_work job h.parent hdone
      exact ⟨.work none, next, nofun, hok⟩
  | skipping count =>
    by_cases hlt : count < workers
    · refine hparent ?_
      unfold Pool.parent
      rw [hstage]
      exact ⟨_, dif_pos hlt⟩
    refine hparent ?_
    unfold Pool.parent
    rw [hstage]
    exact ⟨_, dif_neg hlt⟩
  | joining count =>
    by_cases hlt : count < workers
    · by_cases hwait : pool.gates ⟨count, hlt⟩ = .started ∧ isDone (pool.phases (some ⟨count, hlt⟩)) = false
      · obtain ⟨hgate, hnot⟩ := hwait
        have hdone : pool.phases (some ⟨count, hlt⟩) ≠ .done := by
          intro hdone
          rw [isDone_eq_true.mpr hdone] at hnot
          cases hnot
        obtain ⟨next, hok⟩ := exists_work job (h.busy _ hgate) hdone
        exact ⟨.work _, next, nofun, hok⟩
      refine hparent ?_
      unfold Pool.parent
      rw [hstage]
      exact ⟨_, (dif_pos hlt).trans (if_neg hwait)⟩
    · refine hparent ?_
      unfold Pool.parent
      rw [hstage]
      exact ⟨_, dif_neg hlt⟩
  | finished resp => exact absurd hstage (hunfinished resp)
end

section
variable (h : Sound job pool ∧ Staged job pool)
include h
/-- **Every step keeps the memory sound and the stages in order.** -/
theorem step_sound (hok : pool.step job move = some next) : Sound job next ∧ Staged job next := by
  cases move with
  | work => exact ⟨work_sound h.1 hok, work_staged h.2 hok⟩
  | start => exact ⟨startWorker_sound h.2 h.1 hok, startWorker_staged h.2 hok⟩
  | parent => exact ⟨parent_sound hok h.1, parent_staged h.2 h.1 hok⟩

theorem runs_sound (hok : pool.runs job moves = some next) : Sound job next ∧ Staged job next := by
  induction moves generalizing pool with
  | nil =>
    cases hok
    exact h
  | cons _ _ ih =>
    obtain ⟨_, hmiddle, hrest⟩ := Option.bind_eq_some_iff.mp hok
    exact ih (step_sound h hmiddle) hrest

/-- From wherever the threads are, those that have started bring the parent to its end. -/
theorem exists_finish :
    ∃ moves last resp, (∀ move ∈ moves, ∀ worker, move ≠ .start worker) ∧ pool.runs job moves = some last ∧
      last.stage = .finished resp := by
  induction hremaining : pool.remaining job using Nat.strong_induction_on generalizing pool with
  | _ n ih =>
    by_cases hfinished : ∃ resp, pool.stage = .finished resp
    · obtain ⟨resp, hresp⟩ := hfinished
      exact ⟨[], pool, resp, nofun, rfl, hresp⟩
    obtain ⟨move, _, hmove, hstep⟩ := h.2.exists_step fun resp hresp => hfinished ⟨resp, hresp⟩
    have hless := step_remaining hstep
    obtain ⟨moves, last, resp, hmoves, hruns, hlast⟩ := ih _ (hremaining ▸ hless) (step_sound h hstep) rfl
    refine ⟨move :: moves, last, resp, forall_mem_cons.mpr ⟨hmove, hmoves⟩, ?_, hlast⟩
    rw [runs, foldlM_cons, hstep]
    exact hruns

/-- No order of steps goes on for ever. -/
theorem length_le_remaining
    (hok : pool.runs job moves = some next) : moves.length + next.remaining job ≤ pool.remaining job := by
  induction moves generalizing pool with
  | nil =>
    cases hok
    show 0 + _ ≤ _
    omega
  | cons _ _ ih =>
    obtain ⟨_, hmiddle, hrest⟩ := Option.bind_eq_some_iff.mp hok
    have hless := step_remaining hmiddle
    have hlater := ih (step_sound h hmiddle) hrest
    rw [length_cons]
    omega
end

/-- **A parallel multicall answers like the serial one**: whatever the order of the steps, the answer is that of the serial
loop, every call it depends on has run before the scan, no call runs twice, and the parent ends without a worker that has
not started. -/
theorem parallel_eq_serial (hlength : job.calls.length ≤ usizeMax) {moves : List (Move workers)}
    (hruns : (start P E workers).runs job moves = some pool) :
    (∀ resp, pool.stage = .finished resp → resp = job.serial ∧
      ∀ index < job.calls.length, (∀ earlier < index, job.stops (job.run earlier) = false) →
        index ∈ pool.executed ∧ pool.slots index = some (job.run index)) ∧
      pool.executed.Nodup ∧ moves.length ≤ (start P E workers).remaining job ∧
      ∃ rest last resp, (∀ move ∈ rest, ∀ worker, move ≠ .start worker) ∧ pool.runs job rest = some last ∧
        last.stage = .finished resp := by
  have hstart : Sound job (start P E workers) ∧ Staged job (start P E workers) := ⟨start_sound job, start_staged job⟩
  have h := runs_sound hstart hruns
  refine ⟨?_, h.1.nodup, ?_, exists_finish h⟩
  · intro resp hresp
    refine ⟨(h.2.finished resp hresp).1, fun index hindex hfirst => ?_⟩
    exact h.2.filled h.1 hlength hresp hindex hfirst
  · have hle := length_le_remaining hstart hruns
    omega

/-- A pooled worker finds the failure of the second call while the parent runs the first; the third is passed over. -/
theorem parallel_eq_serial_failure :
    let job : Job Unit Unit := ⟨[.answer ⟨0, ()⟩, .answer ⟨1, ()⟩, .panic], (), true⟩
    let worker : Option (Fin 1) := some 0
    let moves : List (Move 1) :=
      [.work none, .start 0, .work worker, .work worker, .work worker, .work none, .work none, .work worker, .work worker,
        .work none, .work none, .work none, .work none, .parent, .parent, .parent, .work worker, .parent, .parent]
    ∃ pool, (start Unit Unit 1).runs job moves = some pool ∧ pool.stage = .finished job.serial ∧ pool.executed.Nodup ∧
      job.serial = .ok ⟨false, [⟨0, ()⟩, ⟨1, ()⟩, ⟨1, ()⟩]⟩ := by
  intro job _ moves
  have hlength : job.calls.length ≤ usizeMax := by decide
  obtain ⟨pool, hruns, resp, hstage⟩ : ∃ pool, (start Unit Unit 1).runs job moves = some pool ∧
      ∃ resp, pool.stage = .finished resp := ⟨_, rfl, _, rfl⟩
  obtain ⟨hanswer, hnodup, -⟩ := parallel_eq_serial hlength hruns
  exact ⟨pool, hruns, (hanswer resp hstage).1 ▸ hstage, hnodup, rfl⟩

end Pool
end LeafageEvm.Multicall
