import LeafageEvm.Runs
import LeafageEvm.Types
import Mathlib.Algebra.Order.BigOperators.Group.List
import Mathlib.Algebra.Order.Group.Nat
import Mathlib.Algebra.Order.Monoid.Prod

/-! The load-shedding worker: the requests that the interceptor lets through are counted by minute,
with the retries that their clients report, and at every tick the rate of retries is compared with a
threshold. After a step that panics or overflows there is no state. -/

namespace LeafageEvm
open List

structure RetryEntry where
  minute : Nat
  /-- `request_counts` and `retry_weighted_counts`. -/
  counts : Nat × Nat

abbrev maxCounts : Nat × Nat := (2 ^ 64 - 1, 2 ^ 64 - 1)

def addCounts (a b : Nat × Nat) : Option (Nat × Nat) :=
  if a + b ≤ maxCounts then some (a + b) else none

namespace RetryRecorder

def add (nowMinute retries : Nat) (entries : List RetryEntry) : Option (List RetryEntry) :=
  match entries.getLast? with
  | some entry =>
    if entry.minute = nowMinute then
      (addCounts entry.counts (1, retries)).map fun counts => entries.dropLast ++ [⟨entry.minute, counts⟩]
    else some (entries ++ [⟨nowMinute, 1, retries⟩])
  | none => some [⟨nowMinute, 1, retries⟩]

def clear (window nowMinute : Nat) : List RetryEntry → Option (List RetryEntry)
  | [] => some []
  | entry :: entries =>
    if 2 ^ 64 ≤ window + entry.minute then none
    else if window + entry.minute ≤ nowMinute then clear window nowMinute entries
    else some (entry :: entries)

/-- The sums of `stat`. -/
def totals (entries : List RetryEntry) : Option (Nat × Nat) :=
  entries.foldlM (fun total entry => addCounts total entry.counts) 0

end RetryRecorder

structure LoadConfig where
  window : Nat
  /-- The quotient of two counters, zero without requests, is at or above `not_retry_threshold`. -/
  exceeds : Nat × Nat → Bool

/-- The headers, as far as they parse. -/
structure LoadHeaders where
  skipInterceptor : Bool
  loadDeadline : Option U64
  loadRetries : Option U64

def LoadHeaders.retries (headers : LoadHeaders) : Nat :=
  (headers.loadRetries.getD 0).val

/-- `Interceptor::call` at a time in nanoseconds, up to the load check: what is sent to the worker.
A `SystemTime` holds its seconds in an `i64`. -/
def LoadHeaders.call (headers : LoadHeaders) (now : Nat) : Option (Option Nat) :=
  if headers.skipInterceptor then some none
  else if headers.loadDeadline.any (2 ^ 63 ≤ ·.val) then none
  else some (if headers.loadDeadline.any (·.val * 10 ^ 9 < now) then none else headers.retries)

/-- A request stands where the worker receives it; the channel between them may delay it. -/
inductive LoadEvent
  | request (headers : LoadHeaders) (now : Nat)
  | tick (now : Nat)

structure LoadWorker where
  entries : List RetryEntry
  nowMinute : Nat
  otherOverloaded : Bool
  /-- Minute and retries of every request added so far. No step reads them. -/
  added : List (Nat × Nat)

def minuteOf (now : Nat) : Nat :=
  now / 10 ^ 9 / 60

namespace LoadWorker

def new (now : Nat) : LoadWorker :=
  ⟨[], minuteOf now, false, []⟩

def step (config : LoadConfig) : Option LoadWorker → LoadEvent → Option LoadWorker
  | none, _ => none
  | some worker, .request headers now => (headers.call now).bind fun
    | none => some worker
    | some retries =>
      (RetryRecorder.add worker.nowMinute retries worker.entries).map fun entries =>
        { worker with entries, added := worker.added ++ [(worker.nowMinute, retries)] }
  -- the rate is taken before the clock is read and the old minutes are cleared
  | some worker, .tick now =>
    (RetryRecorder.totals worker.entries).bind fun counts =>
      (RetryRecorder.clear config.window (minuteOf now) worker.entries).map fun entries =>
        { worker with entries, nowMinute := minuteOf now, otherOverloaded := config.exceeds counts }

/-! ### What is counted -/

/-- Number and retries of some requests. -/
def reported (requests : List (Nat × Nat)) : Nat × Nat :=
  (requests.length, (requests.map Prod.snd).sum)

/-- The requests added whose minute is in the window at a minute. -/
def inWindow (worker : LoadWorker) (window minute : Nat) : List (Nat × Nat) :=
  worker.added.filter fun request => minute < window + request.1

def tally (entries : List RetryEntry) : Nat × Nat :=
  (entries.map RetryEntry.counts).sum

/-- A deadline that is read can be represented, the counters do not overflow and the clock does not
go back. -/
def Admits (config : LoadConfig) : Option LoadWorker → LoadEvent → Prop
  | none, _ => True
  | some worker, .request headers _ => headers.skipInterceptor = true ∨
    headers.loadDeadline.any (2 ^ 63 ≤ ·.val) = false ∧ tally worker.entries + (1, headers.retries) ≤ maxCounts
  | some worker, .tick now => worker.nowMinute ≤ minuteOf now ∧ config.window + minuteOf now < 2 ^ 64

instance (config : LoadConfig) : ∀ state event, Decidable (Admits config state event)
  | none, _ => inferInstanceAs (Decidable True)
  | some _, .request .. => inferInstanceAs (Decidable (_ ∨ _))
  | some _, .tick _ => inferInstanceAs (Decidable (_ ∧ _))

/-- From the last tick on, the buckets still in the window count the requests in it. -/
structure Counted (window : Nat) (worker : LoadWorker) : Prop where
  sorted : worker.entries.Pairwise (·.minute ≤ ·.minute)
  fresh : ∀ entry ∈ worker.entries, entry.minute ≤ worker.nowMinute ∧ worker.nowMinute < window + entry.minute
  sums : ∀ minute, worker.nowMinute ≤ minute →
    tally (worker.entries.filter fun entry => minute < window + entry.minute) =
      reported (worker.inWindow window minute)
  fits : tally worker.entries ≤ maxCounts
  bound : window + worker.nowMinute < 2 ^ 64

variable {entries : List RetryEntry} {window now retries : Nat} {worker : LoadWorker}
variable {config : LoadConfig} {event : LoadEvent}

theorem foldlM_addCounts {total : Nat × Nat} (h : total + tally entries ≤ maxCounts) :
    entries.foldlM (fun total entry => addCounts total entry.counts) total = some (total + tally entries) := by
  induction entries generalizing total with
  | nil => simp [tally]
  | cons _ _ ih =>
    simp only [tally, map_cons, sum_cons, ← add_assoc] at h ⊢
    rw [foldlM_cons, addCounts, if_pos (le_self_add.trans h)]
    exact ih h

/-- In a deque sorted by minute, what is popped at the front is all that has expired. -/
theorem clear_eq (hsorted : entries.Pairwise (·.minute ≤ ·.minute))
    (hbound : ∀ entry ∈ entries, window + entry.minute < 2 ^ 64) :
    RetryRecorder.clear window now entries = some (entries.filter fun entry => now < window + entry.minute) := by
  induction entries with
  | nil => rfl
  | cons entry _ ih =>
    rw [pairwise_cons] at hsorted
    rw [RetryRecorder.clear, if_neg (not_le.mpr (hbound entry (.head _)))]
    split
    case isTrue => grind
    case isFalse =>
      rw [filter_eq_self.mpr]
      grind

theorem add_eq (now : Nat) (h : tally entries + (1, retries) ≤ maxCounts) : ∃ front counts,
    RetryRecorder.add now retries entries = some (front ++ [⟨now, counts + (1, retries)⟩]) ∧
      (entries = front ++ [⟨now, counts⟩] ∨ entries = front ∧ counts = 0) := by
  rcases eq_nil_or_concat' entries with rfl | ⟨front, entry, rfl⟩
  · exact ⟨[], 0, by simp [RetryRecorder.add], .inr ⟨rfl, rfl⟩⟩
  · rw [RetryRecorder.add, getLast?_concat]
    dsimp only
    split
    case isTrue hsame =>
      subst hsame
      have hfits : entry.counts + (1, retries) ≤ maxCounts := by
        refine (add_le_add_left ?_ _).trans h
        simp [tally]
      exact ⟨front, entry.counts, by simp [addCounts, hfits], .inl rfl⟩
    case isFalse => exact ⟨_, 0, by simp, .inr ⟨rfl, rfl⟩⟩

namespace Counted

theorem tick_eq (h : worker.Counted config.window) : step config (some worker) (.tick now) = some { worker with
    entries := worker.entries.filter fun entry => minuteOf now < config.window + entry.minute
    nowMinute := minuteOf now
    otherOverloaded := config.exceeds (reported (worker.inWindow config.window worker.nowMinute)) } := by
  have htotals : RetryRecorder.totals worker.entries = some (tally worker.entries) := by
    rw [RetryRecorder.totals, foldlM_addCounts] <;> rw [zero_add]
    exact h.fits
  have hbound : ∀ entry ∈ worker.entries, config.window + entry.minute < 2 ^ 64 := fun entry hmem =>
    (Nat.add_le_add_left (h.fresh entry hmem).1 _).trans_lt h.bound
  have htally : tally worker.entries = reported (worker.inWindow config.window worker.nowMinute) := by
    rw [← h.sums _ le_rfl, filter_eq_self.mpr]
    simpa using fun entry hmem => (h.fresh entry hmem).2
  rw [step, htotals, clear_eq h.sorted hbound, htally]
  rfl

theorem add (hwindow : 0 < window) (h : worker.Counted window)
    (hfits : tally worker.entries + (1, retries) ≤ maxCounts) :
    ∃ entries, RetryRecorder.add worker.nowMinute retries worker.entries = some entries ∧
      Counted window { worker with entries, added := worker.added ++ [(worker.nowMinute, retries)] } := by
  obtain ⟨front, counts, hadd, hentries⟩ := add_eq worker.nowMinute hfits
  have hfront : front.Sublist worker.entries := by
    rcases hentries with h | ⟨h, _⟩ <;> simp [h]
  have htally : ∀ p : Nat → Bool,
      tally ((front ++ [(⟨worker.nowMinute, counts + (1, retries)⟩ : RetryEntry)]).filter (p ·.minute)) =
        tally (worker.entries.filter (p ·.minute)) + if p worker.nowMinute then (1, retries) else 0 := by
    intro p
    rcases hentries with h | ⟨h, hzero⟩ <;> cases hp : p worker.nowMinute <;> simp [*, tally, add_assoc]
  refine ⟨_, hadd, pairwise_append.mpr ⟨h.sorted.sublist hfront, pairwise_singleton .., ?_⟩,
    forall_mem_append.mpr ⟨fun entry hmem => h.fresh entry (hfront.subset hmem), ?_⟩,
    fun minute hle => ?_, ?_, h.bound⟩
  · simpa using fun entry hmem => (h.fresh entry (hfront.subset hmem)).1
  · simpa using hwindow
  · rw [htally fun m => minute < window + m, h.sums minute hle]
    by_cases hin : minute < window + worker.nowMinute <;> simp [hin, inWindow, reported]
  · simpa using (htally fun _ => true).trans_le (by simpa using hfits)

theorem tick (h : worker.Counted window) (hle : worker.nowMinute ≤ now) (hbound : window + now < 2 ^ 64) {flag : Bool} :
    Counted window { worker with
      entries := worker.entries.filter fun entry => now < window + entry.minute
      nowMinute := now, otherOverloaded := flag } := by
  refine ⟨h.sorted.sublist filter_sublist, fun entry hmem => ?_, fun minute (hlater : now ≤ minute) => ?_, ?_, hbound⟩
  · obtain ⟨hmem, hin⟩ := mem_filter.mp hmem
    exact ⟨(h.fresh entry hmem).1.trans hle, of_decide_eq_true hin⟩
  · refine .trans ?_ (h.sums minute (hle.trans hlater))
    rw [filter_filter]
    congr 2
    funext _
    simp
    omega
  · exact ((filter_sublist.map _).sum_le_sum fun _ _ => zero_le).trans h.fits

theorem next (hwindow : 0 < config.window) (h : worker.Counted config.window)
    (hadmits : Admits config (some worker) event) :
    ∃ next, step config (some worker) event = some next ∧ next.Counted config.window := by
  cases event with
  | request headers now =>
    rcases hadmits with hskip | ⟨hdeadline, hfits⟩
    · exact ⟨worker, by simp [step, LoadHeaders.call, hskip], h⟩
    · obtain ⟨_, hadd, hcounted⟩ := h.add hwindow hfits
      have hcall : headers.call now = some none ∨ headers.call now = some (some headers.retries) := by
        rw [LoadHeaders.call]
        split_ifs with hskip hbeyond
        · exact .inl rfl
        · cases hdeadline.symm.trans hbeyond
        · exact .inl rfl
        · exact .inr rfl
      rcases hcall with hcall | hcall
      · exact ⟨worker, by rw [step, hcall]; rfl, h⟩
      · exact ⟨_, by rw [step, hcall]; exact congrArg (Option.map _) hadd, hcounted⟩
  | tick => exact ⟨_, h.tick_eq, h.tick hadmits.1 hadmits.2⟩

end Counted

/-- **A run of the interceptor and its worker** whose events are admitted goes through, and the rate
at a tick is that of the requests in the window at the tick before. Those are the requests still in
the window exactly if no minute has left it since. -/
theorem run_rate (config : LoadConfig) (hwindow : 0 < config.window) (now₀ : Nat)
    (hbound : config.window + minuteOf now₀ < 2 ^ 64) (events : List LoadEvent)
    (hrun : RunMeets (step config) (Admits config) (some (new now₀)) events) :
    ∃ worker, events.foldl (step config) (some (new now₀)) = some worker ∧
      let counted := worker.inWindow config.window
      ∀ now, Admits config (some worker) (.tick now) →
        (∃ next, step config (some worker) (.tick now) = some next ∧
          next.otherOverloaded = config.exceeds (reported (counted worker.nowMinute))) ∧
        ((∀ request ∈ counted worker.nowMinute, minuteOf now < config.window + request.1) ↔
          counted worker.nowMinute = counted (minuteOf now)) := by
  obtain ⟨worker, hworker, hcounted⟩ := run_invariant
    (fun state => ∃ worker, state = some worker ∧ worker.Counted config.window)
    (by rintro _ _ ⟨_, rfl, h⟩ hadmits; exact h.next hwindow hadmits)
    ⟨_, rfl, .nil, by simp [new], fun _ _ => rfl, by simp [new, tally], hbound⟩ hrun
  refine ⟨worker, hworker, fun now hadmits => ⟨⟨_, hcounted.tick_eq, rfl⟩, fun hkept => ?_, fun hsame request hmem => ?_⟩⟩
  · refine filter_congr fun request hmem => ?_
    have hkept := hkept request
    have hle := hadmits.1
    simp [inWindow, hmem] at hkept ⊢
    omega
  · rw [hsame] at hmem
    exact of_decide_eq_true (mem_filter.mp hmem).2

/-- A window of one minute, and two retries a request. -/
def oneMinute : LoadConfig :=
  ⟨1, fun counts => counts.1 ≠ 0 ∧ 2 * counts.1 ≤ counts.2⟩

/-- Three requests with six retries, around a tick of their minute: at its next tick they are too many. -/
theorem run_rate_one_minute : ∃ worker next : LoadWorker,
    [.request ⟨false, none, some 3⟩ 0, .request ⟨false, none, some 1⟩ 0, .tick (10 * 10 ^ 9),
      .request ⟨false, none, some 2⟩ (20 * 10 ^ 9)].foldl (step oneMinute) (some (new 0)) = some worker ∧
    step oneMinute (some worker) (.tick (30 * 10 ^ 9)) = some next ∧ next.otherOverloaded = true := by
  obtain ⟨worker, hworker, htick⟩ := run_rate oneMinute (by decide) 0 (by decide)
    [.request ⟨false, none, some 3⟩ 0, .request ⟨false, none, some 1⟩ 0, .tick (10 * 10 ^ 9),
      .request ⟨false, none, some 2⟩ (20 * 10 ^ 9)] (by decide)
  cases hworker
  obtain ⟨⟨next, hnext, hflag⟩, -⟩ := htick (30 * 10 ^ 9) ⟨by decide, by decide⟩
  exact ⟨_, next, rfl, hnext, hflag.trans (by decide)⟩

/-- A deadline beyond the times of the system and retries beyond the counter stop the interceptor and
its worker; a request of the minute before, which has left the window, still counts at a tick. -/
theorem run_fails : ∃ run : List LoadEvent → Option LoadWorker,
    run = (·.foldl (step oneMinute) (some (new 0))) ∧
    run [.request ⟨false, some (-1), none⟩ 0] = none ∧
    run [.request ⟨false, none, some (-1)⟩ 0, .request ⟨false, none, some 1⟩ 0] = none ∧
    oneMinute.exceeds (reported []) = false ∧
    (run [.request ⟨false, none, some 3⟩ 0, .tick (60 * 10 ^ 9)]).map
      (fun worker => (worker.otherOverloaded, worker.inWindow 1 worker.nowMinute)) = some (true, []) :=
  ⟨_, rfl, by decide⟩

end LeafageEvm.LoadWorker
