import Mathlib.Algebra.Order.Ring.Nat
import Mathlib.Data.List.Basic

/-! Multicall: the calls of one request, one after another or by several workers that take the next call from a shared
counter. Waiting for the caller to cancel, caches and statistics other than the success flag are left out. -/

namespace LeafageEvm.Multicall

/-- The answer to a single call: its code, 0 for success, and the rest. -/
structure SingleCallResult (P : Type) where
  code : Int
  payload : P
  deriving DecidableEq

/-- How a call comes out: with an answer, with an error of the whole request, or in a panic. -/
inductive CallOutcome (P E : Type) where
  | answer (result : SingleCallResult P)
  | error (error : E)
  | panic

structure MultiCallResp (P : Type) where
  success : Bool
  results : List (SingleCallResult P)
  deriving DecidableEq

/-- A request: how its calls come out, the error that stands for a panic, and whether the first failure ends it. -/
structure Job (P E : Type) where
  calls : List (CallOutcome P E)
  multiCallFailed : E
  fastFail : Bool

namespace Job

variable {P E : Type}

/-! ### One call after another -/

/-- The failure that is copied over the calls that follow. -/
def fill (job : Job P E) (results : List (SingleCallResult P)) : Option (SingleCallResult P) :=
  results.getLast?.filter fun last => job.fastFail && decide (last.code ≠ 0)

/-- The loop of `debank_multi_call_from_state_impl_inner`; a panic ends the task, which the endpoint reports. -/
def serialLoop (job : Job P E) : List (CallOutcome P E) → MultiCallResp P → Except E (MultiCallResp P)
  | [], resp => .ok resp
  | call :: calls, resp =>
    match job.fill resp.results with
    | some last => job.serialLoop calls { resp with results := resp.results ++ [last] }
    | none =>
      match call with
      | .panic => .error job.multiCallFailed
      | .error error => .error error
      | .answer result =>
        job.serialLoop calls
          { success := resp.success && decide (result.code = 0), results := resp.results ++ [result] }

def serial (job : Job P E) : Except E (MultiCallResp P) := job.serialLoop job.calls ⟨true, []⟩

/-! ### Workers -/

/-- `multicall_run_call_catching_panic`. -/
def runCallCatchingPanic (job : Job P E) : CallOutcome P E → Except E (SingleCallResult P)
  | .panic => .error job.multiCallFailed
  | .error error => .error error
  | .answer result => .ok result

def run (job : Job P E) (index : Nat) : Except E (SingleCallResult P) :=
  job.runCallCatchingPanic (job.calls.getD index .panic)

/-- An outcome after which no call counts. -/
def stops (job : Job P E) : Except E (SingleCallResult P) → Bool
  | .error _ => true
  | .ok result => job.fastFail && decide (result.code ≠ 0)

def scanLoop (job : Job P E) : List (Except E (SingleCallResult P)) → Option (SingleCallResult P) →
    List (SingleCallResult P) → Except E (List (SingleCallResult P))
  | [], _, results => .ok results
  | _ :: slots, some fill, results => job.scanLoop slots (some fill) (results ++ [fill])
  | .error error :: _, none, _ => .error error
  | .ok result :: slots, none, results =>
    job.scanLoop slots (if job.fastFail && decide (result.code ≠ 0) then some result else none) (results ++ [result])

/-- The slots as the scan sees them: an empty one is run now. -/
def scan (job : Job P E) (slots : Nat → Option (Except E (SingleCallResult P))) : Except E (MultiCallResp P) :=
  (job.scanLoop ((List.range job.calls.length).map fun index => (slots index).getD (job.run index)) none []).map fun results =>
    ⟨results.all fun result => decide (result.code = 0), results⟩

end Job

/-- Where a worker is in its loop; `idle` before it has a thread. -/
inductive Phase (P E : Type) where
  | idle
  | fetch
  | check (index : Nat)
  | execute (index : Nat)
  | store (index : Nat) (res : Except E (SingleCallResult P))
  | stop (index : Nat)
  | done

inductive Gate where
  | queued
  | started
  | skipped
  deriving DecidableEq

/-- The parent works itself, skips the workers without a thread, waits for the others one by one, and scans. -/
inductive Stage (P E : Type) where
  | working
  | skipping (worker : Nat)
  | joining (worker : Nat)
  | finished (resp : Except E (MultiCallResp P))

/-- The shared memory and all threads: the parent is `none`, a pooled worker `some`. `executed` lists the indices in
the order in which their calls ran. -/
structure Pool (P E : Type) (workers : Nat) where
  slots : Nat → Option (Except E (SingleCallResult P))
  next : Nat
  stopAfter : Nat
  phases : Option (Fin workers) → Phase P E
  gates : Fin workers → Gate
  stage : Stage P E
  executed : List Nat

def usizeMax : Nat := 2 ^ 64 - 1

namespace Pool

variable {P E : Type} {workers : Nat}

def start (P E : Type) (workers : Nat) : Pool P E workers where
  slots := fun _ => none
  next := 0
  stopAfter := usizeMax
  phases := fun actor => if actor.isNone then .fetch else .idle
  gates := fun _ => .queued
  stage := .working
  executed := []

def setPhase (pool : Pool P E workers) (actor : Option (Fin workers)) (phase : Phase P E) : Pool P E workers :=
  { pool with phases := Function.update pool.phases actor phase }

/-- One step of `multicall_worker_loop`. -/
def work (job : Job P E) (pool : Pool P E workers) (actor : Option (Fin workers)) : Option (Pool P E workers) :=
  match pool.phases actor with
  | .idle => none
  | .done => none
  | .fetch =>
    some (({ pool with next := pool.next + 1 }).setPhase actor
      (if pool.next < job.calls.length then .check pool.next else .done))
  | .check index => some (pool.setPhase actor (if pool.stopAfter < index then .fetch else .execute index))
  | .execute index =>
    some (({ pool with executed := pool.executed ++ [index] }).setPhase actor (.store index (job.run index)))
  | .store index res =>
    -- A slot that is set stays as it is.
    some (({ pool with slots := Function.update pool.slots index (some ((pool.slots index).getD res)) }).setPhase actor
      (if job.stops res then .stop index else .fetch))
  | .stop index => some (({ pool with stopAfter := min pool.stopAfter index }).setPhase actor .fetch)

/-- A pooled worker gets a thread: it works if its gate is still queued. -/
def startWorker (pool : Pool P E workers) (worker : Fin workers) : Option (Pool P E workers) :=
  if pool.gates worker = .queued then
    some (({ pool with gates := Function.update pool.gates worker .started }).setPhase (some worker) .fetch)
  else none

def isDone : Phase P E → Bool
  | .done => true
  | _ => false

/-- What the parent does after its own loop. -/
def parent (job : Job P E) (pool : Pool P E workers) : Option (Pool P E workers) :=
  match pool.stage with
  | .working => if isDone (pool.phases none) then some { pool with stage := .skipping 0 } else none
  | .skipping worker =>
    if h : worker < workers then
      some { pool with
        gates := if pool.gates ⟨worker, h⟩ = .queued then Function.update pool.gates ⟨worker, h⟩ .skipped else pool.gates
        stage := .skipping (worker + 1) }
    else some { pool with stage := .joining 0 }
  | .joining worker =>
    if h : worker < workers then
      -- A worker that has started is waited for.
      if pool.gates ⟨worker, h⟩ = .started ∧ isDone (pool.phases (some ⟨worker, h⟩)) = false then none
      else some { pool with stage := .joining (worker + 1) }
    else some { pool with stage := .finished (job.scan pool.slots) }
  | .finished _ => none

end Pool

inductive Move (workers : Nat) where
  | work (actor : Option (Fin workers))
  | start (worker : Fin workers)
  | parent

namespace Pool

variable {P E : Type} {workers : Nat}

def step (job : Job P E) (pool : Pool P E workers) : Move workers → Option (Pool P E workers)
  | .work actor => pool.work job actor
  | .start worker => pool.startWorker worker
  | .parent => pool.parent job

/-- The threads take steps in any order. -/
def runs (job : Job P E) (pool : Pool P E workers) (moves : List (Move workers)) : Option (Pool P E workers) :=
  moves.foldlM (fun pool move => pool.step job move) pool

end Pool
end LeafageEvm.Multicall
