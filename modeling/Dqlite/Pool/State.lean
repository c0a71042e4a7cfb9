import Dqlite.Pool.Work

/-! # The state of the thread pool

`pool_impl_t` with its threads: the pool mutex and who holds it, the producer queues, the worker
inboxes, the completion queue, the counters, the planner's state machine, and for each thread the
point of its code it has reached. Each step of a run is one thread running up to the next point where
another thread can interleave: a section under the pool mutex, or a statement outside it.

The state machine framework (`src/lib/sm.c`, `sm_move`) is not in the sources; `smMove` follows the
spec (§4.2): the move must be allowed by the current state's bitmask, and the invariant is evaluated
on the new state with the old state as `prev`; either failure aborts. -/

namespace Dqlite

/-! ### The planner's state machine -/

/-- `enum planner_states`. -/
inductive PlannerState
  | nothing
  | draining
  | barrier
  | drainingUnord
  | exited
  deriving DecidableEq, Repr

/-- The value of each constant of `enum planner_states`. -/
def PlannerState.toNat : PlannerState → Nat
  | .nothing => 0
  | .draining => 1
  | .barrier => 2
  | .drainingUnord => 3
  | .exited => 4

/-- Modelled from the spec: `BITS(state)`, the bit of a state in an allowed-next mask. -/
def bits (s : PlannerState) : Nat := 2 ^ s.toNat

/-- The `.allowed` masks of `planner_states` (their names and flags are read by no modelled code). -/
def plannerStates : PlannerState → Nat
  | .nothing => bits .draining ||| bits .exited
  | .draining => bits .draining ||| bits .nothing ||| bits .barrier
  | .barrier => bits .drainingUnord ||| bits .draining ||| bits .barrier
  | .drainingUnord => bits .barrier
  | .exited => 0

/-- Modelled from the spec: `sm_move` checks that the next state's bit is in the current state's
    allowed mask. -/
def allowed (cur next : PlannerState) : Bool := plannerStates cur &&& bits next != 0

/-! ### Where each thread is -/

/-- Where the planner thread is in `planner`. -/
inductive PlannerPc
  /-- At `uv_mutex_lock`, or waking from `uv_cond_wait` and retaking the mutex. -/
  | lock
  /-- Holds the mutex at the head of its `for (;;)` or of the `while` of its state's case. -/
  | run
  /-- Holds the mutex and is about to call `uv_cond_wait(&pi->planner_cond, mutex)`. -/
  | wait
  /-- Asleep on `planner_cond`. -/
  | blocked
  /-- Returned after `PS_EXITED`. -/
  | exited
  deriving DecidableEq, Repr

/-- Where worker thread `i` is in `worker`. -/
inductive WorkerPc
  /-- At `uv_mutex_lock`, or waking from `uv_cond_wait` and retaking the mutex. -/
  | lock
  /-- Holds the mutex, its inbox is empty, and it is about to call `uv_cond_wait`. -/
  | wait
  /-- Asleep on `ts[i].cond`. -/
  | blocked
  /-- Popped the item and released the mutex; in its `work_cb`. -/
  | work (w : PoolWork)
  /-- The item's `work_cb` returned; about to push it into `outq`. -/
  | publish (w : PoolWork)
  /-- Pushed the item into `outq`; about to retake the pool mutex for `in_flight`. -/
  | relock (w : PoolWork)
  /-- Returned: its inbox was empty and `exiting` was set. -/
  | exited
  deriving DecidableEq, Repr

/-- Where the loop thread is in `pool_fini` (`idle`: not in it). -/
inductive LoopPc
  | idle
  /-- `pool_cleanup` stored `exiting = true`; about to signal `planner_cond`. -/
  | signalPlanner
  /-- In `uv_thread_join(&pi->planner_thread)`. -/
  | joinPlanner
  /-- About to signal `ts[i].cond`. -/
  | signalWorker (i : Nat)
  /-- In `uv_thread_join(&ts[i].thread)`. -/
  | joinWorker (i : Nat)
  /-- `pool_cleanup` returned; about to check `pool_fini`'s `POST`. -/
  | fini
  | finished
  deriving DecidableEq, Repr

/-- `pool_cleanup` has run `uv_cond_destroy(&pi->planner_cond)`, right after it joined the planner. -/
def LoopPc.plannerCondDestroyed : LoopPc → Bool
  | .signalWorker _ | .joinWorker _ | .fini | .finished => true
  | _ => false

/-- The holder of the pool mutex. -/
inductive Owner
  | planner
  | worker (i : Nat)
  deriving DecidableEq, Repr

/-! ### The pool -/

/-- The pool (`pool_impl_t`), its threads, and the ghost serial counter and event log. -/
structure Pool where
  nthreads : Nat
  mutex : Option Owner
  /-- `ts[i].inq`. -/
  inq : Nat → List PoolWork
  worker : Nat → WorkerPc
  outq : List PoolWork
  activeWs : Nat
  ordered : List PoolWork
  unordered : List PoolWork
  /-- The state of `planner_sm`. -/
  plannerSm : PlannerState
  planner : PlannerPc
  inFlight : Nat
  exiting : Bool
  oPrev : Nat
  /-- A `uint32_t`. -/
  qos : Nat
  /-- The local queue `q` of the running `work_done`. -/
  completed : List PoolWork
  loop : LoopPc
  serial : Nat
  log : List Event

/-- `POOL_THREADPOOL_SIZE`, the default number of workers. -/
def poolThreadpoolSize : Nat := 4

/-- `MAX_THREADPOOL_SIZE`. -/
def maxThreadpoolSize : Nat := 1024

/-- The number of workers `pool_threads_init` starts, from `atoi` of the environment variable
    `POOL_THREADPOOL_SIZE` when it is set (cast to `uint32_t`), clamped to `[1, 1024]`. -/
def threadpoolSize (env : Option Int) : Nat :=
  let n := match env with
    | none => poolThreadpoolSize
    | some v => (v % 2 ^ 32).toNat
  let n := if n = 0 then 1 else n
  if n > maxThreadpoolSize then maxThreadpoolSize else n

theorem threadpoolSize_mem (env : Option Int) :
    0 < threadpoolSize env ∧ threadpoolSize env ≤ maxThreadpoolSize := by
  unfold threadpoolSize maxThreadpoolSize
  dsimp only
  split_ifs <;> omega

/-- The pool when `pool_init` returns: `pool_threads_init` has started the workers and the planner
    and waited until each reached its first `uv_mutex_lock`; the planner has run `sm_init` in
    `PS_NOTHING`. -/
def poolInit (env : Option Int) : Pool where
  nthreads := threadpoolSize env
  mutex := none
  inq := fun _ => []
  worker := fun _ => .lock
  outq := []
  activeWs := 0
  ordered := []
  unordered := []
  plannerSm := .nothing
  planner := .lock
  inFlight := 0
  exiting := false
  oPrev := wtBar
  qos := 0
  completed := []
  loop := .idle
  serial := 0
  log := []

/-! ### `planner_invariant` and `sm_move` -/

/-- `planner_invariant(m, prev_state)`, read on the pool whose planner state is the new one; `ERGO`
    is implication. `q_type(head(o))` of an empty queue reads no item: the model takes it as not a
    barrier. -/
def Pool.plannerInvariant (s : Pool) (prev : PlannerState) : Bool :=
  let o := s.ordered
  let u := s.unordered
  let headBar := match o with
    | w :: _ => w.type == wtBar
    | [] => false
  (s.plannerSm != .nothing || o.isEmpty && u.isEmpty) &&
  (s.plannerSm != .draining ||
    (prev != .barrier || s.inFlight == 0 && u.isEmpty) &&
    (prev != .nothing || !u.isEmpty || !o.isEmpty)) &&
  (s.plannerSm != .exited || s.exiting && o.isEmpty && u.isEmpty) &&
  (s.plannerSm != .barrier ||
    (prev != .draining || headBar) &&
    (prev != .drainingUnord || u.isEmpty)) &&
  (s.plannerSm != .drainingUnord || !u.isEmpty)

/-- Modelled from the spec: `sm_move(planner_sm, next)`. -/
def Pool.smMove (s : Pool) (next : PlannerState) : Except Fault Pool :=
  if allowed s.plannerSm next then
    if ({ s with plannerSm := next } : Pool).plannerInvariant s.plannerSm then .ok { s with plannerSm := next }
    else .error .invariant
  else .error .transition

/-! ### Signals

A signal wakes the one thread that can wait on the condition variable if it is asleep there, and is
lost otherwise. -/

/-- `uv_cond_signal(&pi->planner_cond)`. -/
def Pool.signalPlanner (s : Pool) : Pool :=
  if s.planner = .blocked then { s with planner := .lock } else s

/-- `uv_cond_signal(&ts[i].cond)`. -/
def Pool.signalWorker (s : Pool) (i : Nat) : Pool :=
  if s.worker i = .blocked then { s with worker := Function.update s.worker i .lock } else s

end Dqlite
