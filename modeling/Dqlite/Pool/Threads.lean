import Dqlite.Pool.State

/-! # The code of the pool's threads

`planner`, `worker`, and what the loop thread runs of the pool: `pool_queue_work`, `work_done` and
`pool_fini`. Each function is one step of its thread (see `Dqlite.Pool.State`); `Except Fault` is the
abort of a failed assertion. The ghost log and serial counter are updated where the event happens. -/

namespace Dqlite
namespace Pool

open Function (update)

/-! ### `planner` -/

/-- `push(&ts[q_tid(q)].inq, q); uv_cond_signal(&ts[q_tid(q)].cond);` -/
def deliver (s : Pool) (q : PoolWork) : Pool :=
  ({ s with inq := update s.inq q.threadId (push (s.inq q.threadId) q),
            log := s.log ++ [Event.dispatch q] }).signalWorker q.threadId

/-- The rest of an iteration of `PS_DRAINING`'s loop once the head of `o` is not a barrier:
    `qos_pop`, deliver the item, and count it in `in_flight` if it is ordered. -/
def drainOne (s : Pool) : Except Fault Pool := do
  let (q, o, u, qos) ← qosPop s.qos s.ordered s.unordered
  let choice := if !s.ordered.isEmpty && !s.unordered.isEmpty then [Event.qos (s.qos % 2 != 0)] else []
  let t := { s with ordered := o, unordered := u, qos := qos, log := s.log ++ choice }.deliver q
  pure (if q.type ≥ wtOrd1 then { t with inFlight := t.inFlight + 1 } else t)

/-- One step of `planner` while it holds the pool mutex: the case of its state up to the `break`, one
    iteration of the `while` of `PS_DRAINING` or `PS_DRAINING_UNORD`, the exit from such a `while`,
    or reaching a `uv_cond_wait`. -/
def plannerRun (s : Pool) : Except Fault Pool :=
  match s.plannerSm with
  | .nothing =>
    if s.ordered.isEmpty && s.unordered.isEmpty && !s.exiting then .ok { s with planner := .wait }
    else s.smMove (if s.exiting then .exited else .draining)
  | .draining =>
    if !(s.ordered.isEmpty && s.unordered.isEmpty) then do
      let t ← s.smMove .draining
      match t.ordered with
      | w :: _ => if w.type = wtBar then t.smMove .barrier else t.drainOne
      | [] => t.drainOne
    else s.smMove .nothing
  | .barrier =>
    if !s.unordered.isEmpty then s.smMove .drainingUnord
    else if s.inFlight = 0 then do
      let (q, o) ← pop s.ordered
      if q.type ≠ wtBar then throw .barrier
      { s with ordered := o, log := s.log ++ [Event.free q] }.smMove .draining
    else .ok { s with planner := .wait }
  | .drainingUnord =>
    match s.unordered with
    | q :: u => .ok ({ s with unordered := u }.deliver q)
    | [] => s.smMove .barrier
  | .exited => .ok { s with planner := .exited, mutex := none }

/-- Taking the pool mutex: at the start, or when `uv_cond_wait` returns; in `PS_BARRIER` the wait is
    followed by `sm_move(planner_sm, PS_BARRIER)`. -/
def plannerLock (s : Pool) : Except Fault Pool :=
  let t := { s with mutex := some .planner, planner := .run }
  if t.plannerSm = .barrier then t.smMove .barrier else .ok t

/-- The planner's next step, if it can take one. -/
def plannerStep (s : Pool) : Option (Except Fault Pool) :=
  match s.planner with
  | .lock => if s.mutex = none then some s.plannerLock else none
  | .run => some s.plannerRun
  | .wait => some (.ok { s with planner := .blocked, mutex := none })
  | .blocked | .exited => none

/-! ### `worker` -/

/-- `worker`'s `while (empty(&ts[i].inq))` test under the pool mutex: return if `exiting`, go to
    `uv_cond_wait`, or pop the head, release the mutex and call its `work_cb`. -/
def workerTest (s : Pool) (i : Nat) : Pool :=
  match s.inq i with
  | [] =>
    if s.exiting then { s with worker := update s.worker i .exited, mutex := none }
    else { s with worker := update s.worker i .wait, mutex := some (.worker i) }
  | q :: rest =>
    { s with inq := update s.inq i rest, worker := update s.worker i (.work q), mutex := none,
             log := s.log ++ [Event.start q] }

/-- After `uv_mutex_lock(mutex)` following an item of class `wtype`: the `in_flight` decrement with
    its `assert`, the signal when it reaches `0` (a fault once `pool_cleanup` has destroyed
    `planner_cond`), then the inbox test. -/
def release (s : Pool) (i : Nat) (w : PoolWork) : Except Fault Pool :=
  if w.type > wtBar then
    if s.inFlight > 0 then
      let t := { s with inFlight := s.inFlight - 1, log := s.log ++ [Event.decrement w] }
      if t.inFlight = 0 then
        if s.loop.plannerCondDestroyed then .error .plannerCond else .ok (t.signalPlanner.workerTest i)
      else .ok (t.workerTest i)
    else .error .inFlight
  else .ok (s.workerTest i)

/-- The next step of worker `i`, if it can take one. -/
def workerStep (s : Pool) (i : Nat) : Option (Except Fault Pool) :=
  match s.worker i with
  | .lock => if s.mutex = none then some (.ok (s.workerTest i)) else none
  | .wait => some (.ok { s with worker := update s.worker i .blocked, mutex := none })
  | .work w => some (.ok { s with worker := update s.worker i (.publish w), log := s.log ++ [Event.finish w] })
  | .publish w =>
    some (.ok { s with outq := push s.outq w, worker := update s.worker i (.relock w),
                       log := s.log ++ [Event.publish w] })
  | .relock w => if s.mutex = none then some (s.release i w) else none
  | .blocked | .exited => none

/-! ### The loop thread -/

/-- `w_register`. -/
def wRegister (s : Pool) (w : PoolWork) : Pool :=
  if w.type ≠ wtBar then { s with activeWs := s.activeWs + 1 } else s

/-- `pool_work_submit`: the `PRE` on ordered classes and `o_prev`, then the push into `unordered` or
    `ordered` and the signal, under the pool mutex. -/
def poolWorkSubmit (s : Pool) (w : PoolWork) : Except Fault Pool := do
  let s ← if w.type > wtUnord then
      if s.oPrev ≠ wtBar ∧ w.type ≠ wtBar ∧ s.oPrev ≠ w.type then throw .order
      else pure { s with oPrev := w.type }
    else pure s
  let s := if w.type = wtUnord then { s with unordered := push s.unordered w }
    else { s with ordered := push s.ordered w }
  pure { s with serial := s.serial + 1, log := s.log ++ [Event.submit w] }.signalPlanner

/-- `pool_queue_work(pool, w, cookie, ...)` for an item of class `type`: `thread_id` is
    `cookie % nthreads`. -/
def poolQueueWork (s : Pool) (type cookie : Nat) : Except Fault Pool :=
  let w : PoolWork := { id := s.serial, type := type, threadId := cookie % s.nthreads }
  (s.wRegister w).poolWorkSubmit w

/-- `work_done`'s `QUEUE__MOVE(&pi->outq, &q)` under `outq_mutex`. -/
def workDone (s : Pool) : Pool := { s with completed := s.outq, outq := [] }

/-- One iteration of `work_done`'s loop on the popped item `w`: `queue_done`, that is `w_unregister`
    with its `PRE`, then `after_work_cb`. -/
def queueDone (s : Pool) (w : PoolWork) (q : List PoolWork) : Except Fault Pool :=
  if s.activeWs = 0 then .error .activeWs
  else .ok { s with completed := q, activeWs := s.activeWs - 1, log := s.log ++ [Event.done w] }

/-- `pool_fini` up to `pool_cleanup`'s store `pi->exiting = true`, made without the pool mutex. -/
def poolFini (s : Pool) : Pool :=
  if s.nthreads = 0 then { s with loop := .fini } else { s with exiting := true, loop := .signalPlanner }

/-- Where `pool_cleanup`'s loop over the workers goes after worker `i - 1`. -/
def nextWorker (s : Pool) (i : Nat) : LoopPc := if i < s.nthreads then .signalWorker i else .fini

/-- The next statement of `pool_cleanup` and `pool_fini`, with their `POST`s; a join waits for its
    thread to have returned. -/
def cleanupStep (s : Pool) : Option (Except Fault Pool) :=
  match s.loop with
  | .signalPlanner => some (.ok { s.signalPlanner with loop := .joinPlanner })
  | .joinPlanner =>
    if s.planner = .exited then
      some (if s.ordered.isEmpty && s.unordered.isEmpty then .ok { s with loop := s.nextWorker 0 }
        else .error .plannerQueues)
    else none
  | .signalWorker i => some (.ok { s.signalWorker i with loop := .joinWorker i })
  | .joinWorker i =>
    if s.worker i = .exited then
      some (if (s.inq i).isEmpty then .ok { s with loop := s.nextWorker (i + 1) } else .error .inbox)
    else none
  | .fini => some (if s.outq.isEmpty && s.activeWs = 0 then .ok { s with loop := .finished } else .error .fini)
  | .idle | .finished => none

end Pool
end Dqlite
