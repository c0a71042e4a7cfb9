import Mathlib.Algebra.Group.Int
import Mathlib.Logic.Function.Basic

/-! # Work items and the queue primitives of the thread pool

The pool of `src/lib/threadpool.c` moves work items (`pool_work_t`) between intrusive FIFO queues:
the producer queues `ordered` and `unordered`, one inbox per worker, the completion queue `outq`, and
the local queue of `work_done`. A queue is a list here; `push` appends and `pop` takes the head.

A work item carries its class (`type`) and the worker it is addressed to (`thread_id`). The model
adds a serial number `id`, given in submission order, to tell items apart (in C their addresses do
that). The callbacks are opaque: the model records when each is called in the event log.

Assertions (`PRE`, `POST`, `assert`) that fail abort the process: the model stops with a `Fault`. -/

namespace Dqlite

/-! ### Work classes

`enum pool_work_type` is declared in `threadpool.h`, which is not in the sources. The code compares
classes with `>`, `>=` and `!=` only; the model takes the enum in its declaration order. -/

/-- Modelled from the spec: `WT_UNORD`, the unordered class (first in `enum pool_work_type`). -/
def wtUnord : Nat := 0

/-- Modelled from the spec: `WT_BAR`, the barrier class (second in `enum pool_work_type`). -/
def wtBar : Nat := 1

/-- Modelled from the spec: `WT_ORD1`, the first ordered class (third in `enum pool_work_type`);
    every larger value is an ordered class too. -/
def wtOrd1 : Nat := 2

/-- A work item (`pool_work_t`): its serial number, `type` and `thread_id`. -/
structure PoolWork where
  id : Nat
  type : Nat
  threadId : Nat
  deriving DecidableEq, Repr

/-- What the threads do, in the order they do it: the ghost log of a run. -/
inductive Event
  /-- `pool_work_submit` pushed the item into `ordered` or `unordered`. -/
  | submit (w : PoolWork)
  /-- The planner pushed the item into the inbox of worker `thread_id`. -/
  | dispatch (w : PoolWork)
  /-- The planner freed the barrier item in `PS_BARRIER`. -/
  | free (w : PoolWork)
  /-- A worker popped the item from its inbox and called its `work_cb`. -/
  | start (w : PoolWork)
  /-- The item's `work_cb` returned. -/
  | finish (w : PoolWork)
  /-- The worker pushed the item into `outq`. -/
  | publish (w : PoolWork)
  /-- The worker retook the pool mutex after the item and decremented `in_flight` for it. -/
  | decrement (w : PoolWork)
  /-- `queue_done` ran for the item on the loop thread: `w_unregister`, then `after_work_cb`. -/
  | done (w : PoolWork)
  /-- `qos_pop` found both queues non-empty and chose `first` (`ordered`) or `second`. -/
  | qos (first : Bool)
  deriving DecidableEq, Repr

/-- The assertion that aborts the process. -/
inductive Fault
  /-- `sm_move` to a state its current state does not allow. -/
  | transition
  /-- `sm_move` left `planner_invariant` false. -/
  | invariant
  /-- `pop` or `qos_pop` on empty queues. -/
  | pop
  /-- `PRE(q_to_w(q)->type == WT_BAR)` in `PS_BARRIER`. -/
  | barrier
  /-- `pool_work_submit`'s `PRE` that ordered classes come in order. -/
  | order
  /-- `assert(pi->in_flight > 0)` in `worker`. -/
  | inFlight
  /-- `PRE(has_active_ws(pool))` in `w_unregister`. -/
  | activeWs
  /-- `POST(empty(&pi->ordered) && empty(&pi->unordered))` in `pool_cleanup`. -/
  | plannerQueues
  /-- `POST(empty(&ts[i].inq))` in `pool_cleanup`. -/
  | inbox
  /-- `POST(empty(&pi->outq) && !has_active_ws(pool))` in `pool_fini`. -/
  | fini
  /-- `uv_cond_signal(&pi->planner_cond)` after `pool_cleanup`'s `uv_cond_destroy(&pi->planner_cond)`:
      undefined behaviour in C. -/
  | plannerCond
  deriving DecidableEq, Repr

/-! ### Queues -/

/-- `push`: `QUEUE__INSERT_TAIL`. -/
def push (q : List PoolWork) (what : PoolWork) : List PoolWork := q ++ [what]

/-- `pop`: remove the head. On an empty queue the C code would unlink the queue head itself; the
    model stops there. -/
def pop : List PoolWork → Except Fault (PoolWork × List PoolWork)
  | [] => .error .pop
  | w :: q => .ok (w, q)

/-- `qos_pop`: pop from the non-empty queue, or, when both are non-empty, from `first` if the
    counter (a `uint32_t`, incremented) was odd and from `second` if it was even. Returns the item,
    the two queues and the counter. -/
def qosPop (qos : Nat) : List PoolWork → List PoolWork →
    Except Fault (PoolWork × List PoolWork × List PoolWork × Nat)
  | [], [] => .error .pop
  | [], w :: second => .ok (w, [], second, qos)
  | w :: first, [] => .ok (w, first, [], qos)
  | w :: first, v :: second =>
    if qos % 2 ≠ 0 then .ok (w, first, v :: second, (qos + 1) % 2 ^ 32)
    else .ok (v, w :: first, second, (qos + 1) % 2 ^ 32)

@[simp] theorem push_eq (q : List PoolWork) (w : PoolWork) : push q w = q ++ [w] := rfl

@[simp] theorem pop_cons (w : PoolWork) (q : List PoolWork) : pop (w :: q) = .ok (w, q) := rfl

/-- What `qos_pop` can return: the head of one queue, the other queue unchanged, and the counter
    advanced exactly when both queues were non-empty. -/
theorem qosPop_eq {qos : Nat} {o u o' u' : List PoolWork} {w : PoolWork} {qos' : Nat}
    (h : qosPop qos o u = .ok (w, o', u', qos')) :
    (o = w :: o' ∧ u' = u ∧ (u = [] ∧ qos' = qos ∨ u ≠ [] ∧ qos % 2 ≠ 0 ∧ qos' = (qos + 1) % 2 ^ 32)) ∨
    (u = w :: u' ∧ o' = o ∧ (o = [] ∧ qos' = qos ∨ o ≠ [] ∧ qos % 2 = 0 ∧ qos' = (qos + 1) % 2 ^ 32)) := by
  match o, u with
  | [], [] => cases h
  | [], v :: u => cases h; simp
  | v :: o, [] => cases h; simp
  | v :: o, x :: u =>
    by_cases hq : qos % 2 = 0
    · simp only [qosPop, hq, ne_eq, not_true_eq_false, ite_false, Except.ok.injEq, Prod.mk.injEq] at h
      obtain ⟨rfl, rfl, rfl, rfl⟩ := h
      simp [hq]
    · simp only [qosPop, hq, ne_eq, not_false_eq_true, ite_true, Except.ok.injEq, Prod.mk.injEq] at h
      obtain ⟨rfl, rfl, rfl, rfl⟩ := h
      simp [hq]

end Dqlite
