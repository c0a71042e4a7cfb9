import Dqlite.Theorems.Effects

/-! # The items of the pool

What the pool holds of the work items, apart from where each thread is in its code: the producer
queues, the inboxes, the item each worker holds, `outq` and `work_done`'s queue, the counters, the
`qos` counter, `o_prev`, and the log. `Items.Move` is the abstract machine of the items: one move per
thing that happens to an item. Every step of the pool leaves its items alone or makes one or two
moves (`Pool.step_items`), so an invariant of the items is proved once, over the moves. -/

namespace Dqlite

open Function (update)

/-- The item a worker holds: running its `work_cb`, about to push it into `outq`, or pushed it and
    about to retake the pool mutex for it. -/
inductive Hold
  | none
  | work (w : PoolWork)
  | publish (w : PoolWork)
  | relock (w : PoolWork)
  deriving DecidableEq, Repr

def WorkerPc.hold : WorkerPc → Hold
  | .work w => .work w
  | .publish w => .publish w
  | .relock w => .relock w
  | _ => .none

/-- The items of a pool. -/
@[ext]
structure Items where
  nthreads : Nat
  ordered : List PoolWork
  unordered : List PoolWork
  inq : Nat → List PoolWork
  holds : Nat → Hold
  outq : List PoolWork
  completed : List PoolWork
  inFlight : Nat
  activeWs : Nat
  oPrev : Nat
  qos : Nat
  serial : Nat
  log : List Event

def Pool.items (s : Pool) : Items where
  nthreads := s.nthreads
  ordered := s.ordered
  unordered := s.unordered
  inq := s.inq
  holds i := (s.worker i).hold
  outq := s.outq
  completed := s.completed
  inFlight := s.inFlight
  activeWs := s.activeWs
  oPrev := s.oPrev
  qos := s.qos
  serial := s.serial
  log := s.log

namespace Items

/-- The choice `qos_pop` logs: only when both queues are non-empty. -/
def choice (qos : Nat) (o u : List PoolWork) : List Event :=
  if !o.isEmpty && !u.isEmpty then [.qos (qos % 2 != 0)] else []

/-! ### The moves -/

/-- `pool_work_submit` of the item `w`: it goes to the tail of `unordered` or `ordered`. -/
def submit (x : Items) (w : PoolWork) : Items :=
  { x with
    activeWs := if w.type ≠ wtBar then x.activeWs + 1 else x.activeWs,
    oPrev := if wtUnord < w.type then w.type else x.oPrev,
    ordered := if w.type = wtUnord then x.ordered else x.ordered ++ [w],
    unordered := if w.type = wtUnord then x.unordered ++ [w] else x.unordered,
    serial := x.serial + 1, log := x.log ++ [.submit w] }

/-- The planner pushes `q` into the inbox of its worker. -/
def deliver (x : Items) (q : PoolWork) : Items :=
  { x with inq := update x.inq q.threadId (x.inq q.threadId ++ [q]), log := x.log ++ [.dispatch q] }

/-- An iteration of `PS_DRAINING`: `qos_pop` returned `q`, the queues and the counter. -/
def drain (x : Items) (q : PoolWork) (o u : List PoolWork) (qos : Nat) : Items :=
  let y := ({ x with
    ordered := o, unordered := u, qos := qos, log := x.log ++ choice x.qos x.ordered x.unordered }).deliver q
  { y with inFlight := if wtOrd1 ≤ q.type then y.inFlight + 1 else y.inFlight }

/-- `PS_BARRIER` frees the barrier `q` at the head of `ordered`. -/
def free (x : Items) (q : PoolWork) (o : List PoolWork) : Items :=
  { x with ordered := o, log := x.log ++ [.free q] }

/-- Worker `i` pops `q` from its inbox and calls its `work_cb`. -/
def start (x : Items) (i : Nat) (q : PoolWork) (rest : List PoolWork) : Items :=
  { x with inq := update x.inq i rest, holds := update x.holds i (.work q), log := x.log ++ [.start q] }

/-- The `work_cb` of `w` that worker `i` runs returns. -/
def finish (x : Items) (i : Nat) (w : PoolWork) : Items :=
  { x with holds := update x.holds i (.publish w), log := x.log ++ [.finish w] }

/-- Worker `i` pushes `w` into `outq`. -/
def publish (x : Items) (i : Nat) (w : PoolWork) : Items :=
  { x with outq := x.outq ++ [w], holds := update x.holds i (.relock w), log := x.log ++ [.publish w] }

/-- Worker `i` retakes the mutex and no longer holds its item. -/
def release (x : Items) (i : Nat) : Items := { x with holds := update x.holds i .none }

/-- Worker `i` retakes the mutex after the ordered item `w` and decrements `in_flight`. -/
def decrement (x : Items) (i : Nat) (w : PoolWork) : Items :=
  { x with holds := update x.holds i .none, inFlight := x.inFlight - 1, log := x.log ++ [.decrement w] }

/-- `work_done` takes `outq`. -/
def collect (x : Items) : Items := { x with completed := x.outq, outq := [] }

/-- `queue_done` on `w`, the head of `work_done`'s queue, with `q` behind it. -/
def done (x : Items) (w : PoolWork) (q : List PoolWork) : Items :=
  { x with completed := q, activeWs := x.activeWs - 1, log := x.log ++ [.done w] }

/-- The moves of the items, each under the conditions the code takes it in. -/
inductive Move : Items → Items → Prop
  /-- `pool_queue_work`: the item is numbered `serial`, and passes `pool_work_submit`'s `PRE`. -/
  | submit (x : Items) (type cookie : Nat)
      (hpre : wtUnord < type → x.oPrev ≠ wtBar → type ≠ wtBar → x.oPrev = type) :
      Move x (x.submit ⟨x.serial, type, cookie % x.nthreads⟩)
  /-- Behind a head of `ordered` that is not a barrier. -/
  | drain (x : Items) {q : PoolWork} {o u : List PoolWork} {qos : Nat}
      (hbar : ∀ w o, x.ordered = w :: o → w.type ≠ wtBar)
      (hq : qosPop x.qos x.ordered x.unordered = .ok (q, o, u, qos)) :
      Move x (x.drain q o u qos)
  /-- `PS_DRAINING_UNORD` delivers the head of `unordered`. -/
  | flush (x : Items) {q : PoolWork} {u : List PoolWork} (hu : x.unordered = q :: u) :
      Move x ({ x with unordered := u }.deliver q)
  /-- Once `unordered` is empty and nothing is in flight. -/
  | free (x : Items) {q : PoolWork} {o : List PoolWork} (hu : x.unordered = []) (hf : x.inFlight = 0)
      (ho : x.ordered = q :: o) (hb : q.type = wtBar) :
      Move x (x.free q o)
  /-- By a worker that holds nothing. -/
  | start (x : Items) {i : Nat} {q : PoolWork} {rest : List PoolWork} (hi : i < x.nthreads)
      (hh : x.holds i = .none) (hq : x.inq i = q :: rest) :
      Move x (x.start i q rest)
  | finish (x : Items) {i : Nat} {w : PoolWork} (hh : x.holds i = .work w) : Move x (x.finish i w)
  | publish (x : Items) {i : Nat} {w : PoolWork} (hh : x.holds i = .publish w) : Move x (x.publish i w)
  /-- After an item not counted in `in_flight`. -/
  | release (x : Items) {i : Nat} {w : PoolWork} (hh : x.holds i = .relock w) (hb : w.type ≤ wtBar) :
      Move x (x.release i)
  /-- After an ordered item, with the `assert(in_flight > 0)`. -/
  | decrement (x : Items) {i : Nat} {w : PoolWork} (hh : x.holds i = .relock w) (hb : wtBar < w.type)
      (hf : 0 < x.inFlight) :
      Move x (x.decrement i w)
  /-- When `work_done`'s queue is empty. -/
  | collect (x : Items) (hc : x.completed = []) : Move x x.collect
  /-- With `w_unregister`'s `PRE`. -/
  | done (x : Items) {w : PoolWork} {q : List PoolWork} (hc : x.completed = w :: q) (ha : x.activeWs ≠ 0) :
      Move x (x.done w q)

def init (n : Nat) : Items where
  nthreads := n
  ordered := []
  unordered := []
  inq _ := []
  holds _ := .none
  outq := []
  completed := []
  inFlight := 0
  activeWs := 0
  oPrev := wtBar
  qos := 0
  serial := 0
  log := []

/-- The items reachable by moves from those of a fresh pool. -/
inductive Reach : Items → Prop
  | init (n : Nat) : 0 < n → Reach (init n)
  | move {x y : Items} : Reach x → Move x y → Reach y

end Items

/-! ### Every step of the pool moves its items -/

namespace Pool

variable (s : Pool)

@[simp] theorem items_nthreads : s.items.nthreads = s.nthreads := rfl
@[simp] theorem items_ordered : s.items.ordered = s.ordered := rfl
@[simp] theorem items_unordered : s.items.unordered = s.unordered := rfl
@[simp] theorem items_inq : s.items.inq = s.inq := rfl
@[simp] theorem items_holds : s.items.holds = fun i => (s.worker i).hold := rfl
@[simp] theorem items_outq : s.items.outq = s.outq := rfl
@[simp] theorem items_completed : s.items.completed = s.completed := rfl
@[simp] theorem items_inFlight : s.items.inFlight = s.inFlight := rfl
@[simp] theorem items_activeWs : s.items.activeWs = s.activeWs := rfl
@[simp] theorem items_oPrev : s.items.oPrev = s.oPrev := rfl
@[simp] theorem items_qos : s.items.qos = s.qos := rfl
@[simp] theorem items_serial : s.items.serial = s.serial := rfl
@[simp] theorem items_log : s.items.log = s.log := rfl

end Pool

@[simp] theorem WorkerPc.hold_work (w : PoolWork) : (WorkerPc.work w).hold = .work w := rfl
@[simp] theorem WorkerPc.hold_publish (w : PoolWork) : (WorkerPc.publish w).hold = .publish w := rfl
@[simp] theorem WorkerPc.hold_relock (w : PoolWork) : (WorkerPc.relock w).hold = .relock w := rfl
@[simp] theorem WorkerPc.hold_lock : WorkerPc.lock.hold = .none := rfl
@[simp] theorem WorkerPc.hold_wait : WorkerPc.wait.hold = .none := rfl
@[simp] theorem WorkerPc.hold_blocked : WorkerPc.blocked.hold = .none := rfl
@[simp] theorem WorkerPc.hold_exited : WorkerPc.exited.hold = .none := rfl

theorem WorkerPc.hold_update (ws : Nat → WorkerPc) (i : Nat) (p : WorkerPc) :
    (fun j => (update ws i p j).hold) = update (fun j => (ws j).hold) i p.hold := by
  funext j
  by_cases hj : j = i
  · subst hj; simp
  · simp [hj]

theorem WorkerPc.hold_signal (ws : Nat → WorkerPc) (i : Nat) :
    (fun j => ((if ws i = .blocked then update ws i .lock else ws) j).hold) = fun j => (ws j).hold := by
  split
  · rw [hold_update]; simp [*]
  · rfl

namespace Pool

variable {s t : Pool} {i : Nat}

theorem items_workerTest (hi : i < s.nthreads) (hh : (s.worker i).hold = .none) :
    Relation.ReflTransGen Items.Move s.items (s.workerTest i).items := by
  cases hq : s.inq i with
  | cons q rest =>
    rw [workerTest_pop hq]
    refine .single ?_
    convert Items.Move.start s.items hi hh hq using 1
    apply Items.ext <;> simp [Items.start, WorkerPc.hold_update]
  | nil =>
    cases he : s.exiting
    · rw [workerTest_wait hq he]
      convert Relation.ReflTransGen.refl using 1
      apply Items.ext <;> simp [WorkerPc.hold_update, Function.update_eq_self_iff, hh]
    · rw [workerTest_exit hq he]
      convert Relation.ReflTransGen.refl using 1
      apply Items.ext <;> simp [WorkerPc.hold_update, Function.update_eq_self_iff, hh]

theorem workerTest_reset (p : WorkerPc) :
    ({ s with worker := update s.worker i p } : Pool).workerTest i = s.workerTest i := by
  cases hq : s.inq i with
  | nil => cases he : s.exiting <;> simp [workerTest, hq, he]
  | cons q rest => simp [workerTest, hq]

theorem items_release {w : PoolWork} (hi : i < s.nthreads) (hw : s.worker i = .relock w)
    (h : s.release i w = .ok t) : Relation.ReflTransGen Items.Move s.items t.items := by
  have hh : s.items.holds i = .relock w := by simp [hw]
  rcases release_ok h with ⟨hb, rfl⟩ | ⟨hb, hpos, -, rfl⟩
  · rw [← workerTest_reset (p := .lock)]
    refine .head ?_ (items_workerTest hi (by simp))
    convert Items.Move.release s.items hh hb using 1
    apply Items.ext <;> simp [Items.release, WorkerPc.hold_update]
  · rw [← workerTest_reset (p := .lock)]
    refine .head ?_ (items_workerTest hi (by simp))
    convert Items.Move.decrement s.items hh hb hpos using 1
    apply Items.ext <;> simp [Items.decrement, WorkerPc.hold_update]

theorem items_workerStep (hi : i < s.nthreads) (h : s.workerStep i = some (.ok t)) :
    Relation.ReflTransGen Items.Move s.items t.items := by
  rcases workerStep_ok h with ⟨hw, -, rfl⟩ | ⟨hw, rfl⟩ | ⟨w, hw, rfl⟩ | ⟨w, hw, rfl⟩ | ⟨w, hw, -, hr⟩
  · exact items_workerTest hi (by simp [hw])
  · convert Relation.ReflTransGen.refl using 1
    apply Items.ext <;> simp [WorkerPc.hold_update, Function.update_eq_self_iff, hw]
  · refine .single ?_
    convert Items.Move.finish s.items (i := i) (w := w) (by simp [hw]) using 1
    apply Items.ext <;> simp [Items.finish, WorkerPc.hold_update]
  · refine .single ?_
    convert Items.Move.publish s.items (i := i) (w := w) (by simp [hw]) using 1
    apply Items.ext <;> simp [Items.publish, WorkerPc.hold_update]
  · exact items_release hi hw hr

theorem items_plannerRun (h : s.plannerRun = .ok t) : Relation.ReflTransGen Items.Move s.items t.items := by
  cases plannerRun_ok h
  case drain hbar hd =>
    obtain ⟨q, o, u, qos, hq, rfl⟩ := drainOne_ok hd
    refine .single ?_
    convert Items.Move.drain s.items hbar hq using 1
    apply Items.ext <;> simp [Items.drain, Items.deliver, WorkerPc.hold_signal, Items.choice]
  case free hu hf _ _ ho hb => exact .single (Items.Move.free s.items hu hf ho hb)
  case flush _ _ hu =>
    rw [deliver_eq]
    refine .single ?_
    convert Items.Move.flush s.items hu using 1
    apply Items.ext <;> simp [Items.deliver, WorkerPc.hold_signal]
  all_goals exact .refl

theorem items_cleanupStep (h : s.cleanupStep = some (.ok t)) : s.items = t.items := by
  rcases cleanupStep_ok h with ⟨-, rfl⟩ | ⟨-, -, -, -, -, rfl⟩ | ⟨i, -, rfl⟩ | ⟨i, -, -, -, rfl⟩ | ⟨-, -, -, -, rfl⟩
  · unfold signalPlanner; split <;> rfl
  · rfl
  · rw [signalWorker_eq]
    apply Items.ext <;> simp [WorkerPc.hold_signal]
  · rfl
  · rfl

/-- Every step of the pool moves its items. -/
theorem step_items {a : Action} (h : s.step a = some (.ok t)) :
    Relation.ReflTransGen Items.Move s.items t.items := by
  cases a with
  | planner =>
    rcases planner_steps_ok h with ⟨-, -, rfl⟩ | ⟨-, hr⟩ | ⟨-, rfl⟩
    · exact .refl
    · exact items_plannerRun hr
    · exact .refl
  | worker i =>
    obtain ⟨hi, h⟩ := step_worker_ok h
    exact items_workerStep hi h
  | queueWork type cookie =>
    obtain ⟨-, -, h⟩ := step_queueWork_ok h
    obtain ⟨hpre, rfl⟩ := poolQueueWork_ok h
    exact .single (Items.Move.submit s.items type cookie hpre)
  | workDone =>
    obtain ⟨-, hc, rfl⟩ := step_workDone_ok h
    exact .single (Items.Move.collect s.items hc)
  | queueDone =>
    obtain ⟨-, w, q, hc, ha, rfl⟩ := step_queueDone_ok h
    exact .single (Items.Move.done s.items hc ha)
  | poolFini =>
    obtain ⟨-, rfl⟩ := step_poolFini_ok h
    unfold poolFini; split <;> exact .refl
  | cleanup => exact items_cleanupStep h ▸ .refl
  | wakePlanner =>
    obtain ⟨-, rfl⟩ := step_wakePlanner_ok h
    exact .refl
  | wakeWorker i =>
    obtain ⟨-, hb, rfl⟩ := step_wakeWorker_ok h
    convert Relation.ReflTransGen.refl using 1
    apply Items.ext <;> simp [WorkerPc.hold_update, Function.update_eq_self_iff, hb]

end Pool

theorem Items.Reach.moves {x y : Items} (hx : Items.Reach x) (h : Relation.ReflTransGen Items.Move x y) :
    Items.Reach y := by
  induction h with
  | refl => exact hx
  | tail _ hm ih => exact .move ih hm

theorem Reachable.items {s : Pool} (h : Reachable s) : Items.Reach s.items := by
  induction h with
  | init env => exact .init _ (threadpoolSize_mem env).1
  | step a _ ht ih => exact ih.moves (Pool.step_items ht)

end Dqlite
