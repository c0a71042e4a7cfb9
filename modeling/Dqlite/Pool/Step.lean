import Dqlite.Pool.Threads

/-! # Runs of the pool

A run interleaves the steps of the planner, the workers and the loop thread in any order. A step that
needs the pool mutex is taken only when no thread holds it; a thread asleep on a condition variable
moves only when it is signalled, or when `uv_cond_wait` returns without a signal, which POSIX allows.
Producers call `pool_queue_work` on the loop thread, which also runs `work_done` and `pool_fini`. -/

namespace Dqlite

open Function (update)

/-- A step of one thread. -/
inductive Action
  | planner
  | worker (i : Nat)
  /-- `pool_queue_work` of an item of class `type` with `cookie`. -/
  | queueWork (type cookie : Nat)
  /-- `work_done` starts: the async handle fired. -/
  | workDone
  /-- `work_done` calls `queue_done` on its next item. -/
  | queueDone
  /-- The loop thread calls `pool_fini`. -/
  | poolFini
  /-- The loop thread's next statement in `pool_fini`. -/
  | cleanup
  /-- The planner's `uv_cond_wait` returns without a signal. -/
  | wakePlanner
  /-- Worker `i`'s `uv_cond_wait` returns without a signal. -/
  | wakeWorker (i : Nat)
  deriving DecidableEq, Repr

namespace Pool

/-- The result of a step: `none` if the thread cannot take it, else the next pool or the abort. -/
def step (s : Pool) : Action → Option (Except Fault Pool)
  | .planner => s.plannerStep
  | .worker i => if i < s.nthreads then s.workerStep i else none
  | .queueWork type cookie =>
    if s.loop = .idle ∧ s.mutex = none then some (s.poolQueueWork type cookie) else none
  | .workDone => if s.loop = .idle ∧ s.completed = [] then some (.ok s.workDone) else none
  | .queueDone =>
    match s.loop, s.completed with
    | .idle, w :: q => some (s.queueDone w q)
    | _, _ => none
  | .poolFini => if s.loop = .idle then some (.ok s.poolFini) else none
  | .cleanup => s.cleanupStep
  | .wakePlanner => if s.planner = .blocked then some (.ok { s with planner := .lock }) else none
  | .wakeWorker i =>
    if i < s.nthreads ∧ s.worker i = .blocked then some (.ok { s with worker := update s.worker i .lock })
    else none

/-- Run the actions in order; stop at the first that cannot be taken (`none`) or aborts. -/
def run (s : Pool) : List Action → Option (Except Fault Pool)
  | [] => some (.ok s)
  | a :: as =>
    match s.step a with
    | some (.ok t) => t.run as
    | r => r

end Pool

/-- The pools that a run from `pool_init` reaches without an abort. -/
inductive Reachable : Pool → Prop
  | init (env : Option Int) : Reachable (poolInit env)
  | step {s t : Pool} (a : Action) : Reachable s → s.step a = some (.ok t) → Reachable t

/-- `t` follows `s` after some steps. -/
inductive Steps : Pool → Pool → Prop
  | refl (s : Pool) : Steps s s
  | tail {s t u : Pool} (a : Action) : Steps s t → t.step a = some (.ok u) → Steps s u

theorem Reachable.steps {s t : Pool} (hs : Reachable s) (h : Steps s t) : Reachable t := by
  induction h with
  | refl => exact hs
  | tail a _ ht ih => exact .step a ih ht

theorem Steps.head {s t u : Pool} {a : Action} (h : s.step a = some (.ok t)) (ht : Steps t u) : Steps s u := by
  induction ht with
  | refl => exact .tail a (.refl s) h
  | tail b _ hu ih => exact .tail b ih hu

theorem Pool.run_steps {s t : Pool} : ∀ {l : List Action}, s.run l = some (.ok t) → Steps s t
  | [], h => by cases h; exact .refl s
  | a :: as, h => by
    unfold Pool.run at h
    split at h
    · exact Steps.head ‹_› (Pool.run_steps h)
    · simp_all

/-- A schedule from `pool_init` that ends in an abort leaves, just before it, a reachable pool from
    which one step aborts. -/
theorem Pool.run_fault {s : Pool} (hs : Reachable s) {f : Fault} :
    ∀ {l : List Action}, s.run l = some (.error f) →
      ∃ t a, Reachable t ∧ t.step a = some (.error f)
  | [], h => by cases h
  | a :: as, h => by
    unfold Pool.run at h
    split at h
    · exact Pool.run_fault (.step a hs ‹_›) h
    · exact ⟨s, a, hs, by simp_all⟩

end Dqlite
