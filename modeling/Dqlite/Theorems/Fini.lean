import Dqlite.Theorems.Progress

/-! # `pool_fini` can return

From a quiescent pool, `pool_fini` and `pool_cleanup` run to their end: the planner, woken by
`pool_cleanup`'s signal, finds both queues empty with `exiting` set and returns through
`PS_EXITED`; each worker, signalled in turn, finds its inbox empty and returns; every join and every
`POST` passes. After the background threads have drained it, every pool before `pool_fini` has such
a schedule, although the signal `pool_cleanup` sends without the mutex keeps some schedules from
getting there. Once `pool_fini` has started on a pool with nothing left, a missed signal to the planner
is the only thing that keeps it from returning; called with work still counted in `active_ws`, it never
returns. -/

namespace Dqlite

open Function (update)

/-- `pool_cleanup`'s loop over the workers from worker `i`, for `k` workers: signal worker `i`, let it
    return, join it. -/
def joinWorkers : Nat → Nat → List Action
  | _, 0 => []
  | i, k + 1 => .cleanup :: .worker i :: .cleanup :: joinWorkers (i + 1) k

/-- `pool_fini` on a pool of `n` workers: the store of `exiting` and the signal to the planner, which
    wakes, moves to `PS_EXITED` and returns; the join of the planner; the loop over the workers; and
    `pool_fini`'s `POST`. -/
def finiSchedule (n : Nat) : List Action :=
  [.poolFini, .cleanup, .planner, .planner, .planner, .cleanup] ++ joinWorkers 0 n ++ [.cleanup]

namespace Pool

variable {s t u : Pool} {i : Nat}

theorem run_append {l₁ l₂ : List Action} (h : s.run l₁ = some (.ok t)) : s.run (l₁ ++ l₂) = t.run l₂ := by
  induction l₁ generalizing s with
  | nil => cases h; rfl
  | cons a l ih =>
    simp only [List.cons_append, run] at h ⊢
    split at h
    · exact ih h
    · simp_all

theorem run_joinWorker (hi : i < u.nthreads) (hl : u.loop = .signalWorker i) (hm : u.mutex = none)
    (hx : u.exiting = true) (hw : u.worker i = .blocked) (hq : u.inq i = []) :
    u.run [.cleanup, .worker i, .cleanup] =
      some (.ok { u with worker := update u.worker i .exited, loop := u.nextWorker (i + 1) }) := by
  simp [run, step, cleanupStep, hl, signalWorker, hw, workerStep, workerTest, hq, hx, hi, hm, nextWorker]

/-- `pool_cleanup`'s loop over the workers from worker `i` on, with every worker from `i` on asleep
    and every inbox empty: each worker returns and is joined, and `pool_cleanup` returns. -/
theorem run_joinWorkers : ∀ (k : Nat) {i : Nat} {u : Pool}, i + k = u.nthreads → u.loop = u.nextWorker i →
    u.mutex = none → u.exiting = true → (∀ j, i ≤ j → j < u.nthreads → u.worker j = .blocked) →
    (∀ j, u.inq j = []) →
    ∃ v, u.run (joinWorkers i k) = some (.ok v) ∧ v.loop = .fini ∧ v.nthreads = u.nthreads ∧
      v.planner = u.planner ∧ v.outq = u.outq ∧ v.activeWs = u.activeWs ∧
      (∀ j, i ≤ j → j < u.nthreads → v.worker j = .exited) ∧ ∀ j, j < i → v.worker j = u.worker j
  | 0, i, u, hk, hl, _, _, _, _ =>
    ⟨u, rfl, by rw [hl, nextWorker, if_neg (by omega)], rfl, rfl, rfl, rfl, fun _ _ _ => by omega, fun _ _ => rfl⟩
  | k + 1, i, u, hk, hl, hm, hx, hw, hq => by
    have hi : i < u.nthreads := by omega
    obtain ⟨v, hv, hvl, hvn, hvp, hvo, hva, hvw, hvu⟩ := run_joinWorkers k (i := i + 1)
      (u := { u with worker := update u.worker i .exited, loop := u.nextWorker (i + 1) }) (by simp; omega) rfl
      hm hx (fun j h1 h2 => by simp [Function.update_noteq (by omega : j ≠ i), hw j (by omega) h2]) hq
    have h3 := run_joinWorker hi (by simpa [nextWorker, hi] using hl) hm hx (hw i le_rfl hi) (hq i)
    refine ⟨v, (run_append h3).trans hv, hvl, hvn, hvp, hvo, hva, fun j h1 h2 => ?_, fun j hj => ?_⟩
    · by_cases hj : j = i
      · subst hj
        simpa using hvu j (by omega)
      · exact hvw j (by omega) h2
    · simpa [Function.update_noteq (by omega : j ≠ i)] using hvu j (by omega)

theorem run_finiPlanner (hq : s.Quiescent) (hl : s.loop = .idle) (hn : 0 < s.nthreads) :
    s.run [.poolFini, .cleanup, .planner, .planner, .planner, .cleanup] =
      some (.ok { s with exiting := true, planner := .exited, plannerSm := .exited, loop := s.nextWorker 0 }) := by
  simp [run, step, hl, poolFini, Nat.pos_iff_ne_zero.mp hn, cleanupStep, signalPlanner, hq.planner, plannerStep,
    hq.mutex, plannerLock_eq, plannerRun, hq.plannerSm, hq.ordered, hq.unordered, smMove, allowed, plannerStates,
    bits, PlannerState.toNat, plannerInvariant, nextWorker]

/-- `pool_fini` on a quiescent pool returns, with the planner and every worker joined. -/
theorem run_finiSchedule (hq : s.Quiescent) (hl : s.loop = .idle) (hn : 0 < s.nthreads) :
    ∃ t, s.run (finiSchedule s.nthreads) = some (.ok t) ∧ t.loop = .finished ∧ t.planner = .exited ∧
      ∀ i, i < t.nthreads → t.worker i = .exited := by
  obtain ⟨v, hv, hvl, hvn, hvp, hvo, hva, hvw, -⟩ := run_joinWorkers s.nthreads (i := 0)
    (u := { s with exiting := true, planner := .exited, plannerSm := .exited, loop := s.nextWorker 0 }) (by simp)
    rfl hq.mutex rfl (fun j _ h => hq.worker j h) hq.inq
  have hfini : v.run [.cleanup] = some (.ok { v with loop := .finished }) := by
    simp [run, step, cleanupStep, hvl, hvo, hva, hq.outq, hq.activeWs]
  refine ⟨_, (run_append ((run_append (run_finiPlanner hq hl hn)).trans hv)).trans hfini, rfl, hvp,
    fun i hi => hvw i (Nat.zero_le _) (hvn ▸ hi)⟩

end Pool

/-- Before `pool_fini`, whatever the threads have done, there is a schedule in which `pool_fini`
    returns: the planner, the workers and `work_done` first drain the pool, then `pool_fini` signals
    and joins the planner and every worker, and its `POST`s and those of `pool_cleanup` hold. -/
theorem pool_fini_can_return {s : Pool} (hs : Reachable s) (hl : s.loop = .idle) :
    ∃ l t, (∀ a ∈ l, a.background) ∧ s.run (l ++ finiSchedule s.nthreads) = some (.ok t) ∧
      t.loop = .finished ∧ t.planner = .exited ∧ ∀ i, i < t.nthreads → t.worker i = .exited := by
  obtain ⟨l, u, hb, hr, hul, hq⟩ := hs.drains hl
  have hst := Pool.run_steps hr
  obtain ⟨t, ht, htl, htp, htw⟩ := Pool.run_finiSchedule hq hul (hs.steps hst).control.nthreads_pos
  rw [hst.nthreads_eq] at ht
  exact ⟨l, t, hb, (Pool.run_append hr).trans ht, htl, htp, htw⟩

theorem pool_fini_can_return_three :
    ∃ s : Pool, Reachable s ∧ s.loop = .idle ∧ s.log.length = 3 ∧
      ∃ l t, (∀ a ∈ l, a.background) ∧ s.run (l ++ finiSchedule s.nthreads) = some (.ok t) ∧
        t.loop = .finished := by
  have hr := (Reachable.init none).steps (Pool.run_steps (l := [.queueWork wtUnord 0, .queueWork wtBar 0,
    .queueWork wtOrd1 1]) rfl)
  obtain ⟨l, t, hb, ht, htl, -⟩ := pool_fini_can_return hr rfl
  exact ⟨_, hr, rfl, rfl, l, t, hb, ht, htl⟩

/-! ### Once `pool_fini` has started

`pool_cleanup` signals `planner_cond` once, without the pool mutex. A planner not yet asleep on it
misses the signal, and once `pool_cleanup` waits in the join, only a decrement of `in_flight` to `0`
signals the planner again. On a drained pool this is the one way `pool_fini` can hang: from every
other point of the shutdown the threads can be scheduled, with no spurious wake-up, so that it
returns. -/

/-- `uv_cond_wait` returning without a signal. -/
def Action.spurious : Action → Bool
  | .wakePlanner | .wakeWorker _ => true
  | _ => false

/-- `pool_cleanup`'s loop over the workers is at a worker the pool started. -/
def LoopPc.below (n : Nat) : LoopPc → Prop
  | .signalWorker i | .joinWorker i => i < n
  | _ => True

/-- The statements `pool_cleanup` and `pool_fini` have left, on a pool of `n` workers. -/
def LoopPc.finiRank (n : Nat) : LoopPc → Nat
  | .signalPlanner => 2 * n + 3
  | .joinPlanner => 2 * n + 2
  | .signalWorker i => 2 * (n - i) + 1
  | .joinWorker i => 2 * (n - i)
  | .fini => 1
  | .idle | .finished => 0

/-- The steps a worker takes to return once `exiting` is set and its inbox stays empty; asleep, it
    first waits for `pool_cleanup`'s signal. -/
def WorkerPc.finiRank : WorkerPc → Nat
  | .work _ => 5
  | .publish _ => 4
  | .wait => 3
  | .blocked | .relock _ => 2
  | .lock => 1
  | .exited => 0

/-- The steps the planner takes to return, in state `sm` of `planner_sm`, once `exiting` is set and
    both queues are empty; asleep, it first waits for a signal. -/
def PlannerPc.finiRank (sm : PlannerState) : PlannerPc → Nat
  | .wait => 5
  | .lock | .blocked => 4
  | .run =>
    match sm with
    | .draining => 3
    | .nothing => 2
    | _ => 1
  | .exited => 0

theorem PlannerPc.finiRank_run (sm : PlannerState) : PlannerPc.run.finiRank sm ≤ 3 := by
  cases sm <;> decide

theorem Pool.nextWorker_below (s : Pool) (i : Nat) : (s.nextWorker i).below s.nthreads := by
  unfold Pool.nextWorker
  split
  · exact ‹_›
  · trivial

theorem Reachable.loop_below {s : Pool} (hs : Reachable s) : s.loop.below s.nthreads := by
  induction hs with
  | init => trivial
  | step a hs ht ih =>
    rw [Steps.nthreads_eq (.tail a (.refl _) ht)]
    cases a with
    | planner => rw [(Pool.keeps_plannerStep ht).loop]; exact ih
    | worker i => rw [(Pool.keeps_workerStep (Pool.step_worker_ok ht).2).loop]; exact ih
    | queueWork =>
      obtain ⟨-, -, h⟩ := Pool.step_queueWork_ok ht
      obtain ⟨-, rfl⟩ := Pool.poolQueueWork_ok h
      exact ih
    | workDone => obtain ⟨-, -, rfl⟩ := Pool.step_workDone_ok ht; exact ih
    | queueDone => obtain ⟨-, w, q, -, -, rfl⟩ := Pool.step_queueDone_ok ht; exact ih
    | poolFini =>
      obtain ⟨-, rfl⟩ := Pool.step_poolFini_ok ht
      unfold Pool.poolFini
      split <;> trivial
    | cleanup =>
      rcases Pool.cleanupStep_ok ht with ⟨-, rfl⟩ | ⟨-, -, -, -, rfl⟩ | ⟨j, hl, rfl⟩ | ⟨j, -, -, -, rfl⟩ | ⟨-, -, -, rfl⟩
      · trivial
      · exact Pool.nextWorker_below _ 0
      · rw [hl] at ih; exact ih
      · exact Pool.nextWorker_below _ (j + 1)
      · trivial
    | wakePlanner => obtain ⟨-, rfl⟩ := Pool.step_wakePlanner_ok ht; exact ih
    | wakeWorker i => obtain ⟨-, -, rfl⟩ := Pool.step_wakeWorker_ok ht; exact ih

namespace Pool

variable {s t : Pool} {i : Nat}

theorem finiRank_nextWorker (hi : i < s.nthreads) :
    (s.nextWorker (i + 1)).finiRank s.nthreads < 2 * (s.nthreads - i) := by
  unfold nextWorker
  split <;> simp only [LoopPc.finiRank] <;> omega

/-- `pool_cleanup` has signalled `planner_cond` and waits to join the planner, which sleeps on it or
    is about to, with no ordered item in flight whose decrement would signal it again. -/
def SignalLost (s : Pool) : Prop :=
  s.loop = .joinPlanner ∧ (s.planner = .wait ∨ s.planner = .blocked) ∧ s.inFlight = 0

/-- What is left of the shutdown: the statements of `pool_cleanup` and `pool_fini`, and the steps of
    the planner and of each worker. -/
def finiRank (s : Pool) : Nat :=
  s.loop.finiRank s.nthreads + s.planner.finiRank s.plannerSm + sumBelow (fun i => (s.worker i).finiRank) s.nthreads

/-- A step that is no spurious wake-up, lowers what is left of the shutdown, does not lose the
    planner's signal, and leaves no decrement to signal `planner_cond` once it is destroyed. -/
def FiniStep (s t : Pool) : Prop :=
  ∃ a, a.spurious = false ∧ s.step a = some (.ok t) ∧ t.finiRank < s.finiRank ∧ ¬ t.SignalLost ∧
    (t.loop.plannerCondDestroyed = true → t.inFlight = 0)

theorem finiStep_of {a : Action} (ha : a.spurious = false) (h : s.step a = some (.ok t)) (hi : i < s.nthreads)
    (hn : t.nthreads = s.nthreads) (hj : ∀ j, j ≠ i → t.worker j = s.worker j)
    (hr : t.loop.finiRank s.nthreads + t.planner.finiRank t.plannerSm + (t.worker i).finiRank <
      s.loop.finiRank s.nthreads + s.planner.finiRank s.plannerSm + (s.worker i).finiRank)
    (hl : ¬ t.SignalLost) (hns : t.loop.plannerCondDestroyed = true → t.inFlight = 0) : s.FiniStep t := by
  have := sumBelow_update (f := fun j => (t.worker j).finiRank) (g := fun j => (s.worker j).finiRank) hi
    fun j hne => by simp [hj j hne]
  refine ⟨a, ha, h, ?_, hl, hns⟩
  simp only [finiRank, hn] at this ⊢
  omega

theorem Drained.empty (hs : Reachable s) (hd : s.Drained) :
    (∀ i, s.inq i = []) ∧ s.outq = [] ∧ s.completed = [] :=
  (hs.items.counters.idle hs.items.places hd.activeWs).2

/-- With `exiting` set and both queues empty, the planner leaves `PS_DRAINING` for `PS_NOTHING`,
    moves to `PS_EXITED`, and returns. -/
theorem finiStep_plannerRun (hc : Control s) (hd : s.Drained) (hp : s.planner = .run)
    (hns : s.loop.plannerCondDestroyed = true → s.inFlight = 0) : ∃ t, s.FiniStep t := by
  have hx := hc.loop_exiting hd.loop
  have awake : ∀ {t : Pool}, t.planner = .run ∨ t.planner = .exited → ¬ t.SignalLost :=
    fun h ⟨_, h', _⟩ => by rcases h with h | h <;> simp [h] at h'
  cases hsm : s.plannerSm with
  | nothing =>
    exact ⟨_, finiStep_of (a := .planner) (t := { s with plannerSm := .exited }) rfl
      (by simp [step, plannerStep, hp, plannerRun, hsm, hd.ordered, hd.unordered, hx, smMove, allowed,
        plannerStates, bits, PlannerState.toNat, plannerInvariant])
      hc.nthreads_pos rfl (fun _ _ => rfl) (by simp [PlannerPc.finiRank, hp, hsm]) (awake (.inl hp)) hns⟩
  | draining =>
    exact ⟨_, finiStep_of (a := .planner) (t := { s with plannerSm := .nothing }) rfl
      (by simp [step, plannerStep, hp, plannerRun, hsm, hd.ordered, hd.unordered, smMove, allowed,
        plannerStates, bits, PlannerState.toNat, plannerInvariant])
      hc.nthreads_pos rfl (fun _ _ => rfl) (by simp [PlannerPc.finiRank, hp, hsm]) (awake (.inl hp)) hns⟩
  | exited =>
    exact ⟨_, finiStep_of (a := .planner) (t := { s with planner := .exited, mutex := none }) rfl
      (by simp [step, plannerStep, hp, plannerRun, hsm]) hc.nthreads_pos rfl (fun _ _ => rfl)
      (by simp [PlannerPc.finiRank, hp, hsm]) (awake (.inr rfl)) hns⟩
  | barrier | drainingUnord =>
    obtain ⟨b, o, ho, -⟩ := hc.barrier_head (by simp [hsm])
    simp [hd.ordered] at ho

theorem finiStep_plannerWait (hc : Control s) (hp : s.planner = .wait) (hl : ¬ s.SignalLost)
    (hns : s.loop.plannerCondDestroyed = true → s.inFlight = 0) :
    s.FiniStep { s with planner := .blocked, mutex := none } :=
  finiStep_of (a := .planner) rfl (by simp [step, plannerStep, hp]) hc.nthreads_pos rfl (fun _ _ => rfl)
    (by simp [PlannerPc.finiRank, hp]) (fun ⟨h1, _, h3⟩ => hl ⟨h1, .inl hp, h3⟩) hns

theorem finiStep_plannerLock (hc : Control s) (hp : s.planner = .lock) (hm : s.mutex = none)
    (hns : s.loop.plannerCondDestroyed = true → s.inFlight = 0) :
    s.FiniStep { s with mutex := some .planner, planner := .run } := by
  have := PlannerPc.finiRank_run s.plannerSm
  refine finiStep_of (a := .planner) rfl (by simp [step, plannerStep, hp, hm, plannerLock_eq]) hc.nthreads_pos
    rfl (fun _ _ => rfl) ?_ (fun ⟨_, h, _⟩ => by simp at h) hns
  simp only [hp, PlannerPc.finiRank] at this ⊢
  omega

/-- Worker `i`, awake, takes its next step towards returning: it goes to sleep, finds its inbox empty
    with `exiting` set and returns, finishes or publishes its item, or retakes the mutex after it,
    which may wake the planner. -/
theorem finiStep_worker (hs : Reachable s) (hd : s.Drained) (hi : i < s.nthreads) (hl : ¬ s.SignalLost)
    (hns : s.loop.plannerCondDestroyed = true → s.inFlight = 0)
    (hm : s.mutex = none ∨ s.mutex = some (.worker i)) (hb : s.worker i ≠ .blocked)
    (he : s.worker i ≠ .exited) : ∃ t, s.FiniStep t := by
  have hc := hs.control
  have hx := hc.loop_exiting hd.loop
  have hq := (Drained.empty hs hd).1 i
  have free : s.worker i ≠ .wait → s.mutex = none :=
    fun hw => hm.resolve_right fun h => hw ((hc.mutex_worker i).mp h)
  have same : ∀ {t : Pool}, t.loop = s.loop → t.planner = s.planner → t.inFlight = s.inFlight →
      ¬ t.SignalLost :=
    fun h1 h2 h3 ⟨l, p, f⟩ => hl ⟨h1 ▸ l, h2 ▸ p, h3 ▸ f⟩
  have upd : ∀ v : WorkerPc, ∀ j, j ≠ i → update s.worker i v j = s.worker j :=
    fun _ _ hj => Function.update_noteq hj _ _
  cases hw : s.worker i with
  | lock =>
    exact ⟨_, finiStep_of (a := .worker i) (t := { s with worker := update s.worker i .exited, mutex := none })
      rfl (by simp [step, hi, workerStep, hw, free (by simp [hw]), workerTest_exit hq hx]) hi rfl (upd _)
      (by simp [hw, WorkerPc.finiRank]) (same rfl rfl rfl) hns⟩
  | wait =>
    exact ⟨_, finiStep_of (a := .worker i) (t := { s with worker := update s.worker i .blocked, mutex := none })
      rfl (by simp [step, hi, workerStep, hw]) hi rfl (upd _) (by simp [hw, WorkerPc.finiRank]) (same rfl rfl rfl) hns⟩
  | work w =>
    exact ⟨_, finiStep_of (a := .worker i)
      (t := { s with worker := update s.worker i (.publish w), log := s.log ++ [.finish w] })
      rfl (by simp [step, hi, workerStep, hw]) hi rfl (upd _) (by simp [hw, WorkerPc.finiRank]) (same rfl rfl rfl) hns⟩
  | publish w =>
    exact ⟨_, finiStep_of (a := .worker i)
      (t := { s with outq := s.outq ++ [w], worker := update s.worker i (.relock w), log := s.log ++ [.publish w] })
      rfl (by simp [step, hi, workerStep, hw, push_eq]) hi rfl (upd _) (by simp [hw, WorkerPc.finiRank])
      (same rfl rfl rfl) hns⟩
  | relock w =>
    have hm' := free (by simp [hw])
    by_cases hbar : wtBar < w.type
    · have hf : 0 < s.inFlight :=
        hs.items.counters.inFlight_pos hs.items.places (i := i) (by simp [hw, WorkerPc.hold]) hbar
      refine ⟨_, finiStep_of (a := .worker i) (t := { s with
        inFlight := s.inFlight - 1, log := s.log ++ [.decrement w],
        planner := if s.inFlight = 1 ∧ s.planner = .blocked then .lock else s.planner,
        worker := update s.worker i .exited, mutex := none }) rfl
        (by simp [step, hi, workerStep, hw, hm', release_decrement hbar hf fun h1 => Bool.eq_false_iff.mpr fun h => by
          have := hns h; omega, workerTest, hq, hx]) hi rfl (upd _) ?_ ?_ fun h => absurd (hns h) (by omega)⟩
      · by_cases h1 : s.inFlight = 1 ∧ s.planner = .blocked
        · simp [h1, PlannerPc.finiRank, hw, WorkerPc.finiRank]
        · simp [if_neg h1, hw, WorkerPc.finiRank]
      · rintro ⟨-, hp, h0⟩
        have h1 : s.inFlight = 1 := by simp at h0; omega
        by_cases hpb : s.planner = .blocked
        · simp [h1, hpb] at hp
        · simp [hpb] at hp
          exact (hc.free_planner hm').2 hp
    · exact ⟨_, finiStep_of (a := .worker i) (t := { s with worker := update s.worker i .exited, mutex := none })
        rfl (by simp [step, hi, workerStep, hw, hm', release, hbar, workerTest_exit hq hx]) hi rfl (upd _)
        (by simp [hw, WorkerPc.finiRank]) (same rfl rfl rfl) hns⟩
  | blocked => exact absurd hw hb
  | exited => exact absurd hw he

/-- `pool_cleanup` and `pool_fini` take their next statement once the planner and each worker sleep
    or have returned: the signal to the planner, the join of the returned planner, the signal to a
    worker, the join of a returned worker, and the `POST`. -/
theorem finiStep_cleanup (hs : Reachable s) (hd : s.Drained) (hp : s.planner = .blocked ∨ s.planner = .exited)
    (hpj : s.loop = .joinPlanner → s.planner = .exited) (h0 : s.inFlight = 0)
    (hw : ∀ i, i < s.nthreads → s.worker i = .blocked ∨ s.worker i = .exited) (hf : s.loop ≠ .finished) :
    ∃ t, s.FiniStep t := by
  have hc := hs.control
  have hn := hc.nthreads_pos
  have hb := hs.loop_below
  obtain ⟨hq, ho, -⟩ := Drained.empty hs hd
  have away : ∀ {t : Pool}, t.loop ≠ .joinPlanner → ¬ t.SignalLost := fun h h' => h h'.1
  cases hl : s.loop with
  | idle => exact absurd hl hd.loop
  | signalPlanner =>
    rcases hp with hp | hp
    · exact ⟨_, finiStep_of (a := .cleanup) (t := { s with planner := .lock, loop := .joinPlanner }) rfl
        (by simp [step, cleanupStep, hl, signalPlanner, hp]) hn rfl (fun _ _ => rfl)
        (by simp [hl, hp, PlannerPc.finiRank, LoopPc.finiRank]) (fun ⟨_, h, _⟩ => by simp at h)
        fun _ => h0⟩
    · exact ⟨_, finiStep_of (a := .cleanup) (t := { s with loop := .joinPlanner }) rfl
        (by simp [step, cleanupStep, hl, signalPlanner, hp]) hn rfl (fun _ _ => rfl)
        (by simp [hl, hp, PlannerPc.finiRank, LoopPc.finiRank]) (fun ⟨_, h, _⟩ => by simp [hp] at h)
        fun _ => h0⟩
  | joinPlanner =>
    exact ⟨_, finiStep_of (a := .cleanup) (t := { s with loop := s.nextWorker 0 }) rfl
      (by simp [step, cleanupStep, hl, hpj hl, hd.ordered, hd.unordered]) hn rfl (fun _ _ => rfl)
      (by simp [hl, nextWorker, hn, LoopPc.finiRank]) (away (by simp [nextWorker, hn])) fun _ => h0⟩
  | signalWorker i =>
    have hi : i < s.nthreads := by simpa [hl, LoopPc.below] using hb
    rcases hw i hi with hwi | hwi
    · exact ⟨_, finiStep_of (a := .cleanup) (i := i)
        (t := { s with worker := update s.worker i .lock, loop := .joinWorker i }) rfl
        (by simp [step, cleanupStep, hl, signalWorker, hwi]) hi rfl (fun j hj => Function.update_noteq hj _ _)
        (by simp [hl, hwi, LoopPc.finiRank, WorkerPc.finiRank]; omega) (away (by simp)) fun _ => h0⟩
    · exact ⟨_, finiStep_of (a := .cleanup) (i := i) (t := { s with loop := .joinWorker i }) rfl
        (by simp [step, cleanupStep, hl, signalWorker, hwi]) hi rfl (fun _ _ => rfl)
        (by simp [hl, LoopPc.finiRank]) (away (by simp)) fun _ => h0⟩
  | joinWorker i =>
    have hi : i < s.nthreads := by simpa [hl, LoopPc.below] using hb
    have hwi : s.worker i = .exited :=
      (hw i hi).resolve_left (hc.signalled i (by simp [hl, LoopPc.signalled])).2
    have := finiRank_nextWorker hi
    exact ⟨_, finiStep_of (a := .cleanup) (t := { s with loop := s.nextWorker (i + 1) }) rfl
      (by simp [step, cleanupStep, hl, hwi, hq i]) hn rfl (fun _ _ => rfl)
      (by simp only [hl, LoopPc.finiRank] at this ⊢; omega) (away (by unfold nextWorker; split <;> simp))
      fun _ => h0⟩
  | fini =>
    exact ⟨_, finiStep_of (a := .cleanup) (t := { s with loop := .finished }) rfl
      (by simp [step, cleanupStep, hl, ho, hd.activeWs]) hn rfl (fun _ _ => rfl)
      (by simp [hl, LoopPc.finiRank]) (away (by simp)) fun _ => h0⟩
  | finished => exact absurd hl hf

/-- On a drained pool whose planner signal is not lost, `pool_fini` has returned, or some thread can
    take a step towards the end of the shutdown that does not lose it: the holder of the mutex first,
    then an awake worker, the planner, and last the loop thread. -/
theorem finished_or_finiStep (hs : Reachable s) (hd : s.Drained) (hl : ¬ s.SignalLost)
    (hns : s.loop.plannerCondDestroyed = true → s.inFlight = 0) : s.loop = .finished ∨ ∃ t, s.FiniStep t := by
  have hc := hs.control
  by_cases hf : s.loop = .finished
  · exact .inl hf
  refine .inr ?_
  cases hm : s.mutex with
  | some o =>
    cases o with
    | planner =>
      rcases hc.mutex_planner.mp hm with hp | hp
      · exact finiStep_plannerRun hc hd hp hns
      · exact ⟨_, finiStep_plannerWait hc hp hl hns⟩
    | worker i =>
      have hw := (hc.mutex_worker i).mp hm
      have hi : i < s.nthreads := Nat.lt_of_not_le fun h => by simp [hc.beyond i h] at hw
      exact finiStep_worker hs hd hi hl hns (.inr hm) (by simp [hw]) (by simp [hw])
  | none =>
    by_cases hw : ∃ i, i < s.nthreads ∧ s.worker i ≠ .blocked ∧ s.worker i ≠ .exited
    · obtain ⟨i, hi, hb, he⟩ := hw
      exact finiStep_worker hs hd hi hl hns (.inl hm) hb he
    push_neg at hw
    by_cases hpl : s.planner = .lock
    · exact ⟨_, finiStep_plannerLock hc hpl hm hns⟩
    have hp : s.planner = .blocked ∨ s.planner = .exited := by
      have := hc.free_planner hm
      cases h : s.planner <;> simp_all
    have hw' : ∀ i, i < s.nthreads → s.worker i = .blocked ∨ s.worker i = .exited :=
      fun i hi => or_iff_not_imp_left.mpr (hw i hi)
    -- With every worker asleep or returned, nothing is in flight.
    obtain ⟨hq, ho, hcomp⟩ := Drained.empty hs hd
    have hholds : ∀ i, s.items.holds i = .none := fun i => by
      by_cases hi : i < s.nthreads
      · rcases hw' i hi with h | h <;> simp [h, WorkerPc.hold]
      · simp [hc.beyond i (Nat.le_of_not_lt hi), WorkerPc.hold]
    have h0 : s.inFlight = 0 :=
      (Items.settled hs.items.places hs.items.counters hs.items.relocked hq hholds ho hcomp).1
    exact finiStep_cleanup hs hd hp (fun hj => hp.resolve_left fun hpb => hl ⟨hj, .inr hpb, h0⟩) h0 hw' hf

/-! ### A lost signal stays lost -/

theorem workerTest_signalLost (s : Pool) (i : Nat) : (s.workerTest i).SignalLost ↔ s.SignalLost := by
  unfold workerTest
  split
  · split <;> exact Iff.rfl
  · exact Iff.rfl

/-- Once the planner's signal is lost, only a spurious wake-up changes that: nothing else signals
    `planner_cond`, no decrement can happen with nothing in flight, and the join waits for a planner
    that sleeps. -/
theorem SignalLost.step (hl : s.SignalLost) {a : Action} (ha : a.spurious = false)
    (h : s.step a = some (.ok t)) : t.SignalLost := by
  obtain ⟨hj, hp, hf⟩ := hl
  have busy : s.loop ≠ .idle := by simp [hj]
  cases a with
  | planner =>
    rcases planner_steps_ok h with ⟨hpl, -⟩ | ⟨hpl, -⟩ | ⟨-, rfl⟩
    · simp [hpl] at hp
    · simp [hpl] at hp
    · exact ⟨hj, .inr rfl, hf⟩
  | worker i =>
    rcases workerStep_ok (step_worker_ok h).2 with ⟨-, -, rfl⟩ | ⟨-, rfl⟩ | ⟨w, -, rfl⟩ | ⟨w, -, rfl⟩ | ⟨w, -, -, hr⟩
    · exact (workerTest_signalLost s i).mpr ⟨hj, hp, hf⟩
    · exact ⟨hj, hp, hf⟩
    · exact ⟨hj, hp, hf⟩
    · exact ⟨hj, hp, hf⟩
    · rcases release_ok hr with ⟨-, rfl⟩ | ⟨-, hpos, -, -⟩
      · exact (workerTest_signalLost s i).mpr ⟨hj, hp, hf⟩
      · omega
  | queueWork => exact absurd (step_queueWork_ok h).1 busy
  | workDone => exact absurd (step_workDone_ok h).1 busy
  | queueDone => exact absurd (step_queueDone_ok h).1 busy
  | poolFini => exact absurd (step_poolFini_ok h).1 busy
  | cleanup =>
    rcases cleanupStep_ok h with ⟨hl, -⟩ | ⟨-, he, -⟩ | ⟨j, hl, -⟩ | ⟨j, hl, -⟩ | ⟨hl, -⟩
    · simp [hj] at hl
    · rcases hp with hp | hp <;> simp [hp] at he
    · simp [hj] at hl
    · simp [hj] at hl
    · simp [hj] at hl
  | wakePlanner => simp [Action.spurious] at ha
  | wakeWorker => simp [Action.spurious] at ha

theorem SignalLost.run {l : List Action} (hl : s.SignalLost) (ha : ∀ a ∈ l, a.spurious = false)
    (h : s.run l = some (.ok t)) : t.SignalLost := by
  induction l generalizing s with
  | nil => cases h; exact hl
  | cons a l ih =>
    simp only [run] at h
    split at h
    · exact ih (hl.step (List.forall_mem_cons.mp ha).1 ‹_›) (List.forall_mem_cons.mp ha).2 h
    · simp_all

end Pool

/-- From a drained pool whose planner signal is not lost, the threads can be scheduled, with no
    spurious wake-up, so that `pool_fini` returns. -/
theorem Reachable.fini_returns {s : Pool} (hs : Reachable s) (hd : s.Drained) (hl : ¬ s.SignalLost)
    (hns : s.loop.plannerCondDestroyed = true → s.inFlight = 0) :
    ∃ l t, (∀ a ∈ l, a.spurious = false) ∧ s.run l = some (.ok t) ∧ t.loop = .finished := by
  rcases Pool.finished_or_finiStep hs hd hl hns with hf | ⟨t, a, ha, ht, hlt, htl, htns⟩
  · exact ⟨[], s, by simp, rfl, hf⟩
  · obtain ⟨hs', hd'⟩ := hd.steps hs (.tail a (.refl s) ht)
    obtain ⟨l, u, hb, hu, hul⟩ := hs'.fini_returns hd' htl htns
    exact ⟨a :: l, u, List.forall_mem_cons.mpr ⟨ha, hb⟩, by simp [Pool.run, ht, hu], hul⟩
termination_by s.finiRank
decreasing_by exact hlt

/-- Once `pool_fini` has started on a pool with nothing left (`active_ws` at `0`, both producer
    queues empty), and with no decrement of `in_flight` left to signal `planner_cond` after
    `pool_cleanup` destroyed it, the threads can be scheduled, with no spurious wake-up, so that
    `pool_fini` returns if and only if `pool_cleanup`'s signal to the planner has not been lost: it
    does not wait to join a planner that sleeps on `planner_cond`, or is about to, with nothing in
    flight. -/
theorem fini_can_return_iff_signal_not_lost {s : Pool} (hs : Reachable s) (hd : s.Drained)
    (hns : s.loop.plannerCondDestroyed = true → s.inFlight = 0) :
    (∃ l t, (∀ a ∈ l, a.spurious = false) ∧ s.run l = some (.ok t) ∧ t.loop = .finished) ↔
      ¬ s.SignalLost := by
  refine ⟨fun ⟨l, t, ha, ht, hf⟩ hl => ?_, fun hl => hs.fini_returns hd hl hns⟩
  have := (hl.run ha ht).1
  rw [hf] at this
  cases this

/-- Two drained pools. In the first, `pool_fini` starts while a worker, back from an ordered item
    whose `after_work_cb` already ran, has still to decrement `in_flight`: the decrement before the
    join wakes the planner, and `pool_fini` returns. In the second, the planner misses
    `pool_cleanup`'s signal on the way to its `uv_cond_wait`, and no schedule lets `pool_fini`
    return. -/
theorem fini_can_return_iff_signal_not_lost_two_pools :
    (∃ s : Pool, Reachable s ∧ s.Drained ∧ s.inFlight = 1 ∧
      ∃ l t, (∀ a ∈ l, a.spurious = false) ∧ s.run l = some (.ok t) ∧ t.loop = .finished) ∧
    (∃ s : Pool, Reachable s ∧ s.Drained ∧
      ¬ ∃ l t, (∀ a ∈ l, a.spurious = false) ∧ s.run l = some (.ok t) ∧ t.loop = .finished) := by
  obtain ⟨s, hr, hl, hf, ha, ho, hu⟩ : ∃ s : Pool, Reachable s ∧ s.loop = .signalPlanner ∧ s.inFlight = 1 ∧
      s.activeWs = 0 ∧ s.ordered = [] ∧ s.unordered = [] :=
    ⟨_, (Reachable.init none).steps (Pool.run_steps (l := [.queueWork wtOrd1 0, .planner, .planner, .planner,
      .planner, .planner, .planner, .worker 0, .worker 0, .worker 0, .workDone, .queueDone, .poolFini]) rfl),
      rfl, rfl, rfl, rfl, rfl⟩
  obtain ⟨s', hr', hl', hp', hf', ha', ho', hu'⟩ : ∃ s : Pool, Reachable s ∧ s.loop = .joinPlanner ∧
      s.planner = .blocked ∧ s.inFlight = 0 ∧ s.activeWs = 0 ∧ s.ordered = [] ∧ s.unordered = [] :=
    ⟨_, (Reachable.init none).steps (Pool.run_steps (l := [.planner, .planner, .poolFini, .cleanup, .planner]) rfl),
      rfl, rfl, rfl, rfl, rfl, rfl⟩
  have hd : s.Drained := ⟨by simp [hl], ha, ho, hu⟩
  have hd' : s'.Drained := ⟨by simp [hl'], ha', ho', hu'⟩
  exact ⟨⟨s, hr, hd, hf, (fini_can_return_iff_signal_not_lost hr hd (by simp [hl, LoopPc.plannerCondDestroyed])).mpr
      fun ⟨h, _⟩ => by simp [hl] at h⟩,
    ⟨s', hr', hd', fun h => (fini_can_return_iff_signal_not_lost hr' hd' fun _ => hf').mp h ⟨hl', .inr hp', hf'⟩⟩⟩

/-! ### What `pool_fini` returning says of the work -/

/-- Inside `pool_fini` the loop thread runs no `work_done`: a step keeps `active_ws`, does not bring
    the loop thread back, and ends `pool_fini` only through its `POST`. -/
theorem Pool.step_during_fini {s t : Pool} {a : Action} (hl : s.loop ≠ .idle) (h : s.step a = some (.ok t)) :
    t.activeWs = s.activeWs ∧ t.loop ≠ .idle ∧ (t.loop = .finished → s.loop = .finished ∨ s.activeWs = 0) := by
  have same : t.activeWs = s.activeWs → t.loop = s.loop →
      t.activeWs = s.activeWs ∧ t.loop ≠ .idle ∧ (t.loop = .finished → s.loop = .finished ∨ s.activeWs = 0) :=
    fun ha hl' => ⟨ha, hl' ▸ hl, fun hf => .inl (hl' ▸ hf)⟩
  cases a with
  | planner => exact same (Pool.keeps_plannerStep h).activeWs (Pool.keeps_plannerStep h).loop
  | worker i =>
    have hk := Pool.keeps_workerStep (Pool.step_worker_ok h).2
    exact same hk.activeWs hk.loop
  | queueWork => exact absurd (Pool.step_queueWork_ok h).1 hl
  | workDone => exact absurd (Pool.step_workDone_ok h).1 hl
  | queueDone => exact absurd (Pool.step_queueDone_ok h).1 hl
  | poolFini => exact absurd (Pool.step_poolFini_ok h).1 hl
  | cleanup =>
    have hn : ∀ j, s.nextWorker j ≠ .finished := fun j => by unfold Pool.nextWorker; split <;> simp
    refine ⟨by simpa using congrArg Items.activeWs (Pool.items_cleanupStep h).symm, Pool.cleanupStep_busy h,
      fun hf => ?_⟩
    rcases Pool.cleanupStep_ok h with ⟨-, rfl⟩ | ⟨-, -, -, -, rfl⟩ | ⟨j, -, rfl⟩ | ⟨j, -, -, -, rfl⟩ | ⟨-, -, ha, -⟩
    · simp [Pool.signalPlanner_eq] at hf
    · exact absurd hf (hn 0)
    · simp [Pool.signalWorker_eq] at hf
    · exact absurd hf (hn (j + 1))
    · exact .inr ha
  | wakePlanner => obtain ⟨-, rfl⟩ := Pool.step_wakePlanner_ok h; exact same rfl rfl
  | wakeWorker i => obtain ⟨-, -, rfl⟩ := Pool.step_wakeWorker_ok h; exact same rfl rfl

theorem Steps.during_fini {s t : Pool} (hl : s.loop ≠ .idle) (h : Steps s t) :
    t.activeWs = s.activeWs ∧ t.loop ≠ .idle ∧ (t.loop = .finished → s.loop = .finished ∨ s.activeWs = 0) := by
  induction h with
  | refl => exact ⟨rfl, hl, .inl⟩
  | tail a _ hu ih =>
    obtain ⟨ha, hl', hf⟩ := ih
    obtain ⟨ha', hl'', hf'⟩ := Pool.step_during_fini hl' hu
    exact ⟨ha'.trans ha, hl'', fun h => (hf' h).elim hf fun h0 => .inr (ha ▸ h0)⟩

/-- `pool_fini` returns only if it was called once the `after_work_cb` of every item submitted, other
    than a barrier, had run: inside `pool_fini` the loop thread runs no `work_done`, so `active_ws`
    keeps the value it had, and the `POST` of `pool_fini` needs it at `0`. -/
theorem fini_returns_only_when_all_done {s t₀ t : Pool} (hs : Reachable s) (hf : s.step .poolFini = some (.ok t₀))
    (ht : Steps t₀ t) (hfin : t.loop = .finished) :
    s.activeWs = 0 ∧ ∀ w, .submit w ∈ s.log → w.type ≠ wtBar → .done w ∈ s.log := by
  obtain ⟨-, rfl⟩ := Pool.step_poolFini_ok hf
  have h0 : s.poolFini.loop ≠ .idle ∧ s.poolFini.loop ≠ .finished := by
    unfold Pool.poolFini; split <;> simp
  obtain ⟨ha, -, hf'⟩ := ht.during_fini h0.1
  have ha0 : s.activeWs = 0 := ((hf' hfin).resolve_left h0.2 : s.poolFini.activeWs = 0) ▸ by
    unfold Pool.poolFini; split <;> rfl
  refine ⟨ha0, fun w hw hb => ?_⟩
  have hz : s.items.submitted.countP (fun w => w.type ≠ wtBar ∧ .done w ∉ s.log) = 0 :=
    hs.items.counters.activeWs.symm.trans ha0
  simpa [hb] using List.countP_eq_zero.mp hz w (List.mem_filterMap.mpr ⟨_, hw, rfl⟩)

/-- An unordered item run by worker `0` and done with before `pool_fini`: the shutdown returns, and
    the item was done. -/
theorem fini_returns_only_when_all_done_after_work :
    ∃ s t₀ t : Pool, Reachable s ∧ .submit ⟨0, wtUnord, 0⟩ ∈ s.log ∧ s.step .poolFini = some (.ok t₀) ∧
      Steps t₀ t ∧ t.loop = .finished ∧
      (s.activeWs = 0 ∧ ∀ w, .submit w ∈ s.log → w.type ≠ wtBar → .done w ∈ s.log) := by
  obtain ⟨s, t₀, t, hr, hw, hf, ht, hfin⟩ : ∃ s t₀ t : Pool, Reachable s ∧ .submit ⟨0, wtUnord, 0⟩ ∈ s.log ∧
      s.step .poolFini = some (.ok t₀) ∧ Steps t₀ t ∧ t.loop = .finished :=
    ⟨_, _, _, (Reachable.init none).steps (Pool.run_steps (l := [.queueWork wtUnord 0, .planner, .planner,
      .planner, .planner, .planner, .planner, .worker 0, .worker 0, .worker 0, .worker 0, .worker 0, .workDone,
      .queueDone]) rfl), by decide, rfl, Pool.run_steps (l := (finiSchedule 4).tail) rfl, rfl⟩
  exact ⟨s, t₀, t, hr, hw, hf, ht, hfin, fini_returns_only_when_all_done hr hf ht hfin⟩

end Dqlite
