import Dqlite.Theorems.Planner
import Dqlite.Theorems.Counters

/-! # Shutdown

`pool_fini` and `pool_cleanup`. `pool_cleanup` stores `exiting` and signals `planner_cond` without the
pool mutex, so the planner can test `exiting` under the mutex, miss the signal and sleep in
`PS_NOTHING` while `pool_cleanup` waits to join it. A worker cannot miss its signal: `pool_cleanup`
signals it only after joining the planner, which took the mutex after `exiting` was stored.

`pool_fini` called once every callback ran (`active_ws` at `0`) can still find a barrier in
`ordered`: nothing waits for a barrier. The planner, woken in `PS_NOTHING` with `exiting` set, then
moves to `PS_EXITED` with `ordered` not empty and `planner_invariant` aborts. With `ordered` empty
as well, no thread aborts from then on: the planner and the workers only take from the producer
queues, and the loop thread, in `pool_fini`, submits nothing. -/

namespace Dqlite

/-- The planner reaches `uv_cond_wait` with nothing queued; `pool_fini` stores `exiting` and signals
    `planner_cond` before the planner sleeps on it. The signal is lost, and
    `uv_thread_join(&pi->planner_thread)` waits for a planner asleep in `PS_NOTHING`. -/
theorem cleanup_loses_planner_signal :
    ∃ t, Reachable t ∧ t.loop = .joinPlanner ∧ t.planner = .blocked ∧ t.plannerSm = .nothing :=
  ⟨_, (Reachable.init none).steps
    (Pool.run_steps (l := [.planner, .planner, .poolFini, .cleanup, .planner]) rfl), rfl, rfl, rfl⟩

/-- After `pool_cleanup` signalled `ts[i].cond`, worker `i` is neither asleep on it nor about to
    sleep. -/
theorem signalled_worker_awake {s : Pool} (hs : Reachable s) {i : Nat} (h : s.loop.signalled i) :
    s.worker i ≠ .wait ∧ s.worker i ≠ .blocked :=
  hs.control.signalled i h

/-- Worker `0` and the planner asleep when `pool_fini` is called: the planner exits, `pool_cleanup`
    joins it, and its signal to worker `0` wakes the worker. -/
theorem signalled_worker_awake_shutdown :
    ∃ s t : Pool, Reachable s ∧ s.worker 0 = .blocked ∧ s.step .cleanup = some (.ok t) ∧ t.loop.signalled 0 ∧
      (t.worker 0 ≠ .wait ∧ t.worker 0 ≠ .blocked) := by
  obtain ⟨s, t, hr, hw, ht, hsig⟩ : ∃ s t : Pool, Reachable s ∧ s.worker 0 = .blocked ∧
      s.step .cleanup = some (.ok t) ∧ t.loop.signalled 0 :=
    ⟨_, _, (Reachable.init none).steps (Pool.run_steps (l := [.worker 0, .worker 0, .planner, .planner, .planner,
      .poolFini, .cleanup, .planner, .planner, .planner, .cleanup]) rfl), rfl, rfl, Nat.le_refl 0⟩
  exact ⟨s, t, hr, hw, ht, hsig, signalled_worker_awake (.step _ hr ht) hsig⟩

/-! ### Shutdown with a barrier left -/

/-- A barrier submitted just before `pool_fini`: `active_ws` is `0`, the planner wakes in
    `PS_NOTHING` with `exiting` set, and `sm_move(PS_EXITED)` aborts. -/
theorem fini_aborts_with_queued_barrier :
    ∃ s, Reachable s ∧ s.loop = .idle ∧ s.activeWs = 0 ∧
      s.run [.poolFini, .planner, .planner] = some (.error .invariant) :=
  ⟨_, (Reachable.init none).steps (Pool.run_steps (l := [.queueWork wtBar 0]) rfl), rfl, rfl, rfl⟩

/-- With `active_ws` at `0`, as `pool_fini` expects it, nothing is left to run: `unordered`, the
    inboxes, `outq` and `work_done`'s queue are empty, no `work_cb` runs or waits to be published,
    and `ordered` holds only barriers, which `active_ws` does not count. -/
theorem idle_pool_holds_only_barriers {s : Pool} (hs : Reachable s) (ha : s.activeWs = 0) :
    s.unordered = [] ∧ (∀ i, s.inq i = []) ∧ s.outq = [] ∧ s.completed = [] ∧
      (∀ w ∈ s.ordered, w.type = wtBar) ∧ ∀ i w, s.worker i ≠ .work w ∧ s.worker i ≠ .publish w := by
  have hp := hs.items.places
  have hc := hs.items.counters
  have hbar : ∀ w, 0 < s.items.stage w → s.items.stage w < 6 → w.type = wtBar := fun w h1 h6 => by
    by_contra hnb
    exact Nat.pos_iff_ne_zero.mp (hc.activeWs_pos hp hnb h1 h6) ha
  have hrun : ∀ w, 2 < s.items.stage w → s.items.stage w < 6 → False := fun w h2 h6 =>
    (hp.item w).nonBar h2 (hbar w (by omega) h6)
  obtain ⟨hu, hi, ho, hd⟩ := hc.idle hp ha
  refine ⟨hu, hi, ho, hd, fun w hw => ?_, fun i w => ⟨fun h => ?_, fun h => ?_⟩⟩
  · have := ((hp.item w).of_ordered hw).1
    exact hbar w (by omega) (by omega)
  · have := (((hp.item w).work i).mp (by simp [h])).1
    exact hrun w (by omega) (by omega)
  · have := (((hp.item w).publish i).mp (by simp [h])).1
    exact hrun w (by omega) (by omega)

theorem idle_pool_holds_only_barriers_barrier :
    ∃ s : Pool, Reachable s ∧ s.activeWs = 0 ∧ s.ordered = [⟨0, wtBar, 0⟩] ∧ ∀ w ∈ s.ordered, w.type = wtBar :=
  have hr := (Reachable.init none).steps (Pool.run_steps (l := [.queueWork wtBar 0]) rfl)
  ⟨_, hr, rfl, rfl, (idle_pool_holds_only_barriers hr rfl).2.2.2.2.1⟩

/-! ### Shutdown of a drained pool -/

namespace Pool

variable {s t u : Pool} {i : Nat}

/-- The planner and the workers only take items from the producer queues; `active_ws` and the loop
    thread are the loop thread's. -/
structure Keeps (s t : Pool) : Prop where
  ordered : t.ordered <:+ s.ordered
  unordered : t.unordered <:+ s.unordered
  activeWs : t.activeWs = s.activeWs
  loop : t.loop = s.loop

theorem Keeps.of_eq (ho : t.ordered = s.ordered) (hu : t.unordered = s.unordered)
    (ha : t.activeWs = s.activeWs) (hl : t.loop = s.loop) : Keeps s t :=
  ⟨ho ▸ List.suffix_refl _, hu ▸ List.suffix_refl _, ha, hl⟩

theorem Keeps.trans (h₁ : Keeps s t) (h₂ : Keeps t u) : Keeps s u :=
  ⟨h₂.ordered.trans h₁.ordered, h₂.unordered.trans h₁.unordered, h₂.activeWs.trans h₁.activeWs,
    h₂.loop.trans h₁.loop⟩

theorem keeps_workerTest (s : Pool) (i : Nat) : Keeps s (s.workerTest i) := by
  unfold workerTest
  split
  · split <;> exact .of_eq rfl rfl rfl rfl
  · exact .of_eq rfl rfl rfl rfl

theorem keeps_workerStep (h : s.workerStep i = some (.ok t)) : Keeps s t := by
  rcases workerStep_ok h with ⟨-, -, rfl⟩ | ⟨-, rfl⟩ | ⟨w, -, rfl⟩ | ⟨w, -, rfl⟩ | ⟨w, -, -, h⟩
  · exact keeps_workerTest s i
  · exact .of_eq rfl rfl rfl rfl
  · exact .of_eq rfl rfl rfl rfl
  · exact .of_eq rfl rfl rfl rfl
  · rcases release_ok h with ⟨-, rfl⟩ | ⟨-, -, -, rfl⟩
    · exact keeps_workerTest s i
    · refine Keeps.trans ?_ (keeps_workerTest _ i)
      exact .of_eq rfl rfl rfl rfl

theorem keeps_drainOne (h : s.drainOne = .ok t) : Keeps s t := by
  obtain ⟨q, o, u, qos, hq, rfl⟩ := drainOne_ok h
  rcases qosPop_eq hq with ⟨ho, rfl, -⟩ | ⟨hu, rfl, -⟩
  · exact ⟨ho ▸ List.suffix_cons _ _, List.suffix_refl _, rfl, rfl⟩
  · exact ⟨List.suffix_refl _, hu ▸ List.suffix_cons _ _, rfl, rfl⟩

theorem keeps_plannerRun (h : s.plannerRun = .ok t) : Keeps s t := by
  cases plannerRun_ok h
  case drain h => exact keeps_drainOne h
  case free ho _ => exact ⟨ho ▸ List.suffix_cons _ _, List.suffix_refl _, rfl, rfl⟩
  case flush _ _ hu => rw [deliver_eq]; exact ⟨List.suffix_refl _, hu ▸ List.suffix_cons _ _, rfl, rfl⟩
  all_goals exact .of_eq rfl rfl rfl rfl

theorem keeps_plannerStep (h : s.plannerStep = some (.ok t)) : Keeps s t := by
  rcases planner_steps_ok h with ⟨-, -, rfl⟩ | ⟨-, h⟩ | ⟨-, rfl⟩
  · exact .of_eq rfl rfl rfl rfl
  · exact keeps_plannerRun h
  · exact .of_eq rfl rfl rfl rfl

theorem cleanupStep_busy (h : s.cleanupStep = some (.ok t)) : t.loop ≠ .idle := by
  have hn : ∀ j, s.nextWorker j ≠ .idle := fun j => by unfold nextWorker; split <;> simp
  rcases cleanupStep_ok h with ⟨-, rfl⟩ | ⟨-, -, -, -, rfl⟩ | ⟨j, -, rfl⟩ | ⟨j, -, -, -, rfl⟩ | ⟨-, -, -, rfl⟩
  · simp
  · exact hn 0
  · simp
  · exact hn (j + 1)
  · simp

theorem cleanupStep_error {f : Fault} (h : s.cleanupStep = some (.error f)) :
    s.ordered ≠ [] ∨ s.unordered ≠ [] ∨ (∃ i, s.inq i ≠ []) ∨ s.outq ≠ [] ∨ s.activeWs ≠ 0 := by
  unfold cleanupStep at h
  split at h
  · cases h
  · split at h
    · split at h
      · cases h
      · rename_i hq
        simp only [Bool.and_eq_true, List.isEmpty_iff, not_and_or] at hq
        exact hq.elim .inl (.inr ∘ .inl)
    · cases h
  · cases h
  · split at h
    · split at h
      · cases h
      · rename_i hq
        exact .inr (.inr (.inl ⟨_, by simpa using hq⟩))
    · cases h
  · split at h
    · cases h
    · rename_i hq
      simp only [Bool.and_eq_true, List.isEmpty_iff, decide_eq_true_eq, not_and_or] at hq
      exact .inr (.inr (.inr hq))
  · cases h
  · cases h

/-- `pool_fini` has started on a pool with nothing left: no item is queued or counted. -/
structure Drained (s : Pool) : Prop where
  loop : s.loop ≠ .idle
  activeWs : s.activeWs = 0
  ordered : s.ordered = []
  unordered : s.unordered = []

theorem Drained.of_keeps (hd : Drained s) (hk : Keeps s t) : Drained t :=
  ⟨hk.loop ▸ hd.loop, hk.activeWs ▸ hd.activeWs, List.suffix_nil.mp (hd.ordered ▸ hk.ordered),
    List.suffix_nil.mp (hd.unordered ▸ hk.unordered)⟩

/-- Every step keeps a drained pool drained: the loop thread, in `pool_fini`, neither submits nor
    runs `work_done`, and the other threads only take items. -/
theorem Drained.step (hd : Drained s) {a : Action} (h : s.step a = some (.ok t)) : Drained t := by
  cases a with
  | planner => exact hd.of_keeps (keeps_plannerStep h)
  | worker i => exact hd.of_keeps (keeps_workerStep (step_worker_ok h).2)
  | queueWork => exact absurd (step_queueWork_ok h).1 hd.loop
  | workDone => exact absurd (step_workDone_ok h).1 hd.loop
  | queueDone => exact absurd (step_queueDone_ok h).1 hd.loop
  | poolFini => exact absurd (step_poolFini_ok h).1 hd.loop
  | cleanup =>
    have he := items_cleanupStep h
    have ha := congrArg Items.activeWs he
    have ho := congrArg Items.ordered he
    have hu := congrArg Items.unordered he
    simp only [items_activeWs, items_ordered, items_unordered] at ha ho hu
    exact ⟨cleanupStep_busy h, ha ▸ hd.activeWs, ho ▸ hd.ordered, hu ▸ hd.unordered⟩
  | wakePlanner =>
    obtain ⟨-, rfl⟩ := step_wakePlanner_ok h
    exact ⟨hd.1, hd.2, hd.3, hd.4⟩
  | wakeWorker i =>
    obtain ⟨-, -, rfl⟩ := step_wakeWorker_ok h
    exact ⟨hd.1, hd.2, hd.3, hd.4⟩

theorem Drained.steps (hs : Reachable s) (hd : Drained s) (h : Steps s t) : Reachable t ∧ Drained t := by
  induction h with
  | refl => exact ⟨hs, hd⟩
  | tail a _ ht ih => exact ⟨.step a ih.1 ht, ih.2.step ht⟩

/-- From a reachable drained pool a step aborts only where a worker, back from an ordered item,
    brings `in_flight` to `0` and signals `planner_cond` after `pool_cleanup` destroyed it: the
    planner finds both queues empty, and the `POST`s find every queue empty and `active_ws` at `0`. -/
theorem Drained.fault (hs : Reachable s) (hd : Drained s) {a : Action} {f : Fault} (h : s.step a = some (.error f)) :
    f = .plannerCond ∧ s.loop.plannerCondDestroyed = true ∧ s.inFlight = 1 ∧
      ∃ i w, a = .worker i ∧ s.worker i = .relock w ∧ wtBar < w.type := by
  cases a
  case planner =>
    have := (plannerStep_error hs.control h).2.2.2.1
    simp [hd.ordered, hd.unordered] at this
  case worker i =>
    obtain ⟨hf, hdes, h1, w, hw, hb⟩ := step_worker_error hs h
    exact ⟨hf, hdes, h1, i, w, rfl, hw, hb⟩
  case cleanup =>
    obtain ⟨-, hi, ho, -⟩ := hs.items.counters.idle hs.items.places hd.activeWs
    simp only [items_inq, items_outq] at hi ho
    rcases cleanupStep_error h with h | h | ⟨i, h⟩ | h | h
    · exact absurd hd.ordered h
    · exact absurd hd.unordered h
    · exact absurd (hi i) h
    · exact absurd ho h
    · exact absurd hd.activeWs h
  all_goals
    simp only [Pool.step] at h
    split at h <;> first | cases h | exact absurd (by simp_all) hd.loop

end Pool

/-- `pool_fini` called with `active_ws` at `0` and no barrier left in `ordered`: from then on a step
    aborts only when a worker, back from an ordered item, brings `in_flight` to `0` after
    `pool_cleanup` joined the planner and destroyed `planner_cond`, and signals it. The planner's
    `sm_move(PS_EXITED)` keeps `planner_invariant`, and the `POST`s of `pool_cleanup` and `pool_fini`
    hold. -/
theorem drained_fini_aborts_only_on_destroyed_cond {s t₀ t : Pool} (hs : Reachable s) (ha : s.activeWs = 0)
    (ho : s.ordered = []) (hf : s.step .poolFini = some (.ok t₀)) (ht : Steps t₀ t) {a : Action} {f : Fault}
    (h : t.step a = some (.error f)) :
    f = .plannerCond ∧ t.loop.plannerCondDestroyed = true ∧ t.inFlight = 1 ∧
      ∃ i w, a = .worker i ∧ t.worker i = .relock w ∧ wtBar < w.type := by
  obtain ⟨-, rfl⟩ := Pool.step_poolFini_ok hf
  have hu := (hs.items.counters.idle hs.items.places (by simpa using ha)).1
  have hd : Pool.Drained s.poolFini := by
    rw [Pool.poolFini_eq hs.control.nthreads_pos]
    exact ⟨by simp, ha, ho, by simpa using hu⟩
  have ht' := hd.steps (.step _ hs hf) ht
  exact Pool.Drained.fault ht'.1 ht'.2 h

/-- An ordered item's `after_work_cb` runs before its worker retakes the mutex; `pool_fini` is then
    called on a pool with nothing counted, the planner returns and is joined, and the worker's
    decrement signals the destroyed `planner_cond`. -/
theorem drained_fini_aborts_only_on_destroyed_cond_late_decrement :
    ∃ s t₀ t : Pool, Reachable s ∧ s.activeWs = 0 ∧ s.ordered = [] ∧ s.step .poolFini = some (.ok t₀) ∧
      Steps t₀ t ∧ t.step (.worker 0) = some (.error .plannerCond) ∧ t.loop.plannerCondDestroyed = true := by
  obtain ⟨s, t₀, t, hr, ha, ho, hf, ht, he⟩ : ∃ s t₀ t : Pool, Reachable s ∧ s.activeWs = 0 ∧ s.ordered = [] ∧
      s.step .poolFini = some (.ok t₀) ∧ Steps t₀ t ∧ t.step (.worker 0) = some (.error .plannerCond) :=
    ⟨_, _, _, (Reachable.init none).steps (Pool.run_steps (l := [.queueWork wtOrd1 0, .planner, .planner,
      .planner, .planner, .planner, .planner, .worker 0, .worker 0, .worker 0, .workDone, .queueDone]) rfl),
      rfl, rfl, rfl, Pool.run_steps (l := [.cleanup, .planner, .planner, .planner, .cleanup]) rfl, rfl⟩
  exact ⟨s, t₀, t, hr, ha, ho, hf, ht, he, (drained_fini_aborts_only_on_destroyed_cond hr ha ho hf ht he).2.1⟩

end Dqlite
