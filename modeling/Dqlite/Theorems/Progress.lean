import Dqlite.Theorems.Shutdown
import Dqlite.Theorems.Fairness

/-! # Progress: the pool does not deadlock

Before `pool_fini`, whatever the threads have done, they can be scheduled so that every submitted
item runs to its `after_work_cb`, every barrier is freed and `in_flight` is back at `0`. Each step
of such a schedule lowers a measure: the work left on the items (`Pool.load`), and, where a step
moves no item, how far the threads are from their `uv_cond_wait` (`Pool.slack`). In a pool that is
not drained some thread can always take such a step: the holder of the pool mutex, a worker holding
an item, a worker with a non-empty inbox, `work_done`, or the planner, which sleeps only when it has
nothing to dispatch. In fact every step of the planner, a worker or `work_done` that changes the pool
lowers the measure, so no order of their steps keeps the pool busy forever.

On the way: before `pool_fini` no thread returns and no step aborts but a producer's submission out
of class order. -/

namespace Dqlite

open Function (update)

/-! ### Before `pool_fini` no thread returns -/

/-- `exiting` is set only once the loop thread is in `pool_fini`, and a worker returns only once
    `exiting` is set. -/
structure Exits (s : Pool) : Prop where
  loop : s.exiting = true → s.loop ≠ .idle
  worker : ∀ i, s.worker i = .exited → s.exiting = true

namespace Exits

variable {s t : Pool}

theorem init (env : Option Int) : Exits (poolInit env) :=
  ⟨fun h => by simp [poolInit] at h, fun _ h => by simp [poolInit] at h⟩

theorem of (he : Exits s) (hx : t.exiting = s.exiting) (hl : t.loop = .idle → s.loop = .idle)
    (hw : ∀ i, t.worker i = .exited → s.worker i = .exited ∨ s.exiting = true) : Exits t :=
  ⟨fun h h' => he.loop (hx ▸ h) (hl h'), fun i h => hx ▸ (hw i h).elim (he.worker i) id⟩

theorem exited_of_update {w : Nat → WorkerPc} {i j : Nat} {v : WorkerPc} (hv : v ≠ .exited)
    (h : update w i v j = .exited) : w j = .exited := by
  rw [Function.update_apply] at h; split at h <;> simp_all

theorem exited_of_wake {w : Nat → WorkerPc} {i j : Nat}
    (h : (if w i = .blocked then update w i .lock else w) j = .exited) : w j = .exited := by
  split at h
  · exact exited_of_update (by simp) h
  · exact h

theorem workerTest (he : Exits s) (i : Nat) : Exits (s.workerTest i) := by
  rcases hq : s.inq i with _ | ⟨q, rest⟩
  · cases hx : s.exiting
    · rw [Pool.workerTest_wait hq hx]; exact he.of rfl id fun _ h => .inl (exited_of_update (by simp) h)
    · rw [Pool.workerTest_exit hq hx]; exact he.of rfl id fun _ _ => .inr hx
  · rw [Pool.workerTest_pop hq]; exact he.of rfl id fun _ h => .inl (exited_of_update (by simp) h)

theorem step (he : Exits s) (hc : Control s) {a : Action} (h : s.step a = some (.ok t)) : Exits t := by
  have same : ∀ {t : Pool}, t.exiting = s.exiting → t.loop = s.loop → t.worker = s.worker → Exits t :=
    fun hx hl hw => he.of hx (fun h => hl ▸ h) fun _ h => .inl (hw ▸ h)
  cases a with
  | planner =>
    rcases Pool.planner_steps_ok h with ⟨-, -, rfl⟩ | ⟨-, hr⟩ | ⟨-, rfl⟩
    · exact same rfl rfl rfl
    · cases Pool.plannerRun_ok hr
      case drain hd =>
        obtain ⟨q, o, u, qos, -, rfl⟩ := Pool.drainOne_ok hd
        exact he.of rfl id fun _ h => .inl (exited_of_wake h)
      case flush =>
        rw [Pool.deliver_eq]
        exact he.of rfl id fun _ h => .inl (exited_of_wake h)
      all_goals exact same rfl rfl rfl
    · exact same rfl rfl rfl
  | worker i =>
    obtain ⟨-, h⟩ := Pool.step_worker_ok h
    rcases Pool.workerStep_ok h with ⟨-, -, rfl⟩ | ⟨-, rfl⟩ | ⟨w, -, rfl⟩ | ⟨w, -, rfl⟩ | ⟨w, -, -, h⟩
    · exact he.workerTest i
    all_goals try exact he.of rfl id fun _ h => .inl (exited_of_update (by simp) h)
    rcases Pool.release_ok h with ⟨-, rfl⟩ | ⟨-, -, -, rfl⟩
    · exact he.workerTest i
    · refine Exits.workerTest ?_ i
      exact same rfl rfl rfl
  | queueWork =>
    obtain ⟨-, -, h⟩ := Pool.step_queueWork_ok h
    obtain ⟨-, rfl⟩ := Pool.poolQueueWork_ok h
    exact same rfl rfl rfl
  | workDone =>
    obtain ⟨-, -, rfl⟩ := Pool.step_workDone_ok h
    exact same rfl rfl rfl
  | queueDone =>
    obtain ⟨-, w, q, -, -, rfl⟩ := Pool.step_queueDone_ok h
    exact same rfl rfl rfl
  | poolFini =>
    obtain ⟨-, rfl⟩ := Pool.step_poolFini_ok h
    rw [Pool.poolFini_eq hc.nthreads_pos]
    exact ⟨fun _ => by simp, fun _ _ => rfl⟩
  | cleanup =>
    have hb := Pool.cleanupStep_busy h
    rcases Pool.cleanupStep_ok h with ⟨-, rfl⟩ | ⟨-, -, -, -, rfl⟩ | ⟨i, -, rfl⟩ | ⟨i, -, -, -, rfl⟩ | ⟨-, -, -, rfl⟩
    · rw [Pool.signalPlanner_eq] at hb ⊢
      exact he.of rfl (absurd · hb) fun _ h => .inl h
    · exact he.of rfl (absurd · hb) fun _ h => .inl h
    · rw [Pool.signalWorker_eq] at hb ⊢
      exact he.of rfl (absurd · hb) fun _ h => .inl (exited_of_wake h)
    · exact he.of rfl (absurd · hb) fun _ h => .inl h
    · exact he.of rfl (absurd · hb) fun _ h => .inl h
  | wakePlanner =>
    obtain ⟨-, rfl⟩ := Pool.step_wakePlanner_ok h
    exact same rfl rfl rfl
  | wakeWorker i =>
    obtain ⟨-, -, rfl⟩ := Pool.step_wakeWorker_ok h
    exact he.of rfl id fun _ h => .inl (exited_of_update (by simp) h)

end Exits

theorem Reachable.exits {s : Pool} (h : Reachable s) : Exits s := by
  induction h with
  | init env => exact .init env
  | step a hs ht ih => exact ih.step hs.control ht

/-! ### Before `pool_fini` only a producer aborts -/

namespace Pool

variable {s : Pool} {f : Fault}

/-- `pool_queue_work` aborts only in `pool_work_submit`'s `PRE`, on an ordered item of another class
    than the one before it, with no barrier between them. -/
theorem poolQueueWork_error {type cookie : Nat} (h : s.poolQueueWork type cookie = .error f) :
    f = .order ∧ wtUnord < type ∧ s.oPrev ≠ wtBar ∧ type ≠ wtBar ∧ s.oPrev ≠ type := by
  simp only [poolQueueWork, wRegister_eq, poolWorkSubmit] at h
  by_cases hu : wtUnord < type
  · by_cases hp : s.oPrev ≠ wtBar ∧ type ≠ wtBar ∧ s.oPrev ≠ type
    · simp [hu, hp, bind, Except.bind, throw, throwThe, MonadExceptOf.throw] at h
      exact ⟨h.symm, hu, hp⟩
    · simp [hu, hp, bind, Except.bind, pure, Except.pure] at h
  · simp [hu, bind, Except.bind, pure, Except.pure] at h

/-- Before `pool_fini`, a step of a reachable pool aborts only in `pool_work_submit`'s `PRE`. -/
theorem step_error_before_fini (hs : Reachable s) (hl : s.loop = .idle) {a : Action}
    (h : s.step a = some (.error f)) : ∃ type cookie, a = .queueWork type cookie ∧
      f = .order ∧ wtUnord < type ∧ s.oPrev ≠ wtBar ∧ type ≠ wtBar ∧ s.oPrev ≠ type := by
  have hx : s.exiting = false := Bool.eq_false_iff.mpr fun h => hs.exits.loop h hl
  cases a with
  | planner => simp [(plannerStep_error hs.control h).2.2.1] at hx
  | worker i =>
    have := (step_worker_error hs h).2.1
    simp [hl, LoopPc.plannerCondDestroyed] at this
  | queueWork type cookie =>
    simp only [step, hl, true_and] at h
    split at h
    · exact ⟨type, cookie, rfl, poolQueueWork_error (Option.some.inj h)⟩
    · cases h
  | queueDone =>
    rcases hc : s.completed with _ | ⟨w, q⟩
    · simp [step, hl, hc] at h
    · have he : s.queueDone w q = .error f := by simpa [step, hl, hc] using h
      have hf : f = .activeWs := by unfold queueDone at he; split at he <;> cases he; rfl
      exact absurd (hf ▸ he) (queueDone_ne_activeWs hs hc)
  | cleanup => simp [step, cleanupStep, hl] at h
  | _ => simp only [step] at h; split at h <;> cases h

end Pool

/-- Every schedule from `pool_init` that ends in an abort aborts once `pool_fini` has been called,
    or in `pool_work_submit`'s `PRE` on a producer that submitted an ordered item of another class
    than the one before it with no barrier between them: none of the planner's and workers'
    assertions, nor `w_unregister`'s `PRE`, fails before `pool_fini`. -/
theorem aborts_only_on_bad_submit {env : Option Int} {l : List Action} {f : Fault}
    (h : (poolInit env).run l = some (.error f)) :
    ∃ t a, Reachable t ∧ t.step a = some (.error f) ∧
      (t.loop ≠ .idle ∨ ∃ type cookie, a = .queueWork type cookie ∧ f = .order ∧ wtUnord < type ∧
        t.oPrev ≠ wtBar ∧ type ≠ wtBar ∧ t.oPrev ≠ type) := by
  obtain ⟨t, a, ht, ha⟩ := Pool.run_fault (.init env) h
  refine ⟨t, a, ht, ha, ?_⟩
  by_cases hl : t.loop = .idle
  · exact .inr (Pool.step_error_before_fini ht hl ha)
  · exact .inl hl

theorem aborts_only_on_bad_submit_two_classes :
    (poolInit none).run [.queueWork wtOrd1 0, .queueWork 3 0] = some (.error .order) ∧
      ∃ t a, Reachable t ∧ t.step a = some (.error .order) := by
  have h : (poolInit none).run [.queueWork wtOrd1 0, .queueWork 3 0] = some (.error .order) := rfl
  obtain ⟨t, a, ht, ha, -⟩ := aborts_only_on_bad_submit h
  exact ⟨h, t, a, ht, ha⟩

namespace Items

variable {x y : Items}

theorem stage_snoc {e : Event} (hl : y.log = x.log ++ [e]) (w : PoolWork) :
    y.stage w = x.stage w + if e ∈ path w then 1 else 0 := by
  rw [stage_of_log hl]
  simp [List.countP_singleton]

/-- An ordered item past its publication is held by its worker until the worker decrements
    `in_flight` for it. -/
def Relocked (x : Items) : Prop :=
  ∀ w, wtBar < w.type → 5 ≤ x.stage w → .decrement w ∉ x.log → x.holds w.threadId = .relock w

namespace Relocked

theorem init (n : Nat) : Relocked (init n) := fun w _ h5 _ => by simp [Items.init, stage] at h5

theorem of (hr : Relocked x) {E : List Event} (hl : y.log = x.log ++ E)
    (hst : ∀ w, wtBar < w.type → 5 ≤ y.stage w → 5 ≤ x.stage w)
    (hh : ∀ w, wtBar < w.type → .decrement w ∉ y.log → x.holds w.threadId = .relock w →
      y.holds w.threadId = .relock w) : Relocked y := fun w hb h5 hd =>
  hh w hb hd (hr w hb (hst w hb h5) fun h => hd (hl ▸ List.mem_append_left _ h))

theorem stage_pull {e : Event} (hl : y.log = x.log ++ [e]) (he : ∀ w, e ∈ path w → x.stage w ≠ 4)
    (w : PoolWork) (h5 : 5 ≤ y.stage w) : 5 ≤ x.stage w := by
  rw [stage_snoc hl] at h5
  split at h5
  · have := he w ‹_›; omega
  · omega

theorem of_snoc (hr : Relocked x) {e : Event} (hl : y.log = x.log ++ [e])
    (he : ∀ w, e ∈ path w → x.stage w ≠ 4)
    (hh : ∀ w, wtBar < w.type → .decrement w ∉ y.log → x.holds w.threadId = .relock w →
      y.holds w.threadId = .relock w) : Relocked y :=
  hr.of hl (fun w _ => stage_pull hl he w) hh

theorem update_relock {h : Nat → Hold} {i j : Nat} {v : Hold} {w : PoolWork} (hx : h j = .relock w)
    (hv : j = i → v = .relock w) : update h i v j = .relock w := by
  rw [Function.update_apply]; split <;> simp_all

theorem move (hp : Places x) (hr : Relocked x) (h : Move x y) : Relocked y := by
  cases h with
  | submit type cookie _ =>
    refine hr.of_snoc rfl (fun w he => ?_) fun _ _ _ hx => hx
    simp only [submit_mem_path] at he
    subst he
    intro h4
    exact Nat.lt_irrefl _ ((hp.item ⟨x.serial, type, cookie % x.nthreads⟩).submitted (by rw [h4]; decide)).1
  | @drain q o u qos _ hq =>
    have hl : (x.drain q o u qos).log = x.log ++ (choice x.qos x.ordered x.unordered ++ [.dispatch q]) := by
      simp [Items.drain, Items.deliver]
    have h1 : x.stage q = 1 := by
      rcases qosPop_eq hq with ⟨ho, -⟩ | ⟨hu, -⟩
      · exact ((hp.item q).of_ordered (by simp [ho])).1
      · exact ((hp.item q).of_unordered (by simp [hu])).1
    refine hr.of hl (fun w _ h5 => ?_) fun _ _ _ hx => hx
    have hc : (choice x.qos x.ordered x.unordered).countP (· ∈ path w) = 0 := by
      unfold choice; split <;> simp
    rw [stage_of_log hl, List.countP_append, hc] at h5
    by_cases hw : q = w
    · subst hw
      have : [Event.dispatch q].countP (· ∈ path q) ≤ 1 := List.countP_le_length _
      omega
    · simpa [hw] using h5
  | @flush q _ hu =>
    have h1 := ((hp.item q).of_unordered (by simp [hu])).1
    refine hr.of_snoc rfl (fun w he => ?_) fun _ _ _ hx => hx
    simp only [dispatch_mem_path] at he
    rw [← he.1, h1]; decide
  | free =>
    refine hr.of_snoc rfl (fun w he => ?_) fun _ _ _ hx => hx
    simp only [free_mem_path] at he
    have := (hp.item w).stage_le
    simp [path_bar he.2] at this
    omega
  | @start i q rest _ hh hq =>
    have h2 := ((hp.item q).of_inq (i := i) (by simp [hq])).1
    refine hr.of_snoc rfl (fun w he => ?_) fun w _ _ hx => ?_
    · simp only [start_mem_path] at he; rw [← he.1, h2]; decide
    · exact update_relock hx fun he => absurd (he ▸ hx) (by simp [hh])
  | @finish i w' hh =>
    have h3 := (((hp.item w').work i).mp hh).1
    refine hr.of_snoc rfl (fun w he => ?_) fun w _ _ hx => ?_
    · simp only [finish_mem_path] at he; rw [← he.1, h3]; decide
    · exact update_relock hx fun he => absurd (he ▸ hx) (by simp [hh])
  | @publish i w' hh =>
    have h4 := ((hp.item w').publish i).mp hh
    intro w hb h5 hd
    by_cases hw : w' = w
    · subst hw
      simp [Items.publish, h4.2]
    · have h5' : 5 ≤ x.stage w := by
        rw [stage_snoc (y := x.publish i w') rfl] at h5; simpa [hw] using h5
      have hx := hr w hb h5' fun h => hd (List.mem_append_left _ h)
      exact update_relock hx fun he => absurd (he ▸ hx) (by simp [hh])
  | @release i w' hh hb =>
    refine hr.of (E := []) (by simp [Items.release]) (fun _ _ h5 => h5) fun w hw _ hx => ?_
    exact update_relock hx fun he => by
      rw [he, hh] at hx; cases hx; exact absurd hb (by omega)
  | @decrement i w' hh _ _ =>
    refine hr.of_snoc rfl (fun w he => by simp at he) fun w _ hd hx => ?_
    exact update_relock hx fun he => by
      rw [he, hh] at hx; cases hx; exact absurd (List.mem_append_right _ (List.mem_singleton_self _)) hd
  | collect _ => exact hr.of (E := []) (by simp [Items.collect]) (fun _ _ h5 => h5) fun _ _ _ hx => hx
  | @done w' q hc _ =>
    have h5 := (hp.item w').of_completed (by simp [hc])
    refine hr.of_snoc rfl (fun w he => ?_) fun _ _ _ hx => hx
    simp only [done_mem_path] at he; rw [← he.1, h5]; decide

end Relocked

theorem Reach.relocked {x : Items} (h : Reach x) : Relocked x := by
  induction h with
  | init n _ => exact .init n
  | move hx hm ih => exact ih.move hx.places hm

/-- With the inboxes, the workers' hands, `outq` and `work_done`'s queue empty, an item is not yet
    submitted, waits in a producer queue, or is at the end of its path. -/
theorem Item.stage_cases {w : PoolWork} (h : Item x w) (hi : ∀ i, x.inq i = []) (hh : ∀ i, x.holds i = .none)
    (ho : x.outq = []) (hd : x.completed = []) :
    x.stage w = 0 ∨ x.stage w = 1 ∨ x.stage w = (path w).length := by
  have hle := h.stage_le
  by_cases hb : w.type = wtBar
  · rw [path_bar hb] at hle ⊢
    simp only [List.length_cons, List.length_nil] at hle ⊢
    omega
  · rw [path_nonBar hb] at hle ⊢
    simp only [List.length_cons, List.length_nil] at hle ⊢
    rcases (by omega : x.stage w ≤ 1 ∨ x.stage w = 2 ∨ x.stage w = 3 ∨ x.stage w = 4 ∨ x.stage w = 5 ∨
      x.stage w = 6) with h' | h' | h' | h' | h' | h'
    · omega
    · simpa [hi, h', hb] using h.inq w.threadId
    · simpa [hh] using (h.work w.threadId).mpr ⟨h', rfl⟩
    · simpa [hh] using (h.publish w.threadId).mpr ⟨h', rfl⟩
    · simpa [ho, hd, h'] using h.outq
    · omega

/-- With nothing in an inbox, held by a worker, or in `outq` or `work_done`'s queue, every ordered
    item dispatched has been decremented, and an item counted in `active_ws` waits in a producer
    queue. -/
theorem settled (hp : Places x) (hc : Counters x) (hr : Relocked x) (hi : ∀ i, x.inq i = [])
    (hh : ∀ i, x.holds i = .none) (ho : x.outq = []) (hd : x.completed = []) :
    x.inFlight = 0 ∧ (x.activeWs ≠ 0 → x.ordered ≠ [] ∨ x.unordered ≠ []) := by
  have hmid : ∀ w, w.type ≠ wtBar → 2 ≤ x.stage w → x.stage w < 6 → False := fun w hnb h2 h6 => by
    have := (hp.item w).stage_cases hi hh ho hd
    rw [path_nonBar hnb] at this
    simp only [List.length_cons, List.length_nil] at this
    omega
  refine ⟨?_, fun ha => ?_⟩
  · rw [hc.inFlight, List.countP_eq_zero]
    intro w hw hpred
    simp only [decide_eq_true_eq] at hpred
    have hnb : w.type ≠ wtBar := by simp only [wtBar, wtOrd1] at hpred ⊢; omega
    rw [← List.count_pos_iff, dispatched, count_filterMap_dispatched, (hp.item w).count_dispatch hnb] at hw
    have h2 : 2 ≤ x.stage w := by split at hw <;> omega
    by_cases h6 : x.stage w < 6
    · exact hmid w hnb h2 h6
    · have := hr w (by simp only [wtBar, wtOrd1] at hpred ⊢; omega) (by omega) hpred.2
      simp [hh] at this
  · obtain ⟨w, hw, hpred⟩ := List.countP_pos_iff.mp (Nat.pos_of_ne_zero (hc.activeWs ▸ ha))
    simp only [decide_eq_true_eq] at hpred
    rw [← List.count_pos_iff, submitted, count_filterMap_submitted, (hp.item w).count_submit] at hw
    have hdone := List.count_eq_zero.mpr hpred.2
    rw [(hp.item w).count_done hpred.1] at hdone
    have h1 : x.stage w = 1 := by
      by_contra h1
      exact hmid w hpred.1 (by split at hw <;> omega) (by split at hdone <;> omega)
    by_cases hu : w.type = wtUnord
    · have := (hp.item w).unordered
      rw [if_pos ⟨h1, hu⟩] at this
      exact .inr (List.ne_nil_of_mem (a := w) (List.count_pos_iff.mp (by omega)))
    · have := (hp.item w).ordered
      rw [if_pos ⟨h1, hu⟩] at this
      exact .inl (List.ne_nil_of_mem (a := w) (List.count_pos_iff.mp (by omega)))

/-- With every queue empty and no worker holding an item, each item submitted has been freed, if a
    barrier, or done. -/
theorem all_finished (hp : Places x) (hi : ∀ i, x.inq i = []) (hh : ∀ i, x.holds i = .none)
    (ho : x.outq = []) (hd : x.completed = []) (hor : x.ordered = []) (hu : x.unordered = [])
    {w : PoolWork} (hs : .submit w ∈ x.log) :
    w.type = wtBar ∧ .free w ∈ x.log ∨ w.type ≠ wtBar ∧ .done w ∈ x.log := by
  have h := hp.item w
  have h0 := h.submit_mem_iff.mp hs
  have h1 : x.stage w ≠ 1 := fun h1 => by
    by_cases hu' : w.type = wtUnord
    · simpa [hu, h1, hu'] using h.unordered
    · simpa [hor, h1, hu'] using h.ordered
  rcases h.stage_cases hi hh ho hd with h' | h' | h'
  · omega
  · exact absurd h' h1
  · by_cases hb : w.type = wtBar
    · rw [path_bar hb] at h'
      exact .inl ⟨hb, (h.mem_log_iff (k := 1) (by rw [path_bar hb]; rfl)).mpr (by rw [h']; simp)⟩
    · rw [path_nonBar hb] at h'
      exact .inr ⟨hb, (h.mem_log_iff (k := 5) (by rw [path_nonBar hb]; rfl)).mpr (by rw [h']; simp)⟩

theorem Move.log_prefix (h : Move x y) : x.log <+: y.log := by
  rcases h.dispatch_or_quiet with ⟨q, o, u, qos, -, rfl⟩ | ⟨q, u, -, rfl⟩ | ⟨⟨E, hE, -⟩, -⟩
  · exact ⟨choice x.qos x.ordered x.unordered ++ [.dispatch q], by simp [Items.drain, Items.deliver]⟩
  · exact ⟨_, rfl⟩
  · exact ⟨E, hE.symm⟩

theorem log_prefix_of_moves (h : Relation.ReflTransGen Move x y) : x.log <+: y.log := by
  induction h with
  | refl => exact List.prefix_refl _
  | tail _ hm ih => exact ih.trans hm.log_prefix

theorem Move.nthreads_eq (h : Move x y) : y.nthreads = x.nthreads := by
  cases h <;> rfl

theorem nthreads_of_moves (h : Relation.ReflTransGen Move x y) :
    y.nthreads = x.nthreads := by
  induction h with
  | refl => rfl
  | tail _ hm ih => exact hm.nthreads_eq.trans ih

end Items

theorem Steps.log_prefix {s t : Pool} (h : Steps s t) : s.log <+: t.log := Items.log_prefix_of_moves h.items

theorem Steps.nthreads_eq {s t : Pool} (h : Steps s t) : t.nthreads = s.nthreads := Items.nthreads_of_moves h.items

/-! ### The measure -/

def sumBelow (f : Nat → Nat) : Nat → Nat
  | 0 => 0
  | n + 1 => sumBelow f n + f n

theorem sumBelow_congr {f g : Nat → Nat} : ∀ {n : Nat}, (∀ i < n, f i = g i) → sumBelow f n = sumBelow g n
  | 0, _ => rfl
  | n + 1, h => by
    simp only [sumBelow, sumBelow_congr (n := n) fun i hi => h i (by omega), h n (by omega)]

theorem sumBelow_update {f g : Nat → Nat} {i : Nat} :
    ∀ {n : Nat}, i < n → (∀ j, j ≠ i → f j = g j) → sumBelow f n + g i = sumBelow g n + f i
  | 0, hi, _ => absurd hi (Nat.not_lt_zero _)
  | n + 1, hi, h => by
    simp only [sumBelow]
    by_cases hn : i = n
    · subst hn
      rw [sumBelow_congr (n := i) fun j hj => h j (by omega)]
      omega
    · have := sumBelow_update (n := n) (by omega) h
      rw [h n (Ne.symm hn)]
      omega

theorem sumBelow_le {f : Nat → Nat} {c : Nat} : ∀ {n : Nat}, (∀ i < n, f i ≤ c) → sumBelow f n ≤ c * n
  | 0, _ => Nat.zero_le _
  | n + 1, h => by
    have := sumBelow_le (n := n) fun i hi => h i (by omega)
    have := h n (by omega)
    simp only [sumBelow, Nat.mul_succ]
    omega

namespace WorkerPc

/-- The work left on the item a worker holds: to return from `work_cb`, then to push it into
    `outq`. -/
def load : WorkerPc → Nat
  | .work _ => 5
  | .publish _ => 4
  | _ => 0

/-- The steps a worker can take that move no item: to its `uv_cond_wait`, or, after an item, the
    decrement, which may wake the planner. -/
def slack : WorkerPc → Nat
  | .lock => 2
  | .wait => 1
  | .relock _ => 9
  | _ => 0

theorem load_wake {w : Nat → WorkerPc} {i j : Nat} :
    ((if w i = .blocked then update w i .lock else w) j).load = (w j).load := by
  split
  · rw [Function.update_apply]; split <;> simp_all [load]
  · rfl

theorem slack_le (w : WorkerPc) : w.slack ≤ 9 := by cases w <;> simp [slack]

end WorkerPc

/-- The steps of the planner, the workers and `work_done`: no producer submits and `pool_fini` is
    not called. -/
def Action.background : Action → Bool
  | .planner | .worker _ | .workDone | .queueDone => true
  | _ => false

namespace Pool

variable {s t : Pool} {i : Nat}

/-- The steps the planner can take that move no item: at most four moves of its state machine
    between two items, and the way to its `uv_cond_wait`. -/
def plannerSlack (s : Pool) : Nat :=
  match s.planner with
  | .lock => 7
  | .run => 2 + s.smWeight
  | .wait => 1
  | _ => 0

/-- The work left on worker `i`: six for each item of its inbox, and what is left on the item it
    holds. -/
def workerLoad (s : Pool) (i : Nat) : Nat := 6 * (s.inq i).length + (s.worker i).load

/-- The work left on the items: each weighs the steps it still has to go. -/
def load (s : Pool) : Nat :=
  7 * (s.ordered.length + s.unordered.length) + sumBelow s.workerLoad s.nthreads + 3 * s.outq.length +
    2 * s.completed.length

/-- How many steps the threads can still take that move no item. -/
def slack (s : Pool) : Nat := s.plannerSlack + sumBelow (fun i => (s.worker i).slack) s.nthreads

/-- The step from `s` to `t` lowers the work left, or keeps it and lowers the slack. -/
def Lowers (s t : Pool) : Prop := t.load < s.load ∨ t.load = s.load ∧ t.slack < s.slack

theorem load_frame (hn : t.nthreads = s.nthreads) (hi : t.inq = s.inq) (hw : t.worker = s.worker) :
    t.load + 7 * (s.ordered.length + s.unordered.length) + 3 * s.outq.length + 2 * s.completed.length =
      s.load + 7 * (t.ordered.length + t.unordered.length) + 3 * t.outq.length + 2 * t.completed.length := by
  have : t.workerLoad = s.workerLoad := by unfold workerLoad; rw [hi, hw]
  simp only [load, this, hn]
  omega

theorem slack_frame (hn : t.nthreads = s.nthreads) (hw : t.worker = s.worker) :
    t.slack + s.plannerSlack = s.slack + t.plannerSlack := by
  simp only [slack, hn, hw]
  omega

theorem load_worker (hi : i < s.nthreads) (hn : t.nthreads = s.nthreads)
    (hj : ∀ j, j ≠ i → t.inq j = s.inq j ∧ t.worker j = s.worker j) (ho : t.ordered = s.ordered)
    (hu : t.unordered = s.unordered) (hc : t.completed = s.completed) :
    t.load + s.workerLoad i + 3 * s.outq.length = s.load + t.workerLoad i + 3 * t.outq.length := by
  have := sumBelow_update (f := t.workerLoad) (g := s.workerLoad) hi fun j hne => by
    simp [workerLoad, (hj j hne).1, (hj j hne).2]
  simp only [load, hn, ho, hu, hc]
  omega

theorem slack_worker (hi : i < s.nthreads) (hn : t.nthreads = s.nthreads)
    (hj : ∀ j, j ≠ i → t.worker j = s.worker j) :
    t.slack + s.plannerSlack + (s.worker i).slack = s.slack + t.plannerSlack + (t.worker i).slack := by
  have := sumBelow_update (f := fun j => (t.worker j).slack) (g := fun j => (s.worker j).slack) hi
    fun j hne => by simp [hj j hne]
  dsimp only at this
  simp only [slack, hn]
  omega

/-! ### Steps that lower the measure -/

/-- A thread can take a step that lowers the measure and leaves the loop thread where it is. -/
def CanLower (s : Pool) (a : Action) : Prop := ∃ t, s.step a = some (.ok t) ∧ t.loop = s.loop ∧ s.Lowers t

theorem lowers_queueDone {w : PoolWork} {q : List PoolWork} (hl : s.loop = .idle) (hc : s.completed = w :: q)
    (ha : s.activeWs ≠ 0) : s.CanLower .queueDone := by
  refine ⟨{ s with completed := q, activeWs := s.activeWs - 1, log := s.log ++ [.done w] },
    by simp [step, hl, hc, queueDone, ha], rfl, .inl ?_⟩
  have := load_frame (s := s) (t := { s with completed := q, activeWs := s.activeWs - 1, log := s.log ++ [.done w] })
    rfl rfl rfl
  simp only [hc, List.length_cons] at this
  omega

theorem lowers_workDone (hl : s.loop = .idle) (hc : s.completed = []) (ho : s.outq ≠ []) :
    s.CanLower .workDone := by
  refine ⟨s.workDone, by simp [step, hl, hc], rfl, .inl ?_⟩
  have := load_frame (s := s) (t := s.workDone) rfl rfl rfl
  have := List.length_pos.mpr ho
  simp only [workDone, hc, List.length_nil] at *
  omega

theorem lowers_of_planner (hn : t.nthreads = s.nthreads) (hi : t.inq = s.inq) (hw : t.worker = s.worker)
    (ho : t.ordered = s.ordered) (hu : t.unordered = s.unordered) (houtq : t.outq = s.outq)
    (hc : t.completed = s.completed) (h : t.plannerSlack < s.plannerSlack) : s.Lowers t := by
  have := load_frame hn hi hw
  have := slack_frame hn hw
  simp only [ho, hu, houtq, hc] at *
  exact .inr ⟨by omega, by omega⟩

theorem lowers_plannerLock (hp : s.planner = .lock) (hm : s.mutex = none) : s.CanLower .planner := by
  refine ⟨{ s with mutex := some .planner, planner := .run }, by simp [step, plannerStep, hp, hm, plannerLock_eq],
    rfl, lowers_of_planner rfl rfl rfl rfl rfl rfl rfl ?_⟩
  have := smWeight_le { s with mutex := some .planner, planner := .run }
  simp only [plannerSlack, hp]
  omega

theorem lowers_plannerWait (hp : s.planner = .wait) : s.CanLower .planner :=
  ⟨{ s with planner := .blocked, mutex := none }, by simp [step, plannerStep, hp], rfl,
    lowers_of_planner rfl rfl rfl rfl rfl rfl rfl (by simp [plannerSlack, hp])⟩

theorem lowers_of_worker (hi : i < s.nthreads) (hn : t.nthreads = s.nthreads)
    (hj : ∀ j, j ≠ i → t.inq j = s.inq j ∧ t.worker j = s.worker j) (ho : t.ordered = s.ordered)
    (hu : t.unordered = s.unordered) (hc : t.completed = s.completed)
    (h : t.workerLoad i + 3 * t.outq.length < s.workerLoad i + 3 * s.outq.length ∨
      t.workerLoad i + 3 * t.outq.length = s.workerLoad i + 3 * s.outq.length ∧
        t.plannerSlack + (t.worker i).slack < s.plannerSlack + (s.worker i).slack) : s.Lowers t := by
  have := load_worker hi hn hj ho hu hc
  have := slack_worker hi hn fun j hne => (hj j hne).2
  unfold Lowers
  omega

theorem plannerSlack_congr (hp : t.planner = s.planner) (hsm : t.plannerSm = s.plannerSm)
    (ho : t.ordered = s.ordered) (hu : t.unordered = s.unordered) : t.plannerSlack = s.plannerSlack := by
  simp only [plannerSlack, smWeight, hp, hsm, ho, hu]

theorem plannerSlack_le (s : Pool) : s.plannerSlack ≤ 7 := by
  have := s.smWeight_le
  unfold plannerSlack
  split <;> omega

theorem lowers_workerWait (hi : i < s.nthreads) (hw : s.worker i = .wait) : s.CanLower (.worker i) := by
  let t : Pool := { s with worker := update s.worker i .blocked, mutex := none }
  refine ⟨t, by simp [step, hi, workerStep, hw, t], rfl, lowers_of_worker hi rfl
    (fun j hne => by simp [t, Function.update_noteq hne]) rfl rfl rfl (.inr ⟨?_, ?_⟩)⟩
  · simp [t, workerLoad, hw, WorkerPc.load]
  · simp [t, plannerSlack_congr (s := s) (t := t) rfl rfl rfl rfl, hw, WorkerPc.slack]

theorem lowers_work {w : PoolWork} (hi : i < s.nthreads) (hw : s.worker i = .work w) : s.CanLower (.worker i) := by
  let t : Pool := { s with worker := update s.worker i (.publish w), log := s.log ++ [.finish w] }
  refine ⟨t, by simp [step, hi, workerStep, hw, t], rfl, lowers_of_worker hi rfl
    (fun j hne => by simp [t, Function.update_noteq hne]) rfl rfl rfl (.inl ?_)⟩
  simp [t, workerLoad, hw, WorkerPc.load]

theorem lowers_publish {w : PoolWork} (hi : i < s.nthreads) (hw : s.worker i = .publish w) :
    s.CanLower (.worker i) := by
  let t : Pool :=
    { s with outq := push s.outq w, worker := update s.worker i (.relock w), log := s.log ++ [.publish w] }
  refine ⟨t, by simp [step, hi, workerStep, hw, t], rfl, lowers_of_worker hi rfl
    (fun j hne => by simp [t, Function.update_noteq hne]) rfl rfl rfl (.inl ?_)⟩
  simp [t, workerLoad, hw, WorkerPc.load]
  omega

/-- `worker`'s inbox test with `exiting` unset, from a pool `u` that differs from `s` at most in
    the planner and in what worker `i`, which holds no work, is at: it pops an item, or goes on to
    `uv_cond_wait`. -/
theorem lowers_workerTest {u : Pool} (hi : i < s.nthreads) (hx : u.exiting = false)
    (hn : u.nthreads = s.nthreads) (hq : u.inq = s.inq) (hw : ∀ j, j ≠ i → u.worker j = s.worker j)
    (ho : u.ordered = s.ordered) (hu : u.unordered = s.unordered) (hc : u.completed = s.completed)
    (houtq : u.outq = s.outq) (h0 : (s.worker i).load = 0)
    (hsl : u.plannerSlack + 1 < s.plannerSlack + (s.worker i).slack) : s.Lowers (u.workerTest i) := by
  rcases hqi : u.inq i with _ | ⟨q, rest⟩
  · rw [workerTest_wait hqi hx]
    refine lowers_of_worker hi hn (fun j hne => by simp [Function.update_noteq hne, hq, hw j hne]) ho hu hc
      (.inr ⟨?_, ?_⟩)
    · simp only [workerLoad, h0]
      simp [WorkerPc.load, ← hq, hqi, houtq]
    · change u.plannerSlack + _ < _
      simpa [WorkerPc.slack] using hsl
  · rw [workerTest_pop hqi]
    refine lowers_of_worker hi hn (fun j hne => by simp [Function.update_noteq hne, hq, hw j hne]) ho hu hc
      (.inl ?_)
    simp only [workerLoad, h0]
    simp [WorkerPc.load, ← hq, hqi, houtq]
    omega

theorem lowers_workerLock (hi : i < s.nthreads) (hw : s.worker i = .lock) (hm : s.mutex = none)
    (hx : s.exiting = false) : s.CanLower (.worker i) :=
  ⟨s.workerTest i, by simp [step, hi, workerStep, hw, hm], (keeps_workerTest s i).loop,
    lowers_workerTest hi hx rfl rfl (fun _ _ => rfl) rfl rfl rfl rfl (by simp [hw, WorkerPc.load])
      (by simp [hw, WorkerPc.slack])⟩

theorem release_decrement {w : PoolWork} (hb : wtBar < w.type) (hf : 0 < s.inFlight)
    (hd : s.inFlight = 1 → s.loop.plannerCondDestroyed = false) :
    s.release i w = .ok (({ s with
      inFlight := s.inFlight - 1, log := s.log ++ [.decrement w],
      planner := if s.inFlight = 1 ∧ s.planner = .blocked then .lock else s.planner } : Pool).workerTest i) := by
  unfold release
  rw [if_pos hb, if_pos hf]
  simp only [signalPlanner_eq]
  have h0 : s.inFlight - 1 = 0 ↔ s.inFlight = 1 := by omega
  by_cases h1 : s.inFlight = 1 <;> simp [h0, h1, hd]

theorem lowers_relock {w : PoolWork} (hi : i < s.nthreads) (hw : s.worker i = .relock w)
    (hm : s.mutex = none) (hl : s.loop = .idle) (hx : s.exiting = false) (hf : wtBar < w.type → 0 < s.inFlight) :
    s.CanLower (.worker i) := by
  have h0 : (s.worker i).load = 0 := by simp [hw, WorkerPc.load]
  have h9 : (s.worker i).slack = 9 := by simp [hw, WorkerPc.slack]
  by_cases hb : wtBar < w.type
  · let u : Pool := { s with
      inFlight := s.inFlight - 1, log := s.log ++ [.decrement w],
      planner := if s.inFlight = 1 ∧ s.planner = .blocked then .lock else s.planner }
    have := plannerSlack_le u
    exact ⟨u.workerTest i, by simp [step, hi, workerStep, hw, hm, release_decrement hb (hf hb) fun _ => by simp [hl, LoopPc.plannerCondDestroyed], u],
      (keeps_workerTest u i).loop, lowers_workerTest hi hx rfl rfl (fun _ _ => rfl) rfl rfl rfl rfl h0 (by omega)⟩
  · exact ⟨s.workerTest i, by simp [step, hi, workerStep, hw, hm, release, hb], (keeps_workerTest s i).loop,
      lowers_workerTest hi hx rfl rfl (fun _ _ => rfl) rfl rfl rfl rfl h0 (by omega)⟩

theorem load_dispatch {k : Nat} {q : PoolWork} (hk : k < s.nthreads) (hn : t.nthreads = s.nthreads)
    (hi : t.inq = update s.inq k (s.inq k ++ [q]))
    (hw : t.worker = if s.worker k = .blocked then update s.worker k .lock else s.worker)
    (houtq : t.outq = s.outq) (hc : t.completed = s.completed) :
    t.load + 7 * (s.ordered.length + s.unordered.length) =
      s.load + 7 * (t.ordered.length + t.unordered.length) + 6 := by
  have := sumBelow_update (f := t.workerLoad) (g := s.workerLoad) hk fun j hne => by
    simp [workerLoad, hi, hw, WorkerPc.load_wake, Function.update_noteq hne]
  have hkk : t.workerLoad k = s.workerLoad k + 6 := by
    simp [workerLoad, hi, hw, WorkerPc.load_wake]
    omega
  simp only [load, hn, houtq, hc]
  omega

theorem threadId_lt_of_queued (hs : Reachable s) {q : PoolWork} (hq : q ∈ s.ordered ∨ q ∈ s.unordered) :
    q.threadId < s.nthreads := by
  have hp := hs.items.places
  refine ((hp.item q).submitted ?_).2
  rcases hq with h | h
  · rw [((hp.item q).of_ordered h).1]; decide
  · rw [((hp.item q).of_unordered h).1]; decide

/-- An iteration of the planner's loop with `exiting` unset: it dispatches or frees an item, or moves
    its state machine towards `uv_cond_wait`. -/
theorem lowers_plannerRun (hs : Reachable s) (hp : s.planner = .run) (hx : s.exiting = false) :
    s.CanLower .planner := by
  have hc := hs.control
  have hstep : s.step .planner = some s.plannerRun := by simp [step, plannerStep, hp]
  rcases hr : s.plannerRun with f | t
  · have := (plannerStep_error hc (f := f) (by simpa [step, hr] using hstep)).2.2.1
    simp [hx] at this
  · refine ⟨t, hr ▸ hstep, (keeps_plannerRun hr).loop, ?_⟩
    cases plannerRun_ok hr with
    | idle =>
      refine lowers_of_planner rfl rfl rfl rfl rfl rfl rfl ?_
      simp only [plannerSlack, hp]
      omega
    | wake hsm _ hq =>
      refine lowers_of_planner rfl rfl rfl rfl rfl rfl rfl ?_
      have : (s.ordered.isEmpty && s.unordered.isEmpty) = false := by rcases hq with h | h <;> simp [h]
      simp [plannerSlack, hp, smWeight, hsm, this]
    | exit _ he => exact absurd (hx.symm.trans he) Bool.false_ne_true
    | drained hsm ho hu =>
      exact lowers_of_planner rfl rfl rfl rfl rfl rfl rfl (by simp [plannerSlack, hp, smWeight, hsm, ho, hu])
    | barrier hsm =>
      refine lowers_of_planner rfl rfl rfl rfl rfl rfl rfl ?_
      simp only [plannerSlack, hp, smWeight, hsm]
      split <;> omega
    | drain _ _ hd =>
      obtain ⟨hl, -, -⟩ := drainOne_length hd
      obtain ⟨q, o, u, qos, hq, ht⟩ := drainOne_ok hd
      have hk := threadId_lt_of_queued hs (q := q) (by rcases qosPop_eq hq with ⟨h, -⟩ | ⟨h, -⟩ <;> simp [h])
      have := load_dispatch (t := t) hk (by rw [ht]) (by rw [ht]) (by rw [ht]) (by rw [ht]) (by rw [ht])
      exact .inl (by omega)
    | unord hsm hu =>
      exact lowers_of_planner rfl rfl rfl rfl rfl rfl rfl (by simp [plannerSlack, hp, smWeight, hsm, hu])
    | @free _ _ _ q o ho =>
      have := load_frame (s := s) (t := { s with ordered := o, log := s.log ++ [.free q], plannerSm := .draining })
        rfl rfl rfl
      simp only [ho, List.length_cons] at this
      exact .inl (by omega)
    | block hsm hu =>
      exact lowers_of_planner rfl rfl rfl rfl rfl rfl rfl (by simp [plannerSlack, hp, smWeight, hsm, hu])
    | @flush _ q u hu =>
      have hk := threadId_lt_of_queued hs (q := q) (.inr (by simp [hu]))
      have := load_dispatch (t := ({ s with unordered := u } : Pool).deliver q) hk (by rw [deliver_eq])
        (by rw [deliver_eq]) (by rw [deliver_eq]) (by rw [deliver_eq]) (by rw [deliver_eq])
      have ho : (({ s with unordered := u } : Pool).deliver q).ordered = s.ordered := by rw [deliver_eq]
      have hu' : (({ s with unordered := u } : Pool).deliver q).unordered = u := by rw [deliver_eq]
      rw [ho, hu', hu, List.length_cons] at this
      exact .inl (by omega)
    | flushed hsm hu =>
      exact lowers_of_planner rfl rfl rfl rfl rfl rfl rfl (by simp [plannerSlack, hp, smWeight, hsm, hu])
    | exited hsm => exact absurd (hx.symm.trans (hc.sm_exiting hsm)) Bool.false_ne_true

/-! ### Some thread can always lower the measure -/

/-- Nothing is left to do and every thread sleeps on its condition variable. -/
structure Quiescent (s : Pool) : Prop where
  mutex : s.mutex = none
  planner : s.planner = .blocked
  plannerSm : s.plannerSm = .nothing
  worker : ∀ i, i < s.nthreads → s.worker i = .blocked
  inq : ∀ i, s.inq i = []
  ordered : s.ordered = []
  unordered : s.unordered = []
  outq : s.outq = []
  completed : s.completed = []
  inFlight : s.inFlight = 0
  activeWs : s.activeWs = 0

theorem inq_beyond (hs : Reachable s) (hi : s.nthreads ≤ i) : s.inq i = [] :=
  List.eq_nil_iff_forall_not_mem.mpr fun w hw => by
    have hp := hs.items.places
    have h := (hp.item w).of_inq (i := i) hw
    have : w.threadId < s.nthreads := ((hp.item w).submitted (by omega)).2
    omega

/-- In a pool before `pool_fini`, the planner, a worker or `work_done` can take a step that lowers
    the measure, or every thread sleeps with nothing left to do. -/
theorem lower_or_quiescent (hs : Reachable s) (hl : s.loop = .idle) :
    (∃ a, a.background ∧ s.CanLower a) ∨ s.Quiescent := by
  have hc := hs.control
  have hp := hs.items.places
  have hx : s.exiting = false := Bool.eq_false_iff.mpr fun h => hs.exits.loop h hl
  rcases hcomp : s.completed with _ | ⟨w, q⟩
  swap
  · exact .inl ⟨.queueDone, rfl, lowers_queueDone hl hcomp fun h0 => queueDone_ne_activeWs hs hcomp (by simp [queueDone, h0])⟩
  by_cases ho : s.outq = []
  swap
  · exact .inl ⟨.workDone, rfl, lowers_workDone hl hcomp ho⟩
  cases hm : s.mutex with
  | some o =>
    cases o with
    | planner =>
      rcases hc.mutex_planner.mp hm with hpl | hpl
      · exact .inl ⟨.planner, rfl, lowers_plannerRun hs hpl hx⟩
      · exact .inl ⟨.planner, rfl, lowers_plannerWait hpl⟩
    | worker i =>
      have hw := (hc.mutex_worker i).mp hm
      have hi : i < s.nthreads := Nat.lt_of_not_le fun h => by simp [hc.beyond i h] at hw
      exact .inl ⟨.worker i, rfl, lowers_workerWait hi hw⟩
  | none =>
    -- A worker that holds an item takes its next step.
    by_cases hh : ∃ i, i < s.nthreads ∧ (s.worker i).hold ≠ .none
    · obtain ⟨i, hi, hne⟩ := hh
      cases hw : s.worker i with
      | work w => exact .inl ⟨.worker i, rfl, lowers_work hi hw⟩
      | publish w => exact .inl ⟨.worker i, rfl, lowers_publish hi hw⟩
      | relock w =>
        exact .inl ⟨.worker i, rfl, lowers_relock hi hw hm hl hx fun hb =>
          hs.items.counters.inFlight_pos hp (i := i) (by simp [hw, WorkerPc.hold]) hb⟩
      | _ => simp [hw, WorkerPc.hold] at hne
    push_neg at hh
    -- Else a worker at `uv_mutex_lock` takes the mutex.
    by_cases hlock : ∃ i, i < s.nthreads ∧ s.worker i = .lock
    · obtain ⟨i, hi, hw⟩ := hlock
      exact .inl ⟨.worker i, rfl, lowers_workerLock hi hw hm hx⟩
    push_neg at hlock
    have hasleep : ∀ i, i < s.nthreads → s.worker i = .blocked := fun i hi => by
      have h1 := hh i hi
      have h2 := hc.free_worker hm i
      have h3 := hlock i hi
      have h4 : s.worker i ≠ .exited := fun h => Bool.false_ne_true (hx.symm.trans (hs.exits.worker i h))
      cases hw : s.worker i <;> simp_all [WorkerPc.hold]
    -- Else the planner takes the mutex, or it sleeps too.
    by_cases hpl : s.planner = .lock
    · exact .inl ⟨.planner, rfl, lowers_plannerLock hpl hm⟩
    have hpb : s.planner = .blocked := by
      have h1 := hc.free_planner hm
      have h2 : s.planner ≠ .exited := fun h => Bool.false_ne_true (hx.symm.trans (hc.sm_exiting (hc.exited_sm h)))
      cases h : s.planner <;> simp_all
    have hinq : ∀ i, s.inq i = [] := fun i => by
      by_cases hi : i < s.nthreads
      · exact hc.worker_asleep i (.inr (hasleep i hi))
      · exact inq_beyond hs (Nat.le_of_not_lt hi)
    have hholds : ∀ i, s.items.holds i = .none := fun i => by
      by_cases hi : i < s.nthreads
      · simpa using hh i hi
      · simp [hc.beyond i (Nat.le_of_not_lt hi), WorkerPc.hold]
    have hset := Items.settled hp hs.items.counters hs.items.relocked hinq hholds ho hcomp
    obtain ⟨hu, ⟨hsm, hor⟩ | ⟨-, hf⟩⟩ := hc.planner_asleep (.inr hpb)
    · have ha : s.activeWs = 0 := by
        by_contra ha
        rcases hset.2 ha with h | h <;> exact h (by simpa using ‹_›)
      exact .inr ⟨hm, hpb, hsm, hasleep, hinq, hor, hu, ho, hcomp, hset.1, ha⟩
    · exact absurd hset.1 (Nat.pos_iff_ne_zero.mp hf)

/-! ### Every background step lowers the measure -/

theorem slack_le (s : Pool) : s.slack ≤ 7 + 9 * s.nthreads := by
  have := plannerSlack_le s
  have := sumBelow_le (f := fun i => (s.worker i).slack) (c := 9) (n := s.nthreads) fun i _ =>
    (s.worker i).slack_le
  unfold slack
  omega

/-- The measure as one number: the slack never reaches `8 + 9 * nthreads`. -/
def rank (s : Pool) : Nat := s.load * (8 + 9 * s.nthreads) + s.slack

theorem Lowers.rank_lt (h : s.Lowers t) (hn : t.nthreads = s.nthreads) : t.rank < s.rank := by
  have ht := t.slack_le
  unfold rank
  rw [hn] at ht ⊢
  rcases h with h | ⟨h1, h2⟩
  · have := Nat.mul_le_mul_right (8 + 9 * s.nthreads) h
    rw [Nat.succ_mul] at this
    omega
  · rw [h1]
    omega

/-- A step of the planner, a worker or `work_done` that changes the pool. -/
def Busy (s t : Pool) : Prop := ∃ a, a.background ∧ s.step a = some (.ok t) ∧ t ≠ s

theorem CanLower.lowers {a : Action} (hc : s.CanLower a) (h : s.step a = some (.ok t)) :
    s.Lowers t ∧ t.loop = s.loop := by
  obtain ⟨t', h', hl, hlow⟩ := hc
  rw [h] at h'
  cases h'
  exact ⟨hlow, hl⟩

/-- Before `pool_fini`, every step of the planner, a worker or `work_done` that changes the pool
    lowers the measure. -/
theorem Busy.lowers (hs : Reachable s) (hl : s.loop = .idle) (h : s.Busy t) : s.Lowers t ∧ t.loop = s.loop := by
  obtain ⟨a, ha, hst, hne⟩ := h
  have hx : s.exiting = false := Bool.eq_false_iff.mpr fun h => hs.exits.loop h hl
  cases a with
  | planner =>
    rcases planner_steps_ok hst with ⟨hp, hm, -⟩ | ⟨hp, -⟩ | ⟨hp, -⟩
    · exact (lowers_plannerLock hp hm).lowers hst
    · exact (lowers_plannerRun hs hp hx).lowers hst
    · exact (lowers_plannerWait hp).lowers hst
  | worker i =>
    obtain ⟨hi, hw⟩ := step_worker_ok hst
    rcases workerStep_ok hw with ⟨hw', hm, -⟩ | ⟨hw', -⟩ | ⟨w, hw', -⟩ | ⟨w, hw', -⟩ | ⟨w, hw', hm, -⟩
    · exact (lowers_workerLock hi hw' hm hx).lowers hst
    · exact (lowers_workerWait hi hw').lowers hst
    · exact (lowers_work hi hw').lowers hst
    · exact (lowers_publish hi hw').lowers hst
    · exact (lowers_relock hi hw' hm hl hx fun hb =>
        hs.items.counters.inFlight_pos hs.items.places (i := i) (by simp [hw', WorkerPc.hold]) hb).lowers hst
  | workDone =>
    obtain ⟨-, hc, rfl⟩ := step_workDone_ok hst
    have ho : s.outq ≠ [] := fun ho => hne (by cases s; simp_all)
    exact (lowers_workDone hl hc ho).lowers hst
  | queueDone =>
    obtain ⟨-, w, q, hc, ha', -⟩ := step_queueDone_ok hst
    exact (lowers_queueDone hl hc ha').lowers hst
  | _ => simp [Action.background] at ha

/-- From a pool before `pool_fini`, there is no endless sequence of background steps that change
    the pool. -/
theorem acc_busy : ∀ n (s : Pool), Reachable s → s.loop = .idle → s.rank < n → Acc (flip Busy) s
  | 0, _, _, _, h => absurd h (Nat.not_lt_zero _)
  | n + 1, s, hs, hl, h => .intro s fun t hst => by
    obtain ⟨a, -, ha, -⟩ := id hst
    obtain ⟨hlow, htl⟩ := Busy.lowers hs hl hst
    have hn : t.nthreads = s.nthreads := Steps.nthreads_eq (.tail a (.refl s) ha)
    exact acc_busy n t (.step a hs ha) (htl.trans hl) (by have := hlow.rank_lt hn; omega)

end Pool

/-- From a pool before `pool_fini`, the background threads alone can bring every thread to sleep
    with nothing left to do. -/
theorem Reachable.drains {s : Pool} (hs : Reachable s) (hl : s.loop = .idle) :
    ∃ l t, (∀ a ∈ l, a.background) ∧ s.run l = some (.ok t) ∧ t.loop = .idle ∧ t.Quiescent := by
  rcases Pool.lower_or_quiescent hs hl with ⟨a, ha, t, ht, htl, hlt⟩ | hq
  · obtain ⟨l, u, hb, hu, hul, huq⟩ := (Reachable.step a hs ht).drains (htl.trans hl)
    exact ⟨a :: l, u, List.forall_mem_cons.mpr ⟨ha, hb⟩, by simp [Pool.run, ht, hu], hul, huq⟩
  · exact ⟨[], s, by simp, rfl, hl, hq⟩
termination_by (s.load, s.slack)
decreasing_by
  rcases hlt with h | ⟨h1, h2⟩
  · exact Prod.Lex.left _ _ h
  · rw [h1]; exact Prod.Lex.right _ h2

/-- Before `pool_fini`, with no item submitted and no spurious wake-up, the planner, the workers and
    `work_done` cannot keep the pool busy forever: every sequence of their steps that change the pool
    is finite, and once none of them can change it, every thread sleeps with nothing left to do. So
    in whatever order they are scheduled, they drain the pool. -/
theorem background_always_drains {s : Pool} (hs : Reachable s) (hl : s.loop = .idle) :
    Acc (flip Pool.Busy) s ∧ ((∀ t, ¬ s.Busy t) → s.Quiescent) := by
  refine ⟨Pool.acc_busy _ s hs hl (Nat.lt_succ_self _), fun hnone => ?_⟩
  rcases Pool.lower_or_quiescent hs hl with ⟨a, ha, t, ht, -, hlow⟩ | hq
  · refine absurd ⟨a, ha, ht, fun he => ?_⟩ (hnone t)
    subst he
    rcases hlow with h | ⟨-, h⟩ <;> exact Nat.lt_irrefl _ h
  · exact hq

theorem background_always_drains_three :
    ∃ s : Pool, Reachable s ∧ s.loop = .idle ∧ s.log.length = 3 ∧ Acc (flip Pool.Busy) s := by
  have hr := (Reachable.init none).steps (Pool.run_steps (l := [.queueWork wtUnord 0, .queueWork wtBar 0,
    .queueWork wtOrd1 1]) rfl)
  exact ⟨_, hr, rfl, rfl, (background_always_drains hr rfl).1⟩

/-- Before `pool_fini`, whatever the threads have done, the planner, the workers and `work_done` can
    be scheduled, with nothing submitted, so that every thread sleeps with nothing left to do: every
    item submitted so far has been done, or freed if a barrier, every queue is empty, and `in_flight`
    and `active_ws` are back at `0`. No interleaving leads the pool into a deadlock. -/
theorem pool_always_drains {s : Pool} (hs : Reachable s) (hl : s.loop = .idle) :
    ∃ l t, (∀ a ∈ l, a.background) ∧ s.run l = some (.ok t) ∧ t.loop = .idle ∧ t.Quiescent ∧
      ∀ w, .submit w ∈ s.log → w.type = wtBar ∧ .free w ∈ t.log ∨ w.type ≠ wtBar ∧ .done w ∈ t.log := by
  obtain ⟨l, t, hb, hr, htl, hq⟩ := hs.drains hl
  have hst := Pool.run_steps hr
  have ht := hs.steps hst
  have hholds : ∀ i, t.items.holds i = .none := fun i => by
    by_cases hi : i < t.nthreads
    · simp [hq.worker i hi, WorkerPc.hold]
    · simp [ht.control.beyond i (Nat.le_of_not_lt hi), WorkerPc.hold]
  exact ⟨l, t, hb, hr, htl, hq, fun w hw => Items.all_finished ht.items.places hq.inq hholds hq.outq
    hq.completed hq.ordered hq.unordered (hst.log_prefix.subset hw)⟩

theorem pool_always_drains_three :
    ∃ s : Pool, Reachable s ∧ s.loop = .idle ∧ s.log.length = 3 ∧
      ∃ l t, (∀ a ∈ l, a.background) ∧ s.run l = some (.ok t) ∧ t.Quiescent := by
  have hr := (Reachable.init none).steps (Pool.run_steps (l := [.queueWork wtUnord 0, .queueWork wtBar 0,
    .queueWork wtOrd1 1]) rfl)
  obtain ⟨l, t, hb, ht, -, hq, -⟩ := pool_always_drains hr rfl
  exact ⟨_, hr, rfl, rfl, l, t, hb, ht, hq⟩

end Dqlite
