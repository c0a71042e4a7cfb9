import Dqlite.Pool.Step

/-! # What each step does

One lemma per step function spells out every way the step can succeed, with the pool it leaves as a
record update of the pool before it. The invariants of the later files are proved from these lemmas,
never by unfolding the code again. -/

namespace Dqlite
namespace Pool

open Function (update)

variable {s t : Pool}

/-! ### Helpers -/

theorem signalPlanner_eq (s : Pool) :
    s.signalPlanner = { s with planner := if s.planner = .blocked then .lock else s.planner } := by
  unfold signalPlanner; split <;> simp_all

theorem signalWorker_eq (s : Pool) (i : Nat) :
    s.signalWorker i =
      { s with worker := if s.worker i = .blocked then update s.worker i .lock else s.worker } := by
  unfold signalWorker; split <;> simp_all

theorem signalWorker_not_blocked (s : Pool) (i : Nat) : (s.signalWorker i).worker i ≠ .blocked := by
  unfold signalWorker; split <;> simp_all

theorem deliver_eq (s : Pool) (q : PoolWork) :
    s.deliver q = { s with
      inq := update s.inq q.threadId (s.inq q.threadId ++ [q]), log := s.log ++ [.dispatch q],
      worker := if s.worker q.threadId = .blocked then update s.worker q.threadId .lock else s.worker } := by
  simp only [deliver, signalWorker_eq, push_eq]

theorem smMove_ok {next : PlannerState} (h : s.smMove next = .ok t) :
    t = { s with plannerSm := next } ∧ allowed s.plannerSm next ∧
      ({ s with plannerSm := next } : Pool).plannerInvariant s.plannerSm := by
  unfold smMove at h
  split at h
  · split at h
    · cases h; exact ⟨rfl, ‹_›, ‹_›⟩
    · cases h
  · cases h

theorem smMove_self_barrier (h : s.plannerSm = .barrier) : s.smMove .barrier = .ok s := by
  cases s; subst h; simp [smMove, allowed, plannerStates, bits, PlannerState.toNat, plannerInvariant]

theorem smMove_self_draining (h : s.plannerSm = .draining) : s.smMove .draining = .ok s := by
  cases s; subst h; simp [smMove, allowed, plannerStates, bits, PlannerState.toNat, plannerInvariant]

theorem with_plannerSm_self : ({ s with plannerSm := s.plannerSm } : Pool) = s := rfl

/-! ### The planner -/

theorem plannerLock_eq (s : Pool) : s.plannerLock = .ok { s with mutex := some .planner, planner := .run } := by
  unfold plannerLock
  dsimp only
  split
  · exact smMove_self_barrier ‹_›
  · rfl

/-- The ways one step of the planner under the mutex can succeed, one per branch of `plannerRun`. -/
inductive PlannerIter (s : Pool) : Pool → Prop
  /-- `PS_NOTHING`, nothing queued and `exiting` unset: on to `uv_cond_wait`. -/
  | idle (hsm : s.plannerSm = .nothing) (ho : s.ordered = []) (hu : s.unordered = []) (he : s.exiting = false) :
      PlannerIter s { s with planner := .wait }
  /-- `PS_NOTHING` with an item queued: `sm_move(PS_DRAINING)`. -/
  | wake (hsm : s.plannerSm = .nothing) (he : s.exiting = false) (hq : s.ordered ≠ [] ∨ s.unordered ≠ []) :
      PlannerIter s { s with plannerSm := .draining }
  /-- `PS_NOTHING` with `exiting` set: `sm_move(PS_EXITED)`, whose `planner_invariant` needs both
      queues empty. -/
  | exit (hsm : s.plannerSm = .nothing) (he : s.exiting = true) (ho : s.ordered = []) (hu : s.unordered = []) :
      PlannerIter s { s with plannerSm := .exited }
  /-- `PS_DRAINING` with both queues empty: `sm_move(PS_NOTHING)`. -/
  | drained (hsm : s.plannerSm = .draining) (ho : s.ordered = []) (hu : s.unordered = []) :
      PlannerIter s { s with plannerSm := .nothing }
  /-- `PS_DRAINING` with a barrier at the head of `ordered`: `sm_move(PS_BARRIER)`. -/
  | barrier (hsm : s.plannerSm = .draining) (hb : ∃ w o, s.ordered = w :: o ∧ w.type = wtBar) :
      PlannerIter s { s with plannerSm := .barrier }
  /-- `PS_DRAINING` behind a head that is no barrier: `qos_pop` and the dispatch. -/
  | drain {t : Pool} (hsm : s.plannerSm = .draining) (hbar : ∀ w o, s.ordered = w :: o → w.type ≠ wtBar)
      (hd : s.drainOne = .ok t) : PlannerIter s t
  /-- `PS_BARRIER` with `unordered` non-empty: `sm_move(PS_DRAINING_UNORD)`. -/
  | unord (hsm : s.plannerSm = .barrier) (hu : s.unordered ≠ []) :
      PlannerIter s { s with plannerSm := .drainingUnord }
  /-- `PS_BARRIER` with nothing in flight: the barrier is freed, then `sm_move(PS_DRAINING)`. -/
  | free (hsm : s.plannerSm = .barrier) (hu : s.unordered = []) (hf : s.inFlight = 0) {q : PoolWork}
      {o : List PoolWork} (ho : s.ordered = q :: o) (hb : q.type = wtBar) :
      PlannerIter s { s with ordered := o, log := s.log ++ [.free q], plannerSm := .draining }
  /-- `PS_BARRIER` with items in flight: on to `uv_cond_wait`. -/
  | block (hsm : s.plannerSm = .barrier) (hu : s.unordered = []) (hf : s.inFlight ≠ 0) :
      PlannerIter s { s with planner := .wait }
  /-- `PS_DRAINING_UNORD` delivers the head of `unordered`. -/
  | flush (hsm : s.plannerSm = .drainingUnord) {q : PoolWork} {u : List PoolWork} (hu : s.unordered = q :: u) :
      PlannerIter s (({ s with unordered := u } : Pool).deliver q)
  /-- `PS_DRAINING_UNORD` with `unordered` empty: `sm_move(PS_BARRIER)`. -/
  | flushed (hsm : s.plannerSm = .drainingUnord) (hu : s.unordered = []) :
      PlannerIter s { s with plannerSm := .barrier }
  /-- `PS_EXITED`: the planner releases the mutex and returns. -/
  | exited (hsm : s.plannerSm = .exited) : PlannerIter s { s with planner := .exited, mutex := none }

theorem plannerRun_ok (h : s.plannerRun = .ok t) : PlannerIter s t := by
  unfold plannerRun at h
  split at h
  · rename_i hsm
    split at h
    · rename_i hc
      cases h
      simp only [Bool.and_eq_true, List.isEmpty_iff, Bool.not_eq_true'] at hc
      exact .idle hsm hc.1.1 hc.1.2 hc.2
    · rename_i hc
      obtain ⟨rfl, -, hinv⟩ := smMove_ok h
      rcases Bool.eq_false_or_eq_true s.exiting with hx | hx
      · rw [if_pos hx] at hinv ⊢
        have : s.ordered = [] ∧ s.unordered = [] := by simpa [plannerInvariant, hx] using hinv
        exact .exit hsm hx this.1 this.2
      · rw [if_neg (by simp [hx])]
        have : ¬(s.ordered = [] ∧ s.unordered = []) := by simpa [hx, List.isEmpty_iff] using hc
        exact .wake hsm hx (not_and_or.mp this)
  · rename_i hsm
    split at h
    · simp only [bind, Except.bind] at h
      split at h
      · cases h
      · rename_i t' ht'
        obtain ⟨rfl, -, -⟩ := smMove_ok ht'
        rw [← hsm, with_plannerSm_self] at h
        split at h
        · rename_i w o ho
          split at h
          · obtain ⟨rfl, -, -⟩ := smMove_ok h
            exact .barrier hsm ⟨w, o, ho, ‹_›⟩
          · exact .drain hsm (fun w' o' ho' => by simp_all) h
        · exact .drain hsm (by simp_all) h
    · rename_i hc
      obtain ⟨rfl, -, -⟩ := smMove_ok h
      have : s.ordered = [] ∧ s.unordered = [] := by simpa [List.isEmpty_iff] using hc
      exact .drained hsm this.1 this.2
  · rename_i hsm
    split at h
    · obtain ⟨rfl, -, -⟩ := smMove_ok h
      exact .unord hsm (by simp_all)
    · rename_i hu
      have hu : s.unordered = [] := by simpa using hu
      split at h
      · rename_i hf
        simp only [bind, Except.bind] at h
        split at h
        · cases h
        · rename_i p hp
          cases ho : s.ordered with
          | nil => simp [ho, pop] at hp
          | cons q o =>
            simp only [ho, pop_cons, Except.ok.injEq] at hp
            subst hp
            split at h
            · cases h
            · rename_i hq
              obtain ⟨rfl, -, -⟩ := smMove_ok h
              exact .free hsm hu hf ho (by simpa using hq)
      · cases h
        exact .block hsm hu ‹_›
  · rename_i hsm
    split at h
    · cases h
      exact .flush hsm ‹_›
    · obtain ⟨rfl, -, -⟩ := smMove_ok h
      exact .flushed hsm ‹_›
  · cases h
    exact .exited ‹_›

/-- The pool after an iteration of `PS_DRAINING` that delivers `q`. -/
theorem drainOne_ok (h : s.drainOne = .ok t) :
    ∃ q o u qos, qosPop s.qos s.ordered s.unordered = .ok (q, o, u, qos) ∧
      t = { s with
        ordered := o, unordered := u, qos := qos,
        log := s.log ++ ((if !s.ordered.isEmpty && !s.unordered.isEmpty then [Event.qos (s.qos % 2 != 0)]
          else []) ++ [.dispatch q]),
        inq := update s.inq q.threadId (s.inq q.threadId ++ [q]),
        worker := if s.worker q.threadId = .blocked then update s.worker q.threadId .lock else s.worker,
        inFlight := if wtOrd1 ≤ q.type then s.inFlight + 1 else s.inFlight } := by
  unfold drainOne at h
  simp only [bind, Except.bind] at h
  split at h
  · cases h
  · rename_i p hp
    obtain ⟨q, o, u, qos⟩ := p
    refine ⟨q, o, u, qos, hp, ?_⟩
    cases h
    simp only [deliver_eq, List.append_assoc]
    split <;> rfl

theorem qosPop_error {qos : Nat} {o u : List PoolWork} {e : Fault} (h : qosPop qos o u = .error e) :
    o = [] ∧ u = [] := by
  cases o <;> cases u <;> simp only [qosPop] at h
  · exact ⟨rfl, rfl⟩
  · cases h
  · cases h
  · split at h <;> cases h

theorem drainOne_error {f : Fault} (h : s.drainOne = .error f) : s.ordered = [] ∧ s.unordered = [] := by
  unfold drainOne at h
  simp only [bind, Except.bind] at h
  split at h
  · exact qosPop_error ‹_›
  · cases h

theorem planner_steps_ok (h : s.plannerStep = some (.ok t)) :
    (s.planner = .lock ∧ s.mutex = none ∧ t = { s with mutex := some .planner, planner := .run }) ∨
    (s.planner = .run ∧ s.plannerRun = .ok t) ∨
    (s.planner = .wait ∧ t = { s with planner := .blocked, mutex := none }) := by
  unfold plannerStep at h
  split at h
  · split at h
    · simp only [plannerLock_eq, Option.some.injEq, Except.ok.injEq] at h
      exact .inl ⟨‹_›, ‹_›, h.symm⟩
    · cases h
  · exact .inr (.inl ⟨‹_›, by simpa using h⟩)
  · cases h; exact .inr (.inr ⟨‹_›, rfl⟩)
  · cases h
  · cases h

/-! ### The workers -/

variable {i : Nat}

theorem workerTest_exit (hi : s.inq i = []) (he : s.exiting = true) :
    s.workerTest i = { s with worker := update s.worker i .exited, mutex := none } := by
  simp [workerTest, hi, he]

theorem workerTest_wait (hi : s.inq i = []) (he : s.exiting = false) :
    s.workerTest i = { s with worker := update s.worker i .wait, mutex := some (.worker i) } := by
  simp [workerTest, hi, he]

theorem workerTest_pop {q : PoolWork} {rest : List PoolWork} (hi : s.inq i = q :: rest) :
    s.workerTest i = { s with
      inq := update s.inq i rest, worker := update s.worker i (.work q), mutex := none,
      log := s.log ++ [.start q] } := by
  simp [workerTest, hi]

/-- The pool after worker `i` retook the mutex following the item `w`. -/
theorem release_ok {w : PoolWork} (h : s.release i w = .ok t) :
    (w.type ≤ wtBar ∧ t = s.workerTest i) ∨
    (wtBar < w.type ∧ 0 < s.inFlight ∧ (s.inFlight = 1 → s.loop.plannerCondDestroyed = false) ∧
      t = ({ s with
        inFlight := s.inFlight - 1, log := s.log ++ [.decrement w],
        planner := if s.inFlight = 1 ∧ s.planner = .blocked then .lock else s.planner } : Pool).workerTest i) := by
  unfold release at h
  split at h
  · rename_i hb
    split at h
    · rename_i hf
      have h0 : s.inFlight - 1 = 0 ↔ s.inFlight = 1 := by omega
      by_cases h1 : s.inFlight = 1
      · simp only [h0, h1, if_true] at h
        split at h
        · cases h
        · rename_i hd
          cases h
          refine .inr ⟨hb, hf, fun _ => by simpa using hd, ?_⟩
          simp [signalPlanner_eq, h1]
      · simp only [h0, h1, if_false] at h
        cases h
        exact .inr ⟨hb, hf, fun h => absurd h h1, by simp [h1]⟩
    · cases h
  · cases h; exact .inl ⟨Nat.le_of_not_lt ‹_›, rfl⟩

/-- The ways a step of worker `i` can succeed. -/
theorem workerStep_ok (h : s.workerStep i = some (.ok t)) :
    (s.worker i = .lock ∧ s.mutex = none ∧ t = s.workerTest i) ∨
    (s.worker i = .wait ∧ t = { s with worker := update s.worker i .blocked, mutex := none }) ∨
    (∃ w, s.worker i = .work w ∧
      t = { s with worker := update s.worker i (.publish w), log := s.log ++ [.finish w] }) ∨
    (∃ w, s.worker i = .publish w ∧
      t = { s with outq := s.outq ++ [w], worker := update s.worker i (.relock w), log := s.log ++ [.publish w] }) ∨
    (∃ w, s.worker i = .relock w ∧ s.mutex = none ∧ s.release i w = .ok t) := by
  unfold workerStep at h
  split at h
  · split at h
    · cases h; exact .inl ⟨‹_›, ‹_›, rfl⟩
    · cases h
  · cases h; exact .inr (.inl ⟨‹_›, rfl⟩)
  · cases h; exact .inr (.inr (.inl ⟨_, ‹_›, rfl⟩))
  · cases h; exact .inr (.inr (.inr (.inl ⟨_, ‹_›, rfl⟩)))
  · split at h
    · exact .inr (.inr (.inr (.inr ⟨_, ‹_›, ‹_›, by simpa using h⟩)))
    · cases h
  · cases h
  · cases h

/-! ### The loop thread -/

theorem wRegister_eq (s : Pool) (w : PoolWork) :
    s.wRegister w = { s with activeWs := if w.type ≠ wtBar then s.activeWs + 1 else s.activeWs } := by
  unfold wRegister; split <;> simp_all

/-- `pool_queue_work` succeeds when the ordered classes come in order, and pushes the new item. -/
theorem poolQueueWork_ok {type cookie : Nat} (h : s.poolQueueWork type cookie = .ok t) :
    (wtUnord < type → s.oPrev ≠ wtBar → type ≠ wtBar → s.oPrev = type) ∧
    t = { s with
      activeWs := if type ≠ wtBar then s.activeWs + 1 else s.activeWs,
      oPrev := if wtUnord < type then type else s.oPrev,
      ordered := if type = wtUnord then s.ordered else s.ordered ++ [⟨s.serial, type, cookie % s.nthreads⟩],
      unordered := if type = wtUnord then s.unordered ++ [⟨s.serial, type, cookie % s.nthreads⟩] else s.unordered,
      serial := s.serial + 1, log := s.log ++ [.submit ⟨s.serial, type, cookie % s.nthreads⟩],
      planner := if s.planner = .blocked then .lock else s.planner } := by
  simp only [poolQueueWork, wRegister_eq, poolWorkSubmit] at h
  by_cases hu : wtUnord < type
  · by_cases hp : s.oPrev ≠ wtBar ∧ type ≠ wtBar ∧ s.oPrev ≠ type
    · simp [hu, hp, bind, Except.bind, throw, throwThe, MonadExceptOf.throw] at h
    · refine ⟨fun _ h1 h2 => by by_contra h3; exact hp ⟨h1, h2, h3⟩, ?_⟩
      have hne : type ≠ wtUnord := by omega
      simp only [hu, hp, hne, ite_true, ite_false, bind, Except.bind, pure, Except.pure, push_eq,
        signalPlanner_eq, Except.ok.injEq] at h
      subst h
      by_cases hb : type = wtBar
      · subst hb; simp [hne, hu]
      · simp [hb, hne, hu]
  · refine ⟨fun h' => absurd h' hu, ?_⟩
    have he : type = wtUnord := by unfold wtUnord at *; omega
    subst he
    simp only [hu, ite_false, ite_true, bind, Except.bind, pure, Except.pure, push_eq,
      signalPlanner_eq, Except.ok.injEq] at h
    subst h
    simp [wtBar, wtUnord]

theorem poolFini_eq (h : 0 < s.nthreads) : s.poolFini = { s with exiting := true, loop := .signalPlanner } := by
  simp [poolFini, Nat.pos_iff_ne_zero.mp h]

/-- The ways the next statement of `pool_cleanup` and `pool_fini` can succeed. -/
theorem cleanupStep_ok (h : s.cleanupStep = some (.ok t)) :
    (s.loop = .signalPlanner ∧ t = { s.signalPlanner with loop := .joinPlanner }) ∨
    (s.loop = .joinPlanner ∧ s.planner = .exited ∧ s.ordered = [] ∧ s.unordered = [] ∧
      t = { s with loop := s.nextWorker 0 }) ∨
    (∃ i, s.loop = .signalWorker i ∧ t = { s.signalWorker i with loop := .joinWorker i }) ∨
    (∃ i, s.loop = .joinWorker i ∧ s.worker i = .exited ∧ s.inq i = [] ∧
      t = { s with loop := s.nextWorker (i + 1) }) ∨
    (s.loop = .fini ∧ s.outq = [] ∧ s.activeWs = 0 ∧ t = { s with loop := .finished }) := by
  unfold cleanupStep at h
  split at h
  · cases h; exact .inl ⟨‹_›, rfl⟩
  · split at h
    · split at h
      · cases h; exact .inr (.inl ⟨‹_›, ‹_›, by simp_all⟩)
      · cases h
    · cases h
  · cases h; exact .inr (.inr (.inl ⟨_, ‹_›, rfl⟩))
  · split at h
    · split at h
      · cases h; exact .inr (.inr (.inr (.inl ⟨_, ‹_›, ‹_›, by simp_all⟩)))
      · cases h
    · cases h
  · split at h
    · cases h; exact .inr (.inr (.inr (.inr ⟨‹_›, by simp_all⟩)))
    · cases h
  · cases h
  · cases h

/-! ### Steps -/

theorem step_worker_ok (h : s.step (.worker i) = some (.ok t)) : i < s.nthreads ∧ s.workerStep i = some (.ok t) := by
  simp only [step] at h
  split at h
  · exact ⟨‹_›, h⟩
  · cases h

theorem step_queueWork_ok {type cookie : Nat} (h : s.step (.queueWork type cookie) = some (.ok t)) :
    s.loop = .idle ∧ s.mutex = none ∧ s.poolQueueWork type cookie = .ok t := by
  simp only [step] at h
  split at h
  · rename_i hc; exact ⟨hc.1, hc.2, by simpa using h⟩
  · cases h

theorem step_workDone_ok (h : s.step .workDone = some (.ok t)) :
    s.loop = .idle ∧ s.completed = [] ∧ t = { s with completed := s.outq, outq := [] } := by
  simp only [step] at h
  split at h
  · rename_i hc; cases h; exact ⟨hc.1, hc.2, rfl⟩
  · cases h

theorem step_queueDone_ok (h : s.step .queueDone = some (.ok t)) :
    s.loop = .idle ∧ ∃ w q, s.completed = w :: q ∧ s.activeWs ≠ 0 ∧
      t = { s with completed := q, activeWs := s.activeWs - 1, log := s.log ++ [.done w] } := by
  simp only [step] at h
  split at h
  · simp only [queueDone, Option.some.injEq] at h
    split at h
    · cases h
    · cases h; exact ⟨‹_›, _, _, ‹_›, ‹_›, rfl⟩
  · cases h

theorem step_poolFini_ok (h : s.step .poolFini = some (.ok t)) : s.loop = .idle ∧ t = s.poolFini := by
  simp only [step] at h
  split at h
  · cases h; exact ⟨‹_›, rfl⟩
  · cases h

theorem step_wakePlanner_ok (h : s.step .wakePlanner = some (.ok t)) :
    s.planner = .blocked ∧ t = { s with planner := .lock } := by
  simp only [step] at h
  split at h
  · cases h; exact ⟨‹_›, rfl⟩
  · cases h

theorem step_wakeWorker_ok (h : s.step (.wakeWorker i) = some (.ok t)) :
    i < s.nthreads ∧ s.worker i = .blocked ∧ t = { s with worker := update s.worker i .lock } := by
  simp only [step] at h
  split at h
  · rename_i hc; cases h; exact ⟨hc.1, hc.2, rfl⟩
  · cases h

end Pool
end Dqlite
