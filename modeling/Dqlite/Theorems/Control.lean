import Dqlite.Theorems.Effects

/-! # Control: the mutex, the sleepers, and shutdown

`Control` holds in every reachable pool. The pool mutex has one holder, the thread at a program point
that holds it. A barrier heads `ordered` while the planner is in `PS_BARRIER` or `PS_DRAINING_UNORD`.
A thread asleep on its condition variable, or about to sleep, has nothing to move: the planner sleeps
with `unordered` empty and either nothing ordered (`PS_NOTHING`) or items in flight (`PS_BARRIER`); a
worker sleeps with an empty inbox. Once `pool_fini` starts, `exiting` is set, the planner has returned
when it is joined, and no worker sleeps after `pool_cleanup` signalled it. -/

namespace Dqlite

open Function (update)

/-- `pool_cleanup` is past `uv_thread_join(&pi->planner_thread)`. -/
def LoopPc.joinedPlanner : LoopPc → Prop
  | .signalWorker _ | .joinWorker _ | .fini | .finished => True
  | _ => False

/-- `pool_cleanup` is past `uv_cond_signal(&ts[i].cond)`. -/
def LoopPc.signalled (i : Nat) : LoopPc → Prop
  | .signalWorker j => i < j
  | .joinWorker j => i ≤ j
  | .fini | .finished => True
  | _ => False

/-- The invariant of the threads' control state. -/
structure Control (s : Pool) : Prop where
  nthreads_pos : 0 < s.nthreads
  beyond : ∀ i, s.nthreads ≤ i → s.worker i = .lock
  mutex_planner : s.mutex = some .planner ↔ s.planner = .run ∨ s.planner = .wait
  mutex_worker : ∀ i, s.mutex = some (.worker i) ↔ s.worker i = .wait
  barrier_head : s.plannerSm = .barrier ∨ s.plannerSm = .drainingUnord →
    ∃ b o, s.ordered = b :: o ∧ b.type = wtBar
  planner_asleep : s.planner = .wait ∨ s.planner = .blocked → s.unordered = [] ∧
    (s.plannerSm = .nothing ∧ s.ordered = [] ∨ s.plannerSm = .barrier ∧ 0 < s.inFlight)
  worker_asleep : ∀ i, s.worker i = .wait ∨ s.worker i = .blocked → s.inq i = []
  exited_sm : s.planner = .exited → s.plannerSm = .exited
  sm_exiting : s.plannerSm = .exited → s.exiting = true
  loop_exiting : s.loop ≠ .idle → s.exiting = true
  joined : s.loop.joinedPlanner → s.planner = .exited
  exited_wait : s.planner = .exited → ∀ i, s.worker i ≠ .wait
  signalled : ∀ i, s.loop.signalled i → s.worker i ≠ .wait ∧ s.worker i ≠ .blocked

namespace Control

variable {s t : Pool}

theorem init (env : Option Int) : Control (poolInit env) where
  nthreads_pos := (threadpoolSize_mem env).1
  beyond _ _ := rfl
  mutex_planner := by simp [poolInit]
  mutex_worker _ := by simp [poolInit]
  barrier_head h := by simp [poolInit] at h
  planner_asleep h := by simp [poolInit] at h
  worker_asleep _ _ := rfl
  exited_sm h := by simp [poolInit] at h
  sm_exiting h := by simp [poolInit] at h
  loop_exiting h := by simp [poolInit] at h
  joined h := by simp [poolInit, LoopPc.joinedPlanner] at h
  exited_wait h := by simp [poolInit] at h
  signalled _ h := by simp [poolInit, LoopPc.signalled] at h

theorem free_planner (hc : Control s) (hm : s.mutex = none) : s.planner ≠ .run ∧ s.planner ≠ .wait := by
  have := hc.mutex_planner
  simp_all

theorem free_worker (hc : Control s) (hm : s.mutex = none) (i : Nat) : s.worker i ≠ .wait := by
  have := hc.mutex_worker i
  simp_all

theorem free_worker_of_planner (hc : Control s) (hm : s.mutex = some .planner) (i : Nat) :
    s.worker i ≠ .wait := by
  have := hc.mutex_worker i
  simp_all

theorem exiting_of_exited (hc : Control s) (h : s.planner = .exited) : s.exiting = true :=
  hc.sm_exiting (hc.exited_sm h)

theorem of_eq (hc : Control s) (hn : t.nthreads = s.nthreads) (hw : t.worker = s.worker)
    (hm : t.mutex = s.mutex) (hp : t.planner = s.planner) (hsm : t.plannerSm = s.plannerSm)
    (ho : t.ordered = s.ordered) (hu : t.unordered = s.unordered) (hf : t.inFlight = s.inFlight)
    (hq : t.inq = s.inq) (he : t.exiting = s.exiting) (hl : t.loop = s.loop) : Control t := by
  obtain ⟨h1, h2, h3, h4, h5, h6, h7, h8, h9, h10, h11, h12, h13⟩ := hc
  rw [← hn, ← hw] at h2
  rw [← hm, ← hp] at h3
  rw [← hm, ← hw] at h4
  rw [← hsm, ← ho] at h5
  rw [← hp, ← hu, ← hsm, ← ho, ← hf] at h6
  rw [← hw, ← hq] at h7
  rw [← hp, ← hsm] at h8
  rw [← hsm, ← he] at h9
  rw [← hl, ← he] at h10
  rw [← hl, ← hp] at h11
  rw [← hp, ← hw] at h12
  rw [← hl, ← hw] at h13
  exact ⟨hn ▸ h1, h2, h3, h4, h5, h6, h7, h8, h9, h10, h11, h12, h13⟩

/-! ### The workers -/

/-- Worker `i` moves to `p`, its inbox becomes `l`, and it takes or releases the mutex as `p` needs;
    it sleeps only with an empty inbox and before `exiting` is set. -/
theorem worker_move (hc : Control s) {i : Nat} (hi : i < s.nthreads) {p : WorkerPc} {l : List PoolWork}
    (hw : t.worker = update s.worker i p) (hq : t.inq = update s.inq i l)
    (hn : t.nthreads = s.nthreads) (hp : t.planner = s.planner) (hsm : t.plannerSm = s.plannerSm)
    (ho : t.ordered = s.ordered) (hu : t.unordered = s.unordered) (hf : t.inFlight = s.inFlight)
    (he : t.exiting = s.exiting) (hl : t.loop = s.loop)
    (hfree : s.mutex = none ∨ s.mutex = some (.worker i))
    (hm : t.mutex = if p = .wait then some (.worker i) else none)
    (hsleep : p = .wait ∨ p = .blocked → l = [])
    (hwait : p = .wait → s.exiting = false)
    (hblocked : p = .blocked → s.worker i = .wait) : Control t := by
  have hpl : s.planner ≠ .run ∧ s.planner ≠ .wait := by
    have := hc.mutex_planner; rcases hfree with h | h <;> simp_all
  have hother : ∀ j, j ≠ i → s.worker j ≠ .wait := fun j hj h => by
    have := (hc.mutex_worker j).mpr h; rcases hfree with h' | h' <;> simp_all
  exact {
    nthreads_pos := hn ▸ hc.nthreads_pos
    beyond := fun j hj => by
      rw [hw, Function.update_noteq (by omega)]; exact hc.beyond j (by omega)
    mutex_planner := by rw [hm, hp]; split <;> simp [hpl]
    mutex_worker := fun j => by
      rw [hm, hw, Function.update_apply]
      by_cases hj : j = i
      · subst hj; split <;> simp_all
      · simp only [hj, ite_false]; split <;> simp_all [hother j hj, Ne.symm hj]
    barrier_head := by rw [hsm, ho]; exact hc.barrier_head
    planner_asleep := by rw [hp, hu, hsm, ho, hf]; exact hc.planner_asleep
    worker_asleep := fun j => by
      rw [hw, hq, Function.update_apply, Function.update_apply]
      split
      · exact hsleep
      · exact hc.worker_asleep j
    exited_sm := by rw [hp, hsm]; exact hc.exited_sm
    sm_exiting := by rw [hsm, he]; exact hc.sm_exiting
    loop_exiting := by rw [hl, he]; exact hc.loop_exiting
    joined := by rw [hl, hp]; exact hc.joined
    exited_wait := fun h j => by
      rw [hp] at h
      rw [hw, Function.update_apply]
      split
      · rintro rfl; simp [hc.exiting_of_exited h] at hwait
      · exact hc.exited_wait h j
    signalled := fun j hj => by
      rw [hl] at hj
      rw [hw, Function.update_apply]
      split
      · subst j
        have hx := hc.loop_exiting (by rintro h; simp [h, LoopPc.signalled] at hj)
        have := hc.signalled i hj
        constructor
        · rintro rfl; simp [hx] at hwait
        · rintro rfl; exact this.1 (hblocked rfl)
      · exact hc.signalled j hj }

theorem workerTest (hc : Control s) (hm : s.mutex = none) {i : Nat} (hi : i < s.nthreads) :
    Control (s.workerTest i) := by
  cases hq : s.inq i with
  | cons q rest =>
    rw [Pool.workerTest_pop hq]
    exact hc.worker_move hi rfl rfl rfl rfl rfl rfl rfl rfl rfl rfl (.inl hm) (by simp) (by simp) (by simp)
      (by simp)
  | nil =>
    cases he : s.exiting
    · rw [Pool.workerTest_wait hq he]
      exact hc.worker_move (l := []) hi rfl (by simp [← hq]) rfl rfl rfl rfl rfl rfl rfl rfl (.inl hm)
        (by simp) (fun _ => rfl) (fun _ => he) (by simp)
    · rw [Pool.workerTest_exit hq he]
      exact hc.worker_move (l := []) hi rfl (by simp [← hq]) rfl rfl rfl rfl rfl rfl rfl rfl (.inl hm)
        (by simp) (by simp) (by simp) (by simp)

theorem worker_free (hc : Control s) {i : Nat} (hi : i < s.nthreads) {p : WorkerPc}
    (hw : t.worker = update s.worker i p) (hold : s.worker i ≠ .wait) (hp : p ≠ .wait ∧ p ≠ .blocked)
    (hn : t.nthreads = s.nthreads) (hm : t.mutex = s.mutex) (hpl : t.planner = s.planner)
    (hsm : t.plannerSm = s.plannerSm) (ho : t.ordered = s.ordered) (hu : t.unordered = s.unordered)
    (hf : t.inFlight = s.inFlight) (hq : t.inq = s.inq) (he : t.exiting = s.exiting) (hl : t.loop = s.loop) :
    Control t where
  nthreads_pos := hn ▸ hc.nthreads_pos
  beyond j hj := by rw [hw, Function.update_noteq (by omega)]; exact hc.beyond j (by omega)
  mutex_planner := by rw [hm, hpl]; exact hc.mutex_planner
  mutex_worker j := by
    rw [hm, hw, Function.update_apply]
    split
    · subst j; simp [hp.1, (hc.mutex_worker i).not.mpr hold]
    · exact hc.mutex_worker j
  barrier_head := by rw [hsm, ho]; exact hc.barrier_head
  planner_asleep := by rw [hpl, hu, hsm, ho, hf]; exact hc.planner_asleep
  worker_asleep j := by
    rw [hw, hq, Function.update_apply]
    split
    · subst j; simp [hp.1, hp.2]
    · exact hc.worker_asleep j
  exited_sm := by rw [hpl, hsm]; exact hc.exited_sm
  sm_exiting := by rw [hsm, he]; exact hc.sm_exiting
  loop_exiting := by rw [hl, he]; exact hc.loop_exiting
  joined := by rw [hl, hpl]; exact hc.joined
  exited_wait h j := by
    rw [hpl] at h
    rw [hw, Function.update_apply]
    split
    · exact hp.1
    · exact hc.exited_wait h j
  signalled j hj := by
    rw [hl] at hj
    rw [hw, Function.update_apply]
    split
    · exact hp
    · exact hc.signalled j hj

theorem decrement (hc : Control s) (hm : s.mutex = none) (hpos : 0 < s.inFlight) (L : List Event) :
    Control { s with
      inFlight := s.inFlight - 1, log := L,
      planner := if s.inFlight = 1 ∧ s.planner = .blocked then .lock else s.planner } := by
  have hp := hc.free_planner hm
  have hplanner : ∀ x, (if s.inFlight = 1 ∧ s.planner = .blocked then PlannerPc.lock else s.planner) = x →
      x ≠ .lock → s.planner = x := fun x hx hne => by split at hx <;> simp_all
  exact {
    nthreads_pos := hc.nthreads_pos
    beyond := hc.beyond
    mutex_planner := by simp only [hm]; split <;> simp_all
    mutex_worker := hc.mutex_worker
    barrier_head := hc.barrier_head
    planner_asleep := fun h => by
      dsimp only at h ⊢
      rcases h with h | h
      · exact absurd (hplanner _ h (by simp)) hp.2
      · obtain ⟨hu, hsleep⟩ := hc.planner_asleep (.inr (hplanner _ h (by simp)))
        refine ⟨hu, ?_⟩
        split at h
        · simp at h
        · rcases hsleep with h' | h'
          · exact .inl h'
          · have : s.inFlight ≠ 1 := fun h1 => by simp_all
            exact .inr ⟨h'.1, by omega⟩
    worker_asleep := hc.worker_asleep
    exited_sm := fun h => hc.exited_sm (hplanner _ h (by simp))
    sm_exiting := hc.sm_exiting
    loop_exiting := hc.loop_exiting
    joined := fun h => by
      have := hc.joined h
      simp [this]
    exited_wait := fun h => hc.exited_wait (hplanner _ h (by simp))
    signalled := hc.signalled }

theorem workerStep (hc : Control s) {i : Nat} (hi : i < s.nthreads) (h : s.workerStep i = some (.ok t)) :
    Control t := by
  rcases Pool.workerStep_ok h with ⟨-, hm, rfl⟩ | ⟨hw, rfl⟩ | ⟨w, hw, rfl⟩ | ⟨w, hw, rfl⟩ | ⟨w, hw, hm, hr⟩
  · exact hc.workerTest hm hi
  · have hq := hc.worker_asleep i (.inl hw)
    exact hc.worker_move (l := s.inq i) hi rfl (by simp) rfl rfl rfl rfl rfl rfl rfl rfl
      (.inr ((hc.mutex_worker i).mpr hw)) (by simp) (fun _ => hq) (by simp) (fun _ => hw)
  · exact hc.worker_free hi rfl (by simp [hw]) (by simp) rfl rfl rfl rfl rfl rfl rfl rfl rfl rfl
  · exact hc.worker_free hi rfl (by simp [hw]) (by simp) rfl rfl rfl rfl rfl rfl rfl rfl rfl rfl
  · rcases Pool.release_ok hr with ⟨-, rfl⟩ | ⟨-, hpos, -, rfl⟩
    · exact hc.workerTest hm hi
    · exact (hc.decrement hm hpos _).workerTest hm hi

/-! ### The planner -/

/-- A step of the planner that keeps the mutex: it may change its state, queues and `in_flight`,
    append to inboxes of workers that do not sleep, and wake workers. -/
theorem running (hc : Control s) (hs : s.mutex = some .planner) (hrun : t.planner = .run)
    (hm : t.mutex = some .planner) (hn : t.nthreads = s.nthreads) (he : t.exiting = s.exiting)
    (hl : t.loop = s.loop) (hw : ∀ j, t.worker j = s.worker j ∨ (s.worker j = .blocked ∧ t.worker j = .lock))
    (hq : ∀ j, t.inq j ≠ s.inq j → t.worker j ≠ .blocked)
    (hbar : t.plannerSm = .barrier ∨ t.plannerSm = .drainingUnord → ∃ b o, t.ordered = b :: o ∧ b.type = wtBar)
    (hex : t.plannerSm = .exited → t.exiting = true) : Control t := by
  have hnw : ∀ j, t.worker j ≠ .wait := fun j h => by
    rcases hw j with h' | h' <;> simp_all [(hc.mutex_worker j).symm]
  have hsp : s.planner ≠ .exited := fun h => by simp_all [hc.mutex_planner]
  exact {
    nthreads_pos := hn ▸ hc.nthreads_pos
    beyond := fun j hj => by rcases hw j with h | h <;> simp_all [hc.beyond j (by omega)]
    mutex_planner := by simp [hm, hrun]
    mutex_worker := fun j => by simp [hm, hnw j]
    barrier_head := hbar
    planner_asleep := fun h => by simp [hrun] at h
    worker_asleep := fun j h => by
      have hb : t.worker j = .blocked := h.resolve_left (hnw j)
      have hjs : s.worker j = .blocked := by rcases hw j with h' | h' <;> simp_all
      by_contra hne
      exact hq j (fun heq => hne (heq ▸ hc.worker_asleep j (.inr hjs))) hb
    exited_sm := fun h => by simp [hrun] at h
    sm_exiting := hex
    loop_exiting := by rw [hl, he]; exact hc.loop_exiting
    joined := fun h => absurd (hc.joined (hl ▸ h)) hsp
    exited_wait := fun h => by simp [hrun] at h
    signalled := fun j hj => by
      rw [hl] at hj
      have := hc.signalled j hj
      rcases hw j with h | h <;> simp_all }

/-- The planner, holding the mutex, moves to `p` and leaves the mutex to `m`: it sleeps only with
    nothing to move, and returns only in `PS_EXITED`. -/
theorem planner_move (hc : Control s) (hs : s.mutex = some .planner) {p : PlannerPc} {m : Option Owner}
    (hm : m = some .planner ↔ p = .run ∨ p = .wait) (hm' : m = some .planner ∨ m = none)
    (hasleep : p = .wait ∨ p = .blocked → s.unordered = [] ∧
      (s.plannerSm = .nothing ∧ s.ordered = [] ∨ s.plannerSm = .barrier ∧ 0 < s.inFlight))
    (hex : p = .exited → s.plannerSm = .exited) : Control { s with planner := p, mutex := m } where
  nthreads_pos := hc.nthreads_pos
  beyond := hc.beyond
  mutex_planner := hm
  mutex_worker j := by rcases hm' with rfl | rfl <;> simp [hc.free_worker_of_planner hs j]
  barrier_head := hc.barrier_head
  planner_asleep := hasleep
  worker_asleep := hc.worker_asleep
  exited_sm := hex
  sm_exiting := hc.sm_exiting
  loop_exiting := hc.loop_exiting
  joined h := absurd (hc.mutex_planner.mp hs) (by simp [hc.joined h])
  exited_wait _ := hc.free_worker_of_planner hs
  signalled := hc.signalled

theorem deliver_worker (q : PoolWork) (j : Nat) :
    (if s.worker q.threadId = .blocked then update s.worker q.threadId .lock else s.worker) j = s.worker j ∨
      (s.worker j = .blocked ∧
        (if s.worker q.threadId = .blocked then update s.worker q.threadId .lock else s.worker) j = .lock) := by
  split
  · rw [Function.update_apply]; split <;> simp_all
  · exact .inl rfl

theorem deliver_inq (hc : Control s) (hs : s.mutex = some .planner) (q : PoolWork) (j : Nat) :
    update s.inq q.threadId (s.inq q.threadId ++ [q]) j ≠ s.inq j →
      (if s.worker q.threadId = .blocked then update s.worker q.threadId .lock else s.worker) j ≠ .blocked := by
  intro hne
  have hj : j = q.threadId := by by_contra h; simp [Function.update_noteq h] at hne
  subst hj
  have := (hc.mutex_worker q.threadId).not.mp (by simp [hs])
  split <;> simp_all

theorem plannerStep (hc : Control s) (h : s.plannerStep = some (.ok t)) : Control t := by
  rcases Pool.planner_steps_ok h with ⟨hp, hm, rfl⟩ | ⟨hp, hr⟩ | ⟨hp, rfl⟩
  · exact {
      nthreads_pos := hc.nthreads_pos
      beyond := hc.beyond
      mutex_planner := by simp
      mutex_worker := fun j => by simp [hc.free_worker hm j]
      barrier_head := hc.barrier_head
      planner_asleep := fun h => by simp at h
      worker_asleep := hc.worker_asleep
      exited_sm := fun h => by simp at h
      sm_exiting := hc.sm_exiting
      loop_exiting := hc.loop_exiting
      joined := fun h => by simp [hc.joined h] at hp
      exited_wait := fun h => by simp at h
      signalled := hc.signalled }
  · have hs : s.mutex = some .planner := hc.mutex_planner.mpr (.inl hp)
    have run := fun (t : Pool) => @running s t hc hs
    cases Pool.plannerRun_ok hr with
    | idle hsm ho hu => exact hc.planner_move hs (by simp [hs]) (.inl hs) (fun _ => ⟨hu, .inl ⟨hsm, ho⟩⟩) (by simp)
    | wake | drained | free =>
      exact run _ hp hs rfl rfl rfl (fun _ => .inl rfl) (fun _ h => absurd rfl h) (by simp) (by simp)
    | exit _ he => exact run _ hp hs rfl rfl rfl (fun _ => .inl rfl) (fun _ h => absurd rfl h) (by simp) (fun _ => he)
    | barrier _ hb => exact run _ hp hs rfl rfl rfl (fun _ => .inl rfl) (fun _ h => absurd rfl h) (fun _ => hb) (by simp)
    | drain hsm _ hd =>
      obtain ⟨q, o, u, qos, -, rfl⟩ := Pool.drainOne_ok hd
      exact run _ hp hs rfl rfl rfl (deliver_worker q) (hc.deliver_inq hs q) (by simp [hsm])
        (by simp [hsm])
    | unord hsm =>
      exact run _ hp hs rfl rfl rfl (fun _ => .inl rfl) (fun _ h => absurd rfl h)
        (fun _ => hc.barrier_head (.inl hsm)) (by simp)
    | block hsm hu hf =>
      exact hc.planner_move hs (by simp [hs]) (.inl hs) (fun _ => ⟨hu, .inr ⟨hsm, Nat.pos_of_ne_zero hf⟩⟩)
        (by simp)
    | @flush hsm q _ _ =>
      rw [Pool.deliver_eq]
      exact run _ hp hs rfl rfl rfl (deliver_worker q) (hc.deliver_inq hs q)
        (fun _ => hc.barrier_head (.inr hsm)) (by simp [hsm])
    | flushed hsm =>
      exact run _ hp hs rfl rfl rfl (fun _ => .inl rfl) (fun _ h => absurd rfl h)
        (fun _ => hc.barrier_head (.inr hsm)) (by simp)
    | exited hsm => exact hc.planner_move hs (by simp) (.inr rfl) (by simp) (fun _ => hsm)
  · exact hc.planner_move (hc.mutex_planner.mpr (.inr hp)) (by simp) (.inr rfl)
      (fun _ => hc.planner_asleep (.inl hp)) (by simp)

/-! ### The loop thread -/

/-- A thread other than the planner appends to `ordered` or `unordered`, or changes nothing the
    planner reads, and wakes the planner if it sleeps. -/
theorem enqueue (hc : Control s) (hs : s.planner ≠ .run ∧ s.planner ≠ .wait)
    (hpl : t.planner = if s.planner = .blocked then .lock else s.planner)
    (hn : t.nthreads = s.nthreads) (hw : t.worker = s.worker) (hm : t.mutex = s.mutex)
    (hsm : t.plannerSm = s.plannerSm) (hq : t.inq = s.inq) (he : t.exiting = s.exiting) (hl : t.loop = s.loop)
    (ho : ∃ lo, t.ordered = s.ordered ++ lo) : Control t := by
  have hx : t.planner = .exited ↔ s.planner = .exited := by rw [hpl]; split <;> simp_all
  have hasleep : t.planner ≠ .run ∧ t.planner ≠ .wait ∧ t.planner ≠ .blocked := by
    rw [hpl]; split <;> simp_all
  exact {
    nthreads_pos := hn ▸ hc.nthreads_pos
    beyond := fun j hj => by rw [hw]; exact hc.beyond j (hn ▸ hj)
    mutex_planner := by rw [hm, hc.mutex_planner]; simp [hs, hasleep]
    mutex_worker := fun j => by rw [hm, hw]; exact hc.mutex_worker j
    barrier_head := fun h => by
      obtain ⟨b, o, hbo, hb⟩ := hc.barrier_head (hsm ▸ h)
      obtain ⟨lo, hlo⟩ := ho
      exact ⟨b, o ++ lo, by simp [hlo, hbo], hb⟩
    planner_asleep := fun h => by simp [hasleep] at h
    worker_asleep := fun j => by rw [hw, hq]; exact hc.worker_asleep j
    exited_sm := fun h => hsm ▸ hc.exited_sm (hx.mp h)
    sm_exiting := fun h => he ▸ hc.sm_exiting (hsm ▸ h)
    loop_exiting := fun h => he ▸ hc.loop_exiting (hl ▸ h)
    joined := fun h => hx.mpr (hc.joined (hl ▸ h))
    exited_wait := fun h j => hw ▸ hc.exited_wait (hx.mp h) j
    signalled := fun j h => hw ▸ hc.signalled j (hl ▸ h) }

theorem signalPlanner (hc : Control s) : Control s.signalPlanner := by
  unfold Pool.signalPlanner
  split
  · exact hc.enqueue (by simp [*]) (by simp [*]) rfl rfl rfl rfl rfl rfl rfl ⟨[], by simp⟩
  · exact hc

theorem signalWorker (hc : Control s) (i : Nat) : Control (s.signalWorker i) := by
  unfold Pool.signalWorker
  split
  · have hi : i < s.nthreads := by
      by_contra h; simp_all [hc.beyond i (Nat.le_of_not_lt h)]
    exact hc.worker_free hi rfl (by simp [*]) (by simp) rfl rfl rfl rfl rfl rfl rfl rfl rfl rfl
  · exact hc

/-- The loop thread moves to `l`, and `pool_cleanup` may store `exiting`: it joins the planner after it
    returned, and signals worker `i` after it can no longer sleep. -/
theorem loop_move (hc : Control s) {x : Bool} {l : LoopPc} (he : s.exiting = true → x = true)
    (hx : l ≠ .idle → x = true) (hj : l.joinedPlanner → s.planner = .exited)
    (hsig : ∀ i, l.signalled i → s.worker i ≠ .wait ∧ s.worker i ≠ .blocked) :
    Control { s with exiting := x, loop := l } where
  nthreads_pos := hc.nthreads_pos
  beyond := hc.beyond
  mutex_planner := hc.mutex_planner
  mutex_worker := hc.mutex_worker
  barrier_head := hc.barrier_head
  planner_asleep := hc.planner_asleep
  worker_asleep := hc.worker_asleep
  exited_sm := hc.exited_sm
  sm_exiting h := he (hc.sm_exiting h)
  loop_exiting := hx
  joined := hj
  exited_wait := hc.exited_wait
  signalled := hsig

theorem cleanupStep (hc : Control s) (h : s.cleanupStep = some (.ok t)) : Control t := by
  have hx := hc.loop_exiting
  rcases Pool.cleanupStep_ok h with ⟨hl, rfl⟩ | ⟨hl, hp, -, -, rfl⟩ | ⟨i, hl, rfl⟩ | ⟨i, hl, hw, -, rfl⟩ |
    ⟨hl, -, -, rfl⟩
  · exact hc.signalPlanner.loop_move id (fun _ => by simp [Pool.signalPlanner_eq, hx, hl])
      (by simp [LoopPc.joinedPlanner]) (by simp [LoopPc.signalled])
  · have hn := hc.nthreads_pos
    exact hc.loop_move id (fun _ => hx (by simp [hl])) (fun _ => hp)
      (fun i hi => by simp [Pool.nextWorker, hn, LoopPc.signalled] at hi)
  · have hc' := hc.signalWorker i
    have hp := hc'.joined (by simp [Pool.signalWorker_eq, hl, LoopPc.joinedPlanner])
    refine hc'.loop_move id (fun _ => by simp [Pool.signalWorker_eq, hx, hl]) (fun _ => hp) ?_
    intro j hj
    rcases Nat.lt_or_eq_of_le (show j ≤ i from hj) with hj | rfl
    · exact hc'.signalled j (by simpa [Pool.signalWorker_eq, hl, LoopPc.signalled] using hj)
    · exact ⟨hc'.exited_wait hp j, Pool.signalWorker_not_blocked s j⟩
  · have hp := hc.joined (by simp [hl, LoopPc.joinedPlanner])
    refine hc.loop_move id (fun _ => hx (by simp [hl])) (fun _ => hp) ?_
    intro j hj
    by_cases hjn : j < s.nthreads
    · refine hc.signalled j ?_
      rw [hl]
      unfold Pool.nextWorker at hj
      split at hj <;> simp [LoopPc.signalled] at hj ⊢ <;> omega
    · simp [hc.beyond j (Nat.le_of_not_lt hjn)]
  · exact hc.loop_move id (fun _ => hx (by simp [hl])) (fun _ => hc.joined (by simp [hl, LoopPc.joinedPlanner]))
      (fun j _ => hc.signalled j (by simp [hl, LoopPc.signalled]))

/-! ### Runs -/

theorem step (hc : Control s) {a : Action} (h : s.step a = some (.ok t)) : Control t := by
  cases a with
  | planner => exact hc.plannerStep h
  | worker i =>
    obtain ⟨hi, h⟩ := Pool.step_worker_ok h
    exact hc.workerStep hi h
  | queueWork type cookie =>
    obtain ⟨-, hm, h⟩ := Pool.step_queueWork_ok h
    obtain ⟨-, rfl⟩ := Pool.poolQueueWork_ok h
    exact hc.enqueue (hc.free_planner hm) rfl rfl rfl rfl rfl rfl rfl rfl
      ⟨if type = wtUnord then [] else [⟨s.serial, type, cookie % s.nthreads⟩], by
        by_cases ht : type = wtUnord <;> simp [ht]⟩
  | workDone =>
    obtain ⟨-, -, rfl⟩ := Pool.step_workDone_ok h
    exact hc.of_eq rfl rfl rfl rfl rfl rfl rfl rfl rfl rfl rfl
  | queueDone =>
    obtain ⟨-, w, q, -, -, rfl⟩ := Pool.step_queueDone_ok h
    exact hc.of_eq rfl rfl rfl rfl rfl rfl rfl rfl rfl rfl rfl
  | poolFini =>
    obtain ⟨hl, rfl⟩ := Pool.step_poolFini_ok h
    rw [Pool.poolFini_eq hc.nthreads_pos]
    exact hc.loop_move (fun _ => rfl) (fun _ => rfl) (by simp [LoopPc.joinedPlanner])
      (by simp [LoopPc.signalled])
  | cleanup => exact hc.cleanupStep h
  | wakePlanner =>
    obtain ⟨hb, rfl⟩ := Pool.step_wakePlanner_ok h
    simpa [Pool.signalPlanner, hb] using hc.signalPlanner
  | wakeWorker i =>
    obtain ⟨hi, hb, rfl⟩ := Pool.step_wakeWorker_ok h
    exact hc.worker_free hi rfl (by simp [hb]) (by simp) rfl rfl rfl rfl rfl rfl rfl rfl rfl rfl

end Control

/-- `Control` holds in every reachable pool. -/
theorem Reachable.control {s : Pool} (h : Reachable s) : Control s := by
  induction h with
  | init env => exact Control.init env
  | step a _ ht ih => exact ih.step ht

/-- No thread sleeps while an item it should move waits: the planner sleeps with `unordered` empty,
    in `PS_NOTHING` with `ordered` empty or in `PS_BARRIER` behind a barrier with items in flight; a
    worker sleeps with an empty inbox. -/
theorem sleepers_have_nothing_to_move {s : Pool} (hs : Reachable s) :
    (s.planner = .blocked → s.unordered = [] ∧
      (s.plannerSm = .nothing ∧ s.ordered = [] ∨
        s.plannerSm = .barrier ∧ (∃ b o, s.ordered = b :: o ∧ b.type = wtBar) ∧ 0 < s.inFlight)) ∧
    (∀ i, s.worker i = .blocked → s.inq i = []) := by
  have hc := hs.control
  refine ⟨fun hb => ?_, fun i hi => hc.worker_asleep i (.inr hi)⟩
  obtain ⟨hu, h | h⟩ := hc.planner_asleep (.inr hb)
  · exact ⟨hu, .inl h⟩
  · exact ⟨hu, .inr ⟨h.1, hc.barrier_head (.inl h.1), h.2⟩⟩

/-- Two items of one class around a barrier: the planner dispatches the first and sleeps in
    `PS_BARRIER`, worker `1` sleeps on its empty inbox, and worker `0` runs the first item, takes
    `in_flight` to `0` and wakes the planner, which retakes the mutex. -/
def barrierWaitRun : List Action :=
  [.queueWork wtOrd1 0, .queueWork wtBar 0, .queueWork wtOrd1 0, .planner, .planner, .planner, .planner,
   .planner, .planner, .worker 1, .worker 1, .worker 0, .worker 0, .worker 0, .worker 0, .worker 0, .planner]

/-- The planner asleep in `PS_BARRIER` with the first item in flight, and worker `1` asleep. -/
theorem sleepers_have_nothing_to_move_at_barrier :
    ∃ s : Pool, Reachable s ∧ s.planner = .blocked ∧ s.plannerSm = .barrier ∧ s.worker 1 = .blocked ∧
      (s.planner = .blocked → s.unordered = [] ∧
        (s.plannerSm = .nothing ∧ s.ordered = [] ∨
          s.plannerSm = .barrier ∧ (∃ b o, s.ordered = b :: o ∧ b.type = wtBar) ∧ 0 < s.inFlight)) ∧
      (∀ i, s.worker i = .blocked → s.inq i = []) := by
  obtain ⟨s, hr, hp, hsm, hw⟩ : ∃ s : Pool, Reachable s ∧ s.planner = .blocked ∧ s.plannerSm = .barrier ∧
      s.worker 1 = .blocked :=
    ⟨_, (Reachable.init none).steps (Pool.run_steps (l := barrierWaitRun.take 11) rfl), rfl, rfl, rfl⟩
  exact ⟨s, hr, hp, hsm, hw, sleepers_have_nothing_to_move hr⟩

end Dqlite
