import Dqlite.Theorems.Control

/-! # The planner's assertions

Which steps of the planner abort. Every `sm_move` of `planner` is allowed by `planner_states`
and keeps `planner_invariant`, every `pop` and `qos_pop` finds an item, and the barrier `PRE` of
`PS_BARRIER` holds, with one exception: the move `PS_NOTHING -> PS_EXITED` once `exiting` is set
while an item is still queued. -/

namespace Dqlite

/-- The table of `planner_states`: the moves `sm_move` allows. -/
theorem allowed_iff (cur next : PlannerState) :
    allowed cur next = true ↔
      cur = .nothing ∧ (next = .draining ∨ next = .exited) ∨
      cur = .draining ∧ (next = .draining ∨ next = .nothing ∨ next = .barrier) ∨
      cur = .barrier ∧ (next = .drainingUnord ∨ next = .draining ∨ next = .barrier) ∨
      cur = .drainingUnord ∧ next = .barrier := by
  cases cur <;> cases next <;> decide

namespace Pool

variable {s t : Pool} {f : Fault}

theorem smMove_of {next : PlannerState} (ha : allowed s.plannerSm next = true)
    (hi : ({ s with plannerSm := next } : Pool).plannerInvariant s.plannerSm = true) :
    s.smMove next = .ok { s with plannerSm := next } := by
  simp [smMove, ha, hi]

/-- An iteration of the planner aborts only in `PS_NOTHING`, with `exiting` set and an item queued,
    if a barrier heads `ordered` in `PS_BARRIER` and `PS_DRAINING_UNORD`. -/
theorem plannerRun_error
    (hbar : s.plannerSm = .barrier ∨ s.plannerSm = .drainingUnord → ∃ b o, s.ordered = b :: o ∧ b.type = wtBar)
    (h : s.plannerRun = .error f) :
    s.plannerSm = .nothing ∧ s.exiting = true ∧ (s.ordered ≠ [] ∨ s.unordered ≠ []) ∧ f = .invariant := by
  unfold plannerRun at h
  split at h
  · rename_i hsm
    split at h
    · cases h
    · rename_i hq
      cases he : s.exiting
      · have : s.ordered ≠ [] ∨ s.unordered ≠ [] := by by_cases ho : s.ordered = [] <;> simp_all
        rw [smMove_of (by simp [hsm, allowed_iff]) (by simp_all [plannerInvariant, or_comm])] at h
        cases h
      · simp only [he, ite_true, smMove, hsm, show allowed .nothing .exited = true by decide] at h
        simp only [plannerInvariant] at h
        split at h
        · cases h
        · cases h; exact ⟨hsm, rfl, by by_cases ho : s.ordered = [] <;> simp_all, rfl⟩
  · rename_i hsm
    split at h
    · rw [smMove_self_draining hsm] at h
      simp only [bind, Except.bind] at h
      split at h
      · rename_i o w rest ho
        split at h
        · rw [smMove_of (by simp [hsm, allowed_iff]) (by simp_all [plannerInvariant])] at h; cases h
        · exact absurd (drainOne_error h).1 (by simp [ho])
      · have := drainOne_error h; simp_all
    · rw [smMove_of (by simp [hsm, allowed_iff]) (by simp_all [plannerInvariant])] at h; cases h
  · rename_i hsm
    obtain ⟨b, o, ho, hb⟩ := hbar (.inl hsm)
    split at h
    · rw [smMove_of (by simp [hsm, allowed_iff]) (by simp_all [plannerInvariant])] at h; cases h
    · split at h
      · simp only [ho, pop_cons, hb, bind, Except.bind, ne_eq, not_true_eq_false, ite_false] at h
        rw [smMove_of (by simp [hsm, allowed_iff]) (by simp_all [plannerInvariant])] at h; cases h
      · cases h
  · rename_i hsm
    split at h
    · cases h
    · rw [smMove_of (by simp [hsm, allowed_iff]) (by simp_all [plannerInvariant])] at h; cases h
  · cases h

/-- A step of the planner aborts only at an iteration in `PS_NOTHING`, with `exiting` set and an
    item queued; the wake-up in `PS_BARRIER` re-enters `PS_BARRIER`, which is always allowed. -/
theorem plannerStep_error (hc : Control s) (h : s.plannerStep = some (.error f)) :
    s.planner = .run ∧ s.plannerSm = .nothing ∧ s.exiting = true ∧ (s.ordered ≠ [] ∨ s.unordered ≠ []) ∧
      f = .invariant := by
  unfold plannerStep at h
  split at h
  · split at h
    · rw [Option.some.injEq, plannerLock_eq] at h; cases h
    · cases h
  · exact ⟨‹_›, plannerRun_error hc.barrier_head (Option.some.inj h)⟩
  all_goals cases h

end Pool

/-- Before `pool_cleanup` stores `exiting`, no step of the planner aborts: its moves are allowed and
    keep `planner_invariant`, its `pop` and `qos_pop` find items, and the head it frees in
    `PS_BARRIER` is a barrier; in `PS_BARRIER` and `PS_DRAINING_UNORD` a barrier heads `ordered`. -/
theorem planner_never_aborts {s : Pool} (hs : Reachable s) (he : s.exiting = false) :
    (∀ f, s.step .planner ≠ some (.error f)) ∧
    (s.plannerSm = .barrier ∨ s.plannerSm = .drainingUnord → ∃ b o, s.ordered = b :: o ∧ b.type = wtBar) :=
  ⟨fun _ h => by simp [(Pool.plannerStep_error hs.control h).2.2.1] at he, hs.control.barrier_head⟩

/-- Worker `0` has taken `in_flight` to `0` and the planner is back in `PS_BARRIER` with the barrier
    at the head of `ordered`: its next iteration pops and frees it. -/
theorem planner_never_aborts_at_barrier :
    ∃ s : Pool, Reachable s ∧ s.exiting = false ∧ s.planner = .run ∧ s.plannerSm = .barrier ∧ s.inFlight = 0 ∧
      (∀ f, s.step .planner ≠ some (.error f)) ∧
      (s.plannerSm = .barrier ∨ s.plannerSm = .drainingUnord → ∃ b o, s.ordered = b :: o ∧ b.type = wtBar) := by
  obtain ⟨s, hr, he, hp, hsm, hf⟩ : ∃ s : Pool, Reachable s ∧ s.exiting = false ∧ s.planner = .run ∧
      s.plannerSm = .barrier ∧ s.inFlight = 0 :=
    ⟨_, (Reachable.init none).steps (Pool.run_steps (l := barrierWaitRun) rfl), rfl, rfl, rfl, rfl⟩
  exact ⟨s, hr, he, hp, hsm, hf, planner_never_aborts hr he⟩

/-! ### The planner's loop run alone -/

namespace Pool

variable {s t : Pool}

/-- The planner's `for (;;)` run while it holds the mutex and no other thread interleaves: iterations
    until it reaches `uv_cond_wait`, returns, or aborts; `none` when `fuel` iterations do not suffice. -/
def plannerLoop : Nat → Pool → Option (Except Fault Pool)
  | 0, _ => none
  | fuel + 1, s =>
    match s.plannerRun with
    | .ok t => if t.planner = .run then plannerLoop fuel t else some (.ok t)
    | .error f => some (.error f)

/-- The weight of the planner's state in the measure of its loop: each iteration that stays in the
    loop either removes an item from `ordered` or `unordered` or moves to a state of lower weight. -/
def smWeight (s : Pool) : Nat :=
  match s.plannerSm with
  | .nothing => if s.ordered.isEmpty && s.unordered.isEmpty then 2 else 4
  | .draining => 3
  | .barrier => if s.unordered.isEmpty then 1 else 2
  | .drainingUnord => if s.unordered.isEmpty then 2 else 1
  | .exited => 1

def plannerRank (s : Pool) : Nat := 3 * (s.ordered.length + s.unordered.length) + s.smWeight

theorem smWeight_le (s : Pool) : s.smWeight ≤ 4 := by
  unfold smWeight; split <;> (try split) <;> omega

theorem drainOne_length (h : s.drainOne = .ok t) :
    t.ordered.length + t.unordered.length + 1 = s.ordered.length + s.unordered.length ∧
      t.plannerSm = s.plannerSm ∧ t.planner = s.planner := by
  obtain ⟨q, o, u, qos, hq, rfl⟩ := drainOne_ok h
  rcases qosPop_eq hq with ⟨ho, rfl, -⟩ | ⟨hu, rfl, -⟩
  · simp [ho]; omega
  · simp [hu]; omega

/-- An iteration of the loop reaches `uv_cond_wait`, returns, or stays in the loop with a lower
    measure. -/
theorem plannerRun_progress (h : s.plannerRun = .ok t) :
    t.planner = .wait ∨ t.planner = .exited ∨ (t.planner = s.planner ∧ t.plannerRank < s.plannerRank) := by
  cases plannerRun_ok h with
  | idle | block => exact .inl rfl
  | wake hsm _ hq =>
    refine .inr (.inr ⟨rfl, ?_⟩)
    have : (s.ordered.isEmpty && s.unordered.isEmpty) = false := by rcases hq with h | h <;> simp [h]
    simp only [plannerRank, smWeight, hsm, this, Bool.false_eq_true, ite_false]
    omega
  | exit hsm _ ho hu | drained hsm ho hu => simp [plannerRank, smWeight, hsm, ho, hu]
  | barrier hsm =>
    simp only [plannerRank, smWeight, hsm, true_and, or_true]
    split <;> omega
  | drain hsm _ hd =>
    obtain ⟨hl, hsm', hp⟩ := drainOne_length hd
    simp only [plannerRank, smWeight, hsm, hsm', hp, true_and, or_true]
    omega
  | unord hsm hu | flushed hsm hu => simp [plannerRank, smWeight, hsm, hu]
  | free hsm hu _ ho =>
    simp [plannerRank, smWeight, hsm, hu, ho]
    omega
  | flush hsm hu =>
    simp only [deliver_eq, plannerRank, smWeight, hsm, hu, true_and, or_true, List.length_cons]
    split <;> omega
  | exited => exact .inr (.inl rfl)

theorem PlannerIter.exiting (h : PlannerIter s t) : t.exiting = s.exiting := by
  cases h with
  | drain _ _ hd => obtain ⟨q, o, u, qos, -, rfl⟩ := drainOne_ok hd; rfl
  | flush => rw [deliver_eq]
  | _ => rfl

end Pool

/-- From a reachable pool with `exiting` unset, the loop run alone reaches `uv_cond_wait` once the
    fuel exceeds its measure: no iteration aborts, and none returns. -/
theorem Reachable.plannerLoop_wait : ∀ (n : Nat) {s : Pool}, Reachable s → s.exiting = false →
    s.planner = .run → s.plannerRank < n → ∃ t, s.plannerLoop n = some (.ok t) ∧ t.planner = .wait
  | 0, _, _, _, _, h => absurd h (Nat.not_lt_zero _)
  | n + 1, s, hs, he, hp, hn => by
    obtain ⟨t, ht⟩ : ∃ t, s.plannerRun = .ok t := by
      cases hr : s.plannerRun with
      | ok t => exact ⟨t, rfl⟩
      | error f =>
        have := (Pool.plannerStep_error (f := f) hs.control (by simp [Pool.plannerStep, hp, hr])).2.2.1
        simp [he] at this
    have ht' : Reachable t := .step .planner hs (by simp [Pool.step, Pool.plannerStep, hp, ht])
    have he' : t.exiting = false := (Pool.plannerRun_ok ht).exiting.trans he
    simp only [Pool.plannerLoop, ht]
    rcases Pool.plannerRun_progress ht with hw | hx | ⟨hp', hr⟩
    · exact ⟨t, by simp [hw], hw⟩
    · simp [ht'.control.exiting_of_exited hx] at he'
    · rw [if_pos (hp'.trans hp)]
      exact Reachable.plannerLoop_wait n ht' he' (hp'.trans hp) (by omega)

/-- Before `pool_cleanup` stores `exiting`, the planner's loop run alone reaches `uv_cond_wait` within
    `3 * (|o| + |u|) + 5` iterations: it neither spins nor aborts. -/
theorem plannerLoop_waits {s : Pool} (hs : Reachable s) (he : s.exiting = false) (hp : s.planner = .run) :
    ∃ t, s.plannerLoop (3 * (s.ordered.length + s.unordered.length) + 5) = some (.ok t) ∧ t.planner = .wait :=
  hs.plannerLoop_wait _ he hp (by have := s.smWeight_le; unfold Pool.plannerRank; omega)

/-- A barrier ahead of an ordered item with an unordered item queued: the loop goes round both
    cycles, `PS_BARRIER -> PS_DRAINING_UNORD -> PS_BARRIER` and then `PS_BARRIER -> PS_DRAINING`. -/
theorem plannerLoop_waits_both_cycles :
    ∃ s : Pool, Reachable s ∧ s.exiting = false ∧ s.planner = .run ∧
      s.ordered.map PoolWork.type = [wtBar, wtOrd1] ∧ s.unordered.map PoolWork.type = [wtUnord] ∧
      ∃ t, s.plannerLoop (3 * (s.ordered.length + s.unordered.length) + 5) = some (.ok t) ∧
        t.planner = .wait := by
  obtain ⟨s, hr, he, hp, ho, hu⟩ : ∃ s : Pool, Reachable s ∧ s.exiting = false ∧ s.planner = .run ∧
      s.ordered.map PoolWork.type = [wtBar, wtOrd1] ∧ s.unordered.map PoolWork.type = [wtUnord] :=
    ⟨_, (Reachable.init none).steps (Pool.run_steps
      (l := [.queueWork wtBar 0, .queueWork wtUnord 1, .queueWork wtOrd1 2, .planner]) rfl), rfl, rfl, rfl, rfl⟩
  exact ⟨s, hr, he, hp, ho, hu, plannerLoop_waits hr he hp⟩

/-- With `exiting` set and a barrier still in `ordered`, the loop's first iteration in `PS_NOTHING`
    aborts in `sm_move(PS_EXITED)`: it reaches neither `uv_cond_wait` nor the return. -/
theorem plannerLoop_aborts_with_queued_barrier :
    ({ poolInit none with
        planner := .run, mutex := some .planner, exiting := true, ordered := [⟨0, wtBar, 0⟩] } : Pool).plannerLoop 8 =
      some (.error .invariant) := rfl

end Dqlite
