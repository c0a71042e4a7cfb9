import Mathlib.Data.List.Nodup
import Dqlite.Theorems.Places

/-! # The counters

`in_flight` counts the ordered items the planner pushed into an inbox whose worker has not yet
decremented it, and `active_ws` the items other than barriers submitted and not yet through
`queue_done`. Hence `worker`'s `assert(pi->in_flight > 0)` and `w_unregister`'s
`PRE(has_active_ws(pool))` hold, and each item's callbacks run at most once. -/

namespace Dqlite

/-- The item a `submit` event is about. -/
def Event.submitted? : Event → Option PoolWork
  | .submit w => some w
  | _ => none

/-- The item a `dispatch` event is about. -/
def Event.dispatched? : Event → Option PoolWork
  | .dispatch w => some w
  | _ => none

theorem count_filterMap_submitted (l : List Event) (w : PoolWork) :
    (l.filterMap Event.submitted?).count w = l.count (.submit w) := by
  induction l with
  | nil => rfl
  | cons e l ih => cases e <;> simp [Event.submitted?, ih, List.count_cons]

theorem count_filterMap_dispatched (l : List Event) (w : PoolWork) :
    (l.filterMap Event.dispatched?).count w = l.count (.dispatch w) := by
  induction l with
  | nil => rfl
  | cons e l ih => cases e <;> simp [Event.dispatched?, ih, List.count_cons]

theorem countP_eq_countP_ne_add {α : Type} [DecidableEq α] (l : List α) (p : α → Bool) (w : α) :
    l.countP p = l.countP (fun v => p v && v != w) + if p w then l.count w else 0 := by
  induction l with
  | nil => simp
  | cons a l ih =>
    by_cases ha : a = w
    · subst ha; split <;> simp_all [List.countP_cons, List.count_cons]; omega
    · simp only [List.countP_cons, List.count_cons, ih, bne_iff_ne, ne_eq, ha, not_false_eq_true,
        Bool.and_true, beq_iff_eq]
      split <;> simp_all; omega

namespace Items

/-- The items submitted so far, in order. -/
def submitted (x : Items) : List PoolWork := x.log.filterMap Event.submitted?

/-- The items the planner pushed into an inbox so far, in order. -/
def dispatched (x : Items) : List PoolWork := x.log.filterMap Event.dispatched?

/-- `in_flight` and `active_ws` count what they should. -/
structure Counters (x : Items) : Prop where
  inFlight : x.inFlight = x.dispatched.countP fun w => wtOrd1 ≤ w.type ∧ .decrement w ∉ x.log
  activeWs : x.activeWs = x.submitted.countP fun w => w.type ≠ wtBar ∧ .done w ∉ x.log

variable {x y : Items} {w : PoolWork}

namespace Item

theorem count_path (h : Item x w) {e : Event} (he : e ∈ path w) :
    x.log.count e = ((path w).take (x.stage w)).count e := by
  have ht : x.trail w = (path w).take (x.stage w) := by
    rw [stage_eq_length]; exact List.prefix_iff_eq_take.mp h.trail
  rw [← List.count_filter (p := (· ∈ path w)) (by simpa using he), ← Items.trail, ht]

theorem count_submit (h : Item x w) : x.log.count (.submit w) = if 1 ≤ x.stage w then 1 else 0 := by
  rw [h.count_path (by simp)]
  have hk := h.stage_le
  unfold path at hk ⊢
  generalize x.stage w = k at hk ⊢
  split <;> rcases k with _ | _ | _ | _ | _ | _ | _ | k <;> simp at hk ⊢

theorem count_dispatch (h : Item x w) (hnb : w.type ≠ wtBar) :
    x.log.count (.dispatch w) = if 2 ≤ x.stage w then 1 else 0 := by
  rw [h.count_path (by simp [hnb])]
  have hk := h.stage_le
  rw [path_nonBar hnb] at hk ⊢
  generalize x.stage w = k at hk ⊢
  rcases k with _ | _ | _ | _ | _ | _ | _ | k <;> simp at hk ⊢

theorem count_done (h : Item x w) (hnb : w.type ≠ wtBar) :
    x.log.count (.done w) = if 6 ≤ x.stage w then 1 else 0 := by
  rw [h.count_path (by simp [hnb])]
  have hk := h.stage_le
  rw [path_nonBar hnb] at hk ⊢
  generalize x.stage w = k at hk ⊢
  rcases k with _ | _ | _ | _ | _ | _ | _ | k <;> simp at hk ⊢

end Item

namespace Counters

theorem init (n : Nat) : Counters (init n) := ⟨rfl, rfl⟩

theorem submitted_append {E : List Event} (hl : y.log = x.log ++ E) :
    y.submitted = x.submitted ++ E.filterMap Event.submitted? := by
  simp [submitted, hl]

theorem dispatched_append {E : List Event} (hl : y.log = x.log ++ E) :
    y.dispatched = x.dispatched ++ E.filterMap Event.dispatched? := by
  simp [dispatched, hl]

theorem of_log (hc : Counters x) {E : List Event} (hl : y.log = x.log ++ E)
    (hE : ∀ e ∈ E, e.submitted? = none ∧ e.dispatched? = none ∧ ∀ v, e ≠ .decrement v ∧ e ≠ .done v)
    (hf : y.inFlight = x.inFlight) (ha : y.activeWs = x.activeWs) : Counters y := by
  have hs : E.filterMap Event.submitted? = [] := List.filterMap_eq_nil_iff.mpr fun e he => (hE e he).1
  have hd : E.filterMap Event.dispatched? = [] := List.filterMap_eq_nil_iff.mpr fun e he => (hE e he).2.1
  refine ⟨?_, ?_⟩
  · rw [hf, hc.inFlight, dispatched_append hl, hd, List.append_nil]
    refine List.countP_congr fun v _ => ?_
    simp only [hl, List.mem_append, decide_eq_true_eq, not_or]
    exact ⟨fun h => ⟨h.1, h.2, fun h' => ((hE _ h').2.2 v).1 rfl⟩, fun h => ⟨h.1, h.2.1⟩⟩
  · rw [ha, hc.activeWs, submitted_append hl, hs, List.append_nil]
    refine List.countP_congr fun v _ => ?_
    simp only [hl, List.mem_append, decide_eq_true_eq, not_or]
    exact ⟨fun h => ⟨h.1, h.2, fun h' => ((hE _ h').2.2 v).2 rfl⟩, fun h => ⟨h.1, h.2.1⟩⟩

theorem submit (hp : Places x) (hc : Counters x) (w₀ : PoolWork) (h0 : x.stage w₀ = 0) :
    Counters (x.submit w₀) := by
  have hl : (x.submit w₀).log = x.log ++ [.submit w₀] := rfl
  refine ⟨?_, ?_⟩
  · show x.inFlight = _
    rw [hc.inFlight, dispatched_append hl, hl]
    simp [Event.dispatched?]
  · show (if w₀.type ≠ wtBar then x.activeWs + 1 else x.activeWs) = _
    rw [hc.activeWs, submitted_append hl, hl]
    by_cases hb : w₀.type = wtBar
    · simp [Event.submitted?, hb]
    · have hdone : .done w₀ ∉ x.log := by
        have := (hp.item w₀).count_done hb
        rw [h0] at this
        exact List.count_eq_zero.mp (by simpa using this)
      simp [Event.submitted?, hb, hdone]

theorem dispatch (hp : Places x) (hc : Counters x) {E : List Event} {q : PoolWork}
    (hl : y.log = x.log ++ (E ++ [.dispatch q])) (hE : ∀ e ∈ E, ∃ b, e = .qos b) (hq1 : x.stage q = 1)
    (hf : y.inFlight = if wtOrd1 ≤ q.type then x.inFlight + 1 else x.inFlight)
    (ha : y.activeWs = x.activeWs) : Counters y := by
  have hs : E.filterMap Event.submitted? = [] := List.filterMap_eq_nil_iff.mpr fun e he => by
    obtain ⟨b, rfl⟩ := hE e he; rfl
  have hd : E.filterMap Event.dispatched? = [] := List.filterMap_eq_nil_iff.mpr fun e he => by
    obtain ⟨b, rfl⟩ := hE e he; rfl
  have hdec : .decrement q ∉ x.log := fun h => by have := ((hp.item q).decrement h).2; omega
  have hmem : ∀ v, .decrement v ∈ y.log ↔ .decrement v ∈ x.log := fun v => by
    simp only [hl, List.mem_append, List.mem_singleton, reduceCtorEq, or_false]
    exact ⟨fun h => h.resolve_right fun h' => (by obtain ⟨b, hb⟩ := hE _ h'; cases hb), .inl⟩
  have hmem' : ∀ v, .done v ∈ y.log ↔ .done v ∈ x.log := fun v => by
    simp only [hl, List.mem_append, List.mem_singleton, reduceCtorEq, or_false]
    exact ⟨fun h => h.resolve_right fun h' => (by obtain ⟨b, hb⟩ := hE _ h'; cases hb), .inl⟩
  refine ⟨?_, ?_⟩
  · rw [hf, hc.inFlight, dispatched_append hl, List.filterMap_append, hd]
    simp only [List.nil_append, Event.dispatched?, List.filterMap_cons, List.filterMap_nil,
      List.countP_append, List.countP_singleton, hmem, hdec]
    split <;> simp [*]
  · rw [ha, hc.activeWs, submitted_append hl, List.filterMap_append, hs]
    simp [Event.submitted?, hmem']

theorem decrement (hp : Places x) (hc : Counters x) {i : Nat} (hh : x.holds i = .relock w)
    (hb : wtBar < w.type) : Counters (x.decrement i w) := by
  have hl : (x.decrement i w).log = x.log ++ [.decrement w] := rfl
  obtain ⟨h5, -, hdec⟩ := (hp.item w).relock i hh
  have hnb : w.type ≠ wtBar := Nat.ne_of_gt hb
  have hcount : x.dispatched.count w = 1 := by
    rw [dispatched, count_filterMap_dispatched, (hp.item w).count_dispatch hnb, if_pos (by omega)]
  refine ⟨?_, ?_⟩
  · show x.inFlight - 1 = _
    rw [hc.inFlight, dispatched_append hl, countP_eq_countP_ne_add _ _ w, hcount]
    simp only [Event.dispatched?, List.filterMap_cons, List.filterMap_nil, List.append_nil, hl,
      List.mem_append, List.mem_singleton, Event.decrement.injEq]
    rw [if_pos (by simp only [wtBar, wtOrd1] at hb ⊢; simp [hdec]; omega)]
    simp only [Nat.add_sub_cancel]
    exact List.countP_congr fun v _ => by by_cases hv : v = w <;> simp [hv]
  · show x.activeWs = _
    rw [hc.activeWs, submitted_append hl]
    simp [Event.submitted?, hl]

theorem done (hp : Places x) (hc : Counters x) {rest : List PoolWork} (hc' : x.completed = w :: rest) :
    Counters (x.done w rest) := by
  have hl : (x.done w rest).log = x.log ++ [.done w] := rfl
  have h5 := (hp.item w).of_completed (by simp [hc'])
  have hnb := (hp.item w).nonBar (by omega)
  have hdone : .done w ∉ x.log := by
    have := (hp.item w).count_done hnb
    rw [h5] at this
    exact List.count_eq_zero.mp (by simpa using this)
  have hcount : x.submitted.count w = 1 := by
    rw [submitted, count_filterMap_submitted, (hp.item w).count_submit, if_pos (by omega)]
  refine ⟨?_, ?_⟩
  · show x.inFlight = _
    rw [hc.inFlight, dispatched_append hl]
    simp [Event.dispatched?, hl]
  · show x.activeWs - 1 = _
    rw [hc.activeWs, submitted_append hl, countP_eq_countP_ne_add _ _ w, hcount]
    simp only [Event.submitted?, List.filterMap_cons, List.filterMap_nil, List.append_nil, hl,
      List.mem_append, List.mem_singleton, Event.done.injEq]
    rw [if_pos (by simp [hdone, hnb])]
    simp only [Nat.add_sub_cancel]
    exact List.countP_congr fun v _ => by by_cases hv : v = w <;> simp [hv]

theorem choice_qos {qos : Nat} {o u : List PoolWork} : ∀ e ∈ choice qos o u, ∃ b, e = .qos b := by
  unfold choice; split
  · exact fun e he => ⟨_, List.mem_singleton.mp he⟩
  · simp

theorem move (hp : Places x) (hc : Counters x) (h : Move x y) : Counters y := by
  cases h with
  | submit type cookie _ =>
    refine hc.submit hp _ (Nat.eq_zero_of_not_pos fun h0 => ?_)
    exact Nat.lt_irrefl _ ((hp.item _).submitted h0).1
  | @drain q _ _ _ hbar hq =>
    have hq1 : x.stage q = 1 := by
      rcases qosPop_eq hq with ⟨ho, -⟩ | ⟨hu, -⟩
      · exact ((hp.item _).of_ordered (ho ▸ List.mem_cons_self _ _)).1
      · exact ((hp.item _).of_unordered (hu ▸ List.mem_cons_self _ _)).1
    exact hc.dispatch hp (E := choice x.qos x.ordered x.unordered) (by simp [Items.drain, Items.deliver])
      choice_qos hq1 rfl rfl
  | flush hu =>
    have hk := (hp.item _).of_unordered (hu ▸ List.mem_cons_self _ _)
    exact hc.dispatch hp (E := []) (by simp [Items.deliver]) (by simp) hk.1
      (by simp [Items.deliver, hk.2, wtUnord, wtOrd1]) rfl
  | free _ _ _ _ => exact hc.of_log rfl (by simp [Event.submitted?, Event.dispatched?]) rfl rfl
  | start _ _ _ => exact hc.of_log rfl (by simp [Event.submitted?, Event.dispatched?]) rfl rfl
  | finish _ => exact hc.of_log rfl (by simp [Event.submitted?, Event.dispatched?]) rfl rfl
  | publish _ => exact hc.of_log rfl (by simp [Event.submitted?, Event.dispatched?]) rfl rfl
  | release _ _ => exact hc.of_log (E := []) (by simp [Items.release]) (by simp) rfl rfl
  | decrement hh hb _ => exact hc.decrement hp hh hb
  | collect _ => exact hc.of_log (E := []) (by simp [Items.collect]) (by simp) rfl rfl
  | done hc' _ => exact hc.done hp hc'

end Counters

theorem Reach.counters {x : Items} (h : Reach x) : Counters x := by
  induction h with
  | init n _ => exact .init n
  | move hx hm ih => exact ih.move hx.places hm

/-- `worker`'s `assert(pi->in_flight > 0)`: a worker back from an ordered item finds it counted. -/
theorem Counters.inFlight_pos (hp : Places x) (hc : Counters x) {i : Nat} (hh : x.holds i = .relock w)
    (hb : wtBar < w.type) : 0 < x.inFlight := by
  obtain ⟨h5, -, hdec⟩ := (hp.item w).relock i hh
  have hw : w ∈ x.dispatched := by
    rw [← List.count_pos_iff, dispatched, count_filterMap_dispatched,
      (hp.item w).count_dispatch (Nat.ne_of_gt hb), if_pos (by omega)]
    exact Nat.one_pos
  rw [hc.inFlight, List.countP_pos_iff]
  exact ⟨w, hw, by simp only [wtBar, wtOrd1] at hb ⊢; simp [hdec]; omega⟩

/-- `w_unregister`'s `PRE(has_active_ws(pool))`: an item other than a barrier, submitted and not yet
    done, is counted in `active_ws`. -/
theorem Counters.activeWs_pos (hp : Places x) (hc : Counters x) (hnb : w.type ≠ wtBar) (h1 : 0 < x.stage w)
    (h6 : x.stage w < 6) : 0 < x.activeWs := by
  have hdone : .done w ∉ x.log :=
    List.count_eq_zero.mp (by rw [(hp.item w).count_done hnb, if_neg (by omega)])
  have hw : w ∈ x.submitted := by
    rw [← List.count_pos_iff, submitted, count_filterMap_submitted, (hp.item w).count_submit,
      if_pos (Nat.succ_le_of_lt h1)]
    exact Nat.one_pos
  rw [hc.activeWs, List.countP_pos_iff]
  exact ⟨w, hw, by simp [hnb, hdone]⟩

/-- With `active_ws` at `0`, only barriers can be left: `unordered`, the inboxes, `outq` and
    `work_done`'s queue are empty. -/
theorem Counters.idle (hp : Places x) (hc : Counters x) (ha : x.activeWs = 0) :
    x.unordered = [] ∧ (∀ i, x.inq i = []) ∧ x.outq = [] ∧ x.completed = [] := by
  have hnone : ∀ w, w.type ≠ wtBar → 0 < x.stage w → x.stage w < 6 → False := fun w hnb h1 h6 => by
    have := hc.activeWs_pos hp hnb h1 h6; omega
  refine ⟨List.eq_nil_iff_forall_not_mem.mpr fun w hm => ?_,
    fun i => List.eq_nil_iff_forall_not_mem.mpr fun w hm => ?_,
    List.eq_nil_iff_forall_not_mem.mpr fun w hm => ?_, List.eq_nil_iff_forall_not_mem.mpr fun w hm => ?_⟩
  · have hk := (hp.item w).of_unordered hm
    exact hnone w (by rw [hk.2]; decide) (by omega) (by omega)
  · have hk := (hp.item w).of_inq hm
    exact hnone w hk.2.1 (by omega) (by omega)
  · have hk := (hp.item w).of_outq hm
    exact hnone w ((hp.item w).nonBar (by omega)) (by omega) (by omega)
  · have hk := (hp.item w).of_completed hm
    exact hnone w ((hp.item w).nonBar (by omega)) (by omega) (by omega)

end Items

/-! ### What the log says of each class -/

/-- The class an event requires of its item: only barriers are freed, only ordered items are
    decremented, and nothing but submission and freeing happens to a barrier. -/
def Event.Lawful : Event → Prop
  | .dispatch w | .start w | .finish w | .publish w | .done w => w.type ≠ wtBar
  | .free w => w.type = wtBar
  | .decrement w => wtBar < w.type
  | .submit _ | .qos _ => True

theorem path_nodup (w : PoolWork) : (path w).Nodup := by
  unfold path; split <;> simp

namespace Items

/-- Every event of the log is lawful. -/
def Lawful (x : Items) : Prop := ∀ e ∈ x.log, e.Lawful

variable {x y : Items} {w : PoolWork}

theorem Lawful.append (hl : Lawful x) {E : List Event} (hy : y.log = x.log ++ E) (hE : ∀ e ∈ E, e.Lawful) :
    Lawful y := fun e he => by
  rw [hy, List.mem_append] at he
  exact he.elim (hl e) (hE e)

theorem Lawful.move (hp : Places x) (hl : Lawful x) (h : Move x y) : Lawful y := by
  cases h with
  | submit => exact hl.append rfl (by simp [Event.Lawful])
  | @drain q _ _ _ hbar hq =>
    refine hl.append (E := choice x.qos x.ordered x.unordered ++ [.dispatch q])
      (by simp [Items.drain, Items.deliver]) fun e he => ?_
    rcases List.mem_append.mp he with he | he
    · obtain ⟨b, rfl⟩ := Counters.choice_qos e he; trivial
    · rw [List.mem_singleton.mp he]
      rcases qosPop_eq hq with ⟨ho, -⟩ | ⟨hu, -⟩
      · exact hbar _ _ ho
      · show _ ≠ wtBar
        rw [((hp.item _).of_unordered (hu ▸ List.mem_cons_self _ _)).2]; decide
  | @flush q _ hu =>
    have hq : q.type = wtUnord := ((hp.item q).of_unordered (hu ▸ List.mem_cons_self _ _)).2
    exact hl.append (E := [.dispatch q]) (by simp [Items.deliver])
      (by simp [Event.Lawful, hq, wtUnord, wtBar])
  | free _ _ _ hb => exact hl.append rfl (by simpa [Event.Lawful] using hb)
  | start _ _ hq =>
    exact hl.append rfl (by simpa [Event.Lawful] using ((hp.item _).of_inq (hq ▸ List.mem_cons_self _ _)).2.1)
  | finish hh =>
    exact hl.append rfl (by simpa [Event.Lawful] using (hp.item _).nonBar (by simp [((hp.item _).work _).mp hh]))
  | publish hh =>
    exact hl.append rfl
      (by simpa [Event.Lawful] using (hp.item _).nonBar (by simp [((hp.item _).publish _).mp hh]))
  | release _ _ => exact hl.append (E := []) (by simp [Items.release]) (by simp)
  | decrement _ hb _ => exact hl.append rfl (by simpa [Event.Lawful] using hb)
  | collect _ => exact hl.append (E := []) (by simp [Items.collect]) (by simp)
  | @done w _ hc _ =>
    exact hl.append rfl (by
      simpa [Event.Lawful] using (hp.item w).nonBar (by simp [(hp.item w).of_completed (by simp [hc])]))

theorem Reach.lawful {x : Items} (h : Reach x) : Lawful x := by
  induction h with
  | init n _ => exact fun _ h => nomatch h
  | move hx hm ih => exact ih.move hx.places hm

theorem count_le_one (hp : Places x) (hl : Lawful x) {e : Event} (he : e.Lawful → ∃ w, e ∈ path w) :
    x.log.count e ≤ 1 := by
  by_cases h : e.Lawful
  · obtain ⟨w, hw⟩ := he h
    rw [(hp.item w).count_path hw]
    exact Nat.le_trans ((List.take_sublist _ _).count_le e) (List.nodup_iff_count_le_one.mp (path_nodup w) e)
  · rw [List.count_eq_zero.mpr fun hm => h (hl e hm)]
    exact Nat.zero_le 1

end Items

/-! ### The pool accounts for every item -/

section Pool

variable {s : Pool}

theorem Pool.workerStep_error {i : Nat} {f : Fault} (h : s.workerStep i = some (.error f)) :
    ∃ w, s.worker i = .relock w ∧ s.release i w = .error f := by
  unfold Pool.workerStep at h
  split at h
  case h_5 w hw =>
    split at h
    · exact ⟨w, hw, Option.some.inj h⟩
    · exact nomatch h
  all_goals (try split at h) <;> simp at h

theorem Pool.release_error {i : Nat} {w : PoolWork} {f : Fault} (h : s.release i w = .error f) :
    wtBar < w.type ∧ (f = .inFlight ∧ s.inFlight = 0 ∨
      f = .plannerCond ∧ s.inFlight = 1 ∧ s.loop.plannerCondDestroyed = true) := by
  unfold Pool.release at h
  split at h
  · rename_i hb
    split at h
    · rename_i hf
      dsimp only at h
      split at h
      · rename_i h0
        have h1 : s.inFlight = 1 := by omega
        split at h
        · cases h; exact ⟨hb, .inr ⟨rfl, h1, ‹_›⟩⟩
        · cases h
      · cases h
    · cases h; exact ⟨hb, .inl ⟨rfl, by omega⟩⟩
  · cases h

theorem Pool.release_ne_inFlight (hs : Reachable s) {i : Nat} {w : PoolWork} (hw : s.worker i = .relock w) :
    s.release i w ≠ .error .inFlight := fun h => by
  obtain ⟨hb, ⟨-, h0⟩ | ⟨h, -⟩⟩ := Pool.release_error h
  · have : 0 < s.inFlight := hs.items.counters.inFlight_pos hs.items.places (i := i) (by simp [hw]) hb
    omega
  · cases h

/-- A step of a worker aborts only at its decrement of `in_flight` to `0` once `pool_cleanup` has
    destroyed `planner_cond`. -/
theorem Pool.step_worker_error (hs : Reachable s) {i : Nat} {f : Fault} (h : s.step (.worker i) = some (.error f)) :
    f = .plannerCond ∧ s.loop.plannerCondDestroyed = true ∧ s.inFlight = 1 ∧
      ∃ w, s.worker i = .relock w ∧ wtBar < w.type := by
  simp only [Pool.step] at h
  split at h
  · obtain ⟨w, hw, he⟩ := Pool.workerStep_error h
    obtain ⟨hb, ⟨rfl, -⟩ | ⟨rfl, h1, hd⟩⟩ := Pool.release_error he
    · exact absurd he (Pool.release_ne_inFlight hs hw)
    · exact ⟨rfl, hd, h1, w, hw, hb⟩
  · exact nomatch h

theorem Pool.queueDone_ne_activeWs (hs : Reachable s) {w : PoolWork} {q : List PoolWork}
    (hc : s.completed = w :: q) : s.queueDone w q ≠ .error .activeWs := by
  have hp := hs.items.places
  have h5 : s.items.stage w = 5 := (hp.item w).of_completed (by simp [hc])
  have := hs.items.counters.activeWs_pos hp ((hp.item w).nonBar (by omega)) (by omega) (by omega)
  unfold Pool.queueDone
  rw [if_neg (by simp at this; omega)]
  exact fun h => nomatch h

/-- Every submitted item is in the one place its stage says, `in_flight` and `active_ws` count what
    they should, `worker`'s `assert` and `w_unregister`'s `PRE` never fail, each item is freed,
    started and done at most once, and a barrier is never pushed into an inbox, `outq` or
    `queue_done`. -/
theorem every_item_in_its_place (hs : Reachable s) :
    Items.Places s.items ∧ Items.Counters s.items ∧
    (∀ i, s.step (.worker i) ≠ some (.error .inFlight)) ∧ s.step .queueDone ≠ some (.error .activeWs) ∧
    (∀ w, s.log.count (.free w) ≤ 1 ∧ s.log.count (.start w) ≤ 1 ∧ s.log.count (.done w) ≤ 1) ∧
    (∀ w, w.type = wtBar → .dispatch w ∉ s.log ∧ .publish w ∉ s.log ∧ .done w ∉ s.log) := by
  have hp := hs.items.places
  have hl := hs.items.lawful
  refine ⟨hp, hs.items.counters, fun i => ?_, ?_, fun w => ?_, fun w hb => ?_⟩
  · exact fun h => by cases (Pool.step_worker_error hs h).1
  · simp only [Pool.step]
    split
    · exact fun h => Pool.queueDone_ne_activeWs hs ‹_› (Option.some.inj h)
    · simp
  · refine ⟨Items.count_le_one hp hl fun h => ⟨w, by simpa using h⟩,
      Items.count_le_one hp hl fun h => ⟨w, by simpa using h⟩,
      Items.count_le_one hp hl fun h => ⟨w, by simpa using h⟩⟩
  · refine ⟨fun h => hl _ h hb, fun h => hl _ h hb, fun h => hl _ h hb⟩

/-- Past a barrier: the first item done with and handed to `work_done`, the barrier freed, and the
    second item of the class in worker `0`'s inbox and in flight. -/
theorem every_item_in_its_place_past_barrier :
    ∃ s : Pool, Reachable s ∧ .free ⟨1, wtBar, 0⟩ ∈ s.log ∧ s.completed = [⟨0, wtOrd1, 0⟩] ∧
      s.inq 0 = [⟨2, wtOrd1, 0⟩] ∧ s.inFlight = 1 ∧ s.activeWs = 2 ∧
      Items.Places s.items ∧ Items.Counters s.items ∧
      (∀ i, s.step (.worker i) ≠ some (.error .inFlight)) ∧ s.step .queueDone ≠ some (.error .activeWs) ∧
      (∀ w, s.log.count (.free w) ≤ 1 ∧ s.log.count (.start w) ≤ 1 ∧ s.log.count (.done w) ≤ 1) ∧
      (∀ w, w.type = wtBar → .dispatch w ∉ s.log ∧ .publish w ∉ s.log ∧ .done w ∉ s.log) := by
  obtain ⟨s, hr, hf, hc, hq, hi, ha⟩ : ∃ s : Pool, Reachable s ∧ .free ⟨1, wtBar, 0⟩ ∈ s.log ∧
      s.completed = [⟨0, wtOrd1, 0⟩] ∧ s.inq 0 = [⟨2, wtOrd1, 0⟩] ∧ s.inFlight = 1 ∧ s.activeWs = 2 :=
    ⟨_, (Reachable.init none).steps (Pool.run_steps (l := [.queueWork wtOrd1 0, .queueWork wtBar 0,
      .queueWork wtOrd1 0, .planner, .planner, .planner, .planner, .planner, .planner, .worker 1, .worker 1,
      .worker 0, .worker 0, .worker 0, .worker 0, .worker 0, .planner, .workDone, .planner, .planner]) rfl),
      by decide, rfl, rfl, rfl, rfl⟩
  exact ⟨s, hr, hf, hc, hq, hi, ha, every_item_in_its_place hr⟩

/-- `in_flight` is a `uint32_t`, the model's counter a `Nat`: the two agree as long as fewer than
    `2 ^ 32` ordered items are dispatched and not yet decremented, the number `Counters` gives. -/
theorem Reachable.inFlight_lt_two_pow_32 (hs : Reachable s)
    (h : (s.items.dispatched.countP fun w => wtOrd1 ≤ w.type ∧ .decrement w ∉ s.log) < 2 ^ 32) :
    s.inFlight < 2 ^ 32 :=
  hs.items.counters.inFlight.trans_lt h

end Pool

end Dqlite
