import Dqlite.Theorems.Order

/-! # What the pool guarantees about order

Read off the invariants of `Dqlite.Theorems.Order` in every reachable pool. Two items of one
producer queue addressed to one worker run in submission order, and their `after_work_cb`s too. A
barrier separates what was submitted before it from what comes after: when it is freed, every
ordered item submitted before it returned and decremented `in_flight`, and `unordered` is empty; no
item submitted to `ordered` after it was dispatched before. So two ordered items of different
classes are never in flight together. The era guarantee does not extend to unordered items: one
submitted before a barrier is dispatched before the items ordered after it, but it may still be
waiting in its worker's inbox when one of those starts on another worker. -/

namespace Dqlite

open scoped List
open Items (path_nonBar path_bar)

variable {s : Pool}

theorem Reachable.count_le_one (hs : Reachable s) {e : Event} (he : e.Lawful → ∃ w, e ∈ path w) :
    s.log.count e ≤ 1 :=
  Items.count_le_one hs.items.places hs.items.lawful he

/-- Two items of one producer queue addressed to one worker: the first returns from its `work_cb`
    before the second's is called, and its `after_work_cb` runs first. -/
theorem same_queue_same_worker_in_order (hs : Reachable s) {a b : PoolWork} (ha : a.type ≠ wtBar)
    (hb : b.type ≠ wtBar) (hk : a.type = wtUnord ↔ b.type = wtUnord) (ht : a.threadId = b.threadId)
    (hab : [.submit a, .submit b] <+ s.log) :
    (.start b ∈ s.log → [.finish a, .start b] <+ s.log) ∧ (.done b ∈ s.log → [.done a, .done b] <+ s.log) := by
  have hp := hs.items.places
  have hh : Items.Happens s.items := hs.items.happens
  have hwork : .start b ∈ s.log → [.publish a, .start b] <+ s.log := fun hsb => by
    have h3 := ((hp.item b).mem_log_iff (k := 2) (e := .start b) (by simp [path_nonBar hb])).mp hsb
    have hdb := ((hp.item b).mem_log_iff (k := 1) (e := .dispatch b) (by simp [path_nonBar hb])).mpr (by omega)
    exact hh (.worker a b ht) (hh (.queue a b ha hb hk) hab hdb) hsb
  have hpub : ∀ w, w.type ≠ wtBar → s.log.count (.publish w) ≤ 1 :=
    fun w hw => hs.count_le_one fun _ => ⟨w, by simp [hw]⟩
  refine ⟨fun hsb => ?_, fun hdb => ?_⟩
  · have h1 := hwork hsb
    exact pair_sublist_trans (hpub a ha)
      ((hp.item a).pair_of_lt (i := 3) (j := 4) (by simp [path_nonBar ha]) (by simp [path_nonBar ha])
        (by decide) (h1.subset (by simp))) h1
  · have h6 := ((hp.item b).mem_log_iff (k := 5) (e := .done b) (by simp [path_nonBar hb])).mp hdb
    have hsb := ((hp.item b).mem_log_iff (k := 2) (e := .start b) (by simp [path_nonBar hb])).mpr (by omega)
    have hpb := ((hp.item b).mem_log_iff (k := 4) (e := .publish b) (by simp [path_nonBar hb])).mpr (by omega)
    have h2 : [.start b, .publish b] <+ s.log := (hp.item b).pair_of_lt (i := 2) (j := 4)
      (by simp [path_nonBar hb]) (by simp [path_nonBar hb]) (by decide) hpb
    exact hh (.outq a b) (pair_sublist_trans (hs.count_le_one fun _ => ⟨b, by simp [hb]⟩) (hwork hsb) h2) hdb

theorem same_queue_same_worker_in_order_run :
    ∃ s : Pool, Reachable s ∧ [.submit ⟨0, wtUnord, 0⟩, .submit ⟨1, wtUnord, 0⟩] <+ s.log ∧
      .start ⟨1, wtUnord, 0⟩ ∈ s.log ∧
      (.start ⟨1, wtUnord, 0⟩ ∈ s.log → [.finish ⟨0, wtUnord, 0⟩, .start ⟨1, wtUnord, 0⟩] <+ s.log) ∧
      (.done ⟨1, wtUnord, 0⟩ ∈ s.log → [.done ⟨0, wtUnord, 0⟩, .done ⟨1, wtUnord, 0⟩] <+ s.log) :=
  have hr := (Reachable.init none).steps (Pool.run_steps (l := [.queueWork wtUnord 0, .queueWork wtUnord 0,
    .planner, .planner, .planner, .planner, .planner, .planner, .planner,
    .worker 0, .worker 0, .worker 0, .worker 0]) rfl)
  ⟨_, hr, by decide, by decide,
    same_queue_same_worker_in_order hr (by decide) (by decide) Iff.rfl rfl (by decide)⟩

/-- The pool's hand-offs keep order: a producer queue is dispatched in submission order, a worker
    pushes an item of its inbox into `outq` before it starts the next one, and `work_done` runs
    `queue_done` in the order of `outq`. -/
structure InOrder (l : List Event) : Prop where
  queue : ∀ a b : PoolWork, a.type ≠ wtBar → b.type ≠ wtBar → (a.type = wtUnord ↔ b.type = wtUnord) →
    [.submit a, .submit b] <+ l → .dispatch b ∈ l → [.dispatch a, .dispatch b] <+ l
  inbox : ∀ a b : PoolWork, a.threadId = b.threadId →
    [.dispatch a, .dispatch b] <+ l → .start b ∈ l → [.publish a, .start b] <+ l
  outq : ∀ a b : PoolWork, [.publish a, .publish b] <+ l → .done b ∈ l → [.done a, .done b] <+ l

theorem handoffs_in_order (hs : Reachable s) : InOrder s.log :=
  have hh : Items.Happens s.items := hs.items.happens
  ⟨fun a b ha hb hk => hh (.queue a b ha hb hk), fun a b ht => hh (.worker a b ht), fun a b => hh (.outq a b)⟩

theorem handoffs_in_order_run :
    ∃ s : Pool, Reachable s ∧ .start ⟨1, wtUnord, 0⟩ ∈ s.log ∧ InOrder s.log :=
  have hr := (Reachable.init none).steps (Pool.run_steps (l := [.queueWork wtUnord 0, .queueWork wtUnord 0,
    .planner, .planner, .planner, .planner, .planner, .planner, .planner,
    .worker 0, .worker 0, .worker 0, .worker 0]) rfl)
  ⟨_, hr, by decide, handoffs_in_order hr⟩

/-! ### Barriers -/

/-- An ordered item submitted before one of another class decremented `in_flight` before the other
    was dispatched: a barrier stands between them. -/
theorem Items.decremented_before_other_class {x : Items} (hx : Items.Reach x) {a b : PoolWork}
    (ha : wtOrd1 ≤ a.type) (hb : wtOrd1 ≤ b.type) (hab : a.type ≠ b.type)
    (h : [.submit a, .submit b] <+ x.log) (hd : .dispatch b ∈ x.log) : .decrement a ∈ x.log := by
  obtain ⟨B, hB, h₁, h₂⟩ := hx.classes.separated a b ha hb hab h
  have hh : Items.Happens x := hx.happens
  have hf := hh (.behind B b hB (by simp only [wtOrd1, wtUnord] at hb ⊢; omega)) h₂ hd
  exact (hh (.decremented a B ha) h₁ (hf.subset (by simp))).subset (by simp)

/-- A barrier `B` separates what was submitted before it from what comes after. By the time `B` is
    freed, every ordered item submitted before it returned from its `work_cb` and decremented
    `in_flight`, and every unordered item submitted before that moment was dispatched; no item
    submitted to `ordered` after `B` is dispatched before `B` is freed. Hence two ordered items of
    different classes are never both dispatched and not yet through their decrement. -/
theorem barrier_separates_classes (hs : Reachable s) :
    (∀ a B, wtOrd1 ≤ a.type → [.submit a, .submit B] <+ s.log → .free B ∈ s.log →
      [.finish a, .free B] <+ s.log ∧ [.decrement a, .free B] <+ s.log) ∧
    (∀ a B, a.type = wtUnord → [.submit a, .free B] <+ s.log → [.dispatch a, .free B] <+ s.log) ∧
    (∀ B c, B.type = wtBar → c.type ≠ wtUnord → [.submit B, .submit c] <+ s.log → .dispatch c ∈ s.log →
      [.free B, .dispatch c] <+ s.log) ∧
    (∀ a b, wtOrd1 ≤ a.type → wtOrd1 ≤ b.type → a.type ≠ b.type → .dispatch a ∈ s.log →
      .dispatch b ∈ s.log → .decrement a ∈ s.log ∨ .decrement b ∈ s.log) := by
  have hx := hs.items
  have hh : Items.Happens s.items := hx.happens
  refine ⟨fun a B ha h hB => ⟨hh (.finished a B ha) h hB, hh (.decremented a B ha) h hB⟩,
    fun a B ha h => hh (.flushed a B ha) h (h.subset (by simp)),
    fun B c hB hc h hd => hh (.behind B c hB hc) h hd, fun a b ha hb hab hda hdb => ?_⟩
  have hsub : ∀ w, .dispatch w ∈ s.log → .submit w ∈ s.log := fun w hw => by
    have := ((hx.places.item w).mem_log_iff (k := 1) (e := .dispatch w)
      (by simp [path_nonBar (hx.lawful _ hw)])).mp hw
    exact (hx.places.item w).submit_mem_iff.mpr (by omega)
  rcases pair_sublist_or (hsub a hda) (hsub b hdb) (fun h => hab (by cases h; rfl)) with h | h
  · exact .inl (Items.decremented_before_other_class hx ha hb hab h hdb)
  · exact .inr (Items.decremented_before_other_class hx hb ha (Ne.symm hab) h hda)

/-- With two workers: an unordered item `U` for worker 0, a barrier, and an ordered item `O` for
    worker 1. The planner flushes `U` into worker 0's inbox, frees the barrier, dispatches `O`, and
    sleeps; worker 1 starts `O` while `U` has not started. -/
def barrierRun : List Action :=
  [.queueWork wtUnord 0, .queueWork wtBar 0, .queueWork wtOrd1 1,
   .planner, .planner, .planner, .planner, .planner, .planner, .planner, .planner,
   .planner, .planner, .planner, .worker 1]

theorem unordered_item_outlives_barrier :
    ∃ s, Reachable s ∧ [.submit ⟨0, wtUnord, 0⟩, .submit ⟨1, wtBar, 0⟩] <+ s.log ∧
      [.submit ⟨1, wtBar, 0⟩, .submit ⟨2, wtOrd1, 1⟩] <+ s.log ∧
      .start ⟨2, wtOrd1, 1⟩ ∈ s.log ∧ .finish ⟨0, wtUnord, 0⟩ ∉ s.log :=
  ⟨_, (Reachable.init (some 2)).steps (Pool.run_steps (l := barrierRun) rfl), by decide, by decide,
    by decide, by decide⟩

/-- An item of class `wtOrd1`, a barrier, and an item of class `wtOrd1 + 1` for worker 1: the planner
    dispatches the first and waits in `PS_BARRIER`; worker 0 runs it and takes `in_flight` to `0`; the
    planner frees the barrier and dispatches the second. -/
def classesRun : List Action :=
  [.queueWork wtOrd1 0, .queueWork wtBar 0, .queueWork (wtOrd1 + 1) 1, .planner, .planner, .planner,
   .planner, .planner, .planner, .worker 0, .worker 0, .worker 0, .worker 0, .worker 0, .planner, .planner,
   .planner]

/-- The separation after a run in which a barrier between two classes was freed. -/
theorem barrier_separates_classes_run :
    ∃ s : Pool, Reachable s ∧ [.submit ⟨0, wtOrd1, 0⟩, .submit ⟨1, wtBar, 0⟩] <+ s.log ∧
    [.submit ⟨1, wtBar, 0⟩, .submit ⟨2, wtOrd1 + 1, 1⟩] <+ s.log ∧ .free ⟨1, wtBar, 0⟩ ∈ s.log ∧
    .dispatch ⟨0, wtOrd1, 0⟩ ∈ s.log ∧ .dispatch ⟨2, wtOrd1 + 1, 1⟩ ∈ s.log ∧
    (∀ a B, wtOrd1 ≤ a.type → [.submit a, .submit B] <+ s.log → .free B ∈ s.log →
      [.finish a, .free B] <+ s.log ∧ [.decrement a, .free B] <+ s.log) ∧
    (∀ a B, a.type = wtUnord → [.submit a, .free B] <+ s.log → [.dispatch a, .free B] <+ s.log) ∧
    (∀ B c, B.type = wtBar → c.type ≠ wtUnord → [.submit B, .submit c] <+ s.log → .dispatch c ∈ s.log →
      [.free B, .dispatch c] <+ s.log) ∧
    (∀ a b, wtOrd1 ≤ a.type → wtOrd1 ≤ b.type → a.type ≠ b.type → .dispatch a ∈ s.log →
      .dispatch b ∈ s.log → .decrement a ∈ s.log ∨ .decrement b ∈ s.log) :=
  have hr := (Reachable.init none).steps (Pool.run_steps (l := classesRun) rfl)
  ⟨_, hr, by decide, by decide, by decide, by decide, by decide, barrier_separates_classes hr⟩

/-- What a barrier does give an unordered item `U` submitted before it: `U` is dispatched before any
    item submitted to `ordered` after the barrier, and if that item goes to `U`'s worker, `U` returns
    from its `work_cb` before the other's is called. -/
theorem unordered_before_barrier_dispatched_first (hs : Reachable s) {U B O : PoolWork}
    (hU : U.type = wtUnord) (hB : B.type = wtBar) (hO : O.type ≠ wtUnord)
    (h₁ : [.submit U, .submit B] <+ s.log) (h₂ : [.submit B, .submit O] <+ s.log) :
    (.dispatch O ∈ s.log → [.dispatch U, .dispatch O] <+ s.log) ∧
    (U.threadId = O.threadId → .start O ∈ s.log → [.finish U, .start O] <+ s.log) := by
  have hx := hs.items
  have hp := hx.places
  have hh : Items.Happens s.items := hx.happens
  have hdisp : .dispatch O ∈ s.log → [.dispatch U, .dispatch O] <+ s.log := fun hd => by
    have hfO := hh (.behind B O hB hO) h₂ hd
    have hfB : .free B ∈ s.log := hfO.subset (by simp)
    have hsB : [.submit B, .free B] <+ s.log := (hp.item B).pair_of_lt (i := 0) (j := 1)
      (by simp [path_bar hB]) (by simp [path_bar hB]) (by decide) hfB
    have hUB := pair_sublist_trans (hs.count_le_one fun _ => ⟨B, by simp⟩) h₁ hsB
    exact pair_sublist_trans (hs.count_le_one fun h => ⟨B, by simpa using h⟩) (hh (.flushed U B hU) hUB hfB) hfO
  refine ⟨hdisp, fun ht hso => ?_⟩
  have hnb : O.type ≠ wtBar := hx.lawful _ hso
  have h3 := ((hp.item O).mem_log_iff (k := 2) (e := .start O) (by simp [path_nonBar hnb])).mp hso
  have hd := ((hp.item O).mem_log_iff (k := 1) (e := .dispatch O) (by simp [path_nonBar hnb])).mpr (by omega)
  have hw := hh (.worker U O ht) (hdisp hd) hso
  have hnbU : U.type ≠ wtBar := by rw [hU]; decide
  exact pair_sublist_trans (hs.count_le_one fun _ => ⟨U, by simp [hnbU]⟩)
    ((hp.item U).pair_of_lt (i := 3) (j := 4) (by simp [path_nonBar hnbU]) (by simp [path_nonBar hnbU])
      (by decide) (hw.subset (by simp))) hw

/-- `U`, a barrier and an ordered item `O` all for worker 0: the planner flushes `U`, frees the
    barrier and dispatches `O`; worker 0 runs `U` and then starts `O`. -/
theorem unordered_before_barrier_dispatched_first_run :
    ∃ s : Pool, Reachable s ∧ [.submit ⟨0, wtUnord, 0⟩, .submit ⟨1, wtBar, 0⟩] <+ s.log ∧
      [.submit ⟨1, wtBar, 0⟩, .submit ⟨2, wtOrd1, 0⟩] <+ s.log ∧ .start ⟨2, wtOrd1, 0⟩ ∈ s.log ∧
      (.dispatch ⟨2, wtOrd1, 0⟩ ∈ s.log → [.dispatch ⟨0, wtUnord, 0⟩, .dispatch ⟨2, wtOrd1, 0⟩] <+ s.log) ∧
      ((⟨0, wtUnord, 0⟩ : PoolWork).threadId = (⟨2, wtOrd1, 0⟩ : PoolWork).threadId →
        .start ⟨2, wtOrd1, 0⟩ ∈ s.log → [.finish ⟨0, wtUnord, 0⟩, .start ⟨2, wtOrd1, 0⟩] <+ s.log) :=
  have hr := (Reachable.init none).steps (Pool.run_steps (l := [.queueWork wtUnord 0, .queueWork wtBar 0,
    .queueWork wtOrd1 0, .planner, .planner, .planner, .planner, .planner, .planner, .planner, .planner,
    .planner, .planner, .planner, .worker 0, .worker 0, .worker 0, .worker 0]) rfl)
  ⟨_, hr, by decide, by decide, by decide,
    unordered_before_barrier_dispatched_first (U := ⟨0, wtUnord, 0⟩) (B := ⟨1, wtBar, 0⟩)
      (O := ⟨2, wtOrd1, 0⟩) hr rfl rfl (by decide) (by decide) (by decide)⟩

end Dqlite
