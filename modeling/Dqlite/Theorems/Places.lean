import Dqlite.Theorems.Items

/-! # Where each item is

An item's events in the log follow its path: a barrier is submitted and freed; any other item is
submitted, dispatched to the inbox of its worker, started, finished, published to `outq`, and done.
Its stage, the number of its path events in the log, says where it is: in `ordered` or `unordered`
at stage 1, in the inbox of worker `thread_id` at stage 2, held by that worker at stages 3 and 4, in
`outq` or `work_done`'s queue at stage 5, and nowhere once freed or done. `Places` states this for
every item of every reachable pool, with the facts about `in_flight`'s decrement that come with it. -/

namespace Dqlite

open Function (update)

/-- The events of an item's path, in order. -/
def path (w : PoolWork) : List Event :=
  if w.type = wtBar then [.submit w, .free w]
  else [.submit w, .dispatch w, .start w, .finish w, .publish w, .done w]

section Path

variable {q w : PoolWork}

@[simp] theorem submit_mem_path : Event.submit q ∈ path w ↔ q = w := by
  unfold path; split <;> simp

@[simp] theorem dispatch_mem_path : Event.dispatch q ∈ path w ↔ q = w ∧ w.type ≠ wtBar := by
  unfold path; split <;> simp [*]

@[simp] theorem free_mem_path : Event.free q ∈ path w ↔ q = w ∧ w.type = wtBar := by
  unfold path; split <;> simp [*]

@[simp] theorem start_mem_path : Event.start q ∈ path w ↔ q = w ∧ w.type ≠ wtBar := by
  unfold path; split <;> simp [*]

@[simp] theorem finish_mem_path : Event.finish q ∈ path w ↔ q = w ∧ w.type ≠ wtBar := by
  unfold path; split <;> simp [*]

@[simp] theorem publish_mem_path : Event.publish q ∈ path w ↔ q = w ∧ w.type ≠ wtBar := by
  unfold path; split <;> simp [*]

@[simp] theorem done_mem_path : Event.done q ∈ path w ↔ q = w ∧ w.type ≠ wtBar := by
  unfold path; split <;> simp [*]

@[simp] theorem decrement_not_mem_path : Event.decrement q ∉ path w := by
  unfold path; split <;> simp

@[simp] theorem qos_not_mem_path {b : Bool} : Event.qos b ∉ path w := by
  unfold path; split <;> simp

end Path

namespace Items

/-- The path events of `w` in the log, in order. -/
def trail (x : Items) (w : PoolWork) : List Event := x.log.filter (· ∈ path w)

/-- How far along its path `w` is. -/
def stage (x : Items) (w : PoolWork) : Nat := x.log.countP (· ∈ path w)

theorem stage_eq_length (x : Items) (w : PoolWork) : x.stage w = (x.trail w).length := by
  simp [stage, trail, List.countP_eq_length_filter]

/-- Where the item `w` is, by its stage. -/
structure Item (x : Items) (w : PoolWork) : Prop where
  trail : x.trail w <+: path w
  submitted : 0 < x.stage w → w.id < x.serial ∧ w.threadId < x.nthreads
  ordered : x.ordered.count w = if x.stage w = 1 ∧ w.type ≠ wtUnord then 1 else 0
  unordered : x.unordered.count w = if x.stage w = 1 ∧ w.type = wtUnord then 1 else 0
  inq : ∀ i, (x.inq i).count w = if x.stage w = 2 ∧ w.type ≠ wtBar ∧ i = w.threadId then 1 else 0
  work : ∀ i, x.holds i = .work w ↔ x.stage w = 3 ∧ i = w.threadId
  publish : ∀ i, x.holds i = .publish w ↔ x.stage w = 4 ∧ i = w.threadId
  outq : x.outq.count w + x.completed.count w = if x.stage w = 5 then 1 else 0
  relock : ∀ i, x.holds i = .relock w → 5 ≤ x.stage w ∧ i = w.threadId ∧ .decrement w ∉ x.log
  decrement : .decrement w ∈ x.log → wtBar < w.type ∧ 5 ≤ x.stage w

/-- Where the items are: each is where its stage says, and two submitted items have different
    numbers. -/
structure Places (x : Items) : Prop where
  nthreads_pos : 0 < x.nthreads
  unique : ∀ w w', 0 < x.stage w → 0 < x.stage w' → w.id = w'.id → w = w'
  item : ∀ w, Item x w

variable {x y : Items} {w q : PoolWork}

theorem stage_of_trail (h : y.trail w = x.trail w) : y.stage w = x.stage w := by
  rw [stage_eq_length, stage_eq_length, h]

namespace Item

theorem frame (h : Item x w) (ht : y.trail w = x.trail w) (hs : x.serial ≤ y.serial)
    (hn : y.nthreads = x.nthreads) (ho : y.ordered.count w = x.ordered.count w)
    (hu : y.unordered.count w = x.unordered.count w) (hi : ∀ i, (y.inq i).count w = (x.inq i).count w)
    (hw : ∀ i, y.holds i = .work w ↔ x.holds i = .work w)
    (hp : ∀ i, y.holds i = .publish w ↔ x.holds i = .publish w)
    (hd : y.outq.count w + y.completed.count w = x.outq.count w + x.completed.count w)
    (hr : ∀ i, y.holds i = .relock w → x.holds i = .relock w)
    (hdec : .decrement w ∈ y.log ↔ .decrement w ∈ x.log) : Item y w := by
  have hst := stage_of_trail ht
  exact {
    trail := ht ▸ h.trail
    submitted := fun hpos => by
      have := h.submitted (hst ▸ hpos); rw [hn]; exact ⟨by omega, this.2⟩
    ordered := by rw [ho, hst]; exact h.ordered
    unordered := by rw [hu, hst]; exact h.unordered
    inq := fun i => by rw [hi, hst]; exact h.inq i
    work := fun i => by rw [hw, hst]; exact h.work i
    publish := fun i => by rw [hp, hst]; exact h.publish i
    outq := by rw [hd, hst]; exact h.outq
    relock := fun i hh => by rw [hst, hdec]; exact h.relock i (hr i hh)
    decrement := fun hd' => by rw [hst]; exact h.decrement (hdec.mp hd') }

end Item

theorem trail_of_log {E : List Event} (hl : y.log = x.log ++ E) :
    y.trail w = x.trail w ++ E.filter (· ∈ path w) := by
  simp [trail, hl, List.filter_append]

theorem stage_of_log {E : List Event} (hl : y.log = x.log ++ E) :
    y.stage w = x.stage w + E.countP (· ∈ path w) := by
  simp [stage, hl, List.countP_append]

theorem path_nonBar (h : w.type ≠ wtBar) :
    path w = [.submit w, .dispatch w, .start w, .finish w, .publish w, .done w] := by
  simp [path, h]

theorem path_bar (h : w.type = wtBar) : path w = [.submit w, .free w] := by
  simp [path, h]

theorem update_hold_iff {h : Nat → Hold} {i j : Nat} {v a : Hold} (hv : v ≠ a) (hi : h i ≠ a) :
    update h i v j = a ↔ h j = a := by
  by_cases hj : j = i
  · subst hj; simp [hv, hi]
  · simp [Function.update_noteq hj]

theorem update_hold_imp {h : Nat → Hold} {i j : Nat} {v a : Hold} (hv : v ≠ a) :
    update h i v j = a → h j = a := by
  by_cases hj : j = i
  · subst hj; simp [hv]
  · simp [Function.update_noteq hj]

theorem prefix_snoc {l p : List Event} {e : Event} (h : l <+: p) (he : p[l.length]? = some e) :
    l ++ [e] <+: p := by
  obtain ⟨t, rfl⟩ := h
  cases t with
  | nil => simp [List.getElem?_eq_none] at he
  | cons a t =>
    simp only [List.getElem?_append_right (Nat.le_refl _), Nat.sub_self, List.getElem?_cons_zero,
      Option.some.injEq] at he
    exact ⟨t, by simp [he]⟩

namespace Item

theorem snoc (h : Item x w) {e : Event} (he : (path w)[x.stage w]? = some e) :
    x.trail w ++ [e] <+: path w :=
  prefix_snoc h.trail (by rwa [← stage_eq_length])

theorem stage_le (h : Item x w) : x.stage w ≤ (path w).length := by
  rw [stage_eq_length]; exact h.trail.length_le

theorem nonBar (h : Item x w) (hs : 2 < x.stage w) : w.type ≠ wtBar := fun hb => by
  have := h.stage_le; rw [path_bar hb] at this; simp at this; omega

theorem of_ordered (h : Item x w) (hm : w ∈ x.ordered) : x.stage w = 1 ∧ w.type ≠ wtUnord := by
  have := h.ordered; rw [← List.count_pos_iff] at hm; split at this <;> simp_all

theorem of_unordered (h : Item x w) (hm : w ∈ x.unordered) : x.stage w = 1 ∧ w.type = wtUnord := by
  have := h.unordered; rw [← List.count_pos_iff] at hm; split at this <;> simp_all

theorem of_inq (h : Item x w) {i : Nat} (hm : w ∈ x.inq i) :
    x.stage w = 2 ∧ w.type ≠ wtBar ∧ i = w.threadId := by
  have := h.inq i; rw [← List.count_pos_iff] at hm; split at this <;> simp_all

theorem of_completed (h : Item x w) (hm : w ∈ x.completed) : x.stage w = 5 := by
  have := h.outq; rw [← List.count_pos_iff] at hm; split at this <;> omega

theorem of_outq (h : Item x w) (hm : w ∈ x.outq) : x.stage w = 5 := by
  have := h.outq; rw [← List.count_pos_iff] at hm; split at this <;> omega

theorem fresh (h : Item x w) (hs : x.stage w = 0) :
    x.ordered.count w = 0 ∧ x.unordered.count w = 0 ∧ (∀ i, (x.inq i).count w = 0) ∧
      (∀ i, x.holds i ≠ .work w ∧ x.holds i ≠ .publish w ∧ x.holds i ≠ .relock w) ∧
      x.outq.count w = 0 ∧ x.completed.count w = 0 ∧ .decrement w ∉ x.log := by
  refine ⟨by simp [h.ordered, hs], by simp [h.unordered, hs], fun i => by simp [h.inq i, hs],
    fun i => ⟨by simp [h.work i, hs], by simp [h.publish i, hs], fun hr => ?_⟩, ?_, ?_, fun hd => ?_⟩
  · have := (h.relock i hr).1; omega
  · have := h.outq; simp [hs] at this; omega
  · have := h.outq; simp [hs] at this; omega
  · have := (h.decrement hd).2; omega

end Item

theorem Places.init {n : Nat} (hn : 0 < n) : Places (init n) where
  nthreads_pos := hn
  unique _ _ h := by simp [Items.init, stage] at h
  item _ := {
    trail := by simp [Items.init, Items.trail]
    submitted := fun h => by simp [Items.init, stage] at h
    ordered := by simp [Items.init, stage]
    unordered := by simp [Items.init, stage]
    inq := fun _ => by simp [Items.init, stage]
    work := fun _ => by simp [Items.init, stage]
    publish := fun _ => by simp [Items.init, stage]
    outq := by simp [Items.init, stage]
    relock := fun _ h => by simp [Items.init] at h
    decrement := fun h => by simp [Items.init] at h }

namespace Places

/-! ### Each move keeps `Places` -/

theorem submit (hp : Places x) (w₀ : PoolWork) (hid : w₀.id = x.serial) (htid : w₀.threadId < x.nthreads) :
    Places (x.submit w₀) := by
  have hl : (x.submit w₀).log = x.log ++ [.submit w₀] := rfl
  have h0 : x.stage w₀ = 0 := by
    by_contra h
    have := ((hp.item w₀).submitted (Nat.pos_of_ne_zero h)).1
    omega
  have hst : ∀ w, (x.submit w₀).stage w = x.stage w + if w₀ = w then 1 else 0 := fun w => by
    simp [stage_of_log hl, List.countP_cons]
  refine ⟨hp.nthreads_pos, fun w w' hw hw' he => ?_, fun w => ?_⟩
  · rw [hst] at hw hw'
    by_cases h : w₀ = w <;> by_cases h' : w₀ = w'
    · exact h.symm.trans h'
    · rw [if_neg h'] at hw'; subst h; have := ((hp.item w').submitted (by omega)).1; omega
    · rw [if_neg h] at hw; subst h'; have := ((hp.item w).submitted (by omega)).1; omega
    · rw [if_neg h] at hw; rw [if_neg h'] at hw'; exact hp.unique w w' (by omega) (by omega) he
  by_cases hw : w₀ = w
  · subst hw
    obtain ⟨ho, hu, hi, hh, hq, hc, hd⟩ := (hp.item w₀).fresh h0
    have hs : (x.submit w₀).stage w₀ = 1 := by simp [hst, h0]
    refine {
      trail := by
        rw [trail_of_log hl]
        simpa using (hp.item w₀).snoc (e := .submit w₀) (by unfold path; split <;> simp [h0])
      submitted := fun _ => ⟨by simp [Items.submit, hid], htid⟩
      ordered := by rw [hs]; simp only [Items.submit]; split <;> simp_all
      unordered := by rw [hs]; simp only [Items.submit]; split <;> simp_all
      inq := fun i => by rw [hs]; simp [Items.submit, hi]
      work := fun i => by rw [hs]; simp [Items.submit, (hh i).1]
      publish := fun i => by rw [hs]; simp [Items.submit, (hh i).2.1]
      outq := by rw [hs]; simp [Items.submit, hq, hc]
      relock := fun i h => absurd h (hh i).2.2
      decrement := fun h => by simp [hl, hd] at h }
  · refine (hp.item w).frame (by simp [trail_of_log hl, hw]) (by simp [Items.submit]) rfl ?_ ?_
      (fun _ => rfl) (fun _ => Iff.rfl) (fun _ => Iff.rfl) rfl (fun _ => id) (by simp [hl])
    · simp only [Items.submit]; split <;> simp [hw, Ne.symm hw]
    · simp only [Items.submit]; split <;> simp [hw, Ne.symm hw]

theorem snoc {e : Event} (hp : Places x) (hl : y.log = x.log ++ [e]) (hq : 0 < x.stage q)
    (he : ∀ w, e ∈ path w ↔ q = w) :
    (∀ w, y.trail w = x.trail w ++ if q = w then [e] else []) ∧
    (∀ w, y.stage w = x.stage w + if q = w then 1 else 0) ∧
    (∀ w w', 0 < y.stage w → 0 < y.stage w' → w.id = w'.id → w = w') := by
  have htr : ∀ w, y.trail w = x.trail w ++ if q = w then [e] else [] := fun w => by
    rw [trail_of_log hl]; by_cases h : q = w <;> simp [h, he]
  have hst : ∀ w, y.stage w = x.stage w + if q = w then 1 else 0 := fun w => by
    rw [stage_eq_length, stage_eq_length, htr]; split <;> simp
  refine ⟨htr, hst, fun w w' hw hw' hid => hp.unique w w' ?_ ?_ hid⟩
  · rw [hst] at hw; split at hw <;> simp_all
  · rw [hst] at hw'; split at hw' <;> simp_all

theorem unique_of_pos (hp : Places x) (h : ∀ w, 0 < y.stage w ↔ 0 < x.stage w) :
    ∀ w w', 0 < y.stage w → 0 < y.stage w' → w.id = w'.id → w = w' :=
  fun w w' hw hw' => hp.unique w w' ((h w).mp hw) ((h w').mp hw')

theorem dispatch (hp : Places x) {E : List Event} (hl : y.log = x.log ++ (E ++ [.dispatch q]))
    (hE : ∀ e ∈ E, ∃ b, e = .qos b) (hnb : q.type ≠ wtBar)
    (hqs : x.ordered = q :: y.ordered ∧ y.unordered = x.unordered ∨
      x.unordered = q :: y.unordered ∧ y.ordered = x.ordered)
    (hn : y.nthreads = x.nthreads) (hs : y.serial = x.serial)
    (hi : y.inq = update x.inq q.threadId (x.inq q.threadId ++ [q])) (hh : y.holds = x.holds)
    (hoq : y.outq = x.outq) (hc : y.completed = x.completed) : Places y := by
  have hq : Item x q := hp.item q
  have hq1 : x.stage q = 1 := by
    rcases hqs with ⟨ho, -⟩ | ⟨hu, -⟩
    · exact (hq.of_ordered (by simp [ho])).1
    · exact (hq.of_unordered (by simp [hu])).1
  have hEp : ∀ w, E.filter (· ∈ path w) = [] := fun w => List.filter_eq_nil_iff.mpr fun e he => by
    obtain ⟨b, rfl⟩ := hE e he; simp
  have htr : ∀ w, y.trail w = x.trail w ++ if q = w then [.dispatch q] else [] := fun w => by
    rw [trail_of_log hl, List.filter_append, hEp]
    by_cases h : q = w
    · subst h; simp [hnb]
    · simp [h]
  have hst : ∀ w, y.stage w = x.stage w + if q = w then 1 else 0 := fun w => by
    rw [stage_eq_length, stage_eq_length, htr]; split <;> simp
  have hdec : ∀ w, .decrement w ∈ y.log ↔ .decrement w ∈ x.log := fun w => by
    simp only [hl, List.mem_append, List.mem_singleton, reduceCtorEq, or_false]
    refine ⟨fun h => h.resolve_right fun h' => ?_, .inl⟩
    obtain ⟨b, hb⟩ := hE _ h'
    cases hb
  refine ⟨hn ▸ hp.nthreads_pos, hp.unique_of_pos fun w => ?_, fun w => ?_⟩
  · rw [hst]; split <;> simp_all
  by_cases hw : q = w
  · subst hw
    have hs2 : y.stage q = 2 := by simp [hst, hq1]
    obtain ⟨ho0, hu0⟩ : y.ordered.count q = 0 ∧ y.unordered.count q = 0 := by
      have hc1 := hq.ordered
      have hu1 := hq.unordered
      rcases hqs with ⟨ho, hu⟩ | ⟨hu, ho⟩
      · have hk := hq.of_ordered (by simp [ho])
        rw [ho, List.count_cons_self, if_pos hk] at hc1
        rw [if_neg fun h => hk.2 h.2] at hu1
        exact ⟨by omega, by rw [hu, hu1]⟩
      · have hk := hq.of_unordered (by simp [hu])
        rw [hu, List.count_cons_self, if_pos hk] at hu1
        rw [if_neg fun h => h.2 hk.2] at hc1
        exact ⟨by rw [ho, hc1], by omega⟩
    exact {
      trail := by rw [htr, if_pos rfl]; exact hq.snoc (by rw [hq1, path_nonBar hnb]; rfl)
      submitted := fun _ => by rw [hs, hn]; exact hq.submitted (by omega)
      ordered := by simp [ho0, hs2]
      unordered := by simp [hu0, hs2]
      inq := fun i => by
        rw [hi, hs2]
        by_cases h : i = q.threadId
        · subst h; simp [hq.inq, hq1, hnb]
        · simp [Function.update_noteq h, hq.inq, hq1, h]
      work := fun i => by rw [hh, hs2, hq.work, hq1]; simp
      publish := fun i => by rw [hh, hs2, hq.publish, hq1]; simp
      outq := by rw [hoq, hc, hs2, hq.outq, hq1]; simp
      relock := fun i h => by have := (hq.relock i (hh ▸ h)).1; omega
      decrement := fun h => by have := (hq.decrement ((hdec q).mp h)).2; omega }
  · refine (hp.item w).frame (by simp [htr, hw]) (by omega) hn ?_ ?_ (fun i => ?_) (by simp [hh])
      (by simp [hh]) (by simp [hoq, hc]) (by simp [hh]) (hdec w)
    · rcases hqs with ⟨ho, -⟩ | ⟨-, ho⟩
      · rw [ho, List.count_cons_of_ne (Ne.symm hw)]
      · rw [ho]
    · rcases hqs with ⟨-, hu⟩ | ⟨hu, -⟩
      · rw [hu]
      · rw [hu, List.count_cons_of_ne (Ne.symm hw)]
    · rw [hi, Function.update_apply]; split <;> simp_all [Ne.symm hw]

theorem free (hp : Places x) {o : List PoolWork} (ho : x.ordered = q :: o) (hb : q.type = wtBar) :
    Places (x.free q o) := by
  have hq : Item x q := hp.item q
  have hq1 := hq.of_ordered (by simp [ho])
  obtain ⟨htr, hst, hu⟩ := hp.snoc (q := q) (y := x.free q o) rfl (by omega)
    (fun w => by rw [free_mem_path]; exact ⟨And.left, fun h => ⟨h, h ▸ hb⟩⟩)
  refine ⟨hp.nthreads_pos, hu, fun w => ?_⟩
  by_cases hw : q = w
  · subst hw
    have hs2 : (x.free q o).stage q = 2 := by simp [hst, hq1]
    have hc := hq.ordered
    rw [ho, List.count_cons_self, if_pos hq1] at hc
    exact {
      trail := by rw [htr, if_pos rfl]; exact hq.snoc (by rw [hq1.1, path_bar hb]; rfl)
      submitted := fun _ => hq.submitted (by omega)
      ordered := by rw [hs2]; simp only [Items.free]; simp; omega
      unordered := by rw [hs2]; simp only [Items.free, hq.unordered, hq1.1]; simp [hb, wtBar, wtUnord]
      inq := fun i => by rw [hs2]; simp only [Items.free, hq.inq, hq1.1]; simp [hb]
      work := fun i => by rw [hs2]; simp only [Items.free, hq.work, hq1.1]; simp
      publish := fun i => by rw [hs2]; simp only [Items.free, hq.publish, hq1.1]; simp
      outq := by rw [hs2]; simp only [Items.free, hq.outq, hq1.1]; simp
      relock := fun i h => by have := (hq.relock i h).1; omega
      decrement := fun h => by
        simp only [Items.free, List.mem_append, List.mem_singleton, reduceCtorEq, or_false] at h
        have := (hq.decrement h).2; omega }
  · refine (hp.item w).frame (by simp [htr, hw]) le_rfl rfl ?_ rfl (fun _ => rfl) (fun _ => Iff.rfl)
      (fun _ => Iff.rfl) rfl (fun _ => id) (by simp [Items.free])
    simp [Items.free, ho, List.count_cons_of_ne (Ne.symm hw)]

theorem start (hp : Places x) {i : Nat} {rest : List PoolWork} (hh : x.holds i = .none)
    (hi : x.inq i = q :: rest) : Places (x.start i q rest) := by
  have hq : Item x q := hp.item q
  obtain ⟨hq2, hnb, rfl⟩ := hq.of_inq (i := i) (by simp [hi])
  obtain ⟨htr, hst, hu⟩ := hp.snoc (q := q) (y := x.start q.threadId q rest) rfl (by omega)
    (fun w => by simp only [start_mem_path, finish_mem_path, publish_mem_path, done_mem_path]; exact ⟨And.left, fun h => ⟨h, h ▸ hnb⟩⟩)
  refine ⟨hp.nthreads_pos, hu, fun w => ?_⟩
  by_cases hw : q = w
  · subst hw
    have hs3 : (x.start q.threadId q rest).stage q = 3 := by simp [hst, hq2]
    have hc := hq.inq q.threadId
    rw [hi, List.count_cons_self, if_pos ⟨hq2, hnb, rfl⟩] at hc
    exact {
      trail := by rw [htr, if_pos rfl]; exact hq.snoc (by rw [hq2, path_nonBar hnb]; rfl)
      submitted := fun _ => hq.submitted (by omega)
      ordered := by rw [hs3]; simp only [Items.start, hq.ordered, hq2]; simp
      unordered := by rw [hs3]; simp only [Items.start, hq.unordered, hq2]; simp
      inq := fun j => by
        rw [hs3]; simp only [Items.start, Function.update_apply]
        split
        · simp; omega
        · rw [hq.inq, hq2]; simp [*]
      work := fun j => by
        rw [hs3]; simp only [Items.start, Function.update_apply]
        split
        · simp [*]
        · rw [hq.work, hq2]; simp [*]
      publish := fun j => by
        rw [hs3]; simp only [Items.start, Function.update_apply]
        split
        · simp
        · rw [hq.publish, hq2]; simp
      outq := by rw [hs3]; simp only [Items.start, hq.outq, hq2]; simp
      relock := fun j h => by
        simp only [Items.start, Function.update_apply] at h
        split at h
        · cases h
        · have := (hq.relock j h).1; omega
      decrement := fun h => by
        simp only [Items.start, List.mem_append, List.mem_singleton, reduceCtorEq, or_false] at h
        have := (hq.decrement h).2; omega }
  · refine (hp.item w).frame (by simp [htr, hw]) le_rfl rfl rfl rfl (fun j => ?_)
      (fun j => update_hold_iff (by simpa using hw) (by simp [hh]))
      (fun j => update_hold_iff (by simp) (by simp [hh])) rfl
      (fun j => update_hold_imp (by simp)) (by simp [Items.start])
    simp only [Items.start, Function.update_apply]
    split
    · subst j; rw [hi, List.count_cons_of_ne (Ne.symm hw)]
    · rfl

theorem finish (hp : Places x) {i : Nat} (hh : x.holds i = .work q) : Places (x.finish i q) := by
  have hq : Item x q := hp.item q
  obtain ⟨hq3, rfl⟩ := (hq.work i).mp hh
  have hnb := hq.nonBar (by omega)
  obtain ⟨htr, hst, hu⟩ := hp.snoc (q := q) (y := x.finish q.threadId q) rfl (by omega)
    (fun w => by simp only [start_mem_path, finish_mem_path, publish_mem_path, done_mem_path]; exact ⟨And.left, fun h => ⟨h, h ▸ hnb⟩⟩)
  refine ⟨hp.nthreads_pos, hu, fun w => ?_⟩
  by_cases hw : q = w
  · subst hw
    have hs4 : (x.finish q.threadId q).stage q = 4 := by simp [hst, hq3]
    exact {
      trail := by rw [htr, if_pos rfl]; exact hq.snoc (by rw [hq3, path_nonBar hnb]; rfl)
      submitted := fun _ => hq.submitted (by omega)
      ordered := by rw [hs4]; simp only [Items.finish, hq.ordered, hq3]; simp
      unordered := by rw [hs4]; simp only [Items.finish, hq.unordered, hq3]; simp
      inq := fun j => by rw [hs4]; simp only [Items.finish, hq.inq, hq3]; simp
      work := fun j => by
        rw [hs4]; simp only [Items.finish, Function.update_apply]
        split
        · simp
        · rw [hq.work]; simp [*]
      publish := fun j => by
        rw [hs4]; simp only [Items.finish, Function.update_apply]
        split
        · simp [*]
        · rw [hq.publish, hq3]; simp [*]
      outq := by rw [hs4]; simp only [Items.finish, hq.outq, hq3]; simp
      relock := fun j h => by
        simp only [Items.finish, Function.update_apply] at h
        split at h
        · cases h
        · have := (hq.relock j h).1; omega
      decrement := fun h => by
        simp only [Items.finish, List.mem_append, List.mem_singleton, reduceCtorEq, or_false] at h
        have := (hq.decrement h).2; omega }
  · refine (hp.item w).frame (by simp [htr, hw]) le_rfl rfl rfl rfl (fun _ => rfl)
      (fun j => update_hold_iff (by simp) (by simp [hh, hw]))
      (fun j => update_hold_iff (by simpa using hw) (by simp [hh])) rfl
      (fun j => update_hold_imp (by simp)) (by simp [Items.finish])

theorem publish (hp : Places x) {i : Nat} (hh : x.holds i = .publish q) : Places (x.publish i q) := by
  have hq : Item x q := hp.item q
  obtain ⟨hq4, rfl⟩ := (hq.publish i).mp hh
  have hnb := hq.nonBar (by omega)
  obtain ⟨htr, hst, hu⟩ := hp.snoc (q := q) (y := x.publish q.threadId q) rfl (by omega)
    (fun w => by simp only [start_mem_path, finish_mem_path, publish_mem_path, done_mem_path]; exact ⟨And.left, fun h => ⟨h, h ▸ hnb⟩⟩)
  refine ⟨hp.nthreads_pos, hu, fun w => ?_⟩
  by_cases hw : q = w
  · subst hw
    have hs5 : (x.publish q.threadId q).stage q = 5 := by simp [hst, hq4]
    have hd : .decrement q ∉ x.log := fun h => by have := (hq.decrement h).2; omega
    exact {
      trail := by rw [htr, if_pos rfl]; exact hq.snoc (by rw [hq4, path_nonBar hnb]; rfl)
      submitted := fun _ => hq.submitted (by omega)
      ordered := by rw [hs5]; simp only [Items.publish, hq.ordered, hq4]; simp
      unordered := by rw [hs5]; simp only [Items.publish, hq.unordered, hq4]; simp
      inq := fun j => by rw [hs5]; simp only [Items.publish, hq.inq, hq4]; simp
      work := fun j => by
        rw [hs5]; simp only [Items.publish, Function.update_apply]
        split
        · simp
        · rw [hq.work, hq4]; simp
      publish := fun j => by
        rw [hs5]; simp only [Items.publish, Function.update_apply]
        split
        · simp
        · rw [hq.publish]; simp [*]
      outq := by
        have := hq.outq
        rw [if_neg (by omega)] at this
        rw [hs5]; simp only [Items.publish, List.count_append]; simp; omega
      relock := fun j h => by
        rw [hs5]
        by_cases hj : j = q.threadId
        · exact ⟨le_rfl, hj, by simp [Items.publish, hd]⟩
        · simp only [Items.publish, Function.update_noteq hj] at h
          have := (hq.relock j h).1; omega
      decrement := fun h => by simp [Items.publish, hd] at h }
  · refine (hp.item w).frame (by simp [htr, hw]) le_rfl rfl rfl rfl (fun _ => rfl)
      (fun j => update_hold_iff (by simp) (by simp [hh]))
      (fun j => update_hold_iff (by simp) (by simp [hh, hw])) (by simp [Items.publish, Ne.symm hw])
      (fun j => update_hold_imp (by simpa using hw)) (by simp [Items.publish])

theorem release (hp : Places x) {i : Nat} {w : PoolWork} (hh : x.holds i = .relock w) :
    Places (x.release i) := by
  refine ⟨hp.nthreads_pos, hp.unique, fun w' => (hp.item w').frame rfl le_rfl rfl rfl rfl (fun _ => rfl)
    (fun j => update_hold_iff (by simp) (by simp [hh])) (fun j => update_hold_iff (by simp) (by simp [hh]))
    rfl (fun j => update_hold_imp (by simp)) Iff.rfl⟩

theorem decrement (hp : Places x) {i : Nat} (hh : x.holds i = .relock q) (hb : wtBar < q.type) :
    Places (x.decrement i q) := by
  have hq : Item x q := hp.item q
  have hframe : ∀ w j, (x.decrement i q).holds j = .relock w → x.holds j = .relock w ∧ j ≠ i :=
    fun w j h => ⟨update_hold_imp (by simp) h, by rintro rfl; simp [Items.decrement] at h⟩
  have htr : ∀ w, (x.decrement i q).trail w = x.trail w := fun w => by
    rw [trail_of_log (E := [.decrement q]) rfl]; simp
  have hst := fun w => stage_of_trail (htr w)
  refine ⟨hp.nthreads_pos, fun w w' => by rw [hst, hst]; exact hp.unique w w', fun w => ?_⟩
  have hw' : ∀ j, (x.decrement i q).holds j = .work w ↔ x.holds j = .work w :=
    fun j => update_hold_iff (by simp) (by simp [hh])
  have hp' : ∀ j, (x.decrement i q).holds j = .publish w ↔ x.holds j = .publish w :=
    fun j => update_hold_iff (by simp) (by simp [hh])
  by_cases hw : q = w
  · subst hw
    obtain ⟨h5, hi, -⟩ := hq.relock i hh
    exact {
      trail := htr q ▸ hq.trail
      submitted := fun h => hq.submitted (by rwa [hst] at h)
      ordered := by rw [hst]; exact hq.ordered
      unordered := by rw [hst]; exact hq.unordered
      inq := fun j => by rw [hst]; exact hq.inq j
      work := fun j => by rw [hw', hst]; exact hq.work j
      publish := fun j => by rw [hp', hst]; exact hq.publish j
      outq := by rw [hst]; exact hq.outq
      relock := fun j h => by
        obtain ⟨h', hne⟩ := hframe q j h
        exact absurd ((hq.relock j h').2.1.trans hi.symm) hne
      decrement := fun _ => ⟨hb, by rw [hst]; exact h5⟩ }
  · exact (hp.item w).frame (htr w) le_rfl rfl rfl rfl (fun _ => rfl) hw' hp' rfl
      (fun j h => (hframe w j h).1) (by simp [Items.decrement, Ne.symm hw])

theorem collect (hp : Places x) (hc : x.completed = []) : Places x.collect :=
  ⟨hp.nthreads_pos, hp.unique, fun w => (hp.item w).frame rfl le_rfl rfl rfl rfl (fun _ => rfl)
    (fun _ => Iff.rfl) (fun _ => Iff.rfl) (by simp [Items.collect, hc]) (fun _ => id) Iff.rfl⟩

theorem done (hp : Places x) {rest : List PoolWork} (hc : x.completed = q :: rest) :
    Places (x.done q rest) := by
  have hq : Item x q := hp.item q
  have hq5 := hq.of_completed (by simp [hc])
  have hnb := hq.nonBar (by omega)
  obtain ⟨htr, hst, hu⟩ := hp.snoc (q := q) (y := x.done q rest) rfl (by omega)
    (fun w => by simp only [start_mem_path, finish_mem_path, publish_mem_path, done_mem_path]; exact ⟨And.left, fun h => ⟨h, h ▸ hnb⟩⟩)
  refine ⟨hp.nthreads_pos, hu, fun w => ?_⟩
  by_cases hw : q = w
  · subst hw
    have hs6 : (x.done q rest).stage q = 6 := by simp [hst, hq5]
    have ho := hq.outq
    rw [hc, List.count_cons_self, if_pos hq5] at ho
    exact {
      trail := by rw [htr, if_pos rfl]; exact hq.snoc (by rw [hq5, path_nonBar hnb]; rfl)
      submitted := fun _ => hq.submitted (by omega)
      ordered := by rw [hs6]; simp only [Items.done, hq.ordered, hq5]; simp
      unordered := by rw [hs6]; simp only [Items.done, hq.unordered, hq5]; simp
      inq := fun j => by rw [hs6]; simp only [Items.done, hq.inq, hq5]; simp
      work := fun j => by rw [hs6]; simp only [Items.done, hq.work, hq5]; simp
      publish := fun j => by rw [hs6]; simp only [Items.done, hq.publish, hq5]; simp
      outq := by rw [hs6]; simp only [Items.done]; simp; omega
      relock := fun j h => by
        obtain ⟨-, hi, hd⟩ := hq.relock j h
        exact ⟨by omega, hi, by simp [Items.done, hd]⟩
      decrement := fun h => by
        simp only [Items.done, List.mem_append, List.mem_singleton, reduceCtorEq, or_false] at h
        exact ⟨(hq.decrement h).1, by omega⟩ }
  · refine (hp.item w).frame (by simp [htr, hw]) le_rfl rfl rfl rfl (fun _ => rfl) (fun _ => Iff.rfl)
      (fun _ => Iff.rfl) ?_ (fun _ => id) (by simp [Items.done])
    simp [Items.done, hc, List.count_cons_of_ne (Ne.symm hw)]

theorem move (hp : Places x) (h : Move x y) : Places y := by
  cases h with
  | submit type cookie _ => exact hp.submit _ rfl (Nat.mod_lt _ hp.nthreads_pos)
  | drain hbar hq =>
    rcases qosPop_eq hq with ⟨ho, rfl, -⟩ | ⟨hu, rfl, -⟩
    · exact hp.dispatch (E := choice x.qos x.ordered x.unordered) (by simp [Items.drain, Items.deliver])
        (fun e he => by unfold choice at he; split at he <;> simp_all) (hbar _ _ ho) (.inl ⟨ho, rfl⟩)
        rfl rfl rfl rfl rfl rfl
    · have hk := (hp.item _).of_unordered (hu ▸ List.mem_cons_self _ _)
      exact hp.dispatch (E := choice x.qos x.ordered x.unordered) (by simp [Items.drain, Items.deliver])
        (fun e he => by unfold choice at he; split at he <;> simp_all)
        (by rw [hk.2]; decide) (.inr ⟨hu, rfl⟩) rfl rfl rfl rfl rfl rfl
  | flush hu =>
    have hk := (hp.item _).of_unordered (hu ▸ List.mem_cons_self _ _)
    exact hp.dispatch (E := []) (by simp [Items.deliver]) (by simp) (by rw [hk.2]; decide)
      (.inr ⟨hu, rfl⟩) rfl rfl rfl rfl rfl rfl
  | free _ _ ho hb => exact hp.free ho hb
  | start _ hh hq => exact hp.start hh hq
  | finish hh => exact hp.finish hh
  | publish hh => exact hp.publish hh
  | release hh _ => exact hp.release hh
  | decrement hh hb _ => exact hp.decrement hh hb
  | collect hc => exact hp.collect hc
  | done hc _ => exact hp.done hc

end Places

theorem Reach.places {x : Items} (h : Reach x) : Places x := by
  induction h with
  | init n hn => exact .init hn
  | move _ hm ih => exact ih.move hm

end Items

end Dqlite
