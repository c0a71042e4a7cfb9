import Dqlite.Theorems.Counters

/-! # The order of events

What happened before what, read off the log: `[e₁, e₂] <+ log` says that `e₁` was logged before
`e₂`. Every event of an item's path is logged at most once, so this order is strict on them.

Three invariants of the item machine hold in every reachable pool. `Fifo`: the producer queues are
in submission order, an inbox in the order of its dispatches, and `work_done`'s queue followed by
`outq` in the order of the publications. `Classes`: `pool_work_submit`'s `PRE` puts a barrier between
two ordered items of different classes. `Happens`: the rules of `Rule` (a producer queue is left in
submission order, a worker runs its inbox in order, `queue_done` runs in the order of `outq`, and a
barrier is freed only once what was submitted before it left the producer queues and what was
ordered before it decremented `in_flight`) hold of the whole log. -/

namespace Dqlite

open scoped List
open Function (update)

/-! ### Two events in order -/

section Pair

variable {α : Type} {a b c : α} {l E : List α}

theorem pair_sublist_iff : [a, b] <+ l ↔ ∃ l₁ l₂, l = l₁ ++ l₂ ∧ a ∈ l₁ ∧ b ∈ l₂ := by
  rw [List.cons_sublist_iff]; simp only [List.singleton_sublist]

theorem pair_sublist_append_iff :
    [a, b] <+ l ++ E ↔ [a, b] <+ l ∨ a ∈ l ∧ b ∈ E ∨ [a, b] <+ E := by
  constructor
  · intro h
    obtain ⟨l₁, l₂, h, h₁, h₂⟩ := List.sublist_append_iff.mp h
    rcases l₁ with _ | ⟨x, _ | ⟨y, _ | ⟨z, l₁⟩⟩⟩
    · simp only [List.nil_append] at h; subst h; exact .inr (.inr h₂)
    · simp only [List.singleton_append, List.cons.injEq] at h
      obtain ⟨rfl, rfl⟩ := h
      exact .inr (.inl ⟨List.singleton_sublist.mp h₁, List.singleton_sublist.mp h₂⟩)
    · simp only [List.cons_append, List.nil_append, List.cons.injEq, List.append_eq_nil] at h
      obtain ⟨rfl, rfl, -, rfl⟩ := h
      exact .inl h₁
    · simp at h
  · rintro (h | ⟨ha, hb⟩ | h)
    · exact List.sublist_append_of_sublist_left h
    · exact pair_sublist_iff.mpr ⟨l, E, rfl, ha, hb⟩
    · exact List.sublist_append_of_sublist_right h

theorem pair_sublist_append_of_not_mem (h : [a, b] <+ l ++ E) (hb : b ∉ E) : [a, b] <+ l := by
  rcases pair_sublist_append_iff.mp h with h | ⟨-, h⟩ | h
  · exact h
  · exact absurd h hb
  · exact absurd (h.subset (by simp)) hb

theorem pair_sublist_snoc_iff : [a, b] <+ l ++ [c] ↔ [a, b] <+ l ∨ a ∈ l ∧ b = c := by
  rw [pair_sublist_append_iff, List.mem_singleton]
  refine or_congr_right ⟨fun h => h.elim id fun h => ?_, .inl⟩
  have := h.length_le
  simp at this

theorem pair_sublist_take (hl : l.Nodup) (h : [a, b] <+ l) {n : Nat} (hb : b ∈ l.take n) :
    [a, b] <+ l.take n := by
  rw [← List.take_append_drop n l] at h hl
  have hd := List.disjoint_of_nodup_append hl
  rcases pair_sublist_append_iff.mp h with h | ⟨-, h⟩ | h
  · exact h
  · exact absurd h (hd hb)
  · exact absurd (h.subset (by simp)) (hd hb)

theorem mem_take_iff_of_nodup (hl : l.Nodup) {k n : Nat} (hk : l[k]? = some a) : a ∈ l.take n ↔ k < n := by
  obtain ⟨hk', rfl⟩ := List.getElem?_eq_some_iff.mp hk
  rw [List.mem_take_iff_getElem]
  constructor
  · rintro ⟨i, hi, he⟩
    have := (hl.getElem_inj_iff).mp he
    omega
  · exact fun hkn => ⟨k, by omega, rfl⟩

theorem pair_sublist_of_getElem? {i j : Nat} (ha : l[i]? = some a) (hb : l[j]? = some b) (hij : i < j) :
    [a, b] <+ l :=
  pair_sublist_iff.mpr ⟨l.take j, l.drop j, (List.take_append_drop j l).symm,
    List.getElem?_mem (by rw [List.getElem?_take_of_lt hij, ha]),
    List.getElem?_mem (by rw [List.getElem?_drop, Nat.add_zero, hb])⟩

theorem pair_sublist_or (ha : a ∈ l) (hb : b ∈ l) (hab : a ≠ b) : [a, b] <+ l ∨ [b, a] <+ l := by
  induction l with
  | nil => simp at ha
  | cons x l ih =>
    rcases List.mem_cons.mp ha with rfl | ha' <;> rcases List.mem_cons.mp hb with rfl | hb'
    · exact absurd rfl hab
    · exact .inl (List.cons_sublist_cons.mpr (List.singleton_sublist.mpr hb'))
    · exact .inr (List.cons_sublist_cons.mpr (List.singleton_sublist.mpr ha'))
    · exact (ih ha' hb').imp (·.cons x) (·.cons x)

variable [DecidableEq α]

theorem count_two_of_pair (h : [a, a] <+ l) : 2 ≤ l.count a := by
  simpa using h.count_le a

theorem pair_sublist_trans (hb : l.count b ≤ 1) (h₁ : [a, b] <+ l) (h₂ : [b, c] <+ l) :
    [a, c] <+ l := by
  obtain ⟨l₁, l₂, rfl, ha, hb₂⟩ := pair_sublist_iff.mp h₁
  obtain ⟨r₁, r₂, he, hb₁, hc⟩ := pair_sublist_iff.mp h₂
  rcases List.append_eq_append_iff.mp he with ⟨m, rfl, rfl⟩ | ⟨m, rfl, rfl⟩
  · exact pair_sublist_iff.mpr ⟨l₁ ++ m, r₂, by simp, by simp [ha], hc⟩
  · have : 2 ≤ (r₁ ++ m ++ l₂).count b := by
      have h₁ := List.count_pos_iff.mpr hb₁
      have h₂ := List.count_pos_iff.mpr hb₂
      simp only [List.count_append]; omega
    omega

theorem pair_sublist_antisymm (ha : l.count a ≤ 1) (hb : l.count b ≤ 1) (h₁ : [a, b] <+ l)
    (h₂ : [b, a] <+ l) : False := by
  have := count_two_of_pair (pair_sublist_trans hb h₁ h₂)
  omega

end Pair

/-- The events a rule waits for: neither the return of a `work_cb`, nor a decrement, nor a choice of
    `qos_pop`. -/
def Event.Loud : Event → Prop
  | .finish _ | .decrement _ | .qos _ => False
  | _ => True

namespace Items

variable {x y : Items} {w q : PoolWork}

/-! ### Where an item's events are -/

namespace Item

theorem mem_log_iff (h : Item x w) {k : Nat} {e : Event} (hk : (path w)[k]? = some e) :
    e ∈ x.log ↔ k < x.stage w := by
  rw [← List.count_pos_iff, h.count_path (List.getElem?_mem hk), List.count_pos_iff]
  exact mem_take_iff_of_nodup (path_nodup w) hk

theorem pair (h : Item x w) {e₁ e₂ : Event} (h12 : [e₁, e₂] <+ path w) (he : e₂ ∈ x.log) :
    [e₁, e₂] <+ x.log := by
  have ht : x.trail w = (path w).take (x.stage w) := by
    rw [stage_eq_length]; exact List.prefix_iff_eq_take.mp h.trail
  have hm : e₂ ∈ (path w).take (x.stage w) := by
    rw [← List.count_pos_iff, ← h.count_path (h12.subset (by simp)), List.count_pos_iff]; exact he
  have h12' := pair_sublist_take (path_nodup w) h12 hm
  rw [← ht] at h12'
  exact h12'.trans (List.filter_sublist _)

theorem submit_mem_iff (h : Item x w) : .submit w ∈ x.log ↔ 0 < x.stage w :=
  h.mem_log_iff (by unfold path; split <;> rfl)

theorem pair_of_lt (h : Item x w) {i j : Nat} {e₁ e₂ : Event} (hi : (path w)[i]? = some e₁)
    (hj : (path w)[j]? = some e₂) (hij : i < j) (he : e₂ ∈ x.log) : [e₁, e₂] <+ x.log :=
  h.pair (pair_sublist_of_getElem? hi hj hij) he

end Item

/-! ### The queues keep their order -/

/-- The producer queues are in submission order (the order of the serial numbers), each inbox in
    the order of its dispatches, and `work_done`'s queue followed by `outq` in the order of the
    publications. -/
structure Fifo (x : Items) : Prop where
  submit : ∀ a b, [.submit a, .submit b] <+ x.log → a.id < b.id
  ordered : x.ordered.Pairwise fun a b => a.id < b.id
  unordered : x.unordered.Pairwise fun a b => a.id < b.id
  inq : ∀ i, (x.inq i).Pairwise fun a b => [.dispatch a, .dispatch b] <+ x.log
  outq : (x.completed ++ x.outq).Pairwise fun a b => [.publish a, .publish b] <+ x.log

namespace Fifo

theorem init (n : Nat) : Fifo (init n) :=
  ⟨fun _ _ h => absurd h.length_le (by simp [Items.init]), .nil, .nil, fun _ => .nil, .nil⟩

theorem extend (hf : Fifo x) {E : List Event} (hl : y.log = x.log ++ E) (hE : ∀ a, .submit a ∉ E) :
    (∀ a b, [.submit a, .submit b] <+ y.log → a.id < b.id) ∧
    (∀ i, y.inq i = x.inq i → (y.inq i).Pairwise fun a b => [.dispatch a, .dispatch b] <+ y.log) ∧
    (y.completed ++ y.outq = x.completed ++ x.outq →
      (y.completed ++ y.outq).Pairwise fun a b => [.publish a, .publish b] <+ y.log) := by
  have hs : x.log <+ y.log := hl ▸ List.sublist_append_left _ _
  refine ⟨fun a b h => hf.submit a b (pair_sublist_append_of_not_mem (hl ▸ h) (hE b)),
    fun i hi => hi ▸ (hf.inq i).imp (·.trans hs), fun hq => hq ▸ hf.outq.imp (·.trans hs)⟩

theorem mono {l : List PoolWork} {f : PoolWork → Event} {L L' : List Event}
    (h : l.Pairwise fun a b => [f a, f b] <+ L) (hL : L <+ L') : l.Pairwise fun a b => [f a, f b] <+ L' :=
  h.imp (·.trans hL)

theorem snoc_id {l : List PoolWork} (h : l.Pairwise fun a b => a.id < b.id) (hw : ∀ a ∈ l, a.id < w.id) :
    (l ++ [w]).Pairwise fun a b => a.id < b.id :=
  List.pairwise_append.mpr ⟨h, List.pairwise_singleton _ _, fun a ha b hb => by
    obtain rfl := List.mem_singleton.mp hb; exact hw a ha⟩

theorem snoc_log {l : List PoolWork} {f : PoolWork → Event} {L : List Event}
    (h : l.Pairwise fun a b => [f a, f b] <+ L) (hw : ∀ a ∈ l, f a ∈ L) (E : List Event) :
    (l ++ [w]).Pairwise fun a b => [f a, f b] <+ L ++ (E ++ [f w]) :=
  List.pairwise_append.mpr ⟨mono h (List.sublist_append_left _ _), List.pairwise_singleton _ _,
    fun a ha b hb => by
      obtain rfl := List.mem_singleton.mp hb
      exact pair_sublist_iff.mpr ⟨L ++ E, [f b], by simp, List.mem_append_left _ (hw a ha), by simp⟩⟩

theorem dispatch (hp : Places x) (hf : Fifo x) {E : List Event} (hl : y.log = x.log ++ (E ++ [.dispatch q]))
    (hE : ∀ e ∈ E, ∃ b, e = .qos b)
    (hqs : x.ordered = q :: y.ordered ∧ y.unordered = x.unordered ∨
      x.unordered = q :: y.unordered ∧ y.ordered = x.ordered)
    (hi : y.inq = update x.inq q.threadId (x.inq q.threadId ++ [q])) (hc : y.completed = x.completed)
    (ho : y.outq = x.outq) : Fifo y := by
  obtain ⟨hs, hi', hq'⟩ := hf.extend hl fun a h => by
    rcases List.mem_append.mp h with h | h
    · obtain ⟨b, hb⟩ := hE _ h; cases hb
    · simp at h
  refine ⟨hs, ?_, ?_, fun i => ?_, hq' (by rw [hc, ho])⟩
  · rcases hqs with ⟨ho, -⟩ | ⟨-, ho⟩
    · exact (ho ▸ hf.ordered).of_cons
    · exact ho ▸ hf.ordered
  · rcases hqs with ⟨-, hu⟩ | ⟨hu, -⟩
    · exact hu ▸ hf.unordered
    · exact (hu ▸ hf.unordered).of_cons
  · by_cases h : i = q.threadId
    · subst h
      rw [hi, Function.update_same, hl]
      refine snoc_log (hf.inq _) (fun a ha => ?_) E
      have hk := (hp.item a).of_inq ha
      exact ((hp.item a).mem_log_iff (k := 1) (by simp [path_nonBar hk.2.1])).mpr (by omega)
    · exact hi' i (by rw [hi, Function.update_noteq h])

theorem move (hp : Places x) (hf : Fifo x) (h : Move x y) : Fifo y := by
  cases h with
  | submit type cookie _ =>
    have hfresh : ∀ a, 0 < x.stage a → a.id < x.serial := fun a ha => ((hp.item a).submitted ha).1
    have hl : (x.submit ⟨x.serial, type, cookie % x.nthreads⟩).log =
      x.log ++ [.submit ⟨x.serial, type, cookie % x.nthreads⟩] := rfl
    refine ⟨fun a b h => ?_, ?_, ?_, fun i => mono (hf.inq i) (hl ▸ List.sublist_append_left _ _),
      mono hf.outq (hl ▸ List.sublist_append_left _ _)⟩
    · rcases pair_sublist_snoc_iff.mp (hl ▸ h) with h | ⟨ha, hb⟩
      · exact hf.submit a b h
      · cases hb
        exact hfresh a ((hp.item a).submit_mem_iff.mp ha)
    · show (if type = wtUnord then x.ordered else x.ordered ++ [_]).Pairwise _
      split
      · exact hf.ordered
      · exact snoc_id hf.ordered fun a ha => hfresh a (by have := (hp.item a).of_ordered ha; omega)
    · show (if type = wtUnord then x.unordered ++ [_] else x.unordered).Pairwise _
      split
      · exact snoc_id hf.unordered fun a ha => hfresh a (by have := (hp.item a).of_unordered ha; omega)
      · exact hf.unordered
  | drain hbar hq =>
    rcases qosPop_eq hq with ⟨ho, rfl, -⟩ | ⟨hu, rfl, -⟩
    · exact hf.dispatch hp (E := choice x.qos x.ordered x.unordered) (by simp [Items.drain, Items.deliver])
        Counters.choice_qos (.inl ⟨ho, rfl⟩) rfl rfl rfl
    · exact hf.dispatch hp (E := choice x.qos x.ordered x.unordered) (by simp [Items.drain, Items.deliver])
        Counters.choice_qos (.inr ⟨hu, rfl⟩) rfl rfl rfl
  | flush hu =>
    exact hf.dispatch hp (E := []) (by simp [Items.deliver]) (by simp) (.inr ⟨hu, rfl⟩) rfl rfl rfl
  | free _ _ ho _ =>
    obtain ⟨hs, hi', hq'⟩ := hf.extend (y := x.free _ _) rfl (by simp)
    exact ⟨hs, (ho ▸ hf.ordered).of_cons, hf.unordered, fun i => hi' i rfl, hq' rfl⟩
  | @start i q rest _ _ hq =>
    obtain ⟨hs, hi', hq'⟩ := hf.extend (y := x.start i q rest) rfl (by simp)
    refine ⟨hs, hf.ordered, hf.unordered, fun j => ?_, hq' rfl⟩
    by_cases hj : j = i
    · subst hj
      simp only [Items.start, Function.update_same]
      exact mono (hq ▸ hf.inq j).of_cons (List.sublist_append_left _ _)
    · exact hi' j (by simp [Items.start, Function.update_noteq hj])
  | finish _ =>
    obtain ⟨hs, hi', hq'⟩ := hf.extend (y := x.finish _ _) rfl (by simp)
    exact ⟨hs, hf.ordered, hf.unordered, fun i => hi' i rfl, hq' rfl⟩
  | @publish i w hh =>
    obtain ⟨hs, hi', -⟩ := hf.extend (y := x.publish i w) rfl (by simp)
    refine ⟨hs, hf.ordered, hf.unordered, fun i => hi' i rfl, ?_⟩
    show (x.completed ++ (x.outq ++ [w])).Pairwise _
    rw [← List.append_assoc]
    refine snoc_log hf.outq (fun a ha => ?_) []
    have h5 : x.stage a = 5 := by
      rcases List.mem_append.mp ha with ha | ha
      · exact (hp.item a).of_completed ha
      · exact (hp.item a).of_outq ha
    exact ((hp.item a).mem_log_iff (k := 4) (by simp [path_nonBar ((hp.item a).nonBar (by omega))])).mpr
      (by omega)
  | release _ _ =>
    obtain ⟨hs, hi', hq'⟩ := hf.extend (E := []) (y := x.release _) (by simp [Items.release]) (by simp)
    exact ⟨hs, hf.ordered, hf.unordered, fun i => hi' i rfl, hq' rfl⟩
  | decrement _ _ _ =>
    obtain ⟨hs, hi', hq'⟩ := hf.extend (y := x.decrement _ _) rfl (by simp)
    exact ⟨hs, hf.ordered, hf.unordered, fun i => hi' i rfl, hq' rfl⟩
  | collect hc =>
    obtain ⟨hs, hi', hq'⟩ := hf.extend (E := []) (y := x.collect) (by simp [Items.collect]) (by simp)
    exact ⟨hs, hf.ordered, hf.unordered, fun i => hi' i rfl, hq' (by simp [Items.collect, hc])⟩
  | done hc _ =>
    obtain ⟨hs, hi', -⟩ := hf.extend (y := x.done _ _) rfl (by simp)
    refine ⟨hs, hf.ordered, hf.unordered, fun i => hi' i rfl, ?_⟩
    have h := hf.outq
    rw [hc, List.cons_append] at h
    exact mono h.of_cons (List.sublist_append_left _ _)

end Fifo

theorem Reach.fifo {x : Items} (h : Reach x) : Fifo x := by
  induction h with
  | init n _ => exact .init n
  | move hx hm ih => exact ih.move hx.places hm

/-! ### Barriers between the ordered classes -/

/-- What `pool_work_submit`'s `PRE` on `o_prev` gives: since an ordered item was submitted, either
    every ordered submission after it was of its class, or a barrier was submitted after it; so a
    barrier stands between any two ordered items of different classes. -/
structure Classes (x : Items) : Prop where
  last : ∀ a, wtOrd1 ≤ a.type → .submit a ∈ x.log →
    x.oPrev = a.type ∨ ∃ B, B.type = wtBar ∧ [.submit a, .submit B] <+ x.log
  separated : ∀ a b, wtOrd1 ≤ a.type → wtOrd1 ≤ b.type → a.type ≠ b.type → [.submit a, .submit b] <+ x.log →
    ∃ B, B.type = wtBar ∧ [.submit a, .submit B] <+ x.log ∧ [.submit B, .submit b] <+ x.log

namespace Classes

theorem init (n : Nat) : Classes (init n) :=
  ⟨fun _ _ h => by simp [Items.init] at h, fun _ _ _ _ _ h => absurd h.length_le (by simp [Items.init])⟩

theorem extend (hc : Classes x) {E : List Event} (hl : y.log = x.log ++ E) (hE : ∀ a, .submit a ∉ E)
    (ho : y.oPrev = x.oPrev) : Classes y := by
  have hs : x.log <+ y.log := hl ▸ List.sublist_append_left _ _
  refine ⟨fun a ha hm => ?_, fun a b ha hb hab h => ?_⟩
  · rw [hl, List.mem_append] at hm
    rcases hc.last a ha (hm.resolve_right (hE a)) with h | ⟨B, hB, h⟩
    · exact .inl (ho ▸ h)
    · exact .inr ⟨B, hB, h.trans hs⟩
  · obtain ⟨B, hB, h₁, h₂⟩ := hc.separated a b ha hb hab (pair_sublist_append_of_not_mem (hl ▸ h) (hE b))
    exact ⟨B, hB, h₁.trans hs, h₂.trans hs⟩

theorem submit (hc : Classes x) {type cookie : Nat}
    (hpre : wtUnord < type → x.oPrev ≠ wtBar → type ≠ wtBar → x.oPrev = type) :
    Classes (x.submit ⟨x.serial, type, cookie % x.nthreads⟩) := by
  have hl : (x.submit ⟨x.serial, type, cookie % x.nthreads⟩).log =
    x.log ++ [.submit ⟨x.serial, type, cookie % x.nthreads⟩] := rfl
  have hs : x.log <+ (x.submit ⟨x.serial, type, cookie % x.nthreads⟩).log := hl ▸ List.sublist_append_left _ _
  refine ⟨fun a ha hm => ?_, fun a b ha hb hab h => ?_⟩
  · show (if wtUnord < type then type else x.oPrev) = a.type ∨ _
    rw [hl, List.mem_append, List.mem_singleton, Event.submit.injEq] at hm
    rcases hm with hm | rfl
    · rcases hc.last a ha hm with h | ⟨B, hB, h⟩
      · by_cases hu : wtUnord < type
        · by_cases hb : type = wtBar
          · exact .inr ⟨⟨x.serial, type, cookie % x.nthreads⟩, hb,
              hl ▸ pair_sublist_iff.mpr ⟨x.log, _, rfl, hm, by simp⟩⟩
          · rw [if_pos hu, ← hpre hu (by simp only [wtOrd1, wtBar] at ha ⊢; omega) hb]; exact .inl h
        · rw [if_neg hu]; exact .inl h
      · exact .inr ⟨B, hB, h.trans hs⟩
    · exact .inl (if_pos (by simp only [wtOrd1, wtUnord] at ha ⊢; omega))
  · rcases pair_sublist_snoc_iff.mp (hl ▸ h) with h | ⟨hm, hb'⟩
    · obtain ⟨B, hB, h₁, h₂⟩ := hc.separated a b ha hb hab h
      exact ⟨B, hB, h₁.trans hs, h₂.trans hs⟩
    · cases hb'
      rcases hc.last a ha hm with h | ⟨B, hB, h⟩
      · exact absurd (h.symm.trans (hpre (by simp only [wtOrd1, wtUnord] at hb ⊢; omega)
          (by rw [h]; simp only [wtOrd1, wtBar] at ha ⊢; omega)
          (by simp only [wtOrd1, wtBar] at hb ⊢; omega))) hab
      · exact ⟨B, hB, h.trans hs, hl ▸ pair_sublist_iff.mpr ⟨x.log, _, rfl, h.subset (by simp), by simp⟩⟩

theorem move (hc : Classes x) (h : Move x y) : Classes y := by
  cases h with
  | submit _ _ hpre => exact hc.submit hpre
  | @drain q _ _ _ _ _ =>
    refine hc.extend (E := choice x.qos x.ordered x.unordered ++ [.dispatch q])
      (by simp [Items.drain, Items.deliver]) (fun a h => ?_) rfl
    rcases List.mem_append.mp h with h | h
    · obtain ⟨b, hb⟩ := Counters.choice_qos _ h; cases hb
    · simp at h
  | @flush q _ _ => exact hc.extend (E := [.dispatch q]) (by simp [Items.deliver]) (by simp) rfl
  | free => exact hc.extend rfl (by simp) rfl
  | start => exact hc.extend rfl (by simp) rfl
  | finish => exact hc.extend rfl (by simp) rfl
  | publish => exact hc.extend rfl (by simp) rfl
  | release => exact hc.extend (E := []) (by simp [Items.release]) (by simp) rfl
  | decrement => exact hc.extend rfl (by simp) rfl
  | collect => exact hc.extend (E := []) (by simp [Items.collect]) (by simp) rfl
  | done => exact hc.extend rfl (by simp) rfl

end Classes

/-! ### What an item's stage says of its events -/

theorem fresh_dispatch (hp : Places x) (hl : Lawful x) (h0 : x.stage w = 0) : .dispatch w ∉ x.log :=
  fun h => by
    have := ((hp.item w).mem_log_iff (k := 1) (by simp [path_nonBar (hl _ h)])).mp h; omega

theorem fresh_free (hp : Places x) (hl : Lawful x) (h0 : x.stage w = 0) : .free w ∉ x.log :=
  fun h => by
    have := ((hp.item w).mem_log_iff (k := 1) (by simp [path_bar (hl _ h)])).mp h; omega

/-- An item submitted before the head of a producer queue, of the class that goes to that queue,
    has left it: it was dispatched, or freed if it is a barrier. -/
theorem Fifo.left_ordered (hp : Places x) (hf : Fifo x) {o : List PoolWork} (hq : x.ordered = q :: o)
    (ha : w.type ≠ wtUnord) (h0 : 0 < x.stage w) (hid : w.id < q.id) : 2 ≤ x.stage w := by
  refine Nat.not_lt.mp fun h => ?_
  have hm : w ∈ x.ordered := by
    rw [← List.count_pos_iff, (hp.item w).ordered, if_pos ⟨by omega, ha⟩]; exact Nat.one_pos
  rw [hq] at hm
  rcases List.mem_cons.mp hm with rfl | hm
  · omega
  · have := List.rel_of_pairwise_cons (hq ▸ hf.ordered) hm; omega

theorem Fifo.left_unordered (hp : Places x) (hf : Fifo x) {u : List PoolWork} (hq : x.unordered = q :: u)
    (ha : w.type = wtUnord) (h0 : 0 < x.stage w) (hid : w.id < q.id) : 2 ≤ x.stage w := by
  refine Nat.not_lt.mp fun h => ?_
  have hm : w ∈ x.unordered := by
    rw [← List.count_pos_iff, (hp.item w).unordered, if_pos ⟨by omega, ha⟩]; exact Nat.one_pos
  rw [hq] at hm
  rcases List.mem_cons.mp hm with rfl | hm
  · omega
  · have := List.rel_of_pairwise_cons (hq ▸ hf.unordered) hm; omega

/-! ### The happens-before rules -/

/-- Once `p₁` was logged before `p₂`, `e₂` is logged only after `e₁`. -/
def Chain (l : List Event) (p₁ p₂ e₁ e₂ : Event) : Prop := [p₁, p₂] <+ l → e₂ ∈ l → [e₁, e₂] <+ l

/-- The order the pool keeps: once `p₁` was logged before `p₂`, `e₁` is logged before `e₂`. -/
inductive Rule : Event → Event → Event → Event → Prop
  /-- A producer queue is left in submission order. -/
  | queue (a b : PoolWork) (ha : a.type ≠ wtBar) (hb : b.type ≠ wtBar) (hk : a.type = wtUnord ↔ b.type = wtUnord) :
      Rule (.submit a) (.submit b) (.dispatch a) (.dispatch b)
  /-- A worker publishes an item of its inbox before it starts the next. -/
  | worker (a b : PoolWork) (h : a.threadId = b.threadId) : Rule (.dispatch a) (.dispatch b) (.publish a) (.start b)
  /-- `queue_done` runs in the order of the publications. -/
  | outq (a b : PoolWork) : Rule (.publish a) (.publish b) (.done a) (.done b)
  /-- Nothing submitted to `ordered` behind a barrier is dispatched before the barrier is freed. -/
  | behind (B c : PoolWork) (hB : B.type = wtBar) (hc : c.type ≠ wtUnord) :
      Rule (.submit B) (.submit c) (.free B) (.dispatch c)
  /-- An ordered item submitted before a barrier returned from its `work_cb`... -/
  | finished (a B : PoolWork) (ha : wtOrd1 ≤ a.type) : Rule (.submit a) (.submit B) (.finish a) (.free B)
  /-- ... and decremented `in_flight` before the barrier is freed. -/
  | decremented (a B : PoolWork) (ha : wtOrd1 ≤ a.type) :
      Rule (.submit a) (.submit B) (.decrement a) (.free B)
  /-- `unordered` is empty when a barrier is freed. -/
  | flushed (a B : PoolWork) (ha : a.type = wtUnord) : Rule (.submit a) (.free B) (.dispatch a) (.free B)

theorem Rule.loud {p₁ p₂ e₁ e₂ : Event} (h : Rule p₁ p₂ e₁ e₂) : p₂.Loud ∧ e₂.Loud := by
  cases h <;> exact ⟨trivial, trivial⟩

/-- Every rule holds of the log. -/
def Happens (x : Items) : Prop := ∀ {p₁ p₂ e₁ e₂}, Rule p₁ p₂ e₁ e₂ → Chain x.log p₁ p₂ e₁ e₂

section Chain

variable {l E : List Event} {p₁ p₂ e₁ e₂ e : Event}

theorem Chain.append (h : Chain l p₁ p₂ e₁ e₂) (hp : p₂ ∉ E) (he : e₂ ∉ E) : Chain (l ++ E) p₁ p₂ e₁ e₂ :=
  fun hp' he' => List.sublist_append_of_sublist_left
    (h (pair_sublist_append_of_not_mem hp' hp) ((List.mem_append.mp he').resolve_right he))

/-- One more event `e`: a rule that waits for `e` needs its first event logged already, and a rule
    whose premise `e` completes needs its conclusion. -/
theorem Chain.snoc (h : Chain l p₁ p₂ e₁ e₂) (hold : e = e₂ → e₂ ∉ l → [p₁, p₂] <+ l → e₁ ∈ l)
    (hnew : e = p₂ → p₁ ∈ l → e₂ ∈ l ++ [e] → [e₁, e₂] <+ l ++ [e]) : Chain (l ++ [e]) p₁ p₂ e₁ e₂ := by
  intro hp he
  rcases pair_sublist_snoc_iff.mp hp with hp' | ⟨hp₁, rfl⟩
  · by_cases hl : e₂ ∈ l
    · exact List.sublist_append_of_sublist_left (h hp' hl)
    · have he₂ : e₂ = e := by simpa [hl] using he
      subst he₂
      exact pair_sublist_iff.mpr ⟨l, [e₂], rfl, hold rfl hl hp', by simp⟩
  · exact hnew rfl hp₁ he

end Chain

namespace Happens

theorem init (n : Nat) : Happens (init n) := fun _ h => absurd h.length_le (by simp [Items.init])

theorem quiet (hh : Happens x) {E : List Event} (hl : y.log = x.log ++ E) (hE : ∀ e ∈ E, ¬ e.Loud) :
    Happens y := fun hr => hl ▸ (hh hr).append (fun h => hE _ h hr.loud.1) (fun h => hE _ h hr.loud.2)

theorem submit (hp : Places x) (hl : Lawful x) (hh : Happens x) (w₀ : PoolWork) (h0 : x.stage w₀ = 0) :
    Happens (x.submit w₀) := by
  intro p₁ p₂ e₁ e₂ hr
  refine (hh hr).snoc (fun he _ _ => ?_) (fun he _ he₂ => ?_)
  · cases hr <;> cases he
  · have he₂' : e₂ ∈ x.log := (List.mem_append.mp he₂).resolve_right fun h => by
      cases hr <;> cases List.mem_singleton.mp h
    cases hr <;> cases he
    · exact absurd he₂' (fresh_dispatch hp hl h0)
    · exact absurd he₂' (fresh_dispatch hp hl h0)
    · exact absurd he₂' (fresh_free hp hl h0)
    · exact absurd he₂' (fresh_free hp hl h0)

/-- The planner dispatches `q` from the head of `ordered` or `unordered`: what was submitted before
    it to the same queue was dispatched already, a barrier submitted before it to `ordered` was
    freed, and `q` has not started. -/
theorem dispatch (hp : Places x) (hf : Fifo x) (hh : Happens x) {E : List Event}
    (hlog : y.log = x.log ++ (E ++ [.dispatch q])) (hE : ∀ e ∈ E, ∃ b, e = .qos b) (hnb : q.type ≠ wtBar)
    (hqs : x.ordered = q :: y.ordered ∨ x.unordered = q :: y.unordered) : Happens y := by
  have hq1 : x.stage q = 1 := by
    rcases hqs with ho | hu
    · exact ((hp.item q).of_ordered (ho ▸ List.mem_cons_self _ _)).1
    · exact ((hp.item q).of_unordered (hu ▸ List.mem_cons_self _ _)).1
  have hEq : ∀ e ∈ E, ¬ e.Loud := fun e he => by obtain ⟨b, rfl⟩ := hE e he; exact id
  intro p₁ p₂ e₁ e₂ hr
  have hc := (hh hr).append (fun h => hEq _ h hr.loud.1) (fun h => hEq _ h hr.loud.2)
  have hx : ∀ {p₁ p₂ : Event}, [p₁, p₂] <+ x.log ++ E → p₂.Loud → [p₁, p₂] <+ x.log :=
    fun h hl => pair_sublist_append_of_not_mem h fun h' => hEq _ h' hl
  rw [hlog, ← List.append_assoc]
  cases hr with
  | queue a b ha hb hk =>
    refine hc.snoc (fun he _ hpre => List.mem_append_left _ ?_) (fun he => by cases he)
    cases he
    have hpre' := hx hpre trivial
    have hid := hf.submit a q hpre'
    have h0 := (hp.item a).submit_mem_iff.mp (hpre'.subset (by simp))
    have h2 : 2 ≤ x.stage a := by
      rcases hqs with ho | hu
      · exact hf.left_ordered hp ho
          (fun h => ((hp.item q).of_ordered (ho ▸ List.mem_cons_self _ _)).2 (hk.mp h)) h0 hid
      · exact hf.left_unordered hp hu (hk.mpr ((hp.item q).of_unordered (hu ▸ List.mem_cons_self _ _)).2)
          h0 hid
    exact ((hp.item a).mem_log_iff (k := 1) (by simp [path_nonBar ha])).mpr (by omega)
  | behind B c hB hc' =>
    refine hc.snoc (fun he _ hpre => List.mem_append_left _ ?_) (fun he => by cases he)
    cases he
    have hpre' := hx hpre trivial
    have hid := hf.submit B q hpre'
    have h0 := (hp.item B).submit_mem_iff.mp (hpre'.subset (by simp))
    have ho : x.ordered = q :: y.ordered := hqs.resolve_right fun hu =>
      hc' ((hp.item q).of_unordered (hu ▸ List.mem_cons_self _ _)).2
    have h2 := hf.left_ordered hp ho (by rw [hB]; decide) h0 hid
    exact ((hp.item B).mem_log_iff (k := 1) (by simp [path_bar hB])).mpr (by omega)
  | worker a b _ =>
    refine hc.snoc (fun he => by cases he) (fun he _ he₂ => ?_)
    cases he
    exfalso
    rcases List.mem_append.mp he₂ with h | h
    · rcases List.mem_append.mp h with h | h
      · have := ((hp.item q).mem_log_iff (k := 2) (by simp [path_nonBar hnb])).mp h; omega
      · obtain ⟨b, hb⟩ := hE _ h; cases hb
    · simp at h
  | outq | finished | decremented | flushed => exact hc.snoc (fun he => by cases he) (fun he => by cases he)

/-- `PS_BARRIER` frees the barrier `q` at the head of `ordered` once `unordered` is empty and nothing
    is in flight: every item submitted before it was dispatched, and every ordered one returned and
    decremented `in_flight`. -/
theorem free (hp : Places x) (hc : Counters x) (hf : Fifo x) (hh : Happens x) {o : List PoolWork}
    (hu : x.unordered = []) (hfl : x.inFlight = 0) (ho : x.ordered = q :: o) : Happens (x.free q o) := by
  have hdec : ∀ a, wtOrd1 ≤ a.type → [.submit a, .submit q] <+ x.log → .decrement a ∈ x.log := by
    intro a ha hpre
    have hnb : a.type ≠ wtBar := by simp only [wtOrd1, wtBar] at ha ⊢; omega
    have h2 := hf.left_ordered hp ho (by simp only [wtOrd1, wtUnord] at ha ⊢; omega)
      ((hp.item a).submit_mem_iff.mp (hpre.subset (by simp))) (hf.submit a q hpre)
    have hd : a ∈ x.dispatched := by
      rw [← List.count_pos_iff, dispatched, count_filterMap_dispatched, (hp.item a).count_dispatch hnb,
        if_pos h2]
      exact Nat.one_pos
    by_contra hn
    have : 0 < x.dispatched.countP fun w => wtOrd1 ≤ w.type ∧ .decrement w ∉ x.log :=
      List.countP_pos_iff.mpr ⟨a, hd, by simp [ha, hn]⟩
    rw [← hc.inFlight, hfl] at this
    exact Nat.lt_irrefl 0 this
  intro p₁ p₂ e₁ e₂ hr
  have hch := hh hr
  cases hr with
  | finished a B ha =>
    refine hch.snoc (fun he _ hpre => ?_) (fun he => by cases he)
    cases he
    have h5 := ((hp.item a).decrement (hdec a ha hpre)).2
    exact ((hp.item a).mem_log_iff (k := 3) (by simp [path_nonBar ((hp.item a).nonBar (by omega))])).mpr
      (by omega)
  | decremented a B ha =>
    refine hch.snoc (fun he _ hpre => ?_) (fun he => by cases he)
    cases he
    exact hdec a ha hpre
  | flushed a B ha =>
    refine hch.snoc (fun _ hn hpre => absurd (hpre.subset (by simp)) hn) (fun he hp₁ _ => ?_)
    cases he
    have h0 := (hp.item a).submit_mem_iff.mp hp₁
    have h2 : 2 ≤ x.stage a := Nat.not_lt.mp fun h => by
      have := (hp.item a).unordered
      rw [if_pos ⟨by omega, ha⟩, hu] at this
      simp at this
    exact pair_sublist_iff.mpr ⟨x.log, _, rfl,
      ((hp.item a).mem_log_iff (k := 1) (by simp [path_nonBar (by rw [ha]; decide)])).mpr (by omega), by simp⟩
  | queue | worker | outq | behind => exact hch.snoc (fun he => by cases he) (fun he => by cases he)

/-- Worker `i` starts the head `q` of its inbox while it holds nothing: every item dispatched before
    `q` to it is published already. -/
theorem start (hp : Places x) (hl : Lawful x) (hf : Fifo x) (hh : Happens x) {i : Nat} {rest : List PoolWork}
    (hn : x.holds i = .none) (hq : x.inq i = q :: rest) : Happens (x.start i q rest) := by
  have hqi := (hp.item q).of_inq (hq ▸ List.mem_cons_self _ _)
  have hone : ∀ v, v.type ≠ wtBar → x.log.count (.dispatch v) ≤ 1 :=
    fun v hv => count_le_one hp hl fun _ => ⟨v, by simp [hv]⟩
  intro p₁ p₂ e₁ e₂ hr
  have hch := hh hr
  cases hr with
  | worker a b hab =>
    refine hch.snoc (fun he _ hpre => ?_) (fun he => by cases he)
    cases he
    have hda : .dispatch a ∈ x.log := hpre.subset (by simp)
    have hnb : a.type ≠ wtBar := hl _ hda
    have h2 := ((hp.item a).mem_log_iff (k := 1) (by simp [path_nonBar hnb])).mp hda
    have hi : i = a.threadId := by rw [hab]; exact hqi.2.2
    refine ((hp.item a).mem_log_iff (k := 4) (by simp [path_nonBar hnb])).mpr (Nat.lt_of_not_le fun h => ?_)
    rcases Nat.lt_or_ge (x.stage a) 3 with h3 | h3
    · have hm : a ∈ x.inq i := by
        rw [← List.count_pos_iff, (hp.item a).inq i, if_pos ⟨by omega, hnb, hi⟩]; exact Nat.one_pos
      rw [hq] at hm
      rcases List.mem_cons.mp hm with rfl | hm
      · have := count_two_of_pair hpre; have := hone a hnb; omega
      · have hpw := hf.inq i
        rw [hq] at hpw
        exact pair_sublist_antisymm (hone q hqi.2.1) (hone a hnb) (List.rel_of_pairwise_cons hpw hm) hpre
    · rcases Nat.lt_or_ge (x.stage a) 4 with h4 | h4
      · have := ((hp.item a).work i).mpr ⟨by omega, hi⟩; rw [hn] at this; cases this
      · have := ((hp.item a).publish i).mpr ⟨by omega, hi⟩; rw [hn] at this; cases this
  | queue | outq | behind | finished | decremented | flushed =>
    exact hch.snoc (fun he => by cases he) (fun he => by cases he)

theorem publish (hp : Places x) (hh : Happens x) {i : Nat} (hw : x.holds i = .publish w) :
    Happens (x.publish i w) := by
  have h4 := (((hp.item w).publish i).mp hw).1
  intro p₁ p₂ e₁ e₂ hr
  have hch := hh hr
  cases hr with
  | outq a b =>
    refine hch.snoc (fun he => by cases he) (fun he _ he₂ => ?_)
    cases he
    exfalso
    rcases List.mem_append.mp he₂ with h | h
    · have := ((hp.item w).mem_log_iff (k := 5)
        (by simp [path_nonBar ((hp.item w).nonBar (by omega))])).mp h
      omega
    · simp at h
  | queue | worker | behind | finished | decremented | flushed =>
    exact hch.snoc (fun he => by cases he) (fun he => by cases he)

/-- `queue_done` on the head `w` of `work_done`'s queue: every item published before `w` is done. -/
theorem done (hp : Places x) (hl : Lawful x) (hf : Fifo x) (hh : Happens x) {rest : List PoolWork}
    (hc : x.completed = w :: rest) : Happens (x.done w rest) := by
  have h5 := (hp.item w).of_completed (by simp [hc])
  have hone : ∀ v, v.type ≠ wtBar → x.log.count (.publish v) ≤ 1 :=
    fun v hv => count_le_one hp hl fun _ => ⟨v, by simp [hv]⟩
  intro p₁ p₂ e₁ e₂ hr
  have hch := hh hr
  cases hr with
  | outq a b =>
    refine hch.snoc (fun he _ hpre => ?_) (fun he => by cases he)
    cases he
    have hpa : .publish a ∈ x.log := hpre.subset (by simp)
    have hnb : a.type ≠ wtBar := hl _ hpa
    have h5a := ((hp.item a).mem_log_iff (k := 4) (by simp [path_nonBar hnb])).mp hpa
    refine ((hp.item a).mem_log_iff (k := 5) (by simp [path_nonBar hnb])).mpr (Nat.lt_of_not_le fun h => ?_)
    have hm : a ∈ x.completed ++ x.outq := by
      have := (hp.item a).outq
      rw [if_pos (by omega)] at this
      rw [List.mem_append, ← List.count_pos_iff, ← List.count_pos_iff]
      omega
    have hq := hf.outq
    rw [hc, List.cons_append] at hm hq
    rcases List.mem_cons.mp hm with rfl | hm
    · have := count_two_of_pair hpre; have := hone a hnb; omega
    · exact pair_sublist_antisymm (hone w ((hp.item w).nonBar (by omega))) (hone a hnb)
        (List.rel_of_pairwise_cons hq hm) hpre
  | queue | worker | behind | finished | decremented | flushed =>
    exact hch.snoc (fun he => by cases he) (fun he => by cases he)

theorem move (hp : Places x) (hl : Lawful x) (hc : Counters x) (hf : Fifo x) (hh : Happens x)
    (h : Move x y) : Happens y := by
  cases h with
  | submit type cookie _ =>
    exact hh.submit hp hl _ (Nat.eq_zero_of_not_pos fun h0 => Nat.lt_irrefl _ ((hp.item _).submitted h0).1)
  | drain hbar hq =>
    rcases qosPop_eq hq with ⟨ho, rfl, -⟩ | ⟨hu, rfl, -⟩
    · exact hh.dispatch hp hf (E := choice x.qos x.ordered x.unordered) (by simp [Items.drain, Items.deliver])
        Counters.choice_qos (hbar _ _ ho) (.inl ho)
    · exact hh.dispatch hp hf (E := choice x.qos x.ordered x.unordered) (by simp [Items.drain, Items.deliver])
        Counters.choice_qos (by rw [((hp.item _).of_unordered (hu ▸ List.mem_cons_self _ _)).2]; decide) (.inr hu)
  | flush hu =>
    exact hh.dispatch hp hf (E := []) (by simp [Items.deliver]) (by simp)
      (by rw [((hp.item _).of_unordered (hu ▸ List.mem_cons_self _ _)).2]; decide) (.inr hu)
  | free hu hfl ho _ => exact hh.free hp hc hf hu hfl ho
  | start _ hn hq => exact hh.start hp hl hf hn hq
  | finish => exact hh.quiet rfl (by simp [Event.Loud])
  | publish hw => exact hh.publish hp hw
  | release => exact hh.quiet (E := []) (by simp [Items.release]) (by simp)
  | decrement => exact hh.quiet rfl (by simp [Event.Loud])
  | collect => exact hh.quiet (E := []) (by simp [Items.collect]) (by simp)
  | done hc' _ => exact hh.done hp hl hf hc'

end Happens

theorem Reach.happens {x : Items} (h : Reach x) : Happens x := by
  induction h with
  | init n _ => exact Happens.init n
  | move hx hm ih => exact ih.move hx.places hx.lawful hx.counters hx.fifo hm

theorem Reach.classes {x : Items} (h : Reach x) : Classes x := by
  induction h with
  | init n _ => exact .init n
  | move _ hm ih => exact ih.move hm

end Items

end Dqlite
