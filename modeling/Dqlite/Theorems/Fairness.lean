import Mathlib.Data.List.Chain
import Dqlite.Theorems.Order

/-! # Fairness of `qos_pop`

When both producer queues are non-empty, `qos_pop` pops from `ordered` if its counter was odd and
from `unordered` if it was even, and increments the counter modulo `2 ^ 32`. The increment flips the
parity even across the wraparound, so the contested choices alternate over the whole run.

An unordered item `U` pushed behind `p` others waits in `unordered` while the planner dispatches:
each dispatch from `ordered` is a contested choice (`unordered` holds `U`), so between two of them
comes a dispatch from `unordered`, and the `p` items ahead of `U` go first. At most `p + 1` items
leave `ordered` between `U`'s push and its dispatch.

Both invariants are proved from one classification of the moves of the items: an iteration of
`PS_DRAINING`, one of `PS_DRAINING_UNORD`, or a move that logs no dispatch and no choice. -/

namespace Dqlite

open scoped List

def Event.choice? : Event → Option Bool
  | .qos b => some b
  | _ => none

/-- The planner pushed an item of `ordered` into an inbox. -/
def Event.fromOrdered : Event → Bool
  | .dispatch c => c.type != wtUnord
  | _ => false

/-- The planner pushed an item of `unordered` into an inbox. -/
def Event.fromUnordered : Event → Bool
  | .dispatch c => c.type == wtUnord
  | _ => false

theorem qos_succ_mod_two (qos : Nat) : (qos + 1) % 2 ^ 32 % 2 = (qos + 1) % 2 :=
  Nat.mod_mod_of_dvd _ (by decide)

/-- The increment flips the counter's parity, also from `2 ^ 32 - 1` to `0`: `2 ^ 32` is even. -/
theorem qos_succ_odd (qos : Nat) : ((qos + 1) % 2 ^ 32 % 2 != 0) = !(qos % 2 != 0) := by
  rw [qos_succ_mod_two]
  rcases Nat.mod_two_eq_zero_or_one qos with h | h <;> simp [Nat.add_mod, h]

/-- Each choice in the log is followed by the dispatch of an item of the queue it names. -/
def NamesQueue (l : List Event) : Prop :=
  ∀ i b, l[i]? = some (.qos b) → ∃ q, l[i + 1]? = some (.dispatch q) ∧ (q.type != wtUnord) = b

namespace NamesQueue

variable {l E : List Event}

theorem append (hl : NamesQueue l) (hE : NamesQueue E) : NamesQueue (l ++ E) := by
  intro i b h
  by_cases hi : i < l.length
  · rw [List.getElem?_append_left hi] at h
    obtain ⟨q, hq, hb⟩ := hl i b h
    exact ⟨q, by rw [List.getElem?_append_left (List.getElem?_eq_some_iff.mp hq).1, hq], hb⟩
  · rw [List.getElem?_append_right (by omega)] at h
    obtain ⟨q, hq, hb⟩ := hE _ b h
    refine ⟨q, ?_, hb⟩
    rwa [List.getElem?_append_right (by omega), show i + 1 - l.length = i - l.length + 1 by omega]

theorem of_quiet (hE : ∀ e ∈ E, e.choice? = none) : NamesQueue E := fun _ _ h => by
  simpa [Event.choice?] using hE _ (List.getElem?_mem h)

theorem pair {b : Bool} {q : PoolWork} (h : (q.type != wtUnord) = b) : NamesQueue [.qos b, .dispatch q]
  | 0, _, h' => by cases h'; exact ⟨q, rfl, h⟩
  | 1, _, h' => by cases h'
  | _ + 2, _, h' => by cases h'

end NamesQueue

namespace Items

variable {x y : Items}

/-! ### What a move logs -/

/-- A move that logs neither a dispatch nor a choice, keeps the counter, and at most pushes onto
    `unordered`. -/
structure Quiet (x y : Items) : Prop where
  log : ∃ E, y.log = x.log ++ E ∧ ∀ e ∈ E, e.choice? = none ∧ ∀ q, e ≠ .dispatch q
  qos : y.qos = x.qos
  unordered : ∃ v, y.unordered = x.unordered ++ v

/-- A move is an iteration of `PS_DRAINING` (`qos_pop`, then the dispatch), one of
    `PS_DRAINING_UNORD`, or quiet. -/
theorem Move.dispatch_or_quiet (h : Move x y) :
    (∃ q o u qos, qosPop x.qos x.ordered x.unordered = .ok (q, o, u, qos) ∧ y = x.drain q o u qos) ∨
      (∃ q u, x.unordered = q :: u ∧ y = { x with unordered := u }.deliver q) ∨ Quiet x y := by
  have single : ∀ {e : Event}, y.log = x.log ++ [e] → e.choice? = none → (∀ q, e ≠ .dispatch q) →
      y.qos = x.qos → y.unordered = x.unordered → Quiet x y := fun hl hc hd hq hu =>
    ⟨⟨_, hl, by simpa using ⟨hc, hd⟩⟩, hq, ⟨[], by simp [hu]⟩⟩
  have same : y.log = x.log → y.qos = x.qos → y.unordered = x.unordered → Quiet x y := fun hl hq hu =>
    ⟨⟨[], by simp [hl], by simp⟩, hq, ⟨[], by simp [hu]⟩⟩
  cases h
  case drain _ _ _ _ _ hq => exact .inl ⟨_, _, _, _, hq, rfl⟩
  case flush _ _ hu => exact .inr (.inl ⟨_, _, hu, rfl⟩)
  case submit =>
    refine .inr (.inr ⟨⟨_, rfl, by simp [Event.choice?]⟩, rfl, ?_⟩)
    simp only [Items.submit]
    split
    exacts [⟨_, rfl⟩, ⟨[], by simp⟩]
  case release => exact .inr (.inr (same rfl rfl rfl))
  case collect => exact .inr (.inr (same rfl rfl rfl))
  all_goals exact .inr (.inr (single rfl rfl (fun _ => by simp) rfl rfl))

/-! ### The choices alternate -/

def choices (x : Items) : List Bool := x.log.filterMap Event.choice?

/-- The choices alternate, each names the queue `qos_pop` popped, and the parity of the counter is
    the next one. -/
structure Alternates (x : Items) : Prop where
  chain : x.choices.Chain' (· ≠ ·)
  named : NamesQueue x.log
  next : ∀ b ∈ x.choices.getLast?, (x.qos % 2 != 0) = !b

namespace Alternates

theorem init (n : Nat) : Alternates (init n) :=
  ⟨List.chain'_nil, fun _ _ h => by simp [Items.init] at h, fun _ h => by simp [choices, Items.init] at h⟩

theorem extend (ha : Alternates x) {E : List Event} (hl : y.log = x.log ++ E)
    (hE : ∀ e ∈ E, e.choice? = none) (hq : y.qos = x.qos) : Alternates y := by
  have hc : y.choices = x.choices := by
    rw [choices, hl, List.filterMap_append, List.filterMap_eq_nil_iff.mpr hE, List.append_nil]; rfl
  exact ⟨hc ▸ ha.chain, hl ▸ ha.named.append (.of_quiet hE), hc ▸ hq ▸ ha.next⟩

/-- A contested `qos_pop` of `q`: the choice is the parity of the counter, which then flips. -/
theorem choose (ha : Alternates x) {q : PoolWork} (hl : y.log = x.log ++ [.qos (x.qos % 2 != 0), .dispatch q])
    (hn : (q.type != wtUnord) = (x.qos % 2 != 0)) (hq : y.qos = (x.qos + 1) % 2 ^ 32) : Alternates y := by
  have hc : y.choices = x.choices ++ [x.qos % 2 != 0] := by
    rw [choices, hl, List.filterMap_append]
    rfl
  refine ⟨?_, hl ▸ ha.named.append (.pair hn), fun b hb => ?_⟩
  · rw [hc, List.chain'_append]
    refine ⟨ha.chain, List.chain'_singleton _, fun b hb c hc => ?_⟩
    obtain rfl := Option.mem_some_iff.mp hc
    rw [ha.next b hb]
    cases b <;> decide
  · rw [hc, List.getLast?_append, List.getLast?_singleton, Option.or_some] at hb
    obtain rfl := Option.mem_some_iff.mp hb
    rw [hq, qos_succ_odd]

theorem move (hp : Places x) (ha : Alternates x) (h : Move x y) : Alternates y := by
  rcases h.dispatch_or_quiet with ⟨q, o, u, qos, hq, rfl⟩ | ⟨q, u, -, rfl⟩ | ⟨⟨E, hl, hE⟩, hq, -⟩
  · have hl : (x.drain q o u qos).log = x.log ++ (choice x.qos x.ordered x.unordered ++ [.dispatch q]) := by
      simp [Items.drain, Items.deliver]
    have hd : ∀ e ∈ [Event.dispatch q], e.choice? = none := by simp [Event.choice?]
    rcases qosPop_eq hq with ⟨ho, -, ⟨hu, rfl⟩ | ⟨hu, hodd, rfl⟩⟩ | ⟨hu, -, ⟨ho, rfl⟩ | ⟨ho, heven, rfl⟩⟩
    · exact ha.extend (by simpa [choice, hu] using hl) hd rfl
    · have hq := ((hp.item q).of_ordered (by simp [ho])).2
      exact ha.choose (by simpa [choice, ho, hu, List.isEmpty_iff] using hl) (by simp [hq, Nat.mod_two_ne_zero.mp hodd]) rfl
    · exact ha.extend (by simpa [choice, ho] using hl) hd rfl
    · have hq := ((hp.item q).of_unordered (by simp [hu])).2
      exact ha.choose (by simpa [choice, ho, hu, List.isEmpty_iff] using hl) (by simp [hq, heven]) rfl
  · exact ha.extend (E := [.dispatch q]) (by simp [Items.deliver]) (by simp [Event.choice?]) rfl
  · exact ha.extend hl (fun e he => (hE e he).1) hq

end Alternates

theorem Reach.alternates {x : Items} (h : Reach x) : Alternates x := by
  induction h with
  | init n _ => exact .init n
  | move hx hm ih => exact ih.move hx.places hm

/-! ### An unordered item waits for at most one item of `ordered` per item ahead of it, plus one -/

theorem countP_quiet {E : List Event} (hE : ∀ e ∈ E, ∀ q, e ≠ .dispatch q) :
    E.countP Event.fromOrdered = 0 ∧ E.countP Event.fromUnordered = 0 := by
  have h : ∀ e ∈ E, e.fromOrdered = false ∧ e.fromUnordered = false := fun e he => by
    cases e <;> first | exact absurd rfl (hE _ he _) | exact ⟨rfl, rfl⟩
  exact ⟨List.countP_eq_zero.mpr fun e he => by simp [(h e he).1],
    List.countP_eq_zero.mpr fun e he => by simp [(h e he).2]⟩

theorem takeWhile_append_of_mem {l₁ l₂ : List Event} {e : Event} (h : e ∈ l₁) :
    (l₁ ++ l₂).takeWhile (· != e) = l₁.takeWhile (· != e) := by
  induction l₁ with
  | nil => cases h
  | cons a l ih =>
    by_cases ha : a = e
    · simp [ha]
    · simp [List.takeWhile_cons, ha, ih ((List.mem_cons.mp h).resolve_left (Ne.symm ha))]

variable {U q : PoolWork} {p : Nat} {rest L : List Event}

/-- Since the push of `U` the log has grown by `rest`, and `U` waits in `unordered` behind `pre`:
    the items dispatched from `unordered` and those still ahead of `U` add up to `p`, and every item
    dispatched from `ordered` but one (none, if the counter is odd) was matched by one from
    `unordered`. -/
structure Waiting (U : PoolWork) (p : Nat) (rest : List Event) (x : Items) (pre : List PoolWork) : Prop where
  queue : ∃ post, x.unordered = pre ++ U :: post
  fresh : U ∉ pre
  ahead : rest.countP Event.fromUnordered + pre.length = p
  alternate : rest.countP Event.fromOrdered + x.qos % 2 ≤ rest.countP Event.fromUnordered + 1
  waits : .dispatch U ∉ rest

/-- `U` was dispatched after at most `p + 1` items of `ordered`. -/
def Served (U : PoolWork) (p : Nat) (rest : List Event) : Prop :=
  .dispatch U ∈ rest ∧ (rest.takeWhile (· != .dispatch U)).countP Event.fromOrdered ≤ p + 1

/-- `U` was pushed behind `p` items of `unordered` when the log was `L`; it waits or was served. -/
def Fair (U : PoolWork) (p : Nat) (L : List Event) (x : Items) : Prop :=
  ∃ rest, x.log = L ++ rest ∧ ((∃ pre, Waiting U p rest x pre) ∨ Served U p rest)

theorem Served.append (h : Served U p rest) (E : List Event) : Served U p (rest ++ E) :=
  ⟨List.mem_append_left _ h.1, by rw [takeWhile_append_of_mem h.1]; exact h.2⟩

theorem Waiting.extend {pre : List PoolWork} (hw : Waiting U p rest x pre) {E : List Event}
    (hE : ∀ e ∈ E, ∀ q, e ≠ .dispatch q) (hq : y.qos = x.qos) (hu : ∃ v, y.unordered = x.unordered ++ v) :
    Waiting U p (rest ++ E) y pre := by
  obtain ⟨ho, hu'⟩ := countP_quiet hE
  obtain ⟨post, hpost⟩ := hw.queue
  obtain ⟨v, hv⟩ := hu
  refine ⟨⟨post ++ v, by simp [hv, hpost]⟩, hw.fresh, ?_, ?_, ?_⟩
  · simpa [hu'] using hw.ahead
  · simpa [ho, hu', hq] using hw.alternate
  · simpa using ⟨hw.waits, fun h => hE _ h U rfl⟩

theorem Fair.extend (hf : Fair U p L x) {E : List Event} (hl : y.log = x.log ++ E)
    (hE : ∀ e ∈ E, ∀ q, e ≠ .dispatch q) (hq : y.qos = x.qos) (hu : ∃ v, y.unordered = x.unordered ++ v) :
    Fair U p L y := by
  obtain ⟨rest, hx, ⟨pre, hw⟩ | hs⟩ := hf
  · exact ⟨rest ++ E, by rw [hl, hx, List.append_assoc], .inl ⟨pre, hw.extend hE hq hu⟩⟩
  · exact ⟨rest ++ E, by rw [hl, hx, List.append_assoc], .inr (hs.append E)⟩

/-- The planner dispatches the head `q` of `unordered`, after the choices `C`: the item ahead of `U`,
    or `U` itself. The counter may flip, which the match of `q` pays for. -/
theorem Fair.popUnordered (hf : Fair U p L x) {C : List Event} (hC : ∀ e ∈ C, ∀ q, e ≠ .dispatch q)
    (hl : y.log = x.log ++ (C ++ [.dispatch q])) (hu : x.unordered = q :: y.unordered)
    (hq : q.type = wtUnord) : Fair U p L y := by
  obtain ⟨rest, hx, ⟨pre, hw⟩ | hs⟩ := hf
  · refine ⟨rest ++ (C ++ [.dispatch q]), by rw [hl, hx, List.append_assoc], ?_⟩
    obtain ⟨ho, hu'⟩ := countP_quiet hC
    obtain ⟨post, hpost⟩ := hw.queue
    have hqd : [Event.dispatch q].countP Event.fromOrdered = 0 ∧
        [Event.dispatch q].countP Event.fromUnordered = 1 := by
      simp [Event.fromOrdered, Event.fromUnordered, hq]
    have hw₂ := hw.alternate
    have hpar : y.qos % 2 < 2 := Nat.mod_lt _ (by decide)
    cases pre with
    | nil =>
      obtain ⟨rfl, -⟩ : q = U ∧ y.unordered = post := by simpa using hu.symm.trans hpost
      have hrest : ∀ e ∈ rest ++ C, (e != .dispatch q) = true := fun e he => by
        rcases List.mem_append.mp he with he | he
        · exact bne_iff_ne.mpr fun h => hw.waits (h ▸ he)
        · exact bne_iff_ne.mpr (hC e he q)
      refine .inr ⟨by simp, ?_⟩
      rw [← List.append_assoc, List.takeWhile_append_of_pos hrest]
      have := hw.ahead
      simp only [List.takeWhile_cons, bne_self_eq_false, Bool.false_eq_true, ite_false, List.append_nil,
        List.countP_append, ho, List.length_nil] at this ⊢
      omega
    | cons r pre =>
      obtain ⟨hr, hy⟩ : q = r ∧ y.unordered = pre ++ U :: post := by simpa using hu.symm.trans hpost
      have hne : q ≠ U := fun h => hw.fresh (by rw [← hr, h]; exact List.mem_cons_self _ _)
      refine .inl ⟨pre, ⟨post, hy⟩, fun h => hw.fresh (.tail _ h), ?_, ?_, ?_⟩
      · have := hw.ahead
        simp only [List.countP_append, hu', hqd.2, List.length_cons] at this ⊢
        omega
      · simp only [List.countP_append, ho, hu', hqd.1, hqd.2]
        omega
      · simpa [Ne.symm hne] using ⟨hw.waits, fun h => hC _ h U rfl⟩
  · exact ⟨_, by rw [hl, hx, List.append_assoc], .inr (hs.append _)⟩

/-- The planner dispatches the head `q` of `ordered`, after the choices `C`: with `U` waiting, only
    when the counter was odd, and it becomes even. -/
theorem Fair.popOrdered (hU : U.type = wtUnord) (hf : Fair U p L x) {C : List Event}
    (hC : ∀ e ∈ C, ∀ q, e ≠ .dispatch q) (hl : y.log = x.log ++ (C ++ [.dispatch q]))
    (hu : y.unordered = x.unordered) (hq : q.type ≠ wtUnord)
    (hqos : x.unordered = [] ∨ x.qos % 2 ≠ 0 ∧ y.qos = (x.qos + 1) % 2 ^ 32) : Fair U p L y := by
  obtain ⟨rest, hx, ⟨pre, hw⟩ | hs⟩ := hf
  · obtain ⟨post, hpost⟩ := hw.queue
    obtain ⟨hodd, hy⟩ := hqos.resolve_left (by simp [hpost])
    obtain ⟨ho, hu'⟩ := countP_quiet hC
    have hqd : [Event.dispatch q].countP Event.fromOrdered = 1 ∧
        [Event.dispatch q].countP Event.fromUnordered = 0 := by
      simp [Event.fromOrdered, Event.fromUnordered, hq]
    have hpar : y.qos % 2 = 0 := by rw [hy, qos_succ_mod_two]; omega
    refine ⟨rest ++ (C ++ [.dispatch q]), by rw [hl, hx, List.append_assoc],
      .inl ⟨pre, hu ▸ hw.queue, hw.fresh, ?_, ?_, ?_⟩⟩
    · simpa [hu', hqd.2] using hw.ahead
    · have := hw.alternate
      simp only [List.countP_append, ho, hu', hqd.1, hqd.2, hpar] at this ⊢
      omega
    · have hne : q ≠ U := fun h => hq (h ▸ hU)
      simpa [Ne.symm hne] using ⟨hw.waits, fun h => hC _ h U rfl⟩
  · exact ⟨_, by rw [hl, hx, List.append_assoc], .inr (hs.append _)⟩

theorem Fair.move (hp : Places x) (hU : U.type = wtUnord) (hf : Fair U p L x) (h : Move x y) : Fair U p L y := by
  rcases h.dispatch_or_quiet with ⟨q, o, u, qos, hq, rfl⟩ | ⟨q, u, hu, rfl⟩ | ⟨⟨E, hl, hE⟩, hq, hu⟩
  · have hl : (x.drain q o u qos).log = x.log ++ (choice x.qos x.ordered x.unordered ++ [.dispatch q]) := by
      simp [Items.drain, Items.deliver]
    have hC : ∀ e ∈ choice x.qos x.ordered x.unordered, ∀ q, e ≠ .dispatch q := by
      unfold choice; split <;> simp
    rcases qosPop_eq hq with ⟨ho, rfl, hqos⟩ | ⟨hu, rfl, -⟩
    · exact hf.popOrdered hU hC hl rfl ((hp.item q).of_ordered (by simp [ho])).2
        (hqos.imp And.left fun h => h.2)
    · exact hf.popUnordered hC hl hu ((hp.item q).of_unordered (by simp [hu])).2
  · exact hf.popUnordered (C := []) (by simp) (by simp [Items.deliver]) hu ((hp.item q).of_unordered (by simp [hu])).2
  · exact hf.extend hl (fun e he => (hE e he).2) hq hu

theorem Fair.moves (hx : Reach x) (hU : U.type = wtUnord) (hf : Fair U p L x)
    (h : Relation.ReflTransGen Move x y) : Fair U p L y := by
  induction h with
  | refl => exact hf
  | tail hxy hm ih => exact ih.move (hx.moves hxy).places hU hm

theorem Fair.submit (hp : Places x) (cookie : Nat) :
    Fair ⟨x.serial, wtUnord, cookie⟩ x.unordered.length (x.submit ⟨x.serial, wtUnord, cookie⟩).log
      (x.submit ⟨x.serial, wtUnord, cookie⟩) := by
  refine ⟨[], (List.append_nil _).symm, .inl ⟨x.unordered, ⟨[], by simp [Items.submit]⟩, fun h => ?_, by simp, ?_, by simp⟩⟩
  · exact Nat.lt_irrefl _ ((hp.item _).submitted ((hp.item _).of_unordered h).1.symm.le).1
  · simpa using Nat.le_of_lt_succ (Nat.mod_lt _ (by decide))

/-- While it waits and once it is dispatched, at most `p + 1` items of `ordered` went before it. -/
theorem Fair.bound (hf : Fair U p L x) :
    ((x.log.drop L.length).takeWhile (· != .dispatch U)).countP Event.fromOrdered ≤ p + 1 := by
  obtain ⟨rest, hx, ⟨pre, hw⟩ | hs⟩ := hf
  · rw [hx, List.drop_left, List.takeWhile_eq_self_iff.mpr fun e he => bne_iff_ne.mpr (by rintro rfl; exact hw.waits he)]
    have := hw.ahead
    have := hw.alternate
    omega
  · rw [hx, List.drop_left]
    exact hs.2

end Items

theorem Steps.items {s t : Pool} (h : Steps s t) : Relation.ReflTransGen Items.Move s.items t.items := by
  induction h with
  | refl => exact .refl
  | tail _ _ ht ih => exact ih.trans (Pool.step_items ht)

theorem Pool.items_queueWork {s t : Pool} {type cookie : Nat} (h : s.step (.queueWork type cookie) = some (.ok t)) :
    t.items = s.items.submit ⟨s.serial, type, cookie % s.nthreads⟩ := by
  obtain ⟨-, -, h⟩ := step_queueWork_ok h
  obtain ⟨-, rfl⟩ := poolQueueWork_ok h
  rfl

/-- Over every run the contested choices of `qos_pop` alternate between `ordered` and `unordered`,
    across the wraparound of the counter; and an unordered item pushed behind `p` others is preceded,
    from its push to its dispatch, by at most `p + 1` dispatches from `ordered`. -/
theorem qos_pop_fair :
    (∀ s, Reachable s → (s.log.filterMap Event.choice?).Chain' (· ≠ ·) ∧ NamesQueue s.log) ∧
    ∀ s₀ s₁ s cookie, Reachable s₀ → s₀.step (.queueWork wtUnord cookie) = some (.ok s₁) → Steps s₁ s →
      ((s.log.drop s₁.log.length).takeWhile (· != .dispatch ⟨s₀.serial, wtUnord, cookie % s₀.nthreads⟩)).countP
        Event.fromOrdered ≤ s₀.unordered.length + 1 := by
  refine ⟨fun s hs => ⟨hs.items.alternates.chain, hs.items.alternates.named⟩, fun s₀ s₁ s cookie h₀ h₁ h => ?_⟩
  have hx₁ : Items.Reach s₁.items := (h₀.step _ h₁).items
  have he : s₁.items = s₀.items.submit ⟨s₀.items.serial, wtUnord, cookie % s₀.nthreads⟩ :=
    Pool.items_queueWork h₁
  have hf := Items.Fair.submit h₀.items.places (cookie % s₀.nthreads)
  rw [← he] at hf
  exact (hf.moves hx₁ rfl (Steps.items h)).bound

/-- Two ordered items and one unordered item queued, then a second unordered item submitted: the
    planner's contested pops alternate `u`, `o`, `u`, and the second unordered item goes out after one
    item of `ordered`. -/
theorem qos_pop_fair_contested :
    ∃ s₀ s₁ s : Pool, Reachable s₀ ∧ s₀.ordered.length = 2 ∧ s₀.unordered.length = 1 ∧
      s₀.step (.queueWork wtUnord 3) = some (.ok s₁) ∧ Steps s₁ s ∧
      s.log.filterMap Event.choice? = [false, true, false] ∧ .dispatch ⟨3, wtUnord, 3⟩ ∈ s.log ∧
      (s.log.filterMap Event.choice?).Chain' (· ≠ ·) ∧
      ((s.log.drop s₁.log.length).takeWhile (· != .dispatch ⟨s₀.serial, wtUnord, 3 % s₀.nthreads⟩)).countP
        Event.fromOrdered ≤ s₀.unordered.length + 1 := by
  obtain ⟨s₀, s₁, s, h₀, ho, hu, h₁, h, hc, hd⟩ : ∃ s₀ s₁ s : Pool, Reachable s₀ ∧ s₀.ordered.length = 2 ∧
      s₀.unordered.length = 1 ∧ s₀.step (.queueWork wtUnord 3) = some (.ok s₁) ∧ Steps s₁ s ∧
      s.log.filterMap Event.choice? = [false, true, false] ∧ .dispatch ⟨3, wtUnord, 3⟩ ∈ s.log :=
    ⟨_, _, _, (Reachable.init none).steps (Pool.run_steps
        (l := [.queueWork wtOrd1 0, .queueWork wtOrd1 1, .queueWork wtUnord 2]) rfl), rfl, rfl, rfl,
      Pool.run_steps (l := [.planner, .planner, .planner, .planner, .planner]) rfl, rfl, by decide⟩
  exact ⟨s₀, s₁, s, h₀, ho, hu, h₁, h, hc, hd, (qos_pop_fair.1 s ((h₀.step _ h₁).steps h)).1,
    qos_pop_fair.2 s₀ s₁ s 3 h₀ h₁ h⟩

end Dqlite
