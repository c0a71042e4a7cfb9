import Mathlib.Algebra.Group.Int
import Mathlib.Data.List.Nodup

/-! # `id_generate`

`src/metrics.c` hands out ids from one process-wide counter: `__sync_add_and_fetch(&an_id, 1)` on a
`static int64_t an_id = 0`, returned as a `uint64_t`. The increment is a single atomic
read-modify-write, which wraps in two's complement, so the calls of any threads, however they
interleave, reach it one after another; a run is the order in which they do. -/

namespace Dqlite

/-- `id_generate`'s counter `an_id` as its 64 bits, with the ghost record of each call: the calling
    thread and the id it was handed, in the order the calls reached the increment. -/
structure IdGen where
  anId : BitVec 64
  handed : List (Nat × BitVec 64)

namespace IdGen

/-- `static int64_t an_id = 0`, before any call. -/
def init : IdGen := ⟨0, []⟩

/-- `id_generate()` called on thread `t`: the atomic increment, and its result cast to `uint64_t`,
    which keeps the bits. -/
def idGenerate (g : IdGen) (t : Nat) : IdGen :=
  ⟨g.anId + 1, g.handed ++ [(t, g.anId + 1)]⟩

/-- The calls of a run, each named by its thread, in the order they reach the increment. -/
def run (g : IdGen) : List Nat → IdGen
  | [] => g
  | t :: ts => (g.idGenerate t).run ts

/-- The counter holds the number of calls so far, and the calls were handed `1, 2, …` in order. -/
def Counted (g : IdGen) : Prop :=
  g.anId = BitVec.ofNat 64 g.handed.length ∧
    g.handed.map Prod.snd = (List.range g.handed.length).map fun k => BitVec.ofNat 64 (k + 1)

theorem Counted.init : Counted init := ⟨rfl, rfl⟩

theorem Counted.idGenerate {g : IdGen} (h : Counted g) (t : Nat) : Counted (g.idGenerate t) := by
  obtain ⟨ha, hh⟩ := h
  have hinc : g.anId + 1 = BitVec.ofNat 64 (g.handed.length + 1) := by
    rw [ha]
    apply BitVec.eq_of_toNat_eq
    simp only [BitVec.toNat_add, BitVec.toNat_ofNat, BitVec.ofNat_eq_ofNat]
    omega
  simp only [Counted, IdGen.idGenerate, List.length_append, List.length_singleton, List.map_append, hh,
    List.range_succ, List.map_cons, List.map_nil, hinc, and_self]

theorem Counted.run {g : IdGen} (h : Counted g) : ∀ l, Counted (g.run l)
  | [] => h
  | t :: ts => (h.idGenerate t).run ts

theorem handed_threads (g : IdGen) : ∀ l, (g.run l).handed.map Prod.fst = g.handed.map Prod.fst ++ l
  | [] => by simp [run]
  | t :: ts => by simp [run, handed_threads _ ts, idGenerate]

theorem handed_length (g : IdGen) (l : List Nat) : (g.run l).handed.length = g.handed.length + l.length := by
  simpa using congrArg List.length (handed_threads g l)

theorem toInt_ofNat_succ {k : Nat} (hk : k + 1 < 2 ^ 63) :
    (BitVec.ofNat 64 (k + 1)).toInt = ((k + 1 : Nat) : Int) := by
  rw [BitVec.toInt_eq_toNat_cond, BitVec.toNat_ofNat, Nat.mod_eq_of_lt (by omega), if_pos (by omega)]

end IdGen

/-- However the calls of the threads interleave, each id goes to the thread whose call it answered,
    the `n`-th call is handed `n`, and as long as fewer than `2 ^ 64` calls have been made no two
    calls are handed the same id. Below `2 ^ 63` calls the signed counter has not overflowed: every
    id is positive as an `int64_t` and the ids grow with each call. -/
theorem ids_unique (l : List Nat) :
    (IdGen.init.run l).handed.map Prod.fst = l ∧
      (IdGen.init.run l).handed.map Prod.snd = (List.range l.length).map (fun k => BitVec.ofNat 64 (k + 1)) ∧
      (l.length ≤ 2 ^ 64 → ((IdGen.init.run l).handed.map Prod.snd).Nodup) ∧
      (l.length < 2 ^ 63 → ((IdGen.init.run l).handed.map Prod.snd).Pairwise (fun a b => a.toInt < b.toInt) ∧
        ∀ v ∈ (IdGen.init.run l).handed.map Prod.snd, v.toInt = (v.toNat : Int) ∧ 0 < v.toNat) := by
  obtain ⟨-, hc⟩ := IdGen.Counted.init.run l
  have hn : (IdGen.init.run l).handed.length = l.length := by simp [IdGen.handed_length, IdGen.init]
  rw [hn] at hc
  refine ⟨by simpa [IdGen.init] using IdGen.handed_threads IdGen.init l, hc, fun h => ?_, fun h => ?_⟩
  · rw [hc]
    refine (List.nodup_range l.length).map_on fun x hx y hy hxy => ?_
    have := congrArg BitVec.toNat hxy
    simp only [BitVec.toNat_ofNat] at this
    simp only [List.mem_range] at hx hy
    omega
  · rw [hc, List.pairwise_map]
    refine ⟨(List.pairwise_lt_range l.length).imp_of_mem fun ha hb hab => ?_, fun v hv => ?_⟩
    · simp only [List.mem_range] at ha hb
      rw [IdGen.toInt_ofNat_succ (by omega), IdGen.toInt_ofNat_succ (by omega)]
      omega
    · obtain ⟨k, hk, rfl⟩ := List.mem_map.mp hv
      simp only [List.mem_range] at hk
      rw [IdGen.toInt_ofNat_succ (by omega), BitVec.toNat_ofNat, Nat.mod_eq_of_lt (by omega)]
      exact ⟨rfl, Nat.succ_pos k⟩

theorem ids_unique_three_calls :
    (IdGen.init.run [0, 1, 0]).handed.map Prod.snd = [1, 2, 3] ∧
      ((IdGen.init.run [0, 1, 0]).handed.map Prod.snd).Nodup :=
  ⟨(ids_unique [0, 1, 0]).2.1, (ids_unique [0, 1, 0]).2.2.1 (by decide)⟩

end Dqlite
