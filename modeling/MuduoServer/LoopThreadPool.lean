import Mathlib.Data.Int.CardIntervalMod
import MuduoServer.PoolReady
import MuduoServer.TcpSever

/-!
# The loops that connections get

`Get_Next_EventLoop` goes round the loops of the pool, starting with the second one. Once `Create`
has returned every call finds its loop, and after any number of calls no loop has been given out
more than once more often than another.
-/
namespace MuduoServer

open Transition

/-! ## Going round -/

namespace Rotation

/-- The turns of `k` rounds through `n` places, which start behind place 0. -/
def turns (n k : Nat) : List Nat := (List.range k).map fun t => (t + 1) % n

theorem turns_succ (n k : Nat) : turns n (k + 1) = turns n k ++ [(k + 1) % n] := by
  simp [turns, List.range_succ]

@[simp] theorem length_turns (n k : Nat) : (turns n k).length = k := by simp [turns]

theorem lt_of_mem_turns {n k i : Nat} (hn : 0 < n) (h : i ∈ turns n k) : i < n := by
  obtain ⟨t, -, rfl⟩ := List.mem_map.mp h
  exact Nat.mod_lt _ hn

/-- Place 0 gets its first turn last. -/
theorem count_turns {n i : Nat} (hi : i < n) (k : Nat) :
    (turns n k).count i + (if i = 0 then 1 else 0) = (k + 1) / n + if i < (k + 1) % n
    then 1 else 0 := by
  have hmod : (k + 1).count (· ≡ i [MOD n]) = (k + 1) / n + if i < (k + 1) % n then 1 else 0 := by
    rw [Nat.count_modEq_card _ (Nat.zero_lt_of_lt hi), Nat.mod_eq_of_lt hi]
  have hzero : (0 ≡ i [MOD n]) ↔ i = 0 := by
    rw [Nat.ModEq, Nat.zero_mod, Nat.mod_eq_of_lt hi]
    exact eq_comm
  rw [← hmod, Nat.count_succ', if_congr hzero rfl rfl, turns, List.count,
    List.countP_map, Nat.count]
  congr 1
  refine List.countP_congr fun t _ => ?_
  simp [Nat.ModEq, Nat.mod_eq_of_lt hi]

/-- No place gets two turns more than another. -/
theorem fair_turns {n i j : Nat} (hi : i < n) (hj : j < n) (k : Nat) :
    (turns n k).count i ≤ (turns n k).count j + 1 := by
  have hci := count_turns hi k
  have hcj := count_turns hj k
  split at hci <;> split at hci <;> split at hcj <;> split at hcj <;> omega

end Rotation

open Rotation

structure LoopThreadPool where
  /-- `_Thread_Cnt` -/
  threadCnt : Int
  /-- `_next_EventLoop` -/
  nextEventLoop : Int
  /-- `_Slave_Event_Loops`; `_Base_Loop` is loop 0. -/
  slaveEventLoops : List (Option Nat)

namespace LoopThreadPool

def init : LoopThreadPool := ⟨0, 0, []⟩

def setThreadCnt (p : LoopThreadPool) (n : Int) : LoopThreadPool := { p with threadCnt := n }

/-- `Create` with what its loop has obtained. -/
def create (p : LoopThreadPool) (obtained : List (Option Nat)) : LoopThreadPool :=
  if p.threadCnt > 0 then { p with slaveEventLoops := obtained } else p

/-- `none` where the index is not within the vector. -/
def getNextEventLoop (p : LoopThreadPool) : Option (LoopThreadPool × Option Nat) :=
  if p.threadCnt = 0 then some (p, some 0)
  else
    let next := (p.nextEventLoop + 1).tmod p.threadCnt
    let p := { p with nextEventLoop := next }
    if 0 ≤ next then (p.slaveEventLoops[next.toNat]?).map fun loop => (p, loop) else none

/-- The loops that `k` calls return. -/
def getLoops (p : LoopThreadPool) : Nat → Option (LoopThreadPool × List (Option Nat))
  | 0 => some (p, [])
  | k + 1 => do
    let (p, loops) ← p.getLoops k
    let (p, loop) ← p.getNextEventLoop
    return (p, loops ++ [loop])

/-- The pool of `n` threads after `Create` and `k` calls. -/
def served (n k : Nat) : LoopThreadPool :=
  ⟨n, (k % n : Nat), (List.range n).map fun i => some (i + 1)⟩

theorem getNextEventLoop_served {n : Nat} (hn : 0 < n) (k : Nat) :
    (served n k).getNextEventLoop = some (served n (k + 1), some ((k + 1) % n + 1)) := by
  have hlt : (k + 1) % n < n := Nat.mod_lt _ hn
  have hnext : (((k % n : Nat) : Int) + 1).tmod n = ((k + 1) % n : Nat) := by
    rw [Int.tmod_eq_emod_of_nonneg (by omega)]
    push_cast
    rw [Int.emod_add_emod]
  have hloop : ((List.range n).map fun i => some (i + 1))[(k + 1) % n]? =
      some (some ((k + 1) % n + 1)) := by
    simp [hlt]
  simp only [served, getNextEventLoop, Int.natCast_eq_zero, Nat.ne_of_gt hn, if_false, hnext,
    Int.natCast_nonneg,
    if_true, Int.toNat_natCast, hloop, Option.map_some]

theorem getLoops_served {n : Nat} (hn : 0 < n) (k : Nat) :
    (served n 0).getLoops k = some (served n k, (turns n k).map fun i => some (i + 1)) := by
  induction k with
  | zero => rfl
  | succ k ih =>
    simp only [getLoops, ih, Option.bind_eq_bind, Option.bind_some, getNextEventLoop_served hn,
      turns_succ, List.map_append]
    rfl

/-- The server of `TcpSever` goes round in the same way. -/
theorem getNextEventLoop_tcpSever {n k : Nat} (hn : 0 < n) (s : TcpSever) (hcnt : s.threadCnt = n)
    (hnext : s.nextEventLoop = k % n) :
    s.getNextEventLoop.1.nextEventLoop = (k + 1) % n ∧
      (served n k).getNextEventLoop = some (served n (k + 1), some s.getNextEventLoop.2) := by
  rw [getNextEventLoop_served hn, TcpSever.getNextEventLoop, if_neg (by omega), hcnt, hnext,
    Nat.mod_add_mod]
  exact ⟨rfl, rfl⟩

/-- When `Create` has returned, however its threads have run, every call of `Get_Next_EventLoop`
finds a loop of the pool, and the numbers of connections of any two loops differ by at most one. -/
theorem fair_assignment {n : Nat} (hn : 1 ≤ n) {memory : Nat → Bool × Option Nat}
    {as : List PoolStart.Act} {s : PoolStart}
    (hrun : exec (PoolStart.step n) (PoolStart.start n memory) as = some s)
    (hreturned : s.caller = .returned) (k : Nat) :
    ∃ p loops, ((init.setThreadCnt n).create s.slaves).getLoops k = some (p, loops) ∧
    loops.length = k ∧
      (∀ loop ∈ loops, ∃ i < n, loop = some (i + 1)) ∧
      ∀ i < n, ∀ j < n, loops.count (some (i + 1)) ≤ loops.count (some (j + 1)) + 1 := by
  have hpool : (init.setThreadCnt n).create s.slaves = served n 0 := by
    rw [PoolStart.slaves_returned (PoolStart.placed_run hrun) hreturned]
    simp [create, setThreadCnt, init, served]
  have hcount : ∀ i, ((turns n k).map fun i => some (i + 1)).count (some (i + 1)) =
      (turns n k).count i := fun i =>
    List.count_map_of_injective _ (fun i => some (i + 1)) (fun a b hab => by simpa using hab) i
  refine ⟨_, _, hpool ▸ getLoops_served hn k, by simp, fun loop hl => ?_, fun i hi j hj => ?_⟩
  · obtain ⟨i, hi, rfl⟩ := List.mem_map.mp hl
    exact ⟨i, lt_of_mem_turns hn hi, rfl⟩
  · rw [hcount, hcount]
    exact fair_turns hi hj k

/-- `Create` of two threads, each held up until its `LoopThread` is constructed. -/
def pairRun : List PoolStart.Act :=
  [0, 1].flatMap fun i => List.replicate 4 .caller ++ List.replicate 6 (.thread i) ++
    List.replicate 4 .caller

/-- A whole round and half of one. -/
theorem fair_assignment_usual : ∃ s,
    exec (PoolStart.step 2) (PoolStart.start 2 PoolStart.zeroMemory) pairRun = some s ∧
    s.caller = .returned ∧
    ∃ p loops, ((init.setThreadCnt 2).create s.slaves).getLoops 3 = some (p, loops) ∧
    loops.length = 3 ∧
      (∀ loop ∈ loops, ∃ i < 2, loop = some (i + 1)) ∧
      ∀ i < 2, ∀ j < 2, loops.count (some (i + 1)) ≤ loops.count (some (j + 1)) + 1 := by
  obtain ⟨s, hs⟩ := Option.isSome_iff_exists.mp
    (show (exec (PoolStart.step 2) (PoolStart.start 2 PoolStart.zeroMemory) pairRun).isSome by decide)
  have hreturned : ((exec (PoolStart.step 2) (PoolStart.start 2 PoolStart.zeroMemory) pairRun).map
      (·.caller)) = some .returned := by decide
  rw [hs, Option.map_some, Option.some.injEq] at hreturned
  exact ⟨s, hs, hreturned, fair_assignment (by decide) hs hreturned 3⟩

/-- The counter starts at 0, so the second of three loops comes first. -/
example : (served 3 0).getLoops 4 = some (served 3 4, [some 2, some 3, some 1, some 2]) := rfl

end LoopThreadPool
end MuduoServer
