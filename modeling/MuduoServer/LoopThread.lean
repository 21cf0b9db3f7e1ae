import Mathlib.Logic.Function.Basic

/-!
# The threads of the pool

`LoopThreadPool::Create` constructs one `LoopThread` after the other and waits for the loop of each.
The first member initialiser starts the thread, so `Thread_Entry` runs beside those of the members
it uses. Base loop and loops of the pool are numbered as in `TcpSever`: the loop of thread `i` is `i
+ 1`.
-/
namespace MuduoServer

namespace LoopThread

/-- The members in declaration order, which is the order of their initialisers. -/
inductive Member where
  | thread | cond | mutex | loop
  deriving DecidableEq, Repr

def Member.following : Member → Option Member
  | .thread => some .cond
  | .cond => some .mutex
  | .mutex => some .loop
  | .loop => none

/-- What a spawned thread does next in `Thread_Entry`. -/
inductive Entry where
  | unborn
  /-- `EventLoop a` -/
  | construct
  | lock
  /-- `_loop = &a` -/
  | publish
  /-- `_cond.notify_all()` -/
  | notify
  | unlock
  /-- `_loop->Start()`, which reads `_loop` again -/
  | start
  | running (loop : Nat)
  | crashed
  deriving DecidableEq, Repr

end LoopThread

open LoopThread

structure LoopThread where
  /-- The member whose initialiser is the next to run. -/
  initialiser : Option Member
  /-- `_mutex` -/
  locked : Bool
  /-- `_loop`, a loop or `nullptr` -/
  loop : Option Nat
  entry : Entry

namespace LoopThread

/-- What `new` returns before any initialiser has run: the memory is as it was. -/
def raw (locked : Bool) (loop : Option Nat) : LoopThread := ⟨some .thread, locked, loop, .unborn⟩

def Constructed (t : LoopThread) : Prop := t.initialiser = none

/-- `_loop = &a` has been executed. -/
def Entry.published : Entry → Bool
  | .unborn | .construct | .lock | .publish => false
  | _ => true

/-- The thread is in the block that the guard protects. -/
def Entry.inBlock : Entry → Bool
  | .publish | .notify | .unlock => true
  | _ => false

def Published (t : LoopThread) : Prop := t.entry.published

def InBlock (t : LoopThread) : Prop := t.entry.inBlock

/-- The initialiser of `_mutex` has run. -/
def MutexReady (t : LoopThread) : Prop := t.initialiser = none ∨ t.initialiser = some .loop

instance (t : LoopThread) : Decidable t.Constructed := inferInstanceAs (Decidable (_ = _))
instance (t : LoopThread) : Decidable t.Published := inferInstanceAs (Decidable (_ = _))
instance (t : LoopThread) : Decidable t.MutexReady := inferInstanceAs (Decidable (_ ∨ _))

/-- The initialiser of one member. -/
def initialise (t : LoopThread) (m : Member) : LoopThread :=
  let t := { t with initialiser := m.following }
  match m with
  | .thread => { t with entry := .construct }
  | .cond => t
  | .mutex => { t with locked := false }
  | .loop => { t with loop := none }

/-- One step of thread `i`; whether it notifies is seen from `entry`. -/
def threadEntry (i : Nat) (t : LoopThread) : Option LoopThread :=
  match t.entry with
  | .unborn => none
  | .construct => some { t with entry := .lock }
  | .lock => if t.locked then none else some { t with locked := true, entry := .publish }
  | .publish => some { t with loop := some (i + 1), entry := .notify }
  | .notify => some { t with entry := .unlock }
  | .unlock => some { t with locked := false, entry := .start }
  | .start =>
    match t.loop with
    | some loop => some { t with entry := .running loop }
    | none => some { t with entry := .crashed }
  | .running _ => none
  | .crashed => none

end LoopThread

/-! ## Create -/

namespace PoolStart

/-- Where the thread that calls `Create` is, with its `i`. -/
inductive Caller where
  /-- `new LoopThread()` -/
  | construct (i : Nat)
  /-- `Get_EventLoop` locks, or `_cond.wait` locks again. -/
  | lock (i : Nat)
  /-- `_loop != nullptr` -/
  | check (i : Nat)
  /-- `_cond.wait` is about to release the mutex and to block. -/
  | block (i : Nat)
  | waiting (i : Nat)
  /-- `loop = _loop` -/
  | take (i : Nat)
  | returned
  deriving DecidableEq, Repr

end PoolStart

open PoolStart

structure PoolStart where
  caller : Caller
  threads : Nat → LoopThread
  /-- `_Slave_Event_Loops` -/
  slaves : List (Option Nat)

namespace PoolStart

def setThread (s : PoolStart) (i : Nat) (t : LoopThread) : PoolStart :=
  { s with threads := Function.update s.threads i t }

@[simp] theorem caller_setThread (s : PoolStart) (i : Nat) (t : LoopThread) :
    (s.setThread i t).caller = s.caller := rfl
@[simp] theorem slaves_setThread (s : PoolStart) (i : Nat) (t : LoopThread) :
    (s.setThread i t).slaves = s.slaves := rfl

@[simp] theorem threads_setThread (s : PoolStart) (i : Nat) (t : LoopThread) :
    (s.setThread i t).threads i = t := by
  simp [setThread]

theorem threads_setThread_of_ne (s : PoolStart) {i j : Nat} (h : j ≠ i) (t : LoopThread) :
    (s.setThread i t).threads j = s.threads j := by
  simp [setThread, h]

/-- The loop of `Create` at `i`. -/
def Caller.loopAt (n i : Nat) : Caller := if i < n then .construct i else .returned

/-- `Create` after the two calls of `resize`; `memory` is what the allocations find. -/
def start (n : Nat) (memory : Nat → Bool × Option Nat) : PoolStart where
  caller := .loopAt n 0
  threads i := .raw (memory i).1 (memory i).2
  slaves := List.replicate n none

inductive Act where
  | caller
  | thread (i : Nat)
  /-- `_cond.wait` returns without a notification. -/
  | wake
  deriving DecidableEq, Repr

def stepCaller (n : Nat) (s : PoolStart) : Option PoolStart :=
  match s.caller with
  | .construct i =>
    match (s.threads i).initialiser with
    | some m => some (s.setThread i ((s.threads i).initialise m))
    | none => some { s with caller := .lock i }
  | .lock i =>
    if (s.threads i).locked then none
    else some { s.setThread i { s.threads i with locked := true } with caller := .check i }
  | .check i => some { s with caller := if (s.threads i).loop = none then .block i else .take i }
  | .block i =>
    some { s.setThread i { s.threads i with locked := false } with caller := .waiting i }
  | .waiting _ => none
  | .take i =>
    some { s.setThread i { s.threads i with locked := false } with
      caller := .loopAt n (i + 1), slaves := s.slaves.set i (s.threads i).loop }
  | .returned => none

/-- `notify_all` reaches the caller if it waits for this thread. -/
def stepThread (s : PoolStart) (i : Nat) : Option PoolStart := do
  let t ← (s.threads i).threadEntry i
  let s' := s.setThread i t
  return if (s.threads i).entry = .notify ∧
    s.caller = .waiting i then { s' with caller := .lock i } else s'

def step (n : Nat) (s : PoolStart) : Act → Option PoolStart
  | .caller => s.stepCaller n
  | .thread i => s.stepThread i
  | .wake =>
    match s.caller with
    | .waiting i => some { s with caller := .lock i }
    | _ => none

end PoolStart
end MuduoServer
