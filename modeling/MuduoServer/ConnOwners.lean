import MuduoServer.BatchQueue
import MuduoServer.ConnTable

/-!
# The owners of a connection

The functors in the queues of the loops, with what they hold. `Send`, `Shutdown`, `Established` and
the two timeout functions bind `this`; `Release` and `RemoveConnection` bind a `ConnPtr`. A
connection lives as long as a `ConnPtr` of it: in `_conns`, in the hands of code, in a functor of a
queue or of the batch that is being run, or in a task of the timer wheel.
-/
namespace MuduoServer

open BatchQueue

namespace ConnOwners

/-- The functions of a connection that go to its loop with `this`. -/
inductive Method where
  | sendInLoop
  | shutDownInLoop
  | enableTimeoutDelInLoop
  | disableTimeoutDelInLoop
  | establishedInLoop
  deriving DecidableEq

inductive Func where
  /-- `std::bind` of a function and `this`. -/
  | bound (m : Method) (x : Nat)
  /-- `Release`: the closure has a `ConnPtr`. -/
  | releaseInloop (x : Nat)
  /-- `RemoveConnection`: `std::bind` with a `ConnPtr`. -/
  | removeConnectionInLoop (x : Nat)
  | runAfterInLoop
  deriving DecidableEq

/-- The connection that a functor is about. -/
def Func.conn : Func → Option Nat
  | .bound _ x | .releaseInloop x | .removeConnectionInLoop x => some x
  | .runAfterInLoop => none

/-- The functor has `this` of the connection. -/
def Func.uses (x : Nat) : Func → Bool
  | .bound _ y => y = x
  | _ => false

/-- The functor has a `ConnPtr` of the connection. -/
def Func.owns (x : Nat) : Func → Bool
  | .releaseInloop y | .removeConnectionInLoop y => y = x
  | _ => false

def Func.releases (x : Nat) : Func → Bool
  | .releaseInloop y => y = x
  | _ => false

end ConnOwners

open ConnOwners

structure ConnOwners where
  sever : TcpSever
  /-- The functors of each loop. -/
  funcs : Nat → Batches Func
  /-- How many `ConnPtr`s of a connection code has, on whatever thread. -/
  held : Nat → Nat
  /-- How many tasks of the timer wheel have one. -/
  timed : Nat → Nat

namespace ConnOwners

def start (isAbleDelayDel : Bool) (threadCnt : Nat) : ConnOwners where
  sever := .start isAbleDelayDel threadCnt
  funcs _ := .empty
  held _ := 0
  timed _ := 0

/-! ## Functors -/

/-- What `RunInLoop` queues on a thread other than that of the loop. -/
def runInLoop (s : TcpSever) (thread : Option Nat) (m : Method) (x : Nat) : Option (Nat × Func) :=
  do
  let conn ← s.objects[x]?
  if thread = some conn.loop then none else return (conn.loop, .bound m x)

/-- What a frame queues on the thread of loop `i`. -/
def frameQueues (s : TcpSever) (i : Nat) : TcpSever.Frame → Option (Nat × Func)
  | .enableTimeoutDel x =>
    if s.isAbleDelayDel then runInLoop s (some i) .enableTimeoutDelInLoop x else none
  | .established x => runInLoop s (some i) .establishedInLoop x
  | .serverClosed x => if i = 0 then none else some (0, .removeConnectionInLoop x)
  | .insert _ | .code => none

/-- The functor that a step of the server queues, and the loop. -/
def queues (s : TcpSever) : TcpSever.Act → Option (Nat × Func)
  | .next i => (s.loops i).stack.head?.bind (frameQueues s i)
  | .release _ x => (s.objects[x]?).map fun conn => (conn.loop, .releaseInloop x)
  | .runAfter thread => if thread = some 0 then none else some (0, .runAfterInLoop)
  | _ => none

def enqueue (funcs : Nat → Batches Func) : Option (Nat × Func) → Nat → Batches Func
  | none => funcs
  | some (i, f) => Function.update funcs i ((funcs i).add f)

/-- `RunAlltask` takes the queue, runs a functor, or destroys the batch. -/
def serve (funcs : Nat → Batches Func) : TcpSever.Act → Nat → Batches Func
  | .swap i => Function.update funcs i (funcs i).swap
  | .runTask i => Function.update funcs i (funcs i).take
  | .batchDone i => Function.update funcs i (funcs i).finish
  | _ => funcs

/-! ## The timer wheel -/

def Func.enables : Func → Option Nat
  | .bound .enableTimeoutDelInLoop x => some x
  | _ => none

/-- The connection whose `EnableTimeoutDelInLoop` a step carries out. -/
def enables (s : ConnOwners) : TcpSever.Act → Option Nat
  | .runTask i => (s.funcs i).batch.head?.bind Func.enables
  | .next i =>
    match (s.sever.loops i).stack with
    | .enableTimeoutDel x :: _ =>
      if s.sever.isAbleDelayDel ∧ (s.sever.objects[x]?).map TcpSever.ConnObject.loop = some i
        then some x else none
    | _ => none
  | _ => none

def addTimer (timed : Nat → Nat) : Option Nat → Nat → Nat
  | none => timed
  | some x => Function.update timed x (timed x + 1)

/-! ## Runs -/

inductive Act where
  /-- A step of the server. -/
  | sever (a : TcpSever.Act)
  /-- Code calls a function of a connection. -/
  | call (thread : Option Nat) (m : Method) (x : Nat)
  /-- Code gets another `ConnPtr`: as the parameter of a callback, or as a copy. -/
  | obtain (thread : Option Nat) (x : Nat)
  /-- Code gives up a `ConnPtr`. -/
  | drop (thread : Option Nat) (x : Nat)
  /-- A task of the timer wheel is destroyed; when this happens is left open, and whether it has
  called `Release`. -/
  | expire (x : Nat)
  deriving DecidableEq

/-- The thread has the connection at hand: its code has a `ConnPtr`, or it is the loop of the
connection, which runs its handlers, callbacks and timer tasks. -/
def AtHand (s : ConnOwners) (thread : Option Nat) (x : Nat) : Prop :=
  0 < s.held x ∨ ∃ conn ∈ s.sever.objects[x]?, thread = some conn.loop

instance (s : ConnOwners) (thread : Option Nat) (x : Nat) : Decidable (s.AtHand thread x) :=
  inferInstanceAs (Decidable (_ ∨ _))

/-- The server calls the functions of a connection only as `NewConnection` does; `Release` is called
on one that is at hand. -/
def Allowed (s : ConnOwners) : TcpSever.Act → Prop
  | .call _ _ => False
  | .release thread x => s.AtHand thread x
  | _ => True

instance (s : ConnOwners) (a : TcpSever.Act) : Decidable (s.Allowed a) := by
  cases a <;> unfold Allowed <;> infer_instance

def step (s : ConnOwners) : Act → Option ConnOwners
  | .sever a =>
    if s.Allowed a then do
      let sever ← s.sever.step a
      return { s with
        sever := sever
        funcs := enqueue (serve s.funcs a) (queues s.sever a)
        timed := addTimer s.timed (s.enables a) }
    else none
  | .call thread m x =>
    if 0 < s.held x then do
      let sever ← s.sever.step (.call thread x)
      let queued := runInLoop s.sever thread m x
      return { s with
        sever := sever
        funcs := enqueue s.funcs queued
        timed := if queued.isNone ∧ m = .enableTimeoutDelInLoop then addTimer s.timed (some x)
          else s.timed }
    else none
  | .obtain thread x =>
    if s.sever.runsCode thread ∧ s.AtHand thread x then
      some { s with held := Function.update s.held x (s.held x + 1) }
    else none
  | .drop thread x =>
    if s.sever.runsCode thread ∧ 0 < s.held x then
      some { s with held := Function.update s.held x (s.held x - 1) }
    else none
  | .expire x =>
    if 0 < s.timed x then some { s with timed := Function.update s.timed x (s.timed x - 1) }
      else none

/-- There is a `ConnPtr` of the connection. -/
def Owned (s : ConnOwners) (x : Nat) : Prop :=
  s.sever.InTable x ∨ x ∈ s.sever.entering ∨ 0 < s.held x ∨ 0 < s.timed x ∨
    ∃ i, ∃ f ∈ (s.funcs i).running ++ (s.funcs i).queue, f.owns x

end ConnOwners
end MuduoServer
