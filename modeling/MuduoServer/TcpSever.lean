import Mathlib.Logic.Function.Basic
import MuduoServer.StdString

/-!
# The server and its loops

`TcpSever` creates a connection on the base loop, gives it to a loop of the pool and keeps it in
`_conns`. The connection is released on its own loop, which has the base loop take it out of
`_conns` again. What a thread still has to do is a stack of frames, innermost first; handlers and
callbacks are any code that calls the public functions.
-/
namespace MuduoServer

open StdString

namespace TcpSever

/-- The functors in the queues of the loops. Connections are numbered as they are constructed. -/
inductive Task where
  | enableTimeoutDelInLoop (x : Nat)
  | establishedInLoop (x : Nat)
  | releaseInloop (x : Nat)
  | removeConnectionInLoop (x : Nat)
  | runAfterInLoop
  /-- Any other functor. -/
  | other
  deriving DecidableEq

/-- What is left of a function that has been entered. -/
inductive Frame where
  /-- The last three statements of `NewConnection`. -/
  | enableTimeoutDel (x : Nat)
  | established (x : Nat)
  | insert (x : Nat)
  /-- `ReleaseInloop` after `_Close_Cb`. -/
  | serverClosed (x : Nat)
  /-- Handlers and callbacks, until they return. -/
  | code
  deriving DecidableEq

inductive Phase where
  | poll
  /-- Handling the active channels. -/
  | handle
  /-- `RunAlltask` with the tasks of the batch still to be run. -/
  | run (batch : List Task)
  deriving DecidableEq

structure EventLoop where
  taskQueue : List Task
  phase : Phase
  stack : List Frame

/-- What the server sees of a `Connection`. -/
structure ConnObject where
  /-- `_Conn_Id` -/
  connId : Int
  /-- `_loop`; 0 is the base loop. -/
  loop : Nat

end TcpSever

open TcpSever

structure TcpSever where
  isAbleDelayDel : Bool
  /-- `_Thread_Cnt` and `_next_EventLoop` of the pool; its loops are numbered from 1. -/
  threadCnt : Nat
  nextEventLoop : Nat
  connId : Nat
  /-- The number of the connection under each id. -/
  conns : Nat → Option Nat
  /-- All connections constructed so far. -/
  objects : List ConnObject
  loops : Nat → EventLoop
  /-- How often `_conn_id` has been increased. -/
  issued : Nat
  /-- The connections whose `ReleaseInloop` has come to its last statement. -/
  released : List Nat

namespace TcpSever

/-- `main` runs before `Start`, on the thread of the base loop. -/
def start (isAbleDelayDel : Bool) (threadCnt : Nat) : TcpSever where
  isAbleDelayDel := isAbleDelayDel
  threadCnt := threadCnt
  nextEventLoop := 0
  connId := 0
  conns _ := none
  objects := []
  loops i := ⟨[], .poll, if i = 0 then [.code] else []⟩
  issued := 0
  released := []

/-- The conversion of `uint64_t` to `int`. -/
def toInt (n : Nat) : Int := Int.bmod n (2 ^ 32)

def Phase.batch : Phase → List Task
  | .run batch => batch
  | _ => []

/-- What the loop will run, in order. -/
def EventLoop.waiting (l : EventLoop) : List Task := l.phase.batch ++ l.taskQueue

/-! ## The loops -/

def setLoop (s : TcpSever) (i : Nat) (l : EventLoop) : TcpSever :=
  { s with loops := Function.update s.loops i l }

@[simp] theorem loops_setLoop (s : TcpSever) (i : Nat) (l : EventLoop) :
    (s.setLoop i l).loops i = l := by
  simp [setLoop]

theorem loops_setLoop_of_ne (s : TcpSever) {i j : Nat} (h : j ≠ i) (l : EventLoop) :
    (s.setLoop i l).loops j = s.loops j := by
  simp [setLoop, h]

def push (s : TcpSever) (i : Nat) (frames : List Frame) : TcpSever :=
  s.setLoop i { s.loops i with stack := frames ++ (s.loops i).stack }

def queueInLoop (s : TcpSever) (i : Nat) (task : Task) : TcpSever :=
  s.setLoop i { s.loops i with taskQueue := (s.loops i).taskQueue ++ [task] }

/-- `_conn_id++` -/
def nextId (s : TcpSever) : TcpSever :=
  { s with connId := (s.connId + 1) % 2 ^ 64, issued := s.issued + 1 }

def getNextEventLoop (s : TcpSever) : TcpSever × Nat :=
  if s.threadCnt = 0 then (s, 0)
  else
    let next := (s.nextEventLoop + 1) % s.threadCnt
    ({ s with nextEventLoop := next }, next + 1)

/-! ## The server -/

/-- `_Conn_Id` is widened to the key again. -/
def removeConnectionInLoop (s : TcpSever) (x : Nat) : Option TcpSever := do
  let conn ← s.objects[x]?
  return { s with conns := Function.update s.conns (toSizeT conn.connId) none }

/-- A functor that runs on loop `i`. -/
def runTask (s : TcpSever) (i : Nat) : Task → Option TcpSever
  | .enableTimeoutDelInLoop _ => some s
  | .establishedInLoop _ => some (s.push i [.code])
  | .releaseInloop x => some (s.push i [.code, .serverClosed x])
  | .removeConnectionInLoop x => s.removeConnectionInLoop x
  | .runAfterInLoop => some s.nextId
  | .other => some (s.push i [.code])

/-- `RunInLoop` of loop `i`, called on the thread of a loop or on another. -/
def runInLoop (s : TcpSever) (thread : Option Nat) (i : Nat) (task : Task) : Option TcpSever :=
  if thread = some i then s.runTask i task else some (s.queueInLoop i task)

def removeConnection (s : TcpSever) (thread : Option Nat) (x : Nat) : Option TcpSever :=
  s.runInLoop thread 0 (.removeConnectionInLoop x)

/-- Up to the three calls at its end. -/
def newConnection (s : TcpSever) : TcpSever :=
  let s := s.nextId
  let x := s.objects.length
  let (s, loop) := s.getNextEventLoop
  let s : TcpSever := { s with objects := s.objects ++ [⟨toInt s.connId, loop⟩] }
  s.push 0 [.enableTimeoutDel x, .established x, .insert x]

/-- `insert` keeps an entry that is there. -/
def insertConn (s : TcpSever) (x : Nat) : TcpSever :=
  if (s.conns s.connId).isSome then s
  else { s with conns := Function.update s.conns s.connId (some x) }

/-- What follows in a frame on the thread of loop `i`. -/
def runFrame (s : TcpSever) (i : Nat) : Frame → Option TcpSever
  | .enableTimeoutDel x => do
    let conn ← s.objects[x]?
    if s.isAbleDelayDel then s.runInLoop (some i) conn.loop (.enableTimeoutDelInLoop x)
      else return s
  | .established x => do
    let conn ← s.objects[x]?
    s.runInLoop (some i) conn.loop (.establishedInLoop x)
  | .insert x => some (s.insertConn x)
  | .serverClosed x => { s with released := s.released ++ [x] }.removeConnection (some i) x
  | .code => none

/-! ## Runs -/

inductive Act where
  | pollReturn (i : Nat)
  /-- The handlers of an active channel or of the timerfd. -/
  | handle (i : Nat)
  /-- The handler of the acceptor's channel, with a descriptor. -/
  | accept
  /-- The swap in `RunAlltask`. -/
  | swap (i : Nat)
  | runTask (i : Nat)
  | batchDone (i : Nat)
  /-- The innermost frame goes on. -/
  | next (i : Nat)
  /-- Code on the thread of a loop, or on another thread, calls `Release`. -/
  | release (thread : Option Nat) (x : Nat)
  /-- It calls another function of a connection that goes through `RunInLoop`. -/
  | call (thread : Option Nat) (x : Nat)
  | runAfter (thread : Option Nat)
  /-- Code on a loop returns. -/
  | ret (i : Nat)
  deriving DecidableEq

/-- The thread runs code that may call public functions. -/
def runsCode (s : TcpSever) : Option Nat → Bool
  | none => true
  | some i => (s.loops i).stack.head? = some .code

def step (s : TcpSever) : Act → Option TcpSever
  | .pollReturn i =>
    if i ≤ s.threadCnt ∧ (s.loops i).phase = .poll ∧ (s.loops i).stack = [] then
      some (s.setLoop i { s.loops i with phase := .handle })
    else none
  | .handle i =>
    if (s.loops i).phase = .handle ∧ (s.loops i).stack = [] then some (s.push i [.code]) else none
  | .accept =>
    if (s.loops 0).phase = .handle ∧ (s.loops 0).stack = [] then some s.newConnection else none
  | .swap i =>
    if (s.loops i).phase = .handle ∧ (s.loops i).stack = [] then
      some (s.setLoop i { s.loops i with taskQueue := [], phase := .run (s.loops i).taskQueue })
    else none
  | .runTask i =>
    match (s.loops i).phase with
    | .run (task :: batch) =>
      if (s.loops i).stack = [] then
        (s.setLoop i { s.loops i with phase := .run batch }).runTask i task else none
    | _ => none
  | .batchDone i =>
    if (s.loops i).phase = .run [] ∧ (s.loops i).stack = [] then
      some (s.setLoop i { s.loops i with phase := .poll })
    else none
  | .next i =>
    match (s.loops i).stack with
    | frame :: stack => (s.setLoop i { s.loops i with stack := stack }).runFrame i frame
    | [] => none
  | .release thread x =>
    if s.runsCode thread then do
      let conn ← s.objects[x]?
      return s.queueInLoop conn.loop (.releaseInloop x)
    else none
  | .call thread x =>
    if s.runsCode thread then do
      let conn ← s.objects[x]?
      s.runInLoop thread conn.loop .other
    else none
  | .runAfter thread => if s.runsCode thread then s.runInLoop thread 0 .runAfterInLoop else none
  | .ret i =>
    match (s.loops i).stack with
    | .code :: stack => some (s.setLoop i { s.loops i with stack := stack })
    | _ => none

end TcpSever
end MuduoServer
