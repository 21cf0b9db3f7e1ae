import MuduoServer.Buffer
import MuduoServer.Poller
import MuduoServer.Timeout

/-!
# Connections on one event loop

Everything that runs on the thread of one loop: the handlers of its connections,
its task queue, its poller and its timer wheel. What the thread still has to do
is a stack of frames, innermost first, so user code in a callback can call any
public function of any connection before the function that called it goes on.
-/
namespace MuduoServer

open StdString

inductive ConnStatus where
  | disconnected
  | connecting
  | connected
  | disconnecting
  deriving DecidableEq

/-- What `recv(2)` or `send(2)` returned and the value of `errno` after it: the error of
the call if it returned -1, else whatever earlier calls left. -/
structure SysResult where
  ret : Int
  errno : Nat
  deriving DecidableEq

namespace Socket

def eintr : Nat := 4
def eagain : Nat := 11

def checked (r : SysResult) : Int :=
  if r.ret ≤ 0 then if r.errno = eagain ∨ r.errno = eintr then 0 else -1 else r.ret

def recv (r : SysResult) : Int := checked r
def send (r : SysResult) : Int := checked r

end Socket

/-- The `std::function` members of a connection that some function calls. -/
inductive Callback where
  | connect
  | message
  | close
  | event
  | serverClosed
  deriving DecidableEq

/-- `_Conn_Id` and `_Timer_Id` are the key under which the loop finds the connection. -/
structure Connection where
  /-- `_Sockfd`, also the descriptor of the channel. -/
  sockfd : Nat
  status : ConnStatus
  isEnableTimeDel : Bool
  /-- The descriptor in `_Socket`, gone after `Close`. -/
  socket : Option Nat
  /-- `_event` and `_revent` of the channel. -/
  event : UInt32
  revent : UInt32
  inbuffer : Buffer
  outbuffer : Buffer
  /-- The functions installed, numbered; an empty one is `none`. -/
  callbacks : Callback → Option Nat

def Connection.connected (conn : Connection) : Bool := conn.status = .connected

/-- The functors that go through `RunInLoop` or `QueueInLoop`. -/
inductive Task where
  /-- `b` holds the bytes passed to `Send`. -/
  | sendInLoop (c : Nat) (b : Buffer)
  | shutDownInLoop (c : Nat)
  | enableTimeoutDelInLoop (c : Nat) (sec : Int)
  | disableTimeoutDelInLoop (c : Nat)
  | establishedInLoop (c : Nat)
  | releaseInloop (c : Nat)
  /-- Any other functor. -/
  | user
  deriving DecidableEq

/-- The connection that a task is about. -/
def Task.conn : Task → Option Nat
  | .sendInLoop c _ | .shutDownInLoop c | .enableTimeoutDelInLoop c _ | .disableTimeoutDelInLoop c
  | .establishedInLoop c | .releaseInloop c => some c
  | .user => none

/-- The connection that a task releases. -/
def Task.releases : Task → Option Nat
  | .releaseInloop c => some c
  | _ => none

/-- What is left of a function that has been entered. -/
inductive Frame where
  /-- The handlers that `Channel::HanderEvent` calls. -/
  | handerRead (c : Nat)
  | handerWrite (c : Nat)
  | handerClose (c : Nat)
  | handerErr (c : Nat)
  | handerEvent (c : Nat)
  /-- `ShutDownInLoop` after the message callback. -/
  | shutDownRest (c : Nat)
  /-- A call of `Release`. -/
  | release (c : Nat)
  /-- `ReleaseInloop` after `_Close_Cb`. -/
  | serverClosed (c : Nat)
  /-- User code, until it returns. -/
  | user
  deriving DecidableEq

/-- The connection that a frame is about. -/
def Frame.conn : Frame → Option Nat
  | .handerRead c | .handerWrite c | .handerClose c | .handerErr c | .handerEvent c
  | .shutDownRest c | .release c | .serverClosed c => some c
  | .user => none

inductive Phase where
  | poll
  /-- The active channels still to be handled. -/
  | handle (active : List Nat)
  /-- `RunAlltask` with the tasks of the batch still to be run. -/
  | run (batch : List Task)
  deriving DecidableEq

/-- One call of a callback of a connection. -/
structure Invocation where
  conn : Nat
  kind : Callback
  function : Nat
  deriving DecidableEq

structure Loop where
  poller : Poller Nat
  /-- The wheel tasks of connections; each calls `Release` of the connection it names. -/
  wheel : TimeWheel Nat
  conns : Nat → Option Connection
  taskQueue : List Task
  phase : Phase
  stack : List Frame
  /-- The callbacks called so far, in order. -/
  invoked : List Invocation

/-- `Channel::HanderEvent`. -/
def channelHanderEvent (c : Nat) (revent : UInt32) : List Frame :=
  (if hasEvent revent epollIn || hasEvent revent epollRdHup || hasEvent revent epollPri then
    [.handerRead c] else []) ++
  (if hasEvent revent epollOut then [.handerWrite c]
    else if hasEvent revent epollHup then [.handerClose c]
    else if hasEvent revent epollErr then [.handerErr c] else []) ++
  [.handerEvent c]

namespace Loop

def start : Loop := ⟨Poller.empty, TimeWheel.empty, fun _ => none, [], .poll, [], []⟩

def set (s : Loop) (c : Nat) (conn : Connection) : Loop :=
  { s with conns := Function.update s.conns c (some conn) }

def push (s : Loop) (frame : Frame) : Loop := { s with stack := frame :: s.stack }

def queueInLoop (s : Loop) (task : Task) : Loop := { s with taskQueue := s.taskQueue ++ [task] }

/-- Calls a callback that is set. -/
def invoke (s : Loop) (c : Nat) (conn : Connection) (kind : Callback) : Loop :=
  match conn.callbacks kind with
  | none => s
  | some f => { s with invoked := s.invoked ++ [⟨c, kind, f⟩], stack := .user :: s.stack }

/-- Calls the message callback when there is something to read. -/
def message (s : Loop) (c : Nat) (conn : Connection) : Loop :=
  if 0 < conn.inbuffer.currentEnableReadSpaceSize then s.invoke c conn .message else s

/-! ## The channel -/

def unpate (s : Loop) (c : Nat) (conn : Connection) : Loop :=
  { s.set c conn with poller := s.poller.updateEvent c conn.sockfd conn.event }

def fdAddRead (s : Loop) (c : Nat) (conn : Connection) : Loop :=
  s.unpate c { conn with event := conn.event ||| epollIn }

def fdAddWrite (s : Loop) (c : Nat) (conn : Connection) : Loop :=
  s.unpate c { conn with event := conn.event ||| epollOut }

def fdDeleteWrite (s : Loop) (c : Nat) (conn : Connection) : Loop :=
  s.unpate c { conn with event := conn.event &&& ~~~epollOut }

/-! ## The connection -/

def shutDownInLoop (s : Loop) (c : Nat) (conn : Connection) : Loop :=
  let conn := { conn with status := .disconnecting }
  ((s.set c conn).push (.shutDownRest c)).message c conn

def shutDownRest (s : Loop) (c : Nat) (conn : Connection) : Loop :=
  if 0 < conn.outbuffer.currentEnableReadSpaceSize then
    if hasEvent conn.event epollOut then s else s.fdAddWrite c conn
  else s.push (.release c)

/-- `bytes` are what `recv` stored. -/
def handerRead (s : Loop) (c : Nat) (conn : Connection) (r : SysResult) (bytes : Bytes) :
    Option Loop :=
  if Socket.recv r < 0 then some (s.shutDownInLoop c conn)
  else do
    let inbuffer ← conn.inbuffer.writeAndAdd bytes
    let conn := { conn with inbuffer := inbuffer }
    return (s.set c conn).message c conn

def handerWrite (s : Loop) (c : Nat) (conn : Connection) (r : SysResult) : Option Loop :=
  let ret := Socket.send r
  if ret < 0 then some ((s.push (.release c)).message c conn)
  else do
    let outbuffer ← conn.outbuffer.moveReadPosition ret.toNat
    let conn := { conn with outbuffer := outbuffer }
    let s := s.set c conn
    if outbuffer.currentEnableReadSpaceSize = 0 then
      let s := s.fdDeleteWrite c conn
      return if conn.status = .disconnecting then s.push (.release c) else s
    else return s

def handerClose (s : Loop) (c : Nat) (conn : Connection) : Loop :=
  (s.push (.release c)).message c conn

def handerErr (s : Loop) (c : Nat) (conn : Connection) : Loop := s.handerClose c conn

def handerEvent (s : Loop) (c : Nat) (conn : Connection) : Option Loop := do
  let wheel ← s.wheel.handerEvent conn.isEnableTimeDel c
  return { s with wheel := wheel }.invoke c conn .event

def sendInLoop (s : Loop) (c : Nat) (conn : Connection) (b : Buffer) : Option Loop :=
  if conn.status = .disconnected then some s
  else do
    let outbuffer ← conn.outbuffer.writeAsBufferAndAdd b
    let conn := { conn with outbuffer := outbuffer }
    let s := s.set c conn
    return if hasEvent conn.event epollOut then s else s.fdAddWrite c conn

def establishedInLoop (s : Loop) (c : Nat) (conn : Connection) : Loop :=
  if conn.status ≠ .connecting then s else (s.fdAddRead c conn).invoke c conn .connect

def enableTimeoutDelInLoop (s : Loop) (c : Nat) (conn : Connection) (sec : Int) : Option Loop := do
  let wheel ← s.wheel.enableTimeoutDelInLoop c sec c
  return { s.set c { conn with isEnableTimeDel := true } with wheel := wheel }

def disableTimeoutDelInLoop (s : Loop) (c : Nat) (conn : Connection) : Loop :=
  { s.set c { conn with isEnableTimeDel := false } with
    wheel := s.wheel.disableTimeoutDelInLoop c }

/-- Status, `Remove` and `Close` of `ReleaseInloop`. -/
def detach (s : Loop) (c : Nat) (conn : Connection) : Loop :=
  let poller := s.poller.removeEvent conn.sockfd
  { s.set c { conn with status := .disconnected, socket := none } with
    poller := match conn.socket with
      | none => poller
      | some fd => poller.close fd }

def releaseInloop (s : Loop) (c : Nat) (conn : Connection) : Loop :=
  let s := s.detach c conn
  let s := if s.wheel.hasTimer c then
      s.disableTimeoutDelInLoop c { conn with status := .disconnected, socket := none }
    else s
  (s.push (.serverClosed c)).invoke c conn .close

/-- The members that `ChangeProtocalInLoop` assigns. -/
def changedCallbacks (callbacks : Callback → Option Nat) (connectCb closeCb msgCb : Option Nat) :
    Callback → Option Nat
  | .connect => connectCb
  | .close => closeCb
  | .message => msgCb
  | kind => callbacks kind

def changeProtocalInLoop (s : Loop) (c : Nat) (conn : Connection)
    (connectCb closeCb msgCb : Option Nat) :
    Loop :=
  s.set c { conn with callbacks := changedCallbacks conn.callbacks connectCb closeCb msgCb }

/-! ## The loop -/

def runTask (s : Loop) : Task → Option Loop
  | .sendInLoop c b => do s.sendInLoop c (← s.conns c) b
  | .shutDownInLoop c => do return s.shutDownInLoop c (← s.conns c)
  | .enableTimeoutDelInLoop c sec => do s.enableTimeoutDelInLoop c (← s.conns c) sec
  | .disableTimeoutDelInLoop c => do return s.disableTimeoutDelInLoop c (← s.conns c)
  | .establishedInLoop c => do return s.establishedInLoop c (← s.conns c)
  | .releaseInloop c => do return s.releaseInloop c (← s.conns c)
  | .user => some (s.push .user)

/-- What follows in a frame that needs no result of a system call. -/
def runFrame (s : Loop) : Frame → Option Loop
  | .handerClose c => do return s.handerClose c (← s.conns c)
  | .handerErr c => do return s.handerErr c (← s.conns c)
  | .handerEvent c => do s.handerEvent c (← s.conns c)
  | .shutDownRest c => do return s.shutDownRest c (← s.conns c)
  | .release c => some (s.queueInLoop (.releaseInloop c))
  | .serverClosed c => do return s.invoke c (← s.conns c) .serverClosed
  | .handerRead _ | .handerWrite _ | .user => none

/-- `Poller::Poll`: a descriptor without a channel fails the assertion. -/
def poll (s : Loop) : List (Nat × UInt32) → Option (Loop × List Nat)
  | [] => some (s, [])
  | (fd, revents) :: ready => do
    let c ← s.poller.channels fd
    let conn ← s.conns c
    let (s, active) ← (s.set c { conn with revent := revents }).poll ready
    return (s, c :: active)

/-- The timerfd's handler: the tasks that fire call `Release` one after the other. -/
def oneTime (s : Loop) : Loop :=
  let wheel := s.wheel.runTimer
  { s with
    wheel := wheel
    stack := (wheel.fired.drop s.wheel.fired.length).map (fun t => .release t.task) ++ s.stack }

inductive Act where
  /-- `epoll_wait` returns events on registered descriptors. -/
  | pollReturn (ready : List (Nat × UInt32))
  /-- The next active channel. -/
  | handle
  /-- The timerfd is among the active channels. -/
  | timer
  /-- Another channel of the loop, such as the acceptor's, runs its callback. -/
  | other
  /-- The swap in `RunAlltask`. -/
  | swap
  | runTask
  | batchDone
  /-- The innermost frame goes on, with the result of its system call if it makes one. -/
  | next
  | recv (r : SysResult) (bytes : Bytes)
  | send (r : SysResult)
  /-- User code on the loop: a public function that goes through `RunInLoop`, `Release`,
  `ChangeProtocal`, taking bytes from the input buffer, and its return. -/
  | call (task : Task)
  | release (c : Nat)
  | changeProtocal (c : Nat) (connectCb closeCb msgCb : Option Nat)
  | consume (c : Nat) (len : Nat)
  | ret
  /-- A new connection on a descriptor that the kernel just opened. -/
  | newConnection (c fd : Nat) (callbacks : Callback → Option Nat)
  /-- Another thread queues a task. -/
  | post (task : Task)

/-- The thread is in no function below the loop's own. -/
def idle (s : Loop) : Bool := s.stack.isEmpty

/-- User code is running on the loop's thread. -/
def inUser (s : Loop) : Bool := s.stack.head? = some .user

def step (s : Loop) : Act → Option Loop
  | .pollReturn ready =>
    if s.phase = .poll ∧ ∀ e ∈ ready, (s.poller.interest e.1).isSome then
      (s.poll ready).map fun (s, active) => { s with phase := .handle active }
    else none
  | .handle =>
    match s.phase with
    | .handle (c :: active) =>
      if s.idle then do
        let conn ← s.conns c
        return { s with phase := .handle active, stack := channelHanderEvent c conn.revent }
      else none
    | _ => none
  | .timer =>
    match s.phase with
    | .handle _ => if s.idle then some s.oneTime else none
    | _ => none
  | .other =>
    match s.phase with
    | .handle _ => if s.idle then some (s.push .user) else none
    | _ => none
  | .swap =>
    match s.phase with
    | .handle [] =>
      if s.idle then some { s with taskQueue := [], phase := .run s.taskQueue } else none
    | _ => none
  | .runTask =>
    match s.phase with
    | .run (task :: batch) => if s.idle then { s with phase := .run batch }.runTask task else none
    | _ => none
  | .batchDone =>
    match s.phase with
    | .run [] => if s.idle then some { s with phase := .poll } else none
    | _ => none
  | .next =>
    match s.stack with
    | frame :: stack => { s with stack := stack }.runFrame frame
    | _ => none
  | .recv r bytes =>
    match s.stack with
    | .handerRead c :: stack =>
      if r.ret ≤ 65535 ∧ bytes.length = (Socket.recv r).toNat then do
        handerRead { s with stack := stack } c (← s.conns c) r bytes
      else none
    | _ => none
  | .send r =>
    match s.stack with
    | .handerWrite c :: stack => do handerWrite { s with stack := stack } c (← s.conns c) r
    | _ => none
  | .call task =>
    if s.inUser ∧ task.releases = none then s.runTask task else none
  | .release c => if s.inUser ∧ (s.conns c).isSome then some (s.push (.release c)) else none
  | .changeProtocal c connectCb closeCb msgCb =>
    if s.inUser then do return s.changeProtocalInLoop c (← s.conns c) connectCb closeCb msgCb
      else none
  | .consume c len =>
    if s.inUser then do
      let conn ← s.conns c
      let inbuffer ← conn.inbuffer.moveReadPosition len
      return s.set c { conn with inbuffer := inbuffer }
    else none
  | .ret =>
    match s.stack with
    | .user :: stack => some { s with stack := stack }
    | _ => none
  | .newConnection c fd callbacks =>
    if (s.conns c).isNone ∧ s.poller.isOpen fd = false then
      let conn := ⟨fd, .connecting, false, some fd, 0, 0, Buffer.empty, Buffer.empty, callbacks⟩
      some { s.set c conn with poller := s.poller.opened fd }
    else none
  | .post task => some (s.queueInLoop task)

end Loop
end MuduoServer
