import MuduoServer.Released

/-!
# One connection of a loop

Seen from one of its connections, a run of the loop is a run of a small machine:
the status, the bytes received and still to be sent, whether the poller is asked
for `EPOLLOUT`, and what is on its way on the stack and in the task queue. Each
step of the loop is one event of this machine, most often none.
-/
namespace MuduoServer
namespace Loop

open StdString Transition

inductive Event where
  | quiet
  | established
  /-- `HanderRead` with the bytes it received. -/
  | received (bytes : Bytes)
  /-- User code takes bytes from the input buffer. -/
  | consumed (len : Nat)
  /-- `SendInLoop` with these bytes. -/
  | send (payload : Bytes)
  /-- The channel goes for `HanderWrite`. -/
  | writable
  /-- `HanderWrite` with the result of its system call. -/
  | written (r : SysResult)
  | shutDown
  /-- The end of `ShutDownInLoop`, after the message callback. -/
  | shutDownRest
  /-- So many calls of `Release` by `HanderClose`, `HanderErr`, the wheel or user code. -/
  | release (times : Nat)
  /-- `ReleaseInloop`. -/
  | released
  deriving DecidableEq

@[ext] structure View where
  status : ConnStatus
  /-- `EPOLLOUT` is in the mask of the channel. -/
  waiting : Bool
  input : Bytes
  output : Bytes
  /-- `HanderWrite` and the end of `ShutDownInLoop`, entered and not yet executed. -/
  writing : Nat
  shutting : Nat
  /-- `Release` and `ReleaseInloop`, called or queued and not yet executed. -/
  releasing : Nat
  deriving DecidableEq

def View.step (v : View) : Event → View
  | .quiet | .established => v
  | .received bytes => { v with input := v.input ++ bytes }
  | .consumed len => { v with input := v.input.drop len }
  | .send payload =>
    if v.status = .disconnected then v
      else { v with output := v.output ++ payload, waiting := true }
  | .writable => { v with writing := v.writing + 1 }
  | .written r =>
    let v := { v with writing := v.writing - 1 }
    if Socket.send r < 0 then { v with releasing := v.releasing + 1 }
    else
      let v := { v with output := v.output.drop (Socket.send r).toNat }
      if v.output = [] then
        { v with waiting := false, releasing := v.releasing + (if v.status = .disconnecting then 1 else 0) }
      else v
  | .shutDown => { v with status := .disconnecting, shutting := v.shutting + 1 }
  | .shutDownRest =>
    let v := { v with shutting := v.shutting - 1 }
    if v.output = [] then { v with releasing := v.releasing + 1 } else { v with waiting := true }
  | .release times => { v with releasing := v.releasing + times }
  | .released => { v with status := .disconnected, releasing := v.releasing - 1 }

/-- A handler runs on an empty stack, and only what was entered or queued goes on. -/
def View.Enabled (v : View) : Event → Prop
  | .writable => v.writing = 0
  | .written _ => 0 < v.writing
  | .shutDownRest => 0 < v.shutting
  | .released => 0 < v.releasing
  | _ => True

/-- A connection that is not there yet looks like a new one. -/
def view (s : Loop) (c : Nat) : View where
  status := ((s.conns c).map Connection.status).getD .connecting
  waiting := ((s.conns c).map fun conn => hasEvent conn.event epollOut).getD false
  input := ((s.conns c).map fun conn => conn.inbuffer.unread).getD []
  output := ((s.conns c).map fun conn => conn.outbuffer.unread).getD []
  writing := s.stack.count (.handerWrite c)
  shutting := s.stack.count (.shutDownRest c)
  releasing := s.stack.count (.release c) + s.pending.count (.releaseInloop c)

def taskEvent (c : Nat) : Task → Event
  | .sendInLoop d b => if d = c then .send b.unread else .quiet
  | .shutDownInLoop d => if d = c then .shutDown else .quiet
  | .establishedInLoop d => if d = c then .established else .quiet
  | .releaseInloop d => if d = c then .released else .quiet
  | _ => .quiet

def frameEvent (c : Nat) : Frame → Event
  | .handerClose d | .handerErr d => if d = c then .release 1 else .quiet
  | .shutDownRest d => if d = c then .shutDownRest else .quiet
  | _ => .quiet

/-- What a step of the loop is to connection `c`. -/
def event (s : Loop) (c : Nat) (a : Act) : Event :=
  match a with
  | .handle =>
    match s.phase with
    | .handle (d :: _) =>
      if d = c ∧ (s.conns c).any (fun conn => hasEvent conn.revent epollOut)
        then .writable else .quiet
    | _ => .quiet
  | .timer => .release (s.oneTime.stack.count (.release c) - s.stack.count (.release c))
  | .runTask | .call _ => (s.executes a).elim .quiet (taskEvent c)
  | .next => s.stack.head?.elim .quiet (frameEvent c)
  | .recv r bytes =>
    if s.stack.head? = some (.handerRead c) then
      if Socket.recv r < 0 then .shutDown else .received bytes
    else .quiet
  | .send r => if s.stack.head? = some (.handerWrite c) then .written r else .quiet
  | .release d => if d = c then .release 1 else .quiet
  | .consume d len => if d = c then .consumed len else .quiet
  | .post task => if task = .releaseInloop c then .release 1 else .quiet
  | _ => .quiet

/-! ## What the parts of a step do to the view -/

variable {s s' : Loop} {c d : Nat} {conn : Connection}

theorem view_congr (hconn : s'.conns c = s.conns c) (hpending : s'.pending = s.pending)
    (hwrite : s'.stack.count (.handerWrite c) = s.stack.count (.handerWrite c))
    (hshut : s'.stack.count (.shutDownRest c) = s.stack.count (.shutDownRest c))
    (hrelease : s'.stack.count (.release c) = s.stack.count (.release c)) :
    s'.view c = s.view c := by
  simp only [view, hconn, hpending, hwrite, hshut, hrelease]

/-- The loop with a frame of the connection on top. -/
theorem view_push (s : Loop) (f : Frame) (c : Nat) : (s.push f).view c =
    { s.view c with
      writing := (s.view c).writing + [f].count (.handerWrite c)
      shutting := (s.view c).shutting + [f].count (.shutDownRest c)
      releasing := (s.view c).releasing + [f].count (.release c) } := by
  have hcount : ∀ g : Frame, (f :: s.stack).count g = s.stack.count g + [f].count g := by
    intro g
    rw [← List.singleton_append, List.count_append, Nat.add_comm]
  simp only [view, push, hcount, pending, View.mk.injEq, true_and]
  omega

theorem view_frames {frames : List Frame} (hframes : ∀ f ∈ frames, f = .user) :
    ({ s with stack := frames ++ s.stack } : Loop).view c = s.view c := by
  have hnot : ∀ g : Frame, g ≠ .user → (frames ++ s.stack).count g = s.stack.count g :=
    fun g hg => count_stack fun hin => hg (hframes g hin)
  exact view_congr rfl rfl (hnot _ nofun) (hnot _ nofun) (hnot _ nofun)

@[simp] theorem view_invoke (s : Loop) (d : Nat) (conn : Connection) (kind : Callback) (c : Nat) :
    (s.invoke d conn kind).view c = s.view c := by
  obtain ⟨calls, frames, he, -, -, hframes⟩ := invoke_spec s d conn kind
  rw [he]
  exact view_frames (s := { s with invoked := s.invoked ++ calls }) hframes

@[simp] theorem view_message (s : Loop) (d : Nat) (conn : Connection) (c : Nat) :
    (s.message d conn).view c = s.view c := by
  unfold message
  split
  · exact view_invoke s d conn .message c
  · rfl

/-- Code of another connection. -/
theorem view_work (hwork : Work d s s') (hne : d ≠ c) : s'.view c = s.view c := by
  obtain ⟨frames, hstack, hframes⟩ := hwork.stack
  have hnot : ∀ g : Frame, g.conn = some c → s'.stack.count g = s.stack.count g := by
    intro g hg
    rw [hstack, count_stack]
    intro hin
    rcases hframes g hin with rfl | rfl | rfl
    · cases hg
    · exact hne (Option.some.inj hg)
    · exact hne (Option.some.inj hg)
  exact view_congr (hwork.others c hne.symm) (pending_congr hwork.taskQueue hwork.phase)
    (hnot _ rfl)
    (hnot _ rfl) (hnot _ rfl)

@[simp] theorem view_set (s : Loop) (c : Nat) (conn : Connection) : (s.set c conn).view c =
    { s.view c with
      status := conn.status
      waiting := hasEvent conn.event epollOut
      input := conn.inbuffer.unread
      output := conn.outbuffer.unread } := by
  simp only [view, conns_set, Option.map_some, Option.getD_some]
  rfl

theorem view_unpate (s : Loop) (c : Nat) (conn : Connection) :
    (s.unpate c conn).view c = (s.set c conn).view c := rfl

/-- The connection's own share of its view. -/
theorem view_conn (hc : s.conns c = some conn) : (s.view c).status = conn.status ∧
    (s.view c).waiting = hasEvent conn.event epollOut ∧ (s.view c).input = conn.inbuffer.unread ∧
    (s.view c).output = conn.outbuffer.unread := by
  simp [view, hc]

/-- The loop before a frame was entered. -/
theorem view_pop {f : Frame} {stack : List Frame} (hs : s.stack = f :: stack) (c : Nat) :
    s.view c = (({ s with stack := stack } : Loop).push f).view c := by
  simp only [view, push, hs, pending]

/-- The loop before a task left the batch. -/
theorem view_take {task : Task} {batch : List Task} (hp : s.phase = .run (task :: batch))
    (c : Nat) :
    s.view c = { ({ s with phase := .run batch } : Loop).view c with
      releasing := (({ s with phase := .run batch } : Loop).view c).releasing +
        [task].count (.releaseInloop c) } := by
  have hcount : (task :: (batch ++ s.taskQueue)).count (.releaseInloop c) =
      (batch ++ s.taskQueue).count (.releaseInloop c) + [task].count (.releaseInloop c) := by
    rw [← List.singleton_append, List.count_append, Nat.add_comm]
  simp only [view, pending, hp, List.cons_append, hcount, Nat.add_assoc]

/-! ## The functions of the connection -/

/-- A change of the rest of the connection. -/
theorem view_set_same (hc : s.conns c = some conn) (conn' : Connection)
    (hstatus : conn'.status = conn.status)
    (hevent : hasEvent conn'.event epollOut = hasEvent conn.event epollOut)
    (hinput : conn'.inbuffer = conn.inbuffer) (houtput : conn'.outbuffer = conn.outbuffer) :
    (s.set c conn').view c = s.view c := by
  obtain ⟨hs, hw, hi, ho⟩ := view_conn hc
  rw [view_set]
  exact View.ext (hstatus.trans hs.symm) (hevent.trans hw.symm)
    (by rw [hi, hinput]) (by rw [ho, houtput, hinput]) rfl rfl rfl

theorem view_establishedInLoop (hc : s.conns c = some conn) :
    (s.establishedInLoop c conn).view c = s.view c := by
  unfold establishedInLoop
  split
  · rfl
  · rw [view_invoke, fdAddRead, view_unpate]
    exact view_set_same hc _ rfl (hasEvent_out_addIn conn.event) rfl rfl

theorem view_shutDownInLoop (hc : s.conns c = some conn) :
    (s.shutDownInLoop c conn).view c = (s.view c).step .shutDown := by
  obtain ⟨-, hwaiting, hinput, houtput⟩ := view_conn hc
  simp [shutDownInLoop, view_push, View.step, hwaiting, houtput, hinput]

theorem unread_eq_nil (b : Buffer) : b.unread = [] ↔ b.currentEnableReadSpaceSize = 0 := by
  rw [← Buffer.length_unread, List.length_eq_zero_iff]

theorem view_shutDownRest (hc : s.conns c = some conn) : (s.shutDownRest c conn).view c =
    ((s.push (.shutDownRest c)).view c).step .shutDownRest := by
  obtain ⟨hstatus, hwaiting, hinput, houtput⟩ := view_conn hc
  unfold shutDownRest
  by_cases hempty : conn.outbuffer.unread = []
  · rw [if_neg (by simp [(unread_eq_nil _).mp hempty])]
    simp [view_push, View.step, houtput, hinput, hempty]
  · rw [if_pos (Nat.pos_of_ne_zero fun h => hempty ((unread_eq_nil _).mpr h))]
    cases hout : hasEvent conn.event epollOut with
    | true =>
      simp only [view_push, View.step, houtput, hinput, hempty, if_false, if_true]
      exact View.ext rfl (hwaiting.trans hout) hinput houtput rfl (by simp) (by simp)
    | false =>
      simp [fdAddWrite, view_unpate, view_push, View.step, houtput, hinput, hempty, hstatus]

theorem view_handerWrite (hc : s.conns c = some conn) {r : SysResult}
    (h : s.handerWrite c conn r = some s') :
    s'.view c = ((s.push (.handerWrite c)).view c).step (.written r) := by
  obtain ⟨hstatus, hwaiting, hinput, houtput⟩ := view_conn hc
  unfold handerWrite at h
  dsimp only at h
  by_cases hneg : Socket.send r < 0
  · rw [if_pos hneg] at h
    cases h
    simp [view_push, View.step, hneg]
  · rw [if_neg hneg] at h
    obtain ⟨outbuffer, hmove, h⟩ := Option.bind_eq_some_iff.mp h
    have hdrop := Buffer.unread_moveReadPosition hmove
    by_cases hempty : outbuffer.unread = []
    · rw [if_pos ((unread_eq_nil _).mp hempty)] at h
      by_cases hdis : conn.status = .disconnecting
      · rw [if_pos hdis] at h
        cases h
        simp [fdDeleteWrite, view_unpate, view_push, View.step, hneg, hdis, hstatus, houtput,
          hinput, ← hdrop, hempty]
      · rw [if_neg hdis] at h
        cases h
        simp [fdDeleteWrite, view_unpate, view_push, View.step, hneg, hdis, hstatus, houtput,
          hinput, ← hdrop, hempty]
    · rw [if_neg fun h => hempty ((unread_eq_nil _).mpr h)] at h
      cases h
      simp [view_push, View.step, hneg, hstatus, hwaiting, houtput, hinput, ← hdrop, hempty]

theorem view_handerRead (hc : s.conns c = some conn) {r : SysResult} {bytes : Bytes}
    (h : s.handerRead c conn r bytes = some s') :
    s'.view c = (s.view c).step (if Socket.recv r < 0 then .shutDown else .received bytes) := by
  obtain ⟨hstatus, hwaiting, hinput, houtput⟩ := view_conn hc
  unfold handerRead at h
  split at h
  · rename_i hneg
    cases h
    rw [if_pos hneg]
    exact view_shutDownInLoop hc
  · rename_i hpos
    obtain ⟨inbuffer, hwrite, h⟩ := Option.bind_eq_some_iff.mp h
    cases h
    obtain ⟨b', hwrite', happend⟩ := conn.inbuffer.writeAndAdd_eq bytes
    cases hwrite.symm.trans hwrite'
    rw [view_message, view_set, if_neg hpos]
    exact View.ext hstatus.symm hwaiting.symm
      (by rw [happend, ← hinput]; rfl) houtput.symm rfl rfl rfl

theorem view_sendInLoop (hc : s.conns c = some conn) {b : Buffer}
    (h : s.sendInLoop c conn b = some s') :
    s'.view c = (s.view c).step (.send b.unread) := by
  obtain ⟨hstatus, hwaiting, hinput, houtput⟩ := view_conn hc
  unfold sendInLoop at h
  split at h
  · rename_i hdis
    cases h
    simp [View.step, hstatus, hdis]
  · rename_i hdis
    obtain ⟨outbuffer, hwrite, h⟩ := Option.bind_eq_some_iff.mp h
    obtain ⟨b', hwrite', happend⟩ := conn.outbuffer.writeAsBufferAndAdd_eq b
    cases hwrite.symm.trans hwrite'
    dsimp only at h
    split at h
    · rename_i hout
      cases h
      simp [View.step, hstatus, hdis, happend, houtput, hinput, hout]
    · cases h
      simp [fdAddWrite, view_unpate, View.step, hstatus, hdis, happend, houtput, hinput]

theorem view_handerClose (s : Loop) (c : Nat) (conn : Connection) :
    (s.handerClose c conn).view c = (s.view c).step (.release 1) := by
  simp [handerClose, view_push, View.step]

/-- A task of the connection itself. -/
theorem view_runTask_own {task : Task} (hconn : task.conn = some c)
    (hrelease : task.releases = none) (h : s.runTask task = some s') :
    s'.view c = (s.view c).step (taskEvent c task) := by
  cases task with
  | user => cases hconn
  | sendInLoop d b =>
    cases hconn
    obtain ⟨conn, hc, h⟩ := Option.bind_eq_some_iff.mp h
    rw [view_sendInLoop hc h, taskEvent, if_pos rfl]
  | shutDownInLoop d =>
    cases hconn
    obtain ⟨conn, hc, h⟩ := Option.bind_eq_some_iff.mp h
    cases h
    rw [view_shutDownInLoop hc, taskEvent, if_pos rfl]
  | establishedInLoop d =>
    cases hconn
    obtain ⟨conn, hc, h⟩ := Option.bind_eq_some_iff.mp h
    cases h
    rw [taskEvent, if_pos rfl]
    exact view_establishedInLoop hc
  | enableTimeoutDelInLoop d sec =>
    cases hconn
    obtain ⟨conn, hc, h⟩ := Option.bind_eq_some_iff.mp h
    obtain ⟨wheel, -, h⟩ := Option.bind_eq_some_iff.mp h
    cases h
    exact view_set_same hc { conn with isEnableTimeDel := true } rfl rfl rfl rfl
  | disableTimeoutDelInLoop d =>
    cases hconn
    obtain ⟨conn, hc, h⟩ := Option.bind_eq_some_iff.mp h
    cases h
    exact view_set_same hc { conn with isEnableTimeDel := false } rfl rfl rfl rfl
  | releaseInloop d => cases hrelease

/-- A task that is no release. -/
theorem view_runTask {task : Task} (hrelease : task.releases = none)
    (h : s.runTask task = some s') (c : Nat) :
    s'.view c = (s.view c).step (taskEvent c task) := by
  rcases runTask_cases h with ⟨rfl, rfl⟩ | ⟨d, conn, rfl, -, -⟩ | ⟨d, hd, -, hwork⟩
  · simp [view_push, taskEvent, View.step]
  · cases hrelease
  · by_cases hne : d = c
    · subst hne
      exact view_runTask_own hd hrelease h
    · rw [view_work hwork hne]
      cases task <;> simp only [Task.conn, Option.some.injEq, reduceCtorEq] at hd <;>
        simp [taskEvent, View.step, hd, hne]

theorem view_queueInLoop (s : Loop) (task : Task) (c : Nat) : (s.queueInLoop task).view c =
    { s.view c with releasing := (s.view c).releasing + [task].count (.releaseInloop c) } := by
  have hcount : (s.queueInLoop task).pending.count (.releaseInloop c) =
      s.pending.count (.releaseInloop c) + [task].count (.releaseInloop c) := by
    simp only [pending, queueInLoop]
    cases s.phase <;> simp only [List.count_append, Nat.add_assoc]
  refine View.ext rfl rfl rfl rfl rfl rfl ?_
  show s.stack.count (.release c) + (s.queueInLoop task).pending.count (.releaseInloop c) = _
  rw [hcount, ← Nat.add_assoc]
  rfl

/-- A frame that is not about the connection. -/
theorem frameEvent_other {f : Frame} (hf : f.conn ≠ some c) :
    ((s.push f).view c).step (frameEvent c f) = s.view c := by
  cases f with
  | user => simp [view_push, frameEvent, View.step]
  | handerRead d => simp [view_push, frameEvent, View.step]
  | handerEvent d => simp [view_push, frameEvent, View.step]
  | serverClosed d => simp [view_push, frameEvent, View.step]
  | handerWrite d =>
    have hne : d ≠ c := fun he => hf (he ▸ rfl)
    simp [view_push, frameEvent, View.step, hne]
  | handerClose d =>
    have hne : d ≠ c := fun he => hf (he ▸ rfl)
    simp [view_push, frameEvent, View.step, hne]
  | handerErr d =>
    have hne : d ≠ c := fun he => hf (he ▸ rfl)
    simp [view_push, frameEvent, View.step, hne]
  | shutDownRest d =>
    have hne : d ≠ c := fun he => hf (he ▸ rfl)
    simp [view_push, frameEvent, View.step, hne]
  | release d =>
    have hne : d ≠ c := fun he => hf (he ▸ rfl)
    simp [view_push, frameEvent, View.step, hne]

/-- A frame of the connection itself. -/
theorem view_runFrame_own {f : Frame} (hconn : f.conn = some c) (h : s.runFrame f = some s') :
    s'.view c = ((s.push f).view c).step (frameEvent c f) := by
  cases f with
  | user => cases hconn
  | handerRead d => cases h
  | handerWrite d => cases h
  | handerClose d =>
    cases hconn
    obtain ⟨conn, hc, h⟩ := Option.bind_eq_some_iff.mp h
    cases h
    simp [view_handerClose, view_push, frameEvent]
  | handerErr d =>
    cases hconn
    obtain ⟨conn, hc, h⟩ := Option.bind_eq_some_iff.mp h
    cases h
    simp [handerErr, view_handerClose, view_push, frameEvent]
  | handerEvent d =>
    cases hconn
    obtain ⟨conn, hc, h⟩ := Option.bind_eq_some_iff.mp h
    obtain ⟨wheel, -, h⟩ := Option.bind_eq_some_iff.mp h
    cases h
    rw [view_invoke, view_push]
    rfl
  | shutDownRest d =>
    cases hconn
    obtain ⟨conn, hc, h⟩ := Option.bind_eq_some_iff.mp h
    cases h
    rw [view_shutDownRest hc, frameEvent, if_pos rfl]
  | release d =>
    cases hconn
    cases h
    simp [view_queueInLoop, view_push, frameEvent, View.step]
  | serverClosed d =>
    cases hconn
    obtain ⟨conn, hc, h⟩ := Option.bind_eq_some_iff.mp h
    cases h
    simp [view_push, frameEvent, View.step]

theorem view_runFrame {f : Frame} (h : s.runFrame f = some s') (c : Nat) :
    s'.view c = ((s.push f).view c).step (frameEvent c f) := by
  by_cases hf : f.conn = some c
  · exact view_runFrame_own hf h
  · rw [frameEvent_other hf]
    rcases runFrame_cases h with ⟨d, rfl, rfl⟩ | ⟨d, conn, rfl, -, rfl⟩ | ⟨d, hd, -, -, hwork⟩
    · have hne : d ≠ c := fun he => hf (he ▸ rfl)
      simp [view_queueInLoop, hne]
    · simp
    · exact view_work hwork fun he => hf (he ▸ hd)

theorem view_releaseInloop (hc : s.conns c = some conn) :
    (s.releaseInloop c conn).view c = { s.view c with status := .disconnected } := by
  obtain ⟨-, hwaiting, hinput, houtput⟩ := view_conn hc
  have hdetach : (s.detach c conn).view c = { s.view c with status := .disconnected } := by
    show (s.set c { conn with status := .disconnected, socket := none }).view c = _
    rw [view_set]
    exact View.ext rfl hwaiting.symm hinput.symm houtput.symm rfl rfl rfl
  have hdisable : ((s.detach c conn).disableTimeoutDelInLoop c
      { conn with status := .disconnected, socket := none }).view c = { s.view c with status :=
        .disconnected } := by
    show ((s.detach c conn).set c _).view c = _
    rw [view_set, hdetach]
    exact View.ext rfl hwaiting.symm hinput.symm houtput.symm rfl rfl rfl
  unfold releaseInloop
  dsimp only
  split
  · simp [view_push, hdisable]
  · simp [view_push, hdetach]

/-- The `ReleaseInloop` of another connection. -/
theorem view_closing (h : Closing d conn s s') (hne : d ≠ c) : s'.view c = s.view c := by
  obtain ⟨frames, hstack, hframes⟩ := h.stack
  have hnot : ∀ g : Frame, g ≠ .user → g ≠ .serverClosed d →
      s'.stack.count g = s.stack.count g := by
    intro g huser hserver
    rw [hstack, count_stack fun hin => huser (hframes g hin), List.count_cons_of_ne hserver.symm]
  exact view_congr (h.others c hne.symm) (pending_congr h.taskQueue h.phase) (hnot _ nofun nofun)
    (hnot _ nofun nofun) (hnot _ nofun nofun)

theorem count_channelHanderEvent (c d : Nat) (revent : UInt32) :
    (channelHanderEvent d revent).count (.handerWrite c) =
    (if d = c ∧ hasEvent revent epollOut then 1 else 0) ∧
      (channelHanderEvent d revent).count (.shutDownRest c) = 0 ∧
      (channelHanderEvent d revent).count (.release c) = 0 := by
  unfold channelHanderEvent
  refine ⟨?_, ?_, ?_⟩
  · by_cases hout : hasEvent revent epollOut = true
    · by_cases hd : d = c
      · subst hd
        split <;> simp [hout]
      · split <;> simp [hout, hd]
    · simp only [Bool.not_eq_true] at hout
      repeat' split
      all_goals simp_all
  · repeat' split
    all_goals simp
  · repeat' split
    all_goals simp

theorem view_pollReturn {conns : Nat → Option Connection} {active : List Nat} (hp : s.phase = .poll)
    (hsame : ∀ c, (conns c).map ({ · with revent := 0 }) = (s.conns c).map ({ · with revent := 0 }))
    (c : Nat) :
    ({ s with conns := conns, phase := .handle active } : Loop).view c = s.view c := by
  have hpart : ∀ {γ : Type} (f : Connection → γ), (∀ k, f { k with revent := 0 } = f k) →
      (conns c).map f = (s.conns c).map f := by
    intro γ f hf
    have hs := congrArg (Option.map f) (hsame c)
    simpa only [Option.map_map, Function.comp_def, hf] using hs
  simp only [view, pending, hp, hpart Connection.status (fun _ => rfl),
    hpart (fun conn => hasEvent conn.event epollOut) (fun _ => rfl),
      hpart (fun conn => conn.inbuffer.unread) (fun _ => rfl),
    hpart (fun conn => conn.outbuffer.unread) (fun _ => rfl)]

theorem view_handle {active : List Nat} (hp : s.phase = .handle (d :: active)) (hs : s.stack = [])
    (hd : s.conns d = some conn) (c : Nat) :
    ({ s with phase := .handle active, stack := channelHanderEvent d conn.revent } : Loop).view c =
      (s.view c).step (s.event c .handle) := by
  obtain ⟨hwrite, hshut, hrelease⟩ := count_channelHanderEvent c d conn.revent
  have hview : ({ s with phase := .handle active, stack := channelHanderEvent d conn.revent } : Loop).view c =
      { s.view c with
        writing := (s.view c).writing + if d = c ∧
          hasEvent conn.revent epollOut then 1 else 0 } := by
    simp only [view, pending, hp, hs, hwrite, hshut, hrelease, List.count_nil, Nat.zero_add]
  rw [hview]
  simp only [event, hp]
  by_cases hdc : d = c
  · subst hdc
    cases hout : hasEvent conn.revent epollOut <;> simp [hd, hout, View.step]
  · simp [hdc, View.step]

theorem view_oneTime (s : Loop) (c : Nat) :
    s.oneTime.view c = (s.view c).step (s.event c .timer) := by
  have hnot : ∀ g : Frame, (∀ d, g ≠ .release d) → s.oneTime.stack.count g = s.stack.count g := by
    intro g hg
    refine count_stack fun hin => ?_
    obtain ⟨t, -, ht⟩ := List.mem_map.mp hin
    exact hg t.task ht.symm
  have hle : s.stack.count (.release c) ≤ s.oneTime.stack.count (.release c) := by
    simp only [oneTime, List.count_append]
    omega
  refine View.ext rfl rfl rfl rfl (hnot _ nofun) (hnot _ nofun) ?_
  show s.oneTime.stack.count (.release c) + s.pending.count (.releaseInloop c) =
    s.stack.count (.release c) + s.pending.count (.releaseInloop c) +
      (s.oneTime.stack.count (.release c) - s.stack.count (.release c))
  omega

theorem view_runTask_step {task : Task} {batch : List Task} (hp : s.phase = .run (task :: batch))
    (hs : s.stack = []) (h : ({ s with phase := .run batch } : Loop).runTask task = some s')
    (c : Nat) :
    s'.view c = (s.view c).step (taskEvent c task) := by
  rw [view_take hp]
  by_cases hrelease : task.releases = none
  · rw [view_runTask hrelease h]
    cases task <;> simp_all [Task.releases]
  · cases task with
    | releaseInloop d =>
      obtain ⟨conn, hd, h⟩ := Option.bind_eq_some_iff.mp h
      cases h
      by_cases hdc : d = c
      · subst hdc
        rw [view_releaseInloop hd]
        simp [taskEvent, View.step]
      · rw [view_closing (closing_releaseInloop _ d conn) hdc]
        simp [taskEvent, View.step, hdc]
    | _ => exact absurd rfl hrelease

/-- One step of the loop is one event of each of its connections. -/
theorem view_step {a : Act} (h : step s a = some s') (c : Nat) :
    s'.view c = (s.view c).step (s.event c a) := by
  cases a with
  | pollReturn ready =>
    cases step_effect h with
    | work hon => cases hon
    | pollReturn hp hsame hother hactive => exact view_pollReturn hp hsame c
  | handle =>
    obtain ⟨d, active, conn, hp, hs, hd, rfl⟩ := step_handle h
    exact view_handle hp hs hd c
  | timer =>
    cases step_effect h with
    | work hon => cases hon
    | timer hp hs => exact view_oneTime s c
  | other =>
    cases step_effect h with
    | work hon => cases hon
    | other => simp [view_push, event, View.step]
  | swap =>
    cases step_effect h with
    | work hon => cases hon
    | swap hp hs =>
      refine view_congr rfl ?_ rfl rfl rfl
      simp only [pending, hp, List.append_nil]
  | runTask =>
    obtain ⟨task, batch, hp, hs, h⟩ := step_runTask h
    rw [view_runTask_step hp hs h]
    simp only [event, executes, hp, Option.elim_some]
  | batchDone =>
    cases step_effect h with
    | work hon => cases hon
    | batchDone hp =>
      refine view_congr rfl ?_ rfl rfl rfl
      simp only [pending, hp, List.nil_append]
  | next =>
    obtain ⟨f, stack, hs, h⟩ := step_next h
    rw [view_runFrame h, view_pop hs]
    simp only [event, hs, List.head?_cons, Option.elim_some]
  | recv r bytes =>
    obtain ⟨d, stack, conn, hs, hd, -, h⟩ := step_recv h
    replace hd : ({ s with stack := stack } : Loop).conns d = some conn := hd
    rw [view_pop hs]
    by_cases hdc : d = c
    · subst hdc
      rw [view_handerRead hd h]
      simp [event, hs, view_push]
    · rw [view_work (work_handerRead hd h) hdc]
      simp [event, hs, view_push, hdc, View.step]
  | send r =>
    obtain ⟨d, stack, conn, hs, hd, h⟩ := step_send h
    replace hd : ({ s with stack := stack } : Loop).conns d = some conn := hd
    rw [view_pop hs]
    by_cases hdc : d = c
    · subst hdc
      rw [view_handerWrite hd h]
      simp [event, hs]
    · rw [view_work (work_handerWrite hd h) hdc]
      simp [event, hs, view_push, hdc, View.step]
  | call task =>
    obtain ⟨-, hrelease, h⟩ := step_call h
    rw [view_runTask hrelease h]
    rfl
  | release d =>
    obtain ⟨-, -, rfl⟩ := step_release h
    by_cases hdc : d = c <;> simp [view_push, event, View.step, hdc]
  | changeProtocal d connectCb closeCb msgCb =>
    obtain ⟨-, conn, hd, rfl⟩ := step_changeProtocal h
    by_cases hdc : d = c
    · subst hdc
      exact view_set_same hd _ rfl rfl rfl rfl
    · exact view_work (work_set hd _ rfl rfl) hdc
  | consume d len =>
    obtain ⟨-, conn, inbuffer, hd, hmove, rfl⟩ := step_consume h
    by_cases hdc : d = c
    · subst hdc
      obtain ⟨hs, hw, hi, ho⟩ := view_conn hd
      have hdrop : inbuffer.unread = (s.view d).input.drop len := by
        rw [hi, Buffer.unread_moveReadPosition hmove]
      rw [view_set, event, if_pos rfl]
      exact View.ext hs.symm hw.symm hdrop ho.symm rfl rfl rfl
    · rw [view_work (work_set hd { conn with inbuffer := inbuffer } rfl rfl) hdc, event, if_neg hdc]
      rfl
  | ret =>
    obtain ⟨stack, hs, rfl⟩ := step_ret h
    rw [view_pop hs]
    simp [view_push, event, View.step]
  | newConnection d fd callbacks =>
    obtain ⟨hnone, -, rfl⟩ := step_newConnection h
    by_cases hdc : d = c
    · subst hdc
      exact View.ext (by simp [view, hnone, event, View.step]) (by simp [view, hnone, event, View.step, hasEvent])
        (by simp [view, hnone, event, View.step]) (by simp [view, hnone, event, View.step]) rfl rfl rfl
    · exact view_congr (by simp [set, Ne.symm hdc]) rfl rfl rfl rfl
  | post task =>
    cases h
    rw [view_queueInLoop]
    by_cases ht : task = .releaseInloop c <;> simp [event, View.step, ht]

theorem enabled_frameEvent {f : Frame} {stack : List Frame} (hs : s.stack = f :: stack) (c : Nat) :
    (s.view c).Enabled (frameEvent c f) := by
  cases f with
  | shutDownRest d =>
    by_cases hd : d = c
    · subst hd
      simp [frameEvent, View.Enabled, view, hs]
    · simp [frameEvent, hd, View.Enabled]
  | handerClose d => by_cases hd : d = c <;> simp [frameEvent, hd, View.Enabled]
  | handerErr d => by_cases hd : d = c <;> simp [frameEvent, hd, View.Enabled]
  | _ => trivial

theorem enabled_taskEvent {task : Task} (v : View)
    (hrelease : task = .releaseInloop c → 0 < v.releasing) :
    v.Enabled (taskEvent c task) := by
  cases task with
  | releaseInloop d =>
    by_cases hd : d = c
    · subst hd
      simpa [taskEvent, View.Enabled] using hrelease rfl
    · simp [taskEvent, hd, View.Enabled]
  | sendInLoop d b => by_cases hd : d = c <;> simp [taskEvent, hd, View.Enabled]
  | shutDownInLoop d => by_cases hd : d = c <;> simp [taskEvent, hd, View.Enabled]
  | establishedInLoop d => by_cases hd : d = c <;> simp [taskEvent, hd, View.Enabled]
  | _ => trivial

/-- A `ReleaseInloop` at the head of the batch is on its way. -/
theorem releasing_pos {batch : List Task} (hp : s.phase = .run (.releaseInloop c :: batch)) :
    0 < (s.view c).releasing := by
  rw [view_take hp]
  simp

theorem event_enabled {a : Act} (h : step s a = some s') (c : Nat) :
    (s.view c).Enabled (s.event c a) := by
  cases a with
  | handle =>
    obtain ⟨d, active, conn, hp, hs, -, -⟩ := step_handle h
    simp only [event, hp]
    split
    · simp [View.Enabled, view, hs]
    · trivial
  | runTask =>
    obtain ⟨task, batch, hp, -, -⟩ := step_runTask h
    simp only [event, executes, hp, Option.elim_some]
    refine enabled_taskEvent _ fun ht => ?_
    subst ht
    exact releasing_pos hp
  | call task =>
    obtain ⟨-, hrelease, -⟩ := step_call h
    refine enabled_taskEvent _ fun ht => ?_
    subst ht
    cases hrelease
  | next =>
    obtain ⟨f, stack, hs, -⟩ := step_next h
    simp only [event, hs, List.head?_cons, Option.elim_some]
    exact enabled_frameEvent hs c
  | recv r bytes =>
    simp only [event]
    split
    · split <;> trivial
    · trivial
  | send r =>
    simp only [event]
    split
    · rename_i hs
      obtain ⟨stack, hs⟩ := List.head?_eq_some_iff.mp hs
      simp [View.Enabled, view, hs]
    · trivial
  | release d => by_cases hd : d = c <;> simp [event, hd, View.Enabled]
  | consume d len => by_cases hd : d = c <;> simp [event, hd, View.Enabled]
  | post task => by_cases ht : task = .releaseInloop c <;> simp [event, ht, View.Enabled]
  | _ => trivial

theorem view_start (c : Nat) : start.view c = ⟨.connecting, false, [], [], 0, 0, 0⟩ := rfl

end Loop
end MuduoServer
