import MuduoServer.Released
import MuduoServer.TimerMap

/-!
# The loop's thread never aborts

An assertion of a buffer or of `Poll` can fail, and a flush can dereference a null
pointer. Neither happens as long as the kernel returns what its manual says, tasks are
queued for connections that have been created, and user code takes no more bytes than
there are. The thread can then always go on. How long a connection lives is not the
subject here: the state keeps each one that has been created.
-/
namespace MuduoServer

open StdString Transition

/-! ## The poller -/

/-- The kernel only watches open descriptors, and `Poll` finds a channel for each. -/
structure Poller.Known {γ : Type} (p : Poller γ) : Prop where
  isOpen : ∀ fd, (p.interest fd).isSome → p.isOpen fd = true
  channel : ∀ fd, (p.interest fd).isSome → (p.channels fd).isSome

namespace Poller

variable {γ : Type} {p : Poller γ}

theorem known_empty : (Poller.empty : Poller γ).Known := ⟨nofun, nofun⟩

@[simp] theorem isOpen_epollOpr (p : Poller γ) (opr : EpollCtl) (fd : Nat) (events : UInt32) :
    (p.epollOpr opr fd events).isOpen = p.isOpen := by
  cases opr <;> simp only [epollOpr] <;> split <;> rfl

/-- Only an addition makes the kernel watch one descriptor more, and it must be open. -/
theorem interest_epollOpr {opr : EpollCtl} {fd : Nat} {events : UInt32} {fd' : Nat}
    (h : ((p.epollOpr opr fd events).interest fd').isSome) :
    (p.interest fd').isSome ∨ fd' = fd ∧ opr = .add ∧ p.isOpen fd = true := by
  cases opr with
  | add =>
    simp only [epollOpr] at h
    split at h
    · rename_i hadd
      by_cases hfd : fd' = fd
      · exact .inr ⟨hfd, rfl, hadd.1⟩
      · exact .inl (by simpa only [Function.update_of_ne hfd] using h)
    · exact .inl h
  | mod =>
    simp only [epollOpr] at h
    split at h
    · rename_i hmod
      by_cases hfd : fd' = fd
      · exact .inl (hfd ▸ hmod.2)
      · exact .inl (by simpa only [Function.update_of_ne hfd] using h)
    · exact .inl h
  | del =>
    simp only [epollOpr] at h
    split at h
    · rename_i hdel
      by_cases hfd : fd' = fd
      · exact .inl (hfd ▸ hdel.2)
      · exact .inl (by simpa only [Function.update_of_ne hfd] using h)
    · exact .inl h

theorem Known.updateEvent (h : p.Known) (ch : γ) (fd : Nat) (events : UInt32) :
    (p.updateEvent ch fd events).Known := by
  unfold Poller.updateEvent
  by_cases hexist : p.fdIsExist fd = true
  · rw [if_pos hexist]
    have hold : ∀ fd', ((p.epollOpr .mod fd events).interest fd').isSome →
        (p.interest fd').isSome := by
      intro fd' hin
      exact (interest_epollOpr hin).resolve_right fun hadd => EpollCtl.noConfusion hadd.2.1
    constructor
    · intro fd' hin
      rw [isOpen_epollOpr]
      exact h.isOpen fd' (hold fd' hin)
    · intro fd' hin
      rw [channels_epollOpr]
      exact h.channel fd' (hold fd' hin)
  · rw [if_neg hexist]
    constructor
    · intro fd' hin
      show (p.epollOpr .add fd events).isOpen fd' = true
      rw [isOpen_epollOpr]
      rcases interest_epollOpr hin with hin | ⟨rfl, -, hopen⟩
      · exact h.isOpen fd' hin
      · exact hopen
    · intro fd' hin
      simp only [channels_epollOpr]
      by_cases hfd : fd' = fd
      · rw [hfd, Function.update_self]
        rfl
      · rw [Function.update_of_ne hfd]
        exact h.channel fd' ((interest_epollOpr hin).resolve_right fun hadd => hfd hadd.1)

theorem isOpen_removeEvent (p : Poller γ) (fd : Nat) : (p.removeEvent fd).isOpen = p.isOpen := by
  unfold removeEvent
  split <;> exact isOpen_epollOpr ..

theorem interest_removeEvent (h : p.Known) (fd : Nat) :
    (p.removeEvent fd).interest = Function.update p.interest fd none := by
  have hdel : ∀ q : Poller γ, q.interest = p.interest → q.isOpen = p.isOpen →
      (q.epollOpr .del fd 0).interest = Function.update p.interest fd none := by
    intro q hinterest hopen
    simp only [epollOpr]
    split
    · rw [hinterest]
    · rename_i hno
      rw [hinterest, hopen] at hno
      have hnone : p.interest fd = none := by
        by_contra hsome
        have hin : (p.interest fd).isSome := Option.isSome_iff_ne_none.mpr hsome
        exact hno ⟨h.isOpen fd hin, hin⟩
      rw [hinterest, ← hnone, Function.update_eq_self]
  unfold removeEvent
  split
  · exact hdel _ rfl rfl
  · exact hdel _ rfl rfl

theorem Known.removeEvent (h : p.Known) (fd : Nat) : (p.removeEvent fd).Known := by
  constructor
  · intro fd' hin
    rw [isOpen_removeEvent]
    rw [interest_removeEvent h] at hin
    by_cases hfd : fd' = fd
    · simp [hfd] at hin
    · exact h.isOpen fd' (by simpa only [Function.update_of_ne hfd] using hin)
  · intro fd' hin
    rw [interest_removeEvent h] at hin
    rw [channels_removeEvent]
    by_cases hfd : fd' = fd
    · simp [hfd] at hin
    · rw [Function.update_of_ne hfd] at hin ⊢
      exact h.channel fd' hin

theorem Known.close (h : p.Known) (fd : Nat) : (p.close fd).Known := by
  constructor
  · intro fd' hin
    by_cases hfd : fd' = fd
    · simp [Poller.close, hfd] at hin
    · simp only [Poller.close, Function.update_of_ne hfd] at hin ⊢
      exact h.isOpen fd' hin
  · intro fd' hin
    by_cases hfd : fd' = fd
    · simp [Poller.close, hfd] at hin
    · simp only [Poller.close, Function.update_of_ne hfd] at hin ⊢
      exact h.channel fd' hin

theorem Known.opened (h : p.Known) (fd : Nat) : (p.opened fd).Known := by
  refine ⟨fun fd' hin => ?_, h.channel⟩
  by_cases hfd : fd' = fd
  · rw [hfd]
    exact Function.update_self ..
  · simp only [Poller.opened, Function.update_of_ne hfd]
    exact h.isOpen fd' hin

end Poller

/-! ## The wheel -/

namespace TimeWheel

/-- No entry dangles, and the tasks release connections that are there. -/
structure Manned (live : Nat → Prop) (w : TimeWheel Nat) : Prop where
  tracked : w.Tracked
  live : ∀ p, ∀ t ∈ w.wheels p, live t.task

variable {live : Nat → Prop} {w : TimeWheel Nat}

theorem manned_empty : (TimeWheel.empty : TimeWheel Nat).Manned live :=
  ⟨⟨empty_linked, fun _ _ hmem => nomatch hmem⟩, fun _ _ hmem => nomatch hmem⟩

theorem Manned.mono {live' : Nat → Prop} (h : w.Manned live) (hle : ∀ c, live c → live' c) :
    w.Manned live' :=
  ⟨h.tracked, fun p t hmem => hle _ (h.live p t hmem)⟩

theorem Manned.push (h : w.Manned live) (pos : Fin capacity) {t : TimeTask Nat}
    (htime : t.time ≤ maxDelay) (ht : live t.task) : (w.push pos t).Manned live := by
  refine ⟨h.tracked.push pos htime, fun p s hmem => ?_⟩
  rcases (mem_push w pos p t s).mp hmem with hmem | ⟨-, rfl⟩
  · exact h.live p s hmem
  · exact ht

theorem Manned.set (h : w.Manned live) (id : Nat) {time c : Nat} (htime : time ≤ maxDelay)
    (hc : live c) :
    (w.setTimeTask id time c).Manned live := by
  obtain ⟨w', hw, htracked⟩ := h.tracked.step (show (Op.set id time c).Ranged from htime)
  cases hw
  refine ⟨htracked, fun p t hmem => ?_⟩
  rcases (mem_push _ _ p _ t).mp hmem with hmem | ⟨-, rfl⟩
  · exact h.live p t hmem
  · exact hc

/-- A flush finds its task. -/
theorem Manned.flush (h : w.Manned live) (id : Nat) :
    ∃ w', w.flushTimeTask id = some w' ∧ w'.Manned live := by
  refine ⟨_, h.tracked.flush_eq id, ?_⟩
  cases hn : w.timers id with
  | none => exact h
  | some t =>
    obtain ⟨-, p, hp⟩ := h.tracked.linked id t hn
    exact h.push _ (h.tracked.delay_of_entry hn) (h.live p t hp)

theorem Manned.remove (h : w.Manned live) (id : Nat) : (w.removeTimeTask id).Manned live := by
  rw [h.tracked.linked.remove_eq id]
  cases w.timers id with
  | none => exact h
  | some t => exact ⟨⟨h.tracked.linked, h.tracked.delay⟩, h.live⟩

theorem Manned.run (h : w.Manned live) : w.runTimer.Manned live := by
  obtain ⟨w', hw, htracked⟩ := h.tracked.step (show (Op.run : Op Nat).Ranged from trivial)
  cases hw
  exact ⟨htracked, fun p t hmem => h.live p t ((mem_runTimer w p t).mp hmem).1⟩

/-- What a tick fires was in the wheel. -/
theorem Manned.fired (h : w.Manned live) :
    ∀ t ∈ w.runTimer.fired.drop w.fired.length, live t.task := by
  intro t ht
  rw [fired_runTimer, List.drop_left] at ht
  exact h.live _ t ((mem_expiring_iff w t).mp (List.mem_of_mem_filter ht)).1

theorem Manned.enableTimeoutDelInLoop (h : w.Manned live) {c : Nat} (hc : live c) {sec : Int}
    (hpos : 0 ≤ sec) (hmax : sec ≤ maxDelay) : ∃ w', w.enableTimeoutDelInLoop c sec c = some w' ∧
    w'.Manned live := by
  have htime : toSizeT sec ≤ maxDelay := by
    simp only [toSizeT, maxDelay] at hmax ⊢
    omega
  unfold TimeWheel.enableTimeoutDelInLoop
  split
  · obtain ⟨w', hw, h'⟩ := h.flush c
    exact ⟨_, by rw [hw]; rfl, h'.set c htime hc⟩
  · exact ⟨_, rfl, h.set c htime hc⟩

theorem Manned.disableTimeoutDelInLoop (h : w.Manned live) (c : Nat) :
    (w.disableTimeoutDelInLoop c).Manned live := by
  unfold TimeWheel.disableTimeoutDelInLoop
  split
  · exact h.remove c
  · exact h

theorem Manned.handerEvent (h : w.Manned live) (enabled : Bool) (c : Nat) :
    ∃ w', w.handerEvent enabled c = some w' ∧ w'.Manned live := by
  unfold TimeWheel.handerEvent
  split
  · exact h.flush c
  · exact ⟨w, rfl, h⟩

end TimeWheel

/-- The delay that a task sets. -/
def Task.delay : Task → Option Int
  | .enableTimeoutDelInLoop _ sec => some sec
  | _ => none

/-- The task is for a connection that is there, and a flush can add its delay to the tick. -/
structure Task.Sound (live : Nat → Prop) (task : Task) : Prop where
  conn : ∀ c ∈ task.conn, live c
  delay : ∀ sec ∈ task.delay, 0 ≤ sec ∧ sec ≤ TimeWheel.maxDelay

instance (live : Nat → Prop) [DecidablePred live] (task : Task) : Decidable (task.Sound live) :=
  decidable_of_iff ((∀ c ∈ task.conn, live c) ∧ ∀ sec ∈ task.delay, 0 ≤ sec ∧
    sec ≤ TimeWheel.maxDelay)
    ⟨fun h => ⟨h.1, h.2⟩, fun h => ⟨h.conn, h.delay⟩⟩

theorem Task.Sound.mono {live live' : Nat → Prop} {task : Task} (h : task.Sound live)
    (hle : ∀ c, live c → live' c) : task.Sound live' :=
  ⟨fun c hc => hle c (h.conn c hc), h.delay⟩

/-- The frames that go on without a system call. -/
def Frame.goesOn : Frame → Bool
  | .handerRead _ | .handerWrite _ | .user => false
  | _ => true

def Frame.reads : Frame → Bool
  | .handerRead _ => true
  | _ => false

def Frame.writes : Frame → Bool
  | .handerWrite _ => true
  | _ => false

theorem Frame.reads_iff {f : Frame} : f.reads = true ↔ ∃ c, f = .handerRead c := by
  cases f <;> simp [reads]

theorem Frame.writes_iff {f : Frame} : f.writes = true ↔ ∃ c, f = .handerWrite c := by
  cases f <;> simp [writes]

namespace Phase

def Sound (live : Nat → Prop) : Phase → Prop
  | .poll => True
  | .handle active => ∀ c ∈ active, live c
  | .run batch => ∀ task ∈ batch, task.Sound live

theorem Sound.mono {live live' : Nat → Prop} {phase : Phase} (h : phase.Sound live)
    (hle : ∀ c, live c → live' c) : phase.Sound live' := by
  cases phase with
  | poll => trivial
  | handle active => exact fun c hc => hle c (h c hc)
  | run batch => exact fun task ht => (h task ht).mono hle

def handles : Phase → Bool
  | .handle _ => true
  | _ => false

def hasActive : Phase → Bool
  | .handle (_ :: _) => true
  | _ => false

def hasTask : Phase → Bool
  | .run (_ :: _) => true
  | _ => false

theorem handles_iff {phase : Phase} : phase.handles = true ↔ ∃ active, phase = .handle active := by
  cases phase <;> simp [handles]

theorem hasActive_iff {phase : Phase} :
    phase.hasActive = true ↔ ∃ c active, phase = .handle (c :: active) := by
  rcases phase with _ | _ | _ <;> simp [hasActive]
  grind

theorem hasTask_iff {phase : Phase} :
    phase.hasTask = true ↔ ∃ task batch, phase = .run (task :: batch) := by
  rcases phase with _ | _ | _ <;> simp [hasTask]
  grind

end Phase

namespace Loop

/-- What frames, tasks, channels and the wheel name has been created, and the kernel watches
channels only. -/
structure Sound (live : Nat → Prop) (s : Loop) : Prop where
  conns : ∀ c, live c → ∃ conn, s.conns c = some conn
  frames : ∀ f ∈ s.stack, ∀ c, f.conn = some c → live c
  queued : ∀ task ∈ s.taskQueue, task.Sound live
  phase : s.phase.Sound live
  channels : ∀ fd c, s.poller.channels fd = some c → live c
  known : s.poller.Known
  wheel : s.wheel.Manned live

variable {live : Nat → Prop} {s s' : Loop} {c : Nat} {conn : Connection}

/-! ## The functions -/

theorem Sound.set (h : Sound live s) (c : Nat) (conn : Connection) : Sound live (s.set c conn) := by
  refine ⟨fun d hd => ?_, h.frames, h.queued, h.phase, h.channels, h.known, h.wheel⟩
  by_cases hdc : d = c
  · exact ⟨conn, by simp [Loop.set, hdc]⟩
  · obtain ⟨conn', hconn⟩ := h.conns d hd
    exact ⟨conn', by simpa [Loop.set, hdc] using hconn⟩

theorem Sound.push (h : Sound live s) (f : Frame) (hf : ∀ c, f.conn = some c → live c) :
    Sound live (s.push f) := by
  refine ⟨h.conns, fun g hg => ?_, h.queued, h.phase, h.channels, h.known, h.wheel⟩
  rcases List.mem_cons.mp hg with rfl | hg
  · exact hf
  · exact h.frames g hg

theorem Sound.pushUser (h : Sound live s) : Sound live (s.push .user) :=
  h.push .user (by simp [Frame.conn])

/-- A frame about connection `c`. -/
theorem Sound.pushFor (h : Sound live s) (hc : live c) {f : Frame} (hf : f.conn = some c) :
    Sound live (s.push f) := by
  apply h.push f
  intro d hd
  obtain rfl : c = d := Option.some.inj (hf.symm.trans hd)
  exact hc

theorem Sound.pop {f : Frame} {stack : List Frame} (h : Sound live s) (hs : s.stack = f :: stack) :
    Sound live { s with stack := stack } :=
  ⟨h.conns, fun g hg => h.frames g (hs ▸ List.mem_cons_of_mem f hg), h.queued, h.phase, h.channels,
    h.known, h.wheel⟩

theorem Sound.inPhase (h : Sound live s) (phase : Phase) (hphase : phase.Sound live) :
    Sound live { s with phase := phase } :=
  ⟨h.conns, h.frames, h.queued, hphase, h.channels, h.known, h.wheel⟩

theorem Sound.withWheel (h : Sound live s) {w : TimeWheel Nat} (hw : w.Manned live) :
    Sound live { s with wheel := w } :=
  ⟨h.conns, h.frames, h.queued, h.phase, h.channels, h.known, hw⟩

theorem Sound.queueInLoop (h : Sound live s) {task : Task} (ht : task.Sound live) :
    Sound live (s.queueInLoop task) := by
  refine ⟨h.conns, h.frames, fun u hu => ?_, h.phase, h.channels, h.known, h.wheel⟩
  rcases List.mem_append.mp hu with hu | hu
  · exact h.queued u hu
  · rw [List.mem_singleton.mp hu]
    exact ht

theorem Sound.invoke (h : Sound live s) (c : Nat) (conn : Connection) (kind : Callback) :
    Sound live (s.invoke c conn kind) := by
  unfold Loop.invoke
  cases conn.callbacks kind with
  | none => exact h
  | some f =>
    have huser := h.pushUser
    exact ⟨h.conns, huser.frames, h.queued, h.phase, h.channels, h.known, h.wheel⟩

theorem Sound.message (h : Sound live s) (c : Nat) (conn : Connection) :
    Sound live (s.message c conn) := by
  unfold Loop.message
  split
  · exact h.invoke c conn .message
  · exact h

theorem Sound.unpate (h : Sound live s) (hc : live c) (conn : Connection) :
    Sound live (s.unpate c conn) := by
  have hset := h.set c conn
  refine ⟨hset.conns, h.frames, h.queued, h.phase, fun fd d hd => ?_,
    h.known.updateEvent c conn.sockfd conn.event, h.wheel⟩
  simp only [Loop.unpate] at hd
  rcases s.poller.channels_updateEvent c conn.sockfd conn.event with he | he
  · exact h.channels fd d (he ▸ hd)
  · rw [he] at hd
    by_cases hfd : fd = conn.sockfd
    · rw [hfd, Function.update_self, Option.some.injEq] at hd
      exact hd ▸ hc
    · rw [Function.update_of_ne hfd] at hd
      exact h.channels fd d hd

theorem Sound.shutDownInLoop (h : Sound live s) (hc : live c) (conn : Connection) :
    Sound live (s.shutDownInLoop c conn) :=
  ((h.set c _).pushFor hc rfl).message c _

theorem Sound.shutDownRest (h : Sound live s) (hc : live c) (conn : Connection) :
    Sound live (s.shutDownRest c conn) := by
  unfold Loop.shutDownRest
  split
  · split
    · exact h
    · exact h.unpate hc _
  · exact h.pushFor hc rfl

theorem Sound.handerRead (h : Sound live s) (hc : live c) (conn : Connection) (r : SysResult)
    (bytes : Bytes) :
    ∃ s', s.handerRead c conn r bytes = some s' ∧ Sound live s' := by
  unfold Loop.handerRead
  split
  · exact ⟨_, rfl, h.shutDownInLoop hc conn⟩
  · obtain ⟨b, hb, -⟩ := conn.inbuffer.writeAndAdd_eq bytes
    exact ⟨_, by rw [hb]; rfl, (h.set c _).message c _⟩

theorem Sound.handerClose (h : Sound live s) (hc : live c) (conn : Connection) :
    Sound live (s.handerClose c conn) :=
  (h.pushFor hc rfl).message c conn

/-- `send(2)` takes no more than it is given. -/
theorem Sound.handerWrite (h : Sound live s) (hc : live c) {conn : Connection} {r : SysResult}
    (hr : r.ret ≤ conn.outbuffer.unread.length) :
    ∃ s', s.handerWrite c conn r = some s' ∧ Sound live s' := by
  unfold Loop.handerWrite
  dsimp only
  split
  · exact ⟨_, rfl, h.handerClose hc conn⟩
  · rename_i hpos
    have hlen : (Socket.send r).toNat ≤ conn.outbuffer.unread.length := by
      unfold Socket.send Socket.checked at hpos ⊢
      split at hpos <;> split <;> omega
    obtain ⟨b, hb, -⟩ := conn.outbuffer.moveReadPosition_eq _ hlen
    rw [hb]
    have hset := h.set c { conn with outbuffer := b }
    by_cases hempty : b.currentEnableReadSpaceSize = 0
    · have hdel := hset.unpate hc { conn with outbuffer := b, event := conn.event &&& ~~~epollOut }
      by_cases hdis : conn.status = .disconnecting
      · exact
          ⟨_,
            by simp only [Option.bind_eq_bind, Option.bind_some, hempty, if_true, hdis]; rfl, hdel.pushFor hc rfl⟩
      · exact ⟨_, by simp only [Option.bind_eq_bind, Option.bind_some, hempty, if_true, hdis, if_false]; rfl, hdel⟩
    · exact ⟨_, by simp only [Option.bind_eq_bind, Option.bind_some, hempty, if_false]; rfl, hset⟩

theorem Sound.handerEvent (h : Sound live s) (c : Nat) (conn : Connection) :
    ∃ s', s.handerEvent c conn = some s' ∧ Sound live s' := by
  obtain ⟨w, hw, hmanned⟩ := h.wheel.handerEvent conn.isEnableTimeDel c
  unfold Loop.handerEvent
  exact ⟨_, by rw [hw]; rfl, (h.withWheel hmanned).invoke c conn .event⟩

theorem Sound.sendInLoop (h : Sound live s) (hc : live c) (conn : Connection) (b : Buffer) :
    ∃ s', s.sendInLoop c conn b = some s' ∧ Sound live s' := by
  unfold Loop.sendInLoop
  split
  · exact ⟨s, rfl, h⟩
  · obtain ⟨out, hout, -⟩ := conn.outbuffer.writeAsBufferAndAdd_eq b
    rw [hout]
    have hset := h.set c { conn with outbuffer := out }
    by_cases hevent : hasEvent conn.event epollOut = true
    · exact ⟨_, by simp only [Option.bind_eq_bind, Option.bind_some, hevent, if_true]; rfl, hset⟩
    · exact ⟨_, by simp only [Option.bind_eq_bind, Option.bind_some, hevent]; rfl, hset.unpate hc _⟩

theorem Sound.establishedInLoop (h : Sound live s) (hc : live c) (conn : Connection) :
    Sound live (s.establishedInLoop c conn) := by
  unfold Loop.establishedInLoop
  split
  · exact h
  · exact (h.unpate hc _).invoke c conn .connect

theorem Sound.enableTimeoutDelInLoop (h : Sound live s) (hc : live c)
    (conn : Connection) {sec : Int} (hpos : 0 ≤ sec) (hmax : sec ≤ TimeWheel.maxDelay) :
    ∃ s', s.enableTimeoutDelInLoop c conn sec = some s' ∧ Sound live s' := by
  obtain ⟨w, hw, hmanned⟩ := h.wheel.enableTimeoutDelInLoop hc hpos hmax
  unfold Loop.enableTimeoutDelInLoop
  exact ⟨_, by rw [hw]; rfl, (h.set c _).withWheel hmanned⟩

theorem Sound.disableTimeoutDelInLoop (h : Sound live s) (c : Nat) (conn : Connection) :
    Sound live (s.disableTimeoutDelInLoop c conn) :=
  (h.set c _).withWheel (h.wheel.disableTimeoutDelInLoop c)

theorem Sound.detach (h : Sound live s) (c : Nat) (conn : Connection) :
    Sound live (s.detach c conn) := by
  have hset := h.set c { conn with status := .disconnected, socket := none }
  have hknown : (s.detach c conn).poller.Known := by
    unfold Loop.detach
    cases conn.socket with
    | none => exact h.known.removeEvent _
    | some fd => exact (h.known.removeEvent _).close fd
  refine ⟨hset.conns, h.frames, h.queued, h.phase, fun fd d hd => ?_, hknown, h.wheel⟩
  rw [channels_detach] at hd
  by_cases hfd : fd = conn.sockfd
  · simp [hfd] at hd
  · rw [Function.update_of_ne hfd] at hd
    exact h.channels fd d hd

theorem Sound.releaseInloop (h : Sound live s) (hc : live c) (conn : Connection) :
    Sound live (s.releaseInloop c conn) := by
  have hdetach := h.detach c conn
  unfold Loop.releaseInloop
  dsimp only
  split
  · exact ((hdetach.disableTimeoutDelInLoop c _).pushFor hc rfl).invoke c conn .close
  · exact (hdetach.pushFor hc rfl).invoke c conn .close

theorem Sound.runTask (h : Sound live s) {task : Task} (ht : task.Sound live) :
    ∃ s', s.runTask task = some s' ∧ Sound live s' := by
  have hconn : ∀ c, task.conn = some c → live c ∧ ∃ conn, s.conns c = some conn :=
    fun c hc => ⟨ht.conn c hc, h.conns c (ht.conn c hc)⟩
  cases task with
  | user => exact ⟨_, rfl, h.pushUser⟩
  | sendInLoop c b =>
    obtain ⟨hlive, conn, hc⟩ := hconn c rfl
    obtain ⟨s', hs, h'⟩ := h.sendInLoop hlive conn b
    exact ⟨s', by rw [← hs]; simp [Loop.runTask, hc], h'⟩
  | shutDownInLoop c =>
    obtain ⟨hlive, conn, hc⟩ := hconn c rfl
    exact ⟨_, by simp [Loop.runTask, hc], h.shutDownInLoop hlive conn⟩
  | enableTimeoutDelInLoop c sec =>
    obtain ⟨hlive, conn, hc⟩ := hconn c rfl
    obtain ⟨hpos, hmax⟩ := ht.delay sec rfl
    obtain ⟨s', hs, h'⟩ := h.enableTimeoutDelInLoop hlive conn hpos hmax
    exact ⟨s', by rw [← hs]; simp [Loop.runTask, hc], h'⟩
  | disableTimeoutDelInLoop c =>
    obtain ⟨-, conn, hc⟩ := hconn c rfl
    exact ⟨_, by simp [Loop.runTask, hc], h.disableTimeoutDelInLoop c conn⟩
  | establishedInLoop c =>
    obtain ⟨hlive, conn, hc⟩ := hconn c rfl
    exact ⟨_, by simp [Loop.runTask, hc], h.establishedInLoop hlive conn⟩
  | releaseInloop c =>
    obtain ⟨hlive, conn, hc⟩ := hconn c rfl
    exact ⟨_, by simp [Loop.runTask, hc], h.releaseInloop hlive conn⟩

theorem Sound.runFrame (h : Sound live s) {f : Frame} (hf : ∀ c ∈ f.conn, live c)
    (hnext : f.goesOn = true) :
    ∃ s', s.runFrame f = some s' ∧ Sound live s' := by
  have hconn : ∀ c, f.conn = some c → live c ∧ ∃ conn, s.conns c = some conn :=
    fun c hc => ⟨hf c hc, h.conns c (hf c hc)⟩
  cases f with
  | handerRead c => cases hnext
  | handerWrite c => cases hnext
  | user => cases hnext
  | release c => exact ⟨_, rfl, h.queueInLoop ⟨hf, by simp [Task.delay]⟩⟩
  | handerClose c =>
    obtain ⟨hlive, conn, hc⟩ := hconn c rfl
    exact ⟨_, by simp [Loop.runFrame, hc], h.handerClose hlive conn⟩
  | handerErr c =>
    obtain ⟨hlive, conn, hc⟩ := hconn c rfl
    exact ⟨_, by simp [Loop.runFrame, Loop.handerErr, hc], h.handerClose hlive conn⟩
  | handerEvent c =>
    obtain ⟨-, conn, hc⟩ := hconn c rfl
    obtain ⟨s', hs, h'⟩ := h.handerEvent c conn
    exact ⟨s', by rw [← hs]; simp [Loop.runFrame, hc], h'⟩
  | shutDownRest c =>
    obtain ⟨hlive, conn, hc⟩ := hconn c rfl
    exact ⟨_, by simp [Loop.runFrame, hc], h.shutDownRest hlive conn⟩
  | serverClosed c =>
    obtain ⟨-, conn, hc⟩ := hconn c rfl
    exact ⟨_, by simp [Loop.runFrame, hc], h.invoke c conn .serverClosed⟩

theorem Sound.poll (h : Sound live s) {ready : List (Nat × UInt32)}
    (hready : ∀ e ∈ ready, (s.poller.interest e.1).isSome) :
    ∃ s' active, s.poll ready = some (s', active) ∧ Sound live s' ∧ ∀ c ∈ active, live c := by
  induction ready generalizing s with
  | nil => exact ⟨s, [], rfl, h, nofun⟩
  | cons e ready ih =>
    obtain ⟨c, hch⟩ :=
      Option.isSome_iff_exists.mp (h.known.channel e.1 (hready e List.mem_cons_self))
    have hlive := h.channels e.1 c hch
    obtain ⟨conn, hc⟩ := h.conns c hlive
    obtain ⟨s', active, hpoll, h', hactive⟩ := ih (h.set c { conn with revent := e.2 })
      fun e' he' => hready e' (List.mem_cons_of_mem e he')
    refine ⟨s', c :: active, ?_, h', ?_⟩
    · simp [Loop.poll, hch, hc, hpoll]
    · intro d hd
      rcases List.mem_cons.mp hd with rfl | hd
      · exact hlive
      · exact hactive d hd

theorem Sound.oneTime (h : Sound live s) : Sound live s.oneTime := by
  have hrun := h.withWheel h.wheel.run
  refine ⟨hrun.conns, fun f hf => ?_, h.queued, h.phase, h.channels, h.known, hrun.wheel⟩
  rcases List.mem_append.mp hf with hf | hf
  · obtain ⟨t, ht, rfl⟩ := List.mem_map.mp hf
    intro c hc
    obtain rfl : t.task = c := Option.some.inj hc
    exact h.wheel.fired t ht
  · exact h.frames f hf

theorem Sound.mono {live' : Nat → Prop} (h : Sound live s) (hle : ∀ c, live c → live' c)
    (hconns : ∀ c, live' c → ∃ conn, s.conns c = some conn) : Sound live' s where
  conns := hconns
  frames f hf c hc := hle c (h.frames f hf c hc)
  queued task ht := (h.queued task ht).mono hle
  phase := h.phase.mono hle
  channels fd c hc := hle c (h.channels fd c hc)
  known := h.known
  wheel := h.wheel.mono hle

/-! ## The steps -/

/-- The connections that are there. -/
def Live (s : Loop) (c : Nat) : Prop := (s.conns c).isSome

instance (s : Loop) : DecidablePred s.Live :=
  fun c => inferInstanceAs (Decidable ((s.conns c).isSome = true))

theorem Sound.here (h : Sound live s) : Sound s.Live s :=
  h.mono (fun c hc => Option.isSome_iff_exists.mpr (h.conns c hc)) fun _ hc =>
    Option.isSome_iff_exists.mp hc

/-- What comes next on the loop's thread, or may be done there by user code, or elsewhere. -/
def due (s : Loop) : Act → Bool
  | .pollReturn _ => s.phase = .poll
  | .handle => s.idle && s.phase.hasActive
  | .timer | .other => s.idle && s.phase.handles
  | .swap => s.idle && s.phase = .handle []
  | .runTask => s.idle && s.phase.hasTask
  | .batchDone => s.idle && s.phase = .run []
  | .next => s.stack.head?.any Frame.goesOn
  | .recv _ _ => s.stack.head?.any Frame.reads
  | .send _ => s.stack.head?.any Frame.writes
  | .call _ | .release _ | .changeProtocal _ _ _ _ | .consume _ _ | .ret => s.inUser
  | .newConnection _ _ _ | .post _ => true

/-- What the kernel and the user code promise. -/
def Contract (s : Loop) : Act → Prop
  | .pollReturn ready => ∀ e ∈ ready, (s.poller.interest e.1).isSome
  | .recv r bytes => r.ret ≤ 65535 ∧ bytes.length = (Socket.recv r).toNat
  | .send r =>
    ∀ conn ∈ (s.stack.head?.bind Frame.conn).bind s.conns, r.ret ≤ conn.outbuffer.unread.length
  | .call task => task.releases = none ∧ task.Sound s.Live
  | .release c | .changeProtocal c _ _ _ => s.Live c
  | .consume c len => ∃ conn ∈ s.conns c, len ≤ conn.inbuffer.unread.length
  | .newConnection c fd _ => s.conns c = none ∧ s.poller.isOpen fd = false
  | .post task => task.Sound s.Live
  | _ => True

instance (s : Loop) : DecidablePred s.Contract
  | .pollReturn ready => inferInstanceAs (Decidable (∀ e ∈ ready, (s.poller.interest e.1).isSome))
  | .recv r bytes =>
    inferInstanceAs (Decidable (r.ret ≤ 65535 ∧ bytes.length = (Socket.recv r).toNat))
  | .send r => inferInstanceAs (Decidable (∀ conn ∈ (s.stack.head?.bind Frame.conn).bind s.conns,
      r.ret ≤ conn.outbuffer.unread.length))
  | .call task => inferInstanceAs (Decidable (task.releases = none ∧ task.Sound s.Live))
  | .release c | .changeProtocal c _ _ _ => inferInstanceAs (Decidable (s.Live c))
  | .consume c len =>
    inferInstanceAs (Decidable (∃ conn ∈ s.conns c, len ≤ conn.inbuffer.unread.length))
  | .newConnection c fd _ => inferInstanceAs (Decidable (s.conns c = none ∧ s.poller.isOpen fd = false))
  | .post task => inferInstanceAs (Decidable (task.Sound s.Live))
  | .handle | .timer | .other | .swap | .runTask | .batchDone | .next | .ret => isTrue trivial

def Regular (s : Loop) (a : Act) : Prop := s.due a = true ∧ s.Contract a

instance (s : Loop) (a : Act) : Decidable (s.Regular a) := inferInstanceAs (Decidable (_ ∧ _))

/-- A step that is due and that keeps the contract does not fail. -/
theorem Sound.step (h : Sound s.Live s) {a : Act} (hreg : s.Regular a) :
    ∃ s', step s a = some s' ∧ Sound s'.Live s' := by
  obtain ⟨hdue, ha⟩ := hreg
  cases a with
  | pollReturn ready =>
    have hp : s.phase = .poll := of_decide_eq_true hdue
    obtain ⟨s', active, hpoll, h', hactive⟩ := h.poll ha
    refine ⟨{ s' with phase := .handle active }, ?_, (h'.inPhase (.handle active) hactive).here⟩
    simp only [Loop.step]
    rw [if_pos ⟨hp, ha⟩, hpoll]
    rfl
  | handle =>
    obtain ⟨hs, hp⟩ := Bool.and_eq_true_iff.mp hdue
    obtain ⟨c, active, hp⟩ := Phase.hasActive_iff.mp hp
    have hactive := h.phase
    rw [hp] at hactive
    have hc := hactive c List.mem_cons_self
    obtain ⟨conn, hconn⟩ := h.conns c hc
    have hrest := h.inPhase (.handle active) fun d hd => hactive d (List.mem_cons_of_mem c hd)
    have h' : Sound s.Live { s with phase := .handle active, stack := channelHanderEvent c conn.revent } := by
      refine ⟨hrest.conns, fun f hf d hd => ?_, h.queued, hrest.phase, h.channels, h.known, h.wheel⟩
      rw [conn_channelHanderEvent hf, Option.some.injEq] at hd
      exact hd ▸ hc
    refine ⟨_, ?_, h'.here⟩
    simp only [Loop.step, hp, hs, if_true, hconn]
    rfl
  | timer =>
    obtain ⟨hs, hp⟩ := Bool.and_eq_true_iff.mp hdue
    obtain ⟨active, hp⟩ := Phase.handles_iff.mp hp
    exact ⟨s.oneTime, by simp [Loop.step, hp, hs], h.oneTime.here⟩
  | other =>
    obtain ⟨hs, hp⟩ := Bool.and_eq_true_iff.mp hdue
    obtain ⟨active, hp⟩ := Phase.handles_iff.mp hp
    exact ⟨s.push .user, by simp [Loop.step, hp, hs], h.pushUser.here⟩
  | swap =>
    obtain ⟨hs, hp⟩ := Bool.and_eq_true_iff.mp hdue
    have hp : s.phase = .handle [] := of_decide_eq_true hp
    have h' : Sound s.Live { s with taskQueue := [], phase := .run s.taskQueue } :=
      ⟨h.conns, h.frames, by simp, h.queued, h.channels, h.known, h.wheel⟩
    exact ⟨_, by simp [Loop.step, hp, hs], h'.here⟩
  | runTask =>
    obtain ⟨hs, hp⟩ := Bool.and_eq_true_iff.mp hdue
    obtain ⟨task, batch, hp⟩ := Phase.hasTask_iff.mp hp
    have hbatch := h.phase
    rw [hp] at hbatch
    have hrest := h.inPhase (.run batch) fun u hu => hbatch u (List.mem_cons_of_mem task hu)
    obtain ⟨s', hrun, h'⟩ := hrest.runTask (hbatch task List.mem_cons_self)
    exact ⟨s', by simpa [Loop.step, hp, hs] using hrun, h'.here⟩
  | batchDone =>
    obtain ⟨hs, hp⟩ := Bool.and_eq_true_iff.mp hdue
    have hp : s.phase = .run [] := of_decide_eq_true hp
    exact ⟨{ s with phase := .poll }, by simp [Loop.step, hp, hs], (h.inPhase .poll trivial).here⟩
  | next =>
    obtain ⟨f, hf, hnext⟩ := (Option.any_eq_true _ _).mp hdue
    obtain ⟨stack, hs⟩ := List.head?_eq_some_iff.mp hf
    obtain ⟨s', hrun, h'⟩ := (h.pop hs).runFrame (h.frames f (hs ▸ List.mem_cons_self)) hnext
    exact ⟨s', by simpa [Loop.step, hs] using hrun, h'.here⟩
  | recv r bytes =>
    obtain ⟨f, hf, hreads⟩ := (Option.any_eq_true _ _).mp hdue
    obtain ⟨stack, hs⟩ := List.head?_eq_some_iff.mp hf
    obtain ⟨c, rfl⟩ := Frame.reads_iff.mp hreads
    have hc := h.frames _ (hs ▸ List.mem_cons_self) c rfl
    obtain ⟨conn, hconn⟩ := h.conns c hc
    obtain ⟨s', hrun, h'⟩ := (h.pop hs).handerRead hc conn r bytes
    refine ⟨s', ?_, h'.here⟩
    simp only [Loop.step, hs]
    rw [if_pos (show _ ∧ _ from ha), hconn]
    exact hrun
  | send r =>
    obtain ⟨f, hf, hwrites⟩ := (Option.any_eq_true _ _).mp hdue
    obtain ⟨stack, hs⟩ := List.head?_eq_some_iff.mp hf
    obtain ⟨c, rfl⟩ := Frame.writes_iff.mp hwrites
    have hc := h.frames _ (hs ▸ List.mem_cons_self) c rfl
    obtain ⟨conn, hconn⟩ := h.conns c hc
    have hlen : r.ret ≤ conn.outbuffer.unread.length := ha conn (by simp [hf, Frame.conn, hconn])
    obtain ⟨s', hrun, h'⟩ := (h.pop hs).handerWrite hc hlen
    refine ⟨s', ?_, h'.here⟩
    simp only [Loop.step, hs, hconn]
    exact hrun
  | call task =>
    obtain ⟨hnot, ht⟩ := ha
    obtain ⟨s', hrun, h'⟩ := h.runTask ht
    exact ⟨s', by simpa [Loop.step, show s.inUser = true from hdue, hnot] using hrun, h'.here⟩
  | release c =>
    refine ⟨s.push (.release c), ?_, (h.pushFor ha rfl).here⟩
    simp only [Loop.step]
    exact if_pos ⟨hdue, ha⟩
  | changeProtocal c connectCb closeCb msgCb =>
    have huser : s.inUser = true := hdue
    obtain ⟨conn, hconn⟩ := h.conns c ha
    refine ⟨s.changeProtocalInLoop c conn connectCb closeCb msgCb, ?_, (h.set c _).here⟩
    simp only [Loop.step]
    rw [if_pos huser, hconn]
    rfl
  | consume c len =>
    have huser : s.inUser = true := hdue
    obtain ⟨conn, hconn, hlen⟩ := ha
    obtain ⟨b, hb, -⟩ := conn.inbuffer.moveReadPosition_eq len hlen
    refine ⟨s.set c { conn with inbuffer := b }, ?_, (h.set c _).here⟩
    simp only [Loop.step]
    rw [if_pos huser, Option.mem_def.mp hconn]
    simp [hb]
  | ret =>
    obtain ⟨stack, hs⟩ := List.head?_eq_some_iff.mp (of_decide_eq_true hdue)
    exact ⟨{ s with stack := stack }, by simp [Loop.step, hs], (h.pop hs).here⟩
  | newConnection c fd callbacks =>
    obtain ⟨hc, hfd⟩ := ha
    have hset :=
      h.set c ⟨fd, .connecting, false, some fd, 0, 0, Buffer.empty, Buffer.empty, callbacks⟩
    have h' : Sound s.Live { s.set c ⟨fd, .connecting, false, some fd, 0, 0, Buffer.empty,
        Buffer.empty, callbacks⟩ with
        poller := s.poller.opened fd } :=
      ⟨hset.conns, h.frames, h.queued, h.phase, h.channels, h.known.opened fd, h.wheel⟩
    refine ⟨_, ?_, h'.here⟩
    simp only [Loop.step]
    exact if_pos ⟨by rw [hc]; rfl, hfd⟩
  | post task => exact ⟨s.queueInLoop task, rfl, (h.queueInLoop ha).here⟩

theorem sound_start : Sound start.Live start :=
  ⟨fun _ hc => Option.isSome_iff_exists.mp hc, nofun, nofun, trivial, nofun, Poller.known_empty,
    TimeWheel.manned_empty⟩

theorem regular_goes_through {acts : List Act} (h : Along step Regular start acts) :
    ∃ s, exec step start acts = some s ∧ Sound s.Live s :=
  exec_total (fun s => Sound s.Live s) (fun _ _ h ha => h.step ha) sound_start h

/-- In every run of steps that are due and keep the contract no assertion fails and no null pointer
is dereferenced. -/
theorem never_aborts (acts : List Act) (h : Along step Regular start acts) :
    ∃ s, exec step start acts = some s := by
  obtain ⟨s, hs, -⟩ := regular_goes_through h
  exact ⟨s, hs⟩

/-- A connection with a timeout of one second gets a byte, which is echoed, in the round in which
its timer fires. -/
def visit : List Act :=
  [.pollReturn [], .other, .newConnection 1 7 fun _ => some 0, .post (.enableTimeoutDelInLoop 1 1),
    .post (.establishedInLoop 1), .ret, .swap, .runTask, .runTask, .ret, .batchDone,
    .pollReturn [(7, epollIn ||| epollOut)], .timer, .next, .handle, .recv ⟨1, 0⟩ (ascii "a"),
    .call (.sendInLoop 1 (Buffer.ofBytes (ascii "a"))), .consume 1 1, .ret,
      .send ⟨1, 0⟩, .next, .ret]

theorem never_aborts_visit : ∃ s, exec step start visit = some s :=
  never_aborts visit (by decide +kernel)

end Loop
end MuduoServer
