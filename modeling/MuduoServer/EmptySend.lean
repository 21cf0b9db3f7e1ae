import MuduoServer.LoopTwin

/-!
# Sends of no bytes

A `Send` of length 0 adds nothing to the output buffer and still asks for `EPOLLOUT`. Two runs
are compared: one with such calls and the same run without some of them. Until
something is sent they differ in one mask at most, and the difference shows once the
poller reports a descriptor as writable that has nothing to write.
-/
namespace MuduoServer
namespace Loop

open StdString Transition

variable {c d : Nat} {s s' t : Loop}

theorem runTask_queues {task : Task} (hs : s.runTask task = some s') :
    s'.taskQueue = s.taskQueue ∧ s'.phase = s.phase := by
  rcases runTask_cases hs with ⟨-, rfl⟩ | ⟨d, conn, -, -, rfl⟩ | ⟨d, -, -, hwork⟩
  · exact ⟨rfl, rfl⟩
  · have hclosing := closing_releaseInloop s d conn
    exact ⟨hclosing.taskQueue, hclosing.phase⟩
  · exact ⟨hwork.taskQueue, hwork.phase⟩

/-- The call of `Release` in a frame queues `ReleaseInloop`. -/
def queuedBy : Frame → List Task
  | .release d => [.releaseInloop d]
  | _ => []

theorem runFrame_queues {f : Frame} (hs : s.runFrame f = some s') :
    s'.taskQueue = s.taskQueue ++ queuedBy f ∧ s'.phase = s.phase := by
  rcases runFrame_cases hs with ⟨d, rfl, rfl⟩ | ⟨d, conn, rfl, -, rfl⟩ |
    ⟨d, hconn, hrelease, -, hwork⟩
  · exact ⟨rfl, rfl⟩
  · obtain ⟨calls, frames, he, -, -, -⟩ := invoke_spec s d conn .serverClosed
    rw [he]
    exact ⟨(List.append_nil _).symm, rfl⟩
  · have hnone : queuedBy f = [] := by
      cases f with
      | release e =>
        cases hconn
        exact absurd rfl hrelease
      | _ => rfl
    rw [hnone, List.append_nil]
    exact ⟨hwork.taskQueue, hwork.phase⟩

/-! ## A run without some of its empty sends -/

/-- A call of `Send` on connection `c` with no bytes, on the loop's thread or on another. -/
def emptySend (c : Nat) : Act → Bool
  | .post (.sendInLoop d b) | .call (.sendInLoop d b) => d = c && b.unread.isEmpty
  | _ => false

/-- What is left out of a run so far: which of the tasks in the batch and in the queue belong to
calls that are left out, and the actions that remain. -/
structure Thinning where
  marks : List Bool
  acts : List Act

/-- Leaves out an empty `Send` that is marked, and the execution of its task. -/
def Thinning.note (c : Nat) (g : Thinning) (s : Loop) (a : Act × Bool) : Thinning :=
  let drop := a.2 && emptySend c a.1
  match a.1 with
  | .post task => ⟨g.marks ++ [drop], if drop then g.acts else g.acts ++ [.post task]⟩
  | .call task => ⟨g.marks, if drop then g.acts else g.acts ++ [.call task]⟩
  | .runTask => ⟨g.marks.tail, if g.marks.head? = some true then g.acts else g.acts ++ [.runTask]⟩
  | .next => ⟨g.marks ++ ((s.stack.head?.elim [] queuedBy).map fun _ => false), g.acts ++ [.next]⟩
  | a => ⟨g.marks, g.acts ++ [a]⟩

def markedStep (s : Loop) (a : Act × Bool) : Option Loop := step s a.1

def thinning (c : Nat) (acts : List (Act × Bool)) : Thinning :=
  recorded markedStep (Thinning.note c) ⟨[], []⟩ start acts

/-- The run without the marked calls of `Send` on connection `c` that have length 0. -/
def without (c : Nat) (acts : List (Act × Bool)) : List Act := (thinning c acts).acts

/-- What a run did for connection `c` that can be seen from outside. -/
inductive Outcome where
  /-- `send(2)` took a byte. -/
  | sent (byte : UInt8)
  /-- `ReleaseInloop` was queued. -/
  | releaseQueued
  deriving DecidableEq

def outcome (s : Loop) (c : Nat) : Act → List Outcome
  | .send r =>
    if s.stack.head? = some (.handerWrite c) then ((s.view c).output.take r.ret.toNat).map .sent
      else []
  | a => if s.callsRelease c a then [.releaseQueued] else []

def outcomes (c : Nat) : List Act → List Outcome :=
  recorded step (fun g s a => g ++ s.outcome c a) [] start

/-- `epoll_wait` reports `EPOLLOUT` only where it was asked for, and `send(2)` of length
0 returns 0. -/
def Kernel (s : Loop) : Act → Prop
  | .pollReturn ready => ∀ e ∈ ready, hasEvent e.2 epollOut = true →
      (s.poller.interest e.1).any (hasEvent · epollOut) = true
  | .send r => ∀ f ∈ s.stack.head?, ∀ d ∈ f.conn, (s.view d).output = [] → r.ret = 0
  | _ => True

/-- Connection `c` is reported as writable only with something to write, and its
registration is its own. -/
def Orderly (c : Nat) (s : Loop) : Act → Prop
  | .pollReturn ready =>
    ∀ e ∈ ready, hasEvent e.2 epollOut = true → s.poller.channels e.1 = some c →
      (s.view c).output ≠ []
  | a => ∀ task ∈ s.executes a, Settled c s task

instance (c : Nat) (s : Loop) (task : Task) : Decidable (Settled c s task) := by
  cases task <;> unfold Settled <;> infer_instance

instance (s : Loop) (a : Act) : Decidable (Kernel s a) :=
  match a with
  | .pollReturn ready => inferInstanceAs (Decidable (∀ e ∈ ready, _ → _))
  | .send r => inferInstanceAs (Decidable (∀ f ∈ s.stack.head?, ∀ d ∈ f.conn, _ → r.ret = 0))
  | .handle | .timer | .other | .swap | .runTask | .batchDone | .next | .recv .. | .call
    _ | .release _ | .changeProtocal ..
  | .consume .. | .ret | .newConnection .. | .post _ => .isTrue trivial

instance (c : Nat) (s : Loop) (a : Act) : Decidable (Orderly c s a) :=
  match a with
  | .pollReturn ready => inferInstanceAs (Decidable (∀ e ∈ ready, _ → _ → _))
  | .handle | .timer | .other | .swap | .runTask | .batchDone | .next | .recv .. | .send _ | .call _ | .release _
  | .changeProtocal .. | .consume .. | .ret | .newConnection .. | .post _ =>
    inferInstanceAs (Decidable (∀ task ∈ s.executes _, Settled c s task))

/-- Some tasks of connection `c` are left out of a list of tasks. -/
inductive Thinned (c : Nat) : List Bool → List Task → List Task → Prop where
  | nil : Thinned c [] [] []
  | keep {marks : List Bool} {ts us : List Task} (task : Task) (h : Thinned c marks ts us) :
      Thinned c (false :: marks) (task :: ts) (task :: us)
  | drop {marks : List Bool} {ts us : List Task} {b : Buffer} (hempty : b.unread = [])
    (h : Thinned c marks ts us) :
      Thinned c (true :: marks) (.sendInLoop c b :: ts) us

inductive ThinnedPhase (c : Nat) : List Bool → Phase → Phase → Prop where
  | poll : ThinnedPhase c [] .poll .poll
  | handle (active : List Nat) : ThinnedPhase c [] (.handle active) (.handle active)
  | run {marks : List Bool} {ts us : List Task} (h : Thinned c marks ts us) : ThinnedPhase c marks
    (.run ts) (.run us)

/-- `t` is `s` without the tasks marked and up to the mask that one of them changed. -/
structure Near (c : Nat) (marks : List Bool) (s t : Loop) : Prop where
  twin : Twin c s t
  queues : ∃ batch queued, marks = batch ++ queued ∧ ThinnedPhase c batch s.phase t.phase ∧
    Thinned c queued s.taskQueue t.taskQueue

variable {marks : List Bool}

theorem Thinned.append {m m' : List Bool} {ts ts' us us' : List Task} (h : Thinned c m ts us)
    (h' : Thinned c m' ts' us') : Thinned c (m ++ m') (ts ++ ts') (us ++ us') := by
  induction h with
  | nil => exact h'
  | keep task _ ih => exact .keep task ih
  | drop hempty _ ih => exact .drop hempty ih

theorem Thinned.same (c : Nat) (ts : List Task) : Thinned c (ts.map fun _ => false) ts ts := by
  induction ts with
  | nil => exact .nil
  | cons task ts ih => exact .keep task ih

theorem ThinnedPhase.of_poll {phase : Phase} (h : ThinnedPhase c marks .poll phase) :
    phase = .poll ∧ marks = [] := by
  cases h
  exact ⟨rfl, rfl⟩

theorem ThinnedPhase.of_handle {active : List Nat} {phase : Phase}
    (h : ThinnedPhase c marks (.handle active) phase) :
    phase = .handle active ∧ marks = [] := by
  cases h
  exact ⟨rfl, rfl⟩

theorem ThinnedPhase.of_done {phase : Phase} (h : ThinnedPhase c marks (.run []) phase) :
    phase = .run [] ∧ marks = [] := by
  cases h with
  | run h =>
    cases h
    exact ⟨rfl, rfl⟩

/-- A step that leaves queue and phase alone in both loops. -/
theorem Near.of_twin (h : Near c marks s t) {t' : Loop} (htwin : Twin c s' t')
    (hs : s'.taskQueue = s.taskQueue ∧ s'.phase = s.phase)
    (ht : t'.taskQueue = t.taskQueue ∧ t'.phase = t.phase) : Near c marks s' t' := by
  refine ⟨htwin, ?_⟩
  rw [hs.1, hs.2, ht.1, ht.2]
  exact h.queues

/-- The next task of the batch is one that is left out, or it runs in both loops. -/
theorem Near.runTask (h : Near c marks s t) (hgood : Orderly c s .runTask)
    (hwaiting : (s.view c).output ≠ [] → (s.view c).waiting = true)
    (hs : step s .runTask = some s') :
    (∃ rest, marks = true :: rest ∧ Near c rest s' t) ∨
    ∃ rest t', marks = false :: rest ∧ step t .runTask = some t' ∧ Near c rest s' t' := by
  obtain ⟨task, batch, hp, hstack, hs⟩ := step_runTask hs
  obtain ⟨mbatch, queued, rfl, hphase, hqueue⟩ := h.queues
  obtain ⟨hsqueue, hsphase⟩ := runTask_queues hs
  have hsettled : Settled c s task := hgood task (by simp [executes, hp])
  rw [hp] at hphase
  generalize ht : t.phase = phase at hphase
  cases hphase with
  | run hthin =>
    cases hthin with
    | drop hempty hrest =>
      rename_i ms b
      obtain ⟨conn, hc, hs⟩ := Option.bind_eq_some_iff.mp hs
      refine .inl ⟨ms ++ queued, rfl, ?_, ms, queued, rfl, ?_, ?_⟩
      · have hbefore : Twin c { s with phase := .run batch } t :=
          ⟨h.twin.stack, h.twin.wheel, h.twin.invoked, h.twin.table⟩
        refine hbefore.skip hc hempty (fun hdis => hsettled rfl conn hc hdis (.inl hempty)) ?_ hs
        obtain ⟨-, hview, -, houtput⟩ := view_conn (s := s) hc
        rw [houtput, hview] at hwaiting
        exact hwaiting
      · rw [hsphase, ht]
        exact .run hrest
      · rw [hsqueue]
        exact hqueue
    | keep task hrest =>
      rename_i ms us
      have hbefore := h.twin.withQueues (.run batch) (.run us) s.taskQueue t.taskQueue
      obtain ⟨t', htrun, htwin⟩ := Twin.runTask hbefore hsettled hs
      obtain ⟨htqueue, htphase⟩ := runTask_queues htrun
      have hidle : t.idle = true := idle_iff.mpr (h.twin.stack ▸ hstack)
      refine .inr ⟨ms ++ queued, t', rfl, ?_, htwin, ms, queued, rfl, ?_, ?_⟩
      · simp only [step, ht, hidle, if_true]
        exact htrun
      · rw [hsphase, htphase]
        exact .run hrest
      · rw [hsqueue, htqueue]
        exact hqueue

theorem Near.call (h : Near c marks s t) {task : Task} (hsettled : Settled c s task)
    (hs : step s (.call task) = some s') :
    ∃ t', step t (.call task) = some t' ∧ Near c marks s' t' := by
  obtain ⟨huser, hnot, hs⟩ := step_call hs
  obtain ⟨t', ht, htwin⟩ := h.twin.runTask hsettled hs
  refine ⟨t', ?_, h.of_twin htwin (runTask_queues hs) (runTask_queues ht)⟩
  rw [h.twin.inUser] at huser
  simp only [step, huser, hnot, and_self, if_true, ht]

theorem Near.skipCall (h : Near c marks s t) {b : Buffer} (hempty : b.unread = [])
    (hsettled : Settled c s (.sendInLoop c b))
    (hwaiting : (s.view c).output ≠ [] → (s.view c).waiting = true)
    (hs : step s (.call (.sendInLoop c b)) = some s') : Near c marks s' t := by
  obtain ⟨-, -, hs⟩ := step_call hs
  obtain ⟨hsqueue, hsphase⟩ := runTask_queues hs
  obtain ⟨conn, hc, hs⟩ := Option.bind_eq_some_iff.mp hs
  obtain ⟨-, hview, -, houtput⟩ := view_conn hc
  rw [houtput, hview] at hwaiting
  refine ⟨h.twin.skip hc hempty (fun hdis => hsettled rfl conn hc hdis (.inl hempty)) hwaiting hs,
    ?_⟩
  rw [hsqueue, hsphase]
  exact h.queues

theorem Near.next (h : Near c marks s t) (hs : step s .next = some s') :
    ∃ t', step t .next = some t' ∧
    Near c (marks ++ ((s.stack.head?.elim [] queuedBy).map fun _ => false)) s' t' := by
  obtain ⟨f, stack, hstack, hs⟩ := step_next hs
  obtain ⟨t', ht, htwin⟩ := (h.twin.withStack stack).runFrame hs
  obtain ⟨batch, queued, rfl, hphase, hqueue⟩ := h.queues
  obtain ⟨hsqueue, hsphase⟩ := runFrame_queues hs
  obtain ⟨htqueue, htphase⟩ := runFrame_queues ht
  refine ⟨t', ?_, htwin, batch, queued ++ (queuedBy f).map fun _ => false, ?_, ?_, ?_⟩
  · simp only [step, ← h.twin.stack, hstack]
    exact ht
  · simp [hstack]
  · rw [hsphase, htphase]
    exact hphase
  · rw [hsqueue, htqueue]
    exact hqueue.append (.same c _)

theorem Near.pollReturn (h : Near c marks s t) {ready : List (Nat × UInt32)}
    (hs : step s (.pollReturn ready) = some s') :
    ∃ t', step t (.pollReturn ready) = some t' ∧ Near c marks s' t' := by
  obtain ⟨batch, queued, rfl, hphase, hqueue⟩ := h.queues
  obtain ⟨hp, hregistered, polled, active, hpoll, rfl⟩ := step_pollReturn hs
  obtain ⟨polled', hpoll', htwin⟩ := h.twin.poll hpoll
  rw [hp] at hphase
  obtain ⟨ht, rfl⟩ := hphase.of_poll
  have hready : ∀ e ∈ ready, (t.poller.interest e.1).isSome = true := by
    intro e he
    rw [← h.twin.interest_isSome]
    exact hregistered e he
  obtain ⟨conns, rfl, -⟩ := poll_eq hpoll
  obtain ⟨conns', rfl, -⟩ := poll_eq hpoll'
  refine ⟨{ t with conns := conns', phase := .handle active }, ?_,
    htwin.withQueues (.handle active) (.handle active) s.taskQueue t.taskQueue, [], queued, rfl,
    .handle active, hqueue⟩
  simp only [step]
  rw [if_pos ⟨ht, hready⟩, hpoll']
  rfl

theorem Near.handle (h : Near c marks s t) (hs : step s .handle = some s') :
    ∃ t', step t .handle = some t' ∧ Near c marks s' t' := by
  obtain ⟨batch, queued, rfl, hphase, hqueue⟩ := h.queues
  obtain ⟨d, active, conn, hp, hstack, hd, rfl⟩ := step_handle hs
  rw [hp] at hphase
  obtain ⟨ht, rfl⟩ := hphase.of_handle
  obtain ⟨k, hk, hrevent⟩ : ∃ k, t.conns d = some k ∧ k.revent = conn.revent := by
    rcases h.twin.find d with he | ⟨rfl, k, hk, -, hc, -⟩
    · exact ⟨conn, he ▸ hd, rfl⟩
    · have hconn : k.raised = conn := by simpa [hc] using hd
      exact ⟨k, hk, by rw [← hconn]; rfl⟩
  have hidle : t.idle = true := idle_iff.mpr (h.twin.stack ▸ hstack)
  have htwin := (h.twin.withStack (channelHanderEvent d conn.revent)).withQueues (.handle active)
    (.handle active)
    s.taskQueue t.taskQueue
  refine ⟨{ t with phase := .handle active, stack := channelHanderEvent d conn.revent }, ?_, htwin,
    [], queued, rfl,
    .handle active, hqueue⟩
  simp only [step, ht, hidle, if_true, hk]
  rw [← hrevent]
  rfl

/-- Between the handlers of the active channels both loops are at the same place. -/
theorem Near.handling (h : Near c marks s t) {active : List Nat} (hp : s.phase = .handle active)
    (hstack : s.stack = []) :
    t.phase = .handle active ∧ t.idle = true := by
  obtain ⟨batch, queued, -, hphase, -⟩ := h.queues
  rw [hp] at hphase
  exact ⟨hphase.of_handle.1, idle_iff.mpr (h.twin.stack ▸ hstack)⟩

theorem Near.timer (h : Near c marks s t) (hs : step s .timer = some s') :
    ∃ t', step t .timer = some t' ∧ Near c marks s' t' := by
  obtain ⟨active, hp, hstack, rfl⟩ := step_timer hs
  obtain ⟨ht, hidle⟩ := h.handling hp hstack
  refine ⟨t.oneTime, ?_, h.of_twin h.twin.oneTime ⟨rfl, rfl⟩ ⟨rfl, rfl⟩⟩
  simp only [step, ht, hidle, if_true]

theorem Near.other (h : Near c marks s t) (hs : step s .other = some s') :
    ∃ t', step t .other = some t' ∧ Near c marks s' t' := by
  obtain ⟨active, hp, hstack, rfl⟩ := step_other hs
  obtain ⟨ht, hidle⟩ := h.handling hp hstack
  refine ⟨t.push .user, ?_, h.of_twin (h.twin.push .user) ⟨rfl, rfl⟩ ⟨rfl, rfl⟩⟩
  simp only [step, ht, hidle, if_true]

theorem Near.swap (h : Near c marks s t) (hs : step s .swap = some s') :
    ∃ t', step t .swap = some t' ∧ Near c marks s' t' := by
  obtain ⟨hp, hstack, rfl⟩ := step_swap hs
  obtain ⟨ht, hidle⟩ := h.handling hp hstack
  obtain ⟨batch, queued, rfl, hphase, hqueue⟩ := h.queues
  rw [hp] at hphase
  obtain ⟨-, rfl⟩ := hphase.of_handle
  refine ⟨{ t with taskQueue := [], phase := .run t.taskQueue }, ?_,
    h.twin.withQueues (.run s.taskQueue) (.run t.taskQueue) [] [], queued, [],
      (List.append_nil _).symm,
    .run hqueue, .nil⟩
  simp only [step, ht, hidle, if_true]

theorem Near.batchDone (h : Near c marks s t) (hs : step s .batchDone = some s') :
    ∃ t', step t .batchDone = some t' ∧ Near c marks s' t' := by
  obtain ⟨hp, hstack, rfl⟩ := step_batchDone hs
  obtain ⟨batch, queued, rfl, hphase, hqueue⟩ := h.queues
  rw [hp] at hphase
  obtain ⟨ht, rfl⟩ := hphase.of_done
  have hidle : t.idle = true := idle_iff.mpr (h.twin.stack ▸ hstack)
  refine ⟨{ t with phase := .poll }, ?_, h.twin.withQueues .poll .poll s.taskQueue t.taskQueue,
    [], queued, rfl,
    .poll, hqueue⟩
  simp only [step, ht, hidle, if_true]

theorem Near.recv (h : Near c marks s t) {r : SysResult} {bytes : Bytes}
    (hs : step s (.recv r bytes) = some s') :
    ∃ t', step t (.recv r bytes) = some t' ∧ Near c marks s' t' := by
  obtain ⟨d, stack, conn, hstack, hd, hlen, hs⟩ := step_recv hs
  obtain ⟨k, t', hk, ht, htwin⟩ := (h.twin.withStack stack).handerRead hd hs
  have hwork := work_handerRead (s := { s with stack := stack }) hd hs
  have hwork' := work_handerRead (s := { t with stack := stack }) hk ht
  refine ⟨t', ?_, h.of_twin htwin ⟨hwork.taskQueue, hwork.phase⟩ ⟨hwork'.taskQueue, hwork'.phase⟩⟩
  rw [h.twin.stack] at hstack
  simp only [step, hstack, if_pos hlen, show t.conns d = some k from hk]
  exact ht

theorem Near.send (h : Near c marks s t) {r : SysResult} (hs : step s (.send r) = some s') :
    ∃ t', step t (.send r) = some t' ∧ Near c marks s' t' := by
  obtain ⟨d, stack, conn, hstack, hd, hs⟩ := step_send hs
  obtain ⟨k, t', hk, ht, htwin⟩ := (h.twin.withStack stack).handerWrite hd hs
  have hwork := work_handerWrite (s := { s with stack := stack }) hd hs
  have hwork' := work_handerWrite (s := { t with stack := stack }) hk ht
  refine ⟨t', ?_, h.of_twin htwin ⟨hwork.taskQueue, hwork.phase⟩ ⟨hwork'.taskQueue, hwork'.phase⟩⟩
  rw [h.twin.stack] at hstack
  simp only [step, hstack, show t.conns d = some k from hk]
  exact ht

theorem Near.newConnection (h : Near c marks s t) {fd : Nat} {callbacks : Callback → Option Nat}
    (hs : step s (.newConnection d fd callbacks) = some s') :
    ∃ t', step t (.newConnection d fd callbacks) = some t' ∧ Near c marks s' t' := by
  obtain ⟨hnone, hopen, rfl⟩ := step_newConnection hs
  have hnone' : t.conns d = none := by
    have hsome := h.twin.isSome d
    rw [hnone] at hsome
    exact Option.not_isSome_iff_eq_none.mp (by rw [← hsome]; exact Bool.false_ne_true)
  have hsame : s.conns d = t.conns d := hnone.trans hnone'.symm
  have hset :=
    h.twin.set hsame ⟨fd, .connecting, false, some fd, 0, 0, Buffer.empty, Buffer.empty, callbacks⟩
  refine ⟨_, ?_, h.of_twin (hset.opened fd) ⟨rfl, rfl⟩ ⟨rfl, rfl⟩⟩
  rw [h.twin.isOpen] at hopen
  simp [step, hnone', hopen]
  rfl

/-- Every action but those above does the same in both loops. -/
theorem Near.step_other (h : Near c marks s t) {a : Act}
    (hcall : ∀ task, a ≠ .post task ∧ a ≠ .call task) (hrun : a ≠ .runTask) (hnext : a ≠ .next)
    (hs : step s a = some s') :
    ∃ t', step t a = some t' ∧ Near c marks s' t' := by
  cases a with
  | pollReturn ready => exact h.pollReturn hs
  | handle => exact h.handle hs
  | timer => exact h.timer hs
  | other => exact h.other hs
  | swap => exact h.swap hs
  | batchDone => exact h.batchDone hs
  | recv r bytes => exact h.recv hs
  | send r => exact h.send hs
  | newConnection d fd callbacks => exact h.newConnection hs
  | release d =>
    obtain ⟨huser, hsome, rfl⟩ := step_release hs
    rw [h.twin.inUser] at huser
    rw [h.twin.isSome] at hsome
    refine ⟨t.push (.release d), ?_, h.of_twin (h.twin.push _) ⟨rfl, rfl⟩ ⟨rfl, rfl⟩⟩
    simp only [step, huser, hsome, and_self, if_true]
  | changeProtocal d connectCb closeCb msgCb =>
    obtain ⟨huser, conn, hd, rfl⟩ := step_changeProtocal hs
    rw [h.twin.inUser] at huser
    obtain ⟨k, hk, -, hset⟩ := h.twin.change hd
      (f := fun k => { k with callbacks := changedCallbacks k.callbacks connectCb closeCb msgCb })
      ⟨fun _ => rfl, fun _ => rfl, fun _ => rfl, fun _ => rfl⟩
    refine ⟨_, ?_, h.of_twin hset ⟨rfl, rfl⟩ ⟨rfl, rfl⟩⟩
    simp only [step, huser, if_true, hk]
    rfl
  | consume d len =>
    obtain ⟨huser, conn, inbuffer, hd, hmove, rfl⟩ := step_consume hs
    rw [h.twin.inUser] at huser
    obtain ⟨k, hk, hsame, hset⟩ := h.twin.change hd (f := fun k => { k with inbuffer := inbuffer })
      ⟨fun _ => rfl, fun _ => rfl, fun _ => rfl, fun _ => rfl⟩
    have hmove' : k.inbuffer.moveReadPosition len = some inbuffer := by
      rcases hsame with rfl | rfl <;> exact hmove
    refine ⟨_, ?_, h.of_twin hset ⟨rfl, rfl⟩ ⟨rfl, rfl⟩⟩
    simp only [step, huser, if_true, hk, Option.bind_eq_bind, Option.bind_some, hmove']
    rfl
  | ret =>
    obtain ⟨stack, hstack, rfl⟩ := step_ret hs
    rw [h.twin.stack] at hstack
    refine ⟨{ t with stack := stack }, ?_, h.of_twin (h.twin.withStack stack) ⟨rfl, rfl⟩ ⟨rfl, rfl⟩⟩
    simp only [step, hstack]
  | post task => exact absurd rfl (hcall task).1
  | call task => exact absurd rfl (hcall task).2
  | runTask => exact absurd rfl hrun
  | next => exact absurd rfl hnext

theorem Near.post (h : Near c marks s t) (task : Task) :
    Near c (marks ++ [false]) (s.queueInLoop task) (t.queueInLoop task) := by
  obtain ⟨batch, queued, rfl, hphase, hqueue⟩ := h.queues
  exact ⟨⟨h.twin.stack, h.twin.wheel, h.twin.invoked, h.twin.table⟩, batch, queued ++ [false],
    List.append_assoc .., hphase, hqueue.append (.same c [task])⟩

theorem Near.skipPost (h : Near c marks s t) {b : Buffer} (hempty : b.unread = []) :
    Near c (marks ++ [true]) (s.queueInLoop (.sendInLoop c b)) t := by
  obtain ⟨batch, queued, rfl, hphase, hqueue⟩ := h.queues
  have hdrop : Thinned c (queued ++ [true]) (s.taskQueue ++ [.sendInLoop c b])
      (t.taskQueue ++ []) :=
    hqueue.append (.drop hempty .nil)
  rw [List.append_nil] at hdrop
  exact ⟨⟨h.twin.stack, h.twin.wheel, h.twin.invoked, h.twin.table⟩, batch, queued ++ [true],
    List.append_assoc .., hphase, hdrop⟩

/-- An empty send shows in nothing. -/
theorem emptySend_call {task : Task} (h : emptySend c (.call task) = true) :
    ∃ b, task = .sendInLoop c b ∧ b.unread = [] := by
  cases task with
  | sendInLoop d b =>
    simp only [emptySend, Bool.and_eq_true, decide_eq_true_eq, List.isEmpty_iff] at h
    exact ⟨b, by rw [h.1], h.2⟩
  | _ => cases h

theorem emptySend_post {task : Task} (h : emptySend c (.post task) = true) :
    ∃ b, task = .sendInLoop c b ∧ b.unread = [] := by
  have hcall : emptySend c (.call task) = true := by cases task <;> exact h
  exact emptySend_call hcall

/-- A step of the run is left out and does nothing that can be seen, or it is a step
of both runs. -/
theorem Near.step {g : Thinning} (h : Near c g.marks s t) {a : Act × Bool} (hgood : Orderly c s a.1)
    (hwaiting : (s.view c).output ≠ [] → (s.view c).waiting = true) (hs : step s a.1 = some s') :
    (g.note c s a).acts = g.acts ∧ (∀ d, s.outcome d a.1 = []) ∧ Near c (g.note c s a).marks s' t ∨
    (g.note c s a).acts = g.acts ++ [a.1] ∧ ∃ t', step t a.1 = some t' ∧
    Near c (g.note c s a).marks s' t' := by
  obtain ⟨a, mark⟩ := a
  cases a with
  | post task =>
    cases hs
    by_cases hdrop : (mark && emptySend c (.post task)) = true
    · obtain ⟨b, rfl, hempty⟩ := emptySend_post (Bool.and_eq_true_iff.mp hdrop).2
      refine .inl ⟨by simp only [Thinning.note, hdrop, if_true], fun _ => rfl, ?_⟩
      simp only [Thinning.note, hdrop]
      exact h.skipPost hempty
    · refine .inr ⟨by simp only [Thinning.note, if_neg hdrop], _, rfl, ?_⟩
      simp only [Thinning.note, Bool.eq_false_iff.mpr hdrop]
      exact h.post task
  | call task =>
    have hsettled : Settled c s task := hgood task rfl
    by_cases hdrop : (mark && emptySend c (.call task)) = true
    · obtain ⟨b, rfl, hempty⟩ := emptySend_call (Bool.and_eq_true_iff.mp hdrop).2
      exact .inl ⟨by simp only [Thinning.note, hdrop, if_true], fun _ => rfl,
        h.skipCall hempty hsettled hwaiting hs⟩
    · exact .inr ⟨by simp only [Thinning.note, if_neg hdrop], h.call hsettled hs⟩
  | runTask =>
    rcases h.runTask hgood hwaiting hs with ⟨rest, hmarks, hnear⟩ | ⟨rest, t', hmarks, ht, hnear⟩
    · exact .inl ⟨by simp [Thinning.note, hmarks], fun _ => rfl,
        by simpa only [Thinning.note, hmarks, List.tail_cons] using hnear⟩
    · exact .inr ⟨by simp [Thinning.note, hmarks], t', ht,
        by simpa only [Thinning.note, hmarks, List.tail_cons] using hnear⟩
  | next => exact .inr ⟨rfl, h.next hs⟩
  | _ => exact .inr ⟨rfl, h.step_other (fun _ => ⟨nofun, nofun⟩) nofun nofun hs⟩

/-- What a step does that can be seen is the same in both loops. -/
theorem Twin.outcome (h : Twin c s t) (d : Nat) (a : Act) : s.outcome d a = t.outcome d a := by
  cases a with
  | send r => simp only [Loop.outcome, h.stack, h.output d]
  | next =>
    have hcalls : s.callsRelease d .next = t.callsRelease d .next := by
      simp only [callsRelease, h.stack]
    simp only [Loop.outcome, hcalls]
  | _ => rfl

/-- What the kernel may do in one loop it may do in the other. -/
theorem Twin.kernel (h : Twin c s t) {a : Act} (hgood : Orderly c s a) (hs : Kernel s a) :
    Kernel t a := by
  cases a with
  | pollReturn ready =>
    intro e he hout
    have hasked := hs e he hout
    rcases h.table with ⟨-, hp⟩ | ⟨k, hk, hdrained, hc, hp | hp⟩
    · rwa [← hp]
    · rwa [← hp]
    · by_cases hfd : e.1 = k.sockfd
      · have hch : s.poller.channels e.1 = some c := by rw [h.channels, hfd, hp.channel]
        have hempty : (s.view c).output = [] := by
          simp only [view, hc, Function.update_self, Option.map_some, Option.getD_some]
          exact hdrained.output
        exact absurd hempty (hgood e he hout hch)
      · rw [hp.eq] at hasked
        simpa [hfd] using hasked
  | send r =>
    intro f hf d hd hempty
    rw [← h.output] at hempty
    exact hs f (h.stack ▸ hf) d hd hempty
  | _ => trivial

theorem exec_marked (s : Loop) (acts : List (Act × Bool)) :
    exec markedStep s acts = exec step s (acts.map Prod.fst) := by
  induction acts generalizing s with
  | nil => rfl
  | cons a acts ih =>
    rw [List.map_cons, exec_cons, exec_cons]
    exact congrArg (Option.bind (step s a.1)) (funext fun s' => ih s')

/-- The output buffer is never left without write interest. -/
theorem waiting_step {v : View} (h : v.output ≠ [] → v.waiting = true) (e : Event) :
    (v.step e).output ≠ [] → (v.step e).waiting = true := by
  cases e with
  | send payload =>
    simp only [View.step]
    split
    · exact h
    · exact fun _ => rfl
  | written r =>
    simp only [View.step]
    split
    · exact h
    · split
      · rename_i hempty
        exact fun hne => absurd hempty hne
      · rename_i hrest
        exact fun _ => h fun hnil => hrest (by simp [hnil])
  | shutDownRest =>
    simp only [View.step]
    split
    · exact h
    · exact fun _ => rfl
  | _ => exact h

theorem waiting_exec (c : Nat) {acts : List Act} (h : exec step start acts = some s) :
    (s.view c).output ≠ [] → (s.view c).waiting = true := by
  refine exec_preserves (fun s : Loop => (s.view c).output ≠ [] → (s.view c).waiting = true) ?_
    (absurd rfl) h
  intro s a s' hI hstep
  rw [view_step hstep]
  exact waiting_step hI _

/-- Without the calls marked, the run is one that the kernel allows, with the same outcome for
every connection. -/
def Unchanged (c : Nat) (acts : List (Act × Bool)) : Prop :=
  (exec step start (without c acts)).isSome ∧ Along step Kernel start (without c acts) ∧
    ∀ d, outcomes d (without c acts) = outcomes d (acts.map Prod.fst)

theorem Unchanged.kernel {acts : List (Act × Bool)} (h : Unchanged c acts) :
    Along step Kernel start (without c acts) := h.2.1

theorem without_exec (c : Nat) {acts : List (Act × Bool)}
    (h : exec step start (acts.map Prod.fst) = some s)
    (hkernel : Along step Kernel start (acts.map Prod.fst))
    (horderly : Along step (Orderly c) start (acts.map Prod.fst)) :
    ∃ t, exec step start (without c acts) = some t ∧ Near c (thinning c acts).marks s t ∧
      Along step Kernel start (without c acts) ∧
      ∀ d, outcomes d (without c acts) = outcomes d (acts.map Prod.fst) := by
  induction acts using List.reverseRecOn generalizing s with
  | nil =>
    cases h
    exact ⟨start, rfl, ⟨.refl c start, [], [], rfl, .poll, .nil⟩, trivial, fun _ => rfl⟩
  | append_singleton acts a ih =>
    rw [List.map_append, List.map_singleton] at h hkernel horderly
    rw [exec_concat] at h
    obtain ⟨s₁, h₁, hstep⟩ := Option.bind_eq_some_iff.mp h
    obtain ⟨hkernel, hlast⟩ := (along_append _ _ _).mp hkernel
    obtain ⟨horderly, hgood⟩ := (along_append _ _ _).mp horderly
    obtain ⟨t, ht, hnear, hkernel', houtcomes⟩ := ih h₁ hkernel horderly
    have hthin : thinning c (acts ++ [a]) = (thinning c acts).note c s₁ a :=
      recorded_concat ((exec_marked start acts).trans h₁) hstep
    have houtcome : ∀ d, outcomes d ((acts ++ [a]).map Prod.fst) =
        outcomes d (acts.map Prod.fst) ++ s₁.outcome d a.1 := by
      intro d
      rw [List.map_append, List.map_singleton]
      exact recorded_concat h₁ hstep
    simp only [without, hthin, houtcome]
    rcases hnear.step (hgood s₁ h₁).1 (waiting_exec c h₁) hstep with
      ⟨hacts, hnone, hnear⟩ | ⟨hacts, t', ht', hnear'⟩
    · refine ⟨t, hacts ▸ ht, hnear, hacts ▸ hkernel', fun d => ?_⟩
      rw [hacts, hnone d, List.append_nil]
      exact houtcomes d
    · have hexec : exec step start ((thinning c acts).acts ++ [a.1]) = some t' := by
        rw [exec_concat]
        exact Option.bind_eq_some_iff.mpr ⟨t, ht, ht'⟩
      rw [hacts]
      refine ⟨t', hexec, hnear', ?_, fun d => ?_⟩
      · refine (along_append _ _ _).mpr ⟨hkernel', fun t₁ ht₁ => ⟨?_, fun _ _ => trivial⟩⟩
        cases ht₁.symm.trans ht
        exact hnear.twin.kernel (hgood s₁ h₁).1 (hlast s₁ h₁).1
      · have hmore : outcomes d ((thinning c acts).acts ++ [a.1]) =
            outcomes d (thinning c acts).acts ++ t.outcome d a.1 := recorded_concat ht ht'
        rw [hmore, ← hnear.twin.outcome, ← houtcomes d]
        rfl

/-- In a run in which connection `c` is reported as writable only with something to write, and sends
only while it is registered, any of its empty sends can be left out. -/
theorem empty_sends (c : Nat) (acts : List (Act × Bool)) (s : Loop)
    (h : exec step start (acts.map Prod.fst) = some s)
    (hkernel : Along step Kernel start (acts.map Prod.fst))
    (horderly : Along step (Orderly c) start (acts.map Prod.fst)) :
    ∀ pre, pre <+: acts → Unchanged c pre := by
  rintro pre ⟨rest, rfl⟩
  rw [List.map_append] at h hkernel horderly
  rw [exec_append] at h
  obtain ⟨s₁, h₁, -⟩ := Option.bind_eq_some_iff.mp h
  obtain ⟨t, ht, -, hkernel', houtcomes⟩ :=
    without_exec c h₁ ((along_append _ _ _).mp hkernel).1 ((along_append _ _ _).mp horderly).1
  exact ⟨Option.isSome_iff_exists.mpr ⟨t, ht⟩, hkernel', houtcomes⟩

/-- Two bytes are sent with an empty send before and after them, then the connection
is shut down. -/
def spaced : List (Act × Bool) :=
  [(.newConnection 1 7 fun _ => none, false), (.post (.establishedInLoop 1), false),
    (.post (.sendInLoop 1 (Buffer.ofBytes [])), true),
      (.post (.sendInLoop 1 (Buffer.ofBytes (ascii "hi"))), false),
    (.post (.sendInLoop 1 (Buffer.ofBytes [])), true), (.post (.shutDownInLoop 1), false),
      (.pollReturn [], false),
    (.swap, false), (.runTask, false), (.runTask, false), (.runTask, false), (.runTask, false),
      (.runTask, false),
    (.next, false), (.batchDone, false), (.pollReturn [(7, epollOut)], false), (.handle, false),
      (.send ⟨2, 0⟩, false),
    (.next, false)]

theorem empty_sends_spaced :
    outcomes 1 (spaced.map Prod.fst) = (ascii "hi").map .sent ++ [.releaseQueued] ∧
      (without 1 spaced).length + 4 = spaced.length ∧ Unchanged 1 spaced := by
  have hrun : (exec step start (spaced.map Prod.fst)).isSome := by decide +kernel
  obtain ⟨s, hs⟩ := Option.isSome_iff_exists.mp hrun
  exact ⟨by decide +kernel, by decide +kernel,
    empty_sends 1 spaced s hs (by decide +kernel) (by decide +kernel) spaced List.prefix_rfl⟩

/-- An established connection with nothing to send gets an empty send. -/
def lonely : List (Act × Bool) :=
  [(.newConnection 1 7 fun _ => none, false), (.post (.establishedInLoop 1), false),
    (.pollReturn [], false),
    (.swap, false), (.runTask, false), (.batchDone, false),
      (.post (.sendInLoop 1 (Buffer.ofBytes [])), true),
    (.pollReturn [], false), (.swap, false), (.runTask, false), (.batchDone, false),
    (.pollReturn [(7, epollOut)], false), (.handle, false), (.send ⟨0, 0⟩, false), (.next, false)]

/-- The same run without the send, in which the descriptor is never reported as writable. -/
def untouched : List Act :=
  [.newConnection 1 7 fun _ => none, .post (.establishedInLoop 1), .pollReturn [], .swap,
    .runTask, .batchDone,
    .pollReturn [], .swap, .batchDone, .pollReturn [], .swap]

/-- The send of length 0 releases the connection. -/
theorem empty_send_releases :
    (exec step start (lonely.map Prod.fst)).isSome ∧ Along step Kernel start (lonely.map Prod.fst) ∧
      outcomes 1 (lonely.map Prod.fst) = [.releaseQueued] ∧ ¬Unchanged 1 lonely ∧
      (exec step start untouched).isSome ∧ Along step Kernel start untouched ∧
      outcomes 1 untouched = [] := by
  have hnot : ¬Along step Kernel start (without 1 lonely) := by decide +kernel
  exact ⟨by decide +kernel, by decide +kernel, by decide +kernel, mt Unchanged.kernel hnot, by decide +kernel,
    by decide +kernel, by decide +kernel⟩

end Loop
end MuduoServer
