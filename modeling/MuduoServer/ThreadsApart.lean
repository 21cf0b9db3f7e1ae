import MuduoServer.ConnTable
import MuduoServer.Footprint

/-!
# The threads of a server meet in the queues only

What a step of one thread reads and writes is the control of its own loop, the connection it
is about, perhaps the end of another loop's queue, and on the base loop the data of the
server. So steps of different threads that are not about one queue can be taken in
either order, in any state that a run reaches.
-/
namespace MuduoServer

open StdString Transition

namespace TcpSever

/-! ## Places -/

/-- The data of the server. -/
structure Base where
  nextEventLoop : Nat
  connId : Nat
  conns : Nat → Option Nat
  /-- How many connections have been constructed. -/
  created : Nat
  issued : Nat

def base (s : TcpSever) : Base := ⟨s.nextEventLoop, s.connId, s.conns, s.objects.length, s.issued⟩

inductive Place where
  /-- What is set before the server starts. -/
  | params
  | base
  | object (x : Nat)
  /-- Where the thread of a loop is. -/
  | control (i : Nat)
  | queue (i : Nat)
  deriving DecidableEq

/-- The two states look the same at a place. -/
def same : Place → Setoid TcpSever
  | .params => Setoid.ker fun s => (s.isAbleDelayDel, s.threadCnt)
  | .base => Setoid.ker base
  | .object x => Setoid.ker fun s => s.objects[x]?
  | .control i => Setoid.ker fun s => ((s.loops i).phase, (s.loops i).stack)
  | .queue i => Setoid.ker fun s => (s.loops i).taskQueue

section Same

variable {s t : TcpSever} {i x : Nat}

@[simp] theorem same_params :
    same .params s t ↔ s.isAbleDelayDel = t.isAbleDelayDel ∧ s.threadCnt = t.threadCnt :=
  Iff.of_eq (Prod.mk.injEq ..)

@[simp] theorem same_base : same .base s t ↔ s.base = t.base := Iff.rfl

@[simp] theorem same_object : same (.object x) s t ↔ s.objects[x]? = t.objects[x]? := Iff.rfl

@[simp] theorem same_control : same (.control i) s t ↔
    (s.loops i).phase = (t.loops i).phase ∧ (s.loops i).stack = (t.loops i).stack :=
  Iff.of_eq (Prod.mk.injEq ..)

@[simp] theorem same_queue : same (.queue i) s t ↔ (s.loops i).taskQueue = (t.loops i).taskQueue :=
  Iff.rfl

/-- The two states differ in the data of the server at most. -/
theorem same_beside (s t : TcpSever) (hable : s.isAbleDelayDel = t.isAbleDelayDel)
    (hcnt : s.threadCnt = t.threadCnt) (hobjects : s.objects = t.objects)
    (hloops : s.loops = t.loops) (l : Place) (hl : l ≠ .base) : same l s t := by
  cases l with
  | base => exact absurd rfl hl
  | params => exact same_params.mpr ⟨hable, hcnt⟩
  | object x => rw [same_object, hobjects]
  | control i => exact same_control.mpr ⟨by rw [hloops], by rw [hloops]⟩
  | queue i => rw [same_queue, hloops]

end Same

/-- The places make up the state, but for the log of what is released. -/
theorem eq_of_same {s t : TcpSever} (h : ∀ l, same l s t) :
    t = { s with released := t.released } := by
  obtain ⟨hable, hcnt⟩ := same_params.mp (h .params)
  have hobjects : s.objects = t.objects := List.ext_getElem? fun x => h (.object x)
  have hloops : s.loops = t.loops := by
    funext i
    obtain ⟨hphase, hstack⟩ := same_control.mp (h (.control i))
    have hqueue : (s.loops i).taskQueue = (t.loops i).taskQueue := h (.queue i)
    calc s.loops i = ⟨(s.loops i).taskQueue, (s.loops i).phase, (s.loops i).stack⟩ := rfl
      _ = t.loops i := by rw [hqueue, hphase, hstack]
  have hbase := same_base.mp (h .base)
  simp only [base, Base.mk.injEq] at hbase
  obtain ⟨hnext, hid, hconns, -, hissued⟩ := hbase
  rw [hable, hcnt, hobjects, hloops, hnext, hid, hconns, hissued]

/-! ## What a step is about -/

/-- The loop whose thread takes the step; other threads are not told apart. -/
def Act.thread : Act → Option Nat
  | .pollReturn i | .handle i | .swap i | .runTask i | .batchDone i | .next i | .ret i => some i
  | .accept => some 0
  | .release thread _ | .call thread _ | .runAfter thread => thread

/-- The frame that goes on. -/
def top (s : TcpSever) (i : Nat) : Option Frame := (s.loops i).stack.head?

/-- The functor that is run. -/
def first (s : TcpSever) (i : Nat) : Option Task := (s.loops i).phase.batch.head?

/-- The connection that is looked at. -/
def looksAt (s : TcpSever) : Act → Option Nat
  | .release _ x | .call _ x => some x
  | .next i => (s.top i).bind Frame.conn
  | .runTask i => (s.first i).bind Task.removes
  | _ => none

/-- The loop on which `RunInLoop` queues, called on a thread for loop `i`. -/
def crosses (thread : Option Nat) (i : Nat) : Option Nat := if thread = some i then none else some i

def Frame.queues (s : TcpSever) (i : Nat) : Frame → Option Nat
  | .enableTimeoutDel x =>
    if s.isAbleDelayDel then (s.objects[x]?).bind fun conn => crosses (some i) conn.loop else none
  | .established x => (s.objects[x]?).bind fun conn => crosses (some i) conn.loop
  | .serverClosed _ => crosses (some i) 0
  | .insert _ | .code => none

/-- The loop whose queue is swapped or appended to. -/
def queued (s : TcpSever) : Act → Option Nat
  | .swap i => some i
  | .next i => (s.top i).bind (Frame.queues s i)
  | .release _ x => (s.objects[x]?).map ConnObject.loop
  | .call thread x => (s.objects[x]?).bind fun conn => crosses thread conn.loop
  | .runAfter thread => crosses thread 0
  | _ => none

/-- The queue is told by the connection. -/
theorem queues_congr {s t : TcpSever} {i : Nat} (frame : Frame)
    (hable : s.isAbleDelayDel = t.isAbleDelayDel)
    (hobject : ∀ x ∈ frame.conn, s.objects[x]? = t.objects[x]?) :
    frame.queues s i = frame.queues t i := by
  cases frame with
  | enableTimeoutDel x => simp only [Frame.queues, hable, hobject x rfl]
  | established x => simp only [Frame.queues, hobject x rfl]
  | _ => rfl

def Frame.usesBase (i : Nat) : Frame → Bool
  | .insert _ => true
  | .serverClosed _ => i = 0
  | .enableTimeoutDel _ | .established _ | .code => false

/-- The data of the server is looked at or changed. -/
def usesBase (s : TcpSever) : Act → Bool
  | .accept => true
  | .runAfter thread => thread = some 0
  | .next i => (s.top i).any (Frame.usesBase i)
  | .runTask i => (s.first i).any Task.forBase
  | _ => false

def writes (s : TcpSever) (a : Act) : Place → Prop
  | .params => False
  | .base => s.usesBase a = true
  | .object x => a = .accept ∧ x = s.objects.length
  | .control i => a.thread = some i
  | .queue i => s.queued a = some i

def reads (s : TcpSever) (a : Act) : Place → Prop
  | .params => True
  | .base => s.usesBase a = true
  | .object x => s.looksAt a = some x ∨ a = .accept ∧ x = s.objects.length
  | .control i => a.thread = some i
  | .queue i => s.queued a = some i

/-! ## The functions -/

variable {P : Place → Prop} {s s' t t' : TcpSever} {a : Act}

/-- The states look the same in these places. -/
def Agree (P : Place → Prop) (s t : TcpSever) : Prop := ∀ l, P l → same l s t

theorem Agree.setLoop (h : Agree P s t) (i : Nat) {l l' : EventLoop}
    (hcontrol : P (.control i) → l.phase = l'.phase ∧ l.stack = l'.stack)
    (hqueue : P (.queue i) → l.taskQueue = l'.taskQueue) :
    Agree P (s.setLoop i l) (t.setLoop i l') := by
  intro place hp
  have hold := h place hp
  cases place with
  | params => exact hold
  | base => exact hold
  | object x => exact hold
  | control j =>
    by_cases hj : j = i
    · subst hj
      simpa using hcontrol hp
    · simpa [loops_setLoop_of_ne _ hj] using hold
  | queue j =>
    by_cases hj : j = i
    · subst hj
      simpa using hqueue hp
    · simpa [loops_setLoop_of_ne _ hj] using hold

theorem Agree.push (h : Agree P s t) (i : Nat) (frames : List Frame) :
    Agree P (s.push i frames) (t.push i frames) := by
  refine h.setLoop i (fun hp => ?_) fun hp => h _ hp
  obtain ⟨hphase, hstack⟩ := same_control.mp (h _ hp)
  exact ⟨hphase, congrArg (frames ++ ·) hstack⟩

theorem Agree.queueInLoop (h : Agree P s t) (i : Nat) (task : Task) :
    Agree P (s.queueInLoop i task) (t.queueInLoop i task) :=
  h.setLoop i (fun hp => same_control.mp (h _ hp)) fun hp =>
    congrArg (· ++ [task]) (same_queue.mp (h _ hp))

/-- A function of the server's data alone. -/
theorem Agree.onBase (h : Agree P s t) {f : TcpSever → TcpSever}
    (hkeep : ∀ s l, l ≠ .base → same l s (f s))
    (hbase : ∀ s t, s.base = t.base → (f s).base = (f t).base) : Agree P (f s) (f t) := by
  intro place hp
  by_cases hplace : place = .base
  · subst hplace
    exact hbase s t (h _ hp)
  · have hs : same place (f s) s := (same place).symm (hkeep s place hplace)
    exact (same place).trans hs ((same place).trans (h place hp) (hkeep t place hplace))

theorem nextId_keeps (s : TcpSever) (l : Place) (hl : l ≠ .base) : same l s s.nextId :=
  same_beside s s.nextId rfl rfl rfl rfl l hl

theorem base_nextId (h : s.base = t.base) : s.nextId.base = t.nextId.base := by
  simp only [base, Base.mk.injEq] at h
  obtain ⟨hnext, hid, hconns, hcreated, hissued⟩ := h
  simp only [nextId, base, hnext, hid, hconns, hcreated, hissued]

theorem insertConn_keeps (x : Nat) (s : TcpSever) (l : Place) (hl : l ≠ .base) :
    same l s (s.insertConn x) := by
  unfold insertConn
  split
  · exact (same l).refl s
  · exact same_beside s { s with conns := Function.update s.conns s.connId (some x) } rfl rfl rfl rfl l hl

theorem base_insertConn (x : Nat) (h : s.base = t.base) :
    (s.insertConn x).base = (t.insertConn x).base := by
  simp only [base, Base.mk.injEq] at h
  obtain ⟨hnext, hid, hconns, hcreated, hissued⟩ := h
  unfold insertConn
  rw [hid, hconns]
  split <;> simp only [base, hnext, hid, hconns, hcreated, hissued]

/-- The entry is looked up under the id of the connection. -/
theorem removeConnectionInLoop_some {x : Nat} (hstep : s.removeConnectionInLoop x = some s') :
    ∃ conn, s.objects[x]? = some conn ∧
    s' = { s with conns := Function.update s.conns (toSizeT conn.connId) none } := by
  obtain ⟨conn, hconn, hs'⟩ := Option.bind_eq_some_iff.mp hstep
  cases hs'
  exact ⟨conn, hconn, rfl⟩

theorem agree_removeConnectionInLoop (h : Agree P s t) {x : Nat} (hx : P (.object x))
    (hstep : s.removeConnectionInLoop x = some s') :
    ∃ t', t.removeConnectionInLoop x = some t' ∧ Agree P s' t' := by
  obtain ⟨conn, hconn, rfl⟩ := removeConnectionInLoop_some hstep
  have hconn' : t.objects[x]? = some conn := (same_object.mp (h _ hx)).symm.trans hconn
  refine ⟨{ t with conns := Function.update t.conns (toSizeT conn.connId) none }, ?_, ?_⟩
  · simp [removeConnectionInLoop, hconn']
  · refine h.onBase (f := fun s => { s with conns := Function.update s.conns (toSizeT conn.connId) none }) ?_ ?_
    · intro s l hl
      exact same_beside s { s with conns := Function.update s.conns (toSizeT conn.connId) none } rfl
        rfl rfl rfl l hl
    · intro s t h
      simp only [base, Base.mk.injEq] at h ⊢
      obtain ⟨hnext, hid, hconns, hcreated, hissued⟩ := h
      exact ⟨hnext, hid, by rw [hconns], hcreated, hissued⟩

/-- What `ReleaseInloop` has come to is noted. -/
theorem Agree.released (h : Agree P s t) (xs ys : List Nat) :
    Agree P { s with released := xs } { t with released := ys } := by
  intro place hp
  have hold := h place hp
  cases place <;> exact hold

theorem agree_runTask (h : Agree P s t) (i : Nat) {task : Task}
    (hx : ∀ x ∈ task.removes, P (.object x)) (hstep : s.runTask i task = some s') :
    ∃ t', t.runTask i task = some t' ∧ Agree P s' t' := by
  cases task with
  | enableTimeoutDelInLoop x =>
    cases hstep
    exact ⟨t, rfl, h⟩
  | establishedInLoop x =>
    cases hstep
    exact ⟨_, rfl, h.push i _⟩
  | releaseInloop x =>
    cases hstep
    exact ⟨_, rfl, h.push i _⟩
  | removeConnectionInLoop x => exact agree_removeConnectionInLoop h (hx x rfl) hstep
  | runAfterInLoop =>
    cases hstep
    exact ⟨_, rfl, h.onBase nextId_keeps fun _ _ => base_nextId⟩
  | other =>
    cases hstep
    exact ⟨_, rfl, h.push i _⟩

theorem agree_runInLoop (h : Agree P s t) (thread : Option Nat) (i : Nat) {task : Task}
    (hx : ∀ x ∈ task.removes, P (.object x)) (hstep : s.runInLoop thread i task = some s') :
    ∃ t', t.runInLoop thread i task = some t' ∧ Agree P s' t' := by
  unfold runInLoop at hstep ⊢
  by_cases hthread : thread = some i
  · rw [if_pos hthread] at hstep ⊢
    exact agree_runTask h i hx hstep
  · rw [if_neg hthread] at hstep ⊢
    cases hstep
    exact ⟨_, rfl, h.queueInLoop i task⟩

/-- The connection that is constructed gets the next id and the next loop. -/
theorem newConnection_eq (s : TcpSever) :
    ∃ next loop, (∀ t : TcpSever, t.threadCnt = s.threadCnt → t.base = s.base →
    t.newConnection = ({ t.nextId with
      nextEventLoop := next
      objects := t.objects ++ [⟨toInt ((s.connId + 1) % 2 ^ 64), loop⟩] } : TcpSever).push 0
        [.enableTimeoutDel s.objects.length, .established s.objects.length,
          .insert s.objects.length]) := by
  by_cases hcnt : s.threadCnt = 0
  · refine ⟨s.nextEventLoop, 0, fun t ht hbase => ?_⟩
    simp only [base, Base.mk.injEq] at hbase
    obtain ⟨hnext, hid, -, hcreated, -⟩ := hbase
    simp only [newConnection, getNextEventLoop, nextId, ht, hcnt, if_true, hid, hcreated, hnext]
  · refine ⟨(s.nextEventLoop + 1) % s.threadCnt, (s.nextEventLoop + 1) % s.threadCnt + 1,
      fun t ht hbase => ?_⟩
    simp only [base, Base.mk.injEq] at hbase
    obtain ⟨hnext, hid, -, hcreated, -⟩ := hbase
    simp only [newConnection, getNextEventLoop, nextId, ht, hcnt, if_false, hid, hcreated, hnext]

theorem agree_newConnection (h : Agree P s t) (hparams : P .params) (hbase : P .base) :
    Agree P s.newConnection t.newConnection := by
  obtain ⟨next, loop, hnew⟩ := s.newConnection_eq
  have hthread : s.threadCnt = t.threadCnt := (same_params.mp (h _ hparams)).2
  have hsame : s.base = t.base := h _ hbase
  rw [hnew s rfl rfl, hnew t hthread.symm hsame.symm]
  refine Agree.push (fun place hp => ?_) 0 _
  have hold := h place hp
  cases place with
  | params => exact hold
  | base =>
    simp only [base, Base.mk.injEq] at hsame
    obtain ⟨-, hid, hconns, hcreated, hissued⟩ := hsame
    simp [base, nextId, hid, hconns, hcreated, hissued]
  | object x =>
    have hlength : s.objects.length = t.objects.length := congrArg Base.created hsame
    simp only [same_object] at hold ⊢
    rw [List.getElem?_append, List.getElem?_append, hold, hlength]
  | control i => exact hold
  | queue i => exact hold

theorem agree_runFrame (h : Agree P s t) (hparams : P .params) (i : Nat) {frame : Frame}
    (hx : ∀ x ∈ frame.conn, P (.object x)) (hstep : s.runFrame i frame = some s') :
    ∃ t', t.runFrame i frame = some t' ∧ Agree P s' t' := by
  have hable : s.isAbleDelayDel = t.isAbleDelayDel := (same_params.mp (h _ hparams)).1
  cases frame with
  | enableTimeoutDel x =>
    obtain ⟨conn, hconn, hstep⟩ := Option.bind_eq_some_iff.mp hstep
    have hconn' : t.objects[x]? = some conn := (same_object.mp (h _ (hx x rfl))).symm.trans hconn
    simp only [runFrame, hconn', Option.bind_eq_bind, Option.bind_some, ← hable]
    split at hstep
    · rename_i hon
      rw [if_pos hon]
      exact agree_runInLoop h (some i) conn.loop (by simp [Task.removes]) hstep
    · rename_i hoff
      cases hstep
      rw [if_neg hoff]
      exact ⟨t, rfl, h⟩
  | established x =>
    obtain ⟨conn, hconn, hstep⟩ := Option.bind_eq_some_iff.mp hstep
    have hconn' : t.objects[x]? = some conn := (same_object.mp (h _ (hx x rfl))).symm.trans hconn
    simp only [runFrame, hconn', Option.bind_eq_bind, Option.bind_some]
    exact agree_runInLoop h (some i) conn.loop (by simp [Task.removes]) hstep
  | insert x =>
    cases hstep
    exact ⟨_, rfl, h.onBase (insertConn_keeps x) fun _ _ => base_insertConn x⟩
  | serverClosed x =>
    have hremoves : ∀ y ∈ (Task.removeConnectionInLoop x).removes, P (.object y) := by
      intro y hy
      exact hx y hy
    exact agree_runInLoop (h.released _ _) (some i) 0 hremoves hstep
  | code => cases hstep

/-! ## The steps -/

theorem runsCode_agree (h : Agree P s t) {thread : Option Nat}
    (hthread : ∀ i ∈ thread, P (.control i)) :
    s.runsCode thread = t.runsCode thread := by
  cases thread with
  | none => rfl
  | some i => simp only [runsCode, (same_control.mp (h _ (hthread i rfl))).2]

/-- Whether a step can be taken, and what it leaves where it looks, depends on where it looks. -/
theorem agree_step (h : Agree (s.reads a) s t) (hstep : s.step a = some s') :
    ∃ t', t.step a = some t' ∧ Agree (s.reads a) s' t' := by
  have hparams := same_params.mp (h .params trivial)
  have hcontrol : ∀ i, a.thread = some i →
      (s.loops i).phase = (t.loops i).phase ∧ (s.loops i).stack = (t.loops i).stack :=
    fun i hi => same_control.mp (h (.control i) hi)
  cases a with
  | pollReturn i =>
    obtain ⟨hcond, hstep⟩ := Option.ite_none_right_eq_some.mp hstep
    cases hstep
    obtain ⟨hphase, hstack⟩ := hcontrol i rfl
    rw [hphase, hstack, hparams.2] at hcond
    exact ⟨_, if_pos hcond, h.setLoop i (fun _ => ⟨rfl, hstack⟩) fun hp => h _ hp⟩
  | handle i =>
    obtain ⟨hcond, hstep⟩ := Option.ite_none_right_eq_some.mp hstep
    cases hstep
    obtain ⟨hphase, hstack⟩ := hcontrol i rfl
    rw [hphase, hstack] at hcond
    exact ⟨_, if_pos hcond, h.push i _⟩
  | accept =>
    obtain ⟨hcond, hstep⟩ := Option.ite_none_right_eq_some.mp hstep
    cases hstep
    obtain ⟨hphase, hstack⟩ := hcontrol 0 rfl
    rw [hphase, hstack] at hcond
    exact ⟨_, if_pos hcond, agree_newConnection h trivial rfl⟩
  | swap i =>
    obtain ⟨hcond, hstep⟩ := Option.ite_none_right_eq_some.mp hstep
    cases hstep
    obtain ⟨hphase, hstack⟩ := hcontrol i rfl
    have hqueue : (s.loops i).taskQueue = (t.loops i).taskQueue := h (.queue i) rfl
    rw [hphase, hstack] at hcond
    exact ⟨_, if_pos hcond, h.setLoop i (fun _ => ⟨by rw [hqueue], hstack⟩) fun _ => rfl⟩
  | runTask i =>
    obtain ⟨hphase, hstack⟩ := hcontrol i rfl
    simp only [step] at hstep ⊢
    rw [← hphase]
    split at hstep
    · rename_i task batch hp
      obtain ⟨hcond, hstep⟩ := Option.ite_none_right_eq_some.mp hstep
      rw [hstack] at hcond
      rw [if_pos hcond]
      have hx : ∀ x ∈ task.removes, reads s (.runTask i) (.object x) := by
        intro x hx
        left
        simp [looksAt, first, hp, Phase.batch, Option.mem_def.mp hx]
      have hrest : Agree (s.reads (.runTask i)) (s.setLoop i { s.loops i with phase := .run batch })
          (t.setLoop i { t.loops i with phase := .run batch }) :=
            h.setLoop i (fun _ => ⟨rfl, hstack⟩) fun hp => h _ hp
      exact agree_runTask hrest i hx hstep
    · cases hstep
  | batchDone i =>
    obtain ⟨hcond, hstep⟩ := Option.ite_none_right_eq_some.mp hstep
    cases hstep
    obtain ⟨hphase, hstack⟩ := hcontrol i rfl
    rw [hphase, hstack] at hcond
    exact ⟨_, if_pos hcond, h.setLoop i (fun _ => ⟨rfl, hstack⟩) fun hp => h _ hp⟩
  | next i =>
    obtain ⟨hphase, hstack⟩ := hcontrol i rfl
    simp only [step] at hstep ⊢
    rw [← hstack]
    split at hstep
    · rename_i frame stack hs
      have hx : ∀ x ∈ frame.conn, reads s (.next i) (.object x) := by
        intro x hx
        left
        simp [looksAt, top, hs, Option.mem_def.mp hx]
      have hpop : Agree (s.reads (.next i)) (s.setLoop i { s.loops i with stack := stack })
          (t.setLoop i { t.loops i with stack := stack }) :=
            h.setLoop i (fun _ => ⟨hphase, rfl⟩) fun hp => h _ hp
      exact agree_runFrame hpop trivial i hx hstep
    · cases hstep
  | release thread x =>
    obtain ⟨hcond, hstep⟩ := Option.ite_none_right_eq_some.mp hstep
    obtain ⟨conn, hconn, hstep⟩ := Option.bind_eq_some_iff.mp hstep
    cases hstep
    have hconn' : t.objects[x]? = some conn :=
      (same_object.mp (h (.object x) (.inl rfl))).symm.trans hconn
    have hcode : s.runsCode thread = t.runsCode thread := runsCode_agree h fun i hi => hi
    rw [hcode] at hcond
    refine ⟨t.queueInLoop conn.loop (.releaseInloop x), ?_, h.queueInLoop _ _⟩
    simp [step, hcond, hconn']
  | call thread x =>
    obtain ⟨hcond, hstep⟩ := Option.ite_none_right_eq_some.mp hstep
    obtain ⟨conn, hconn, hstep⟩ := Option.bind_eq_some_iff.mp hstep
    have hconn' : t.objects[x]? = some conn :=
      (same_object.mp (h (.object x) (.inl rfl))).symm.trans hconn
    have hcode : s.runsCode thread = t.runsCode thread := runsCode_agree h fun i hi => hi
    rw [hcode] at hcond
    obtain ⟨t', ht', h'⟩ := agree_runInLoop h thread conn.loop (by simp [Task.removes]) hstep
    exact ⟨t', by simp [step, hcond, hconn', ht'], h'⟩
  | runAfter thread =>
    obtain ⟨hcond, hstep⟩ := Option.ite_none_right_eq_some.mp hstep
    have hcode : s.runsCode thread = t.runsCode thread := runsCode_agree h fun i hi => hi
    rw [hcode] at hcond
    obtain ⟨t', ht', h'⟩ := agree_runInLoop h thread 0 (by simp [Task.removes]) hstep
    exact ⟨t', by simp [step, hcond, ht'], h'⟩
  | ret i =>
    obtain ⟨hphase, hstack⟩ := hcontrol i rfl
    simp only [step] at hstep ⊢
    rw [← hstack]
    split at hstep
    · cases hstep
      exact ⟨_, rfl, h.setLoop i (fun _ => ⟨hphase, rfl⟩) fun hp => h _ hp⟩
    · cases hstep

/-! ## Where a step reads and writes -/

theorem top_agree (h : Agree (s.reads a) s t) {i : Nat} (hi : a.thread = some i) :
    t.top i = s.top i := by
  simp only [top, (same_control.mp (h (.control i) hi)).2]

theorem first_agree (h : Agree (s.reads a) s t) {i : Nat} (hi : a.thread = some i) :
    t.first i = s.first i := by
  simp only [first, (same_control.mp (h (.control i) hi)).1]

theorem looksAt_agree (h : Agree (s.reads a) s t) : t.looksAt a = s.looksAt a := by
  cases a with
  | next i => simp only [looksAt, top_agree h rfl]
  | runTask i => simp only [looksAt, first_agree h rfl]
  | _ => rfl

theorem usesBase_agree (h : Agree (s.reads a) s t) : t.usesBase a = s.usesBase a := by
  cases a with
  | next i => simp only [usesBase, top_agree h rfl]
  | runTask i => simp only [usesBase, first_agree h rfl]
  | _ => rfl

theorem queued_agree (h : Agree (s.reads a) s t) : t.queued a = s.queued a := by
  have hobject : ∀ x, s.looksAt a = some x → s.objects[x]? = t.objects[x]? :=
    fun x hx => h (.object x) (.inl hx)
  cases a with
  | next i =>
    simp only [queued, top_agree h rfl]
    cases htop : s.top i with
    | none => rfl
    | some frame =>
      have hframe : ∀ x ∈ frame.conn, s.objects[x]? = t.objects[x]? := by
        intro x hx
        refine hobject x ?_
        rw [looksAt, htop]
        exact hx
      exact (queues_congr frame (same_params.mp (h .params trivial)).1 hframe).symm
  | release thread x => simp only [queued, hobject x rfl]
  | call thread x => simp only [queued, hobject x rfl]
  | _ => rfl

/-! ## What is not written -/

theorem agree_refl (P : Place → Prop) (s : TcpSever) : Agree P s s := fun l _ => (same l).refl s

theorem Agree.trans {u : TcpSever} (h : Agree P s t) (h' : Agree P t u) : Agree P s u :=
  fun l hl => (same l).trans (h l hl) (h' l hl)

theorem keeps_setLoop (i : Nat) {l : EventLoop}
    (hcontrol : P (.control i) → (s.loops i).phase = l.phase ∧ (s.loops i).stack = l.stack)
    (hqueue : P (.queue i) → (s.loops i).taskQueue = l.taskQueue) : Agree P s (s.setLoop i l) := by
  have hself : s.setLoop i (s.loops i) = s := by
    unfold TcpSever.setLoop
    rw [Function.update_eq_self]
  have hset := (agree_refl P s).setLoop i hcontrol hqueue
  rwa [hself] at hset

theorem keeps_push {i : Nat} (hi : ¬P (.control i)) (frames : List Frame) :
    Agree P s (s.push i frames) :=
  keeps_setLoop i (fun hp => absurd hp hi) fun _ => rfl

theorem keeps_queueInLoop {i : Nat} (hi : ¬P (.queue i)) (task : Task) :
    Agree P s (s.queueInLoop i task) :=
  keeps_setLoop i (fun _ => ⟨rfl, rfl⟩) fun hp => absurd hp hi

theorem keeps_base (hbase : ¬P .base) {f : TcpSever → TcpSever}
    (hkeep : ∀ s l, l ≠ .base → same l s (f s)) :
    Agree P s (f s) := by
  intro l hl
  refine hkeep s l ?_
  rintro rfl
  exact hbase hl

theorem keeps_newConnection (hbase : ¬P .base) (hcontrol : ¬P (.control 0))
    (hobject : ¬P (.object s.objects.length)) :
    Agree P s s.newConnection := by
  obtain ⟨next, loop, hnew⟩ := s.newConnection_eq
  rw [hnew s rfl rfl]
  refine Agree.trans (fun place hp => ?_) (keeps_push hcontrol _)
  cases place with
  | base => exact absurd hp hbase
  | object x =>
    have hx : x ≠ s.objects.length := by
      rintro rfl
      exact hobject hp
    rw [same_object, List.getElem?_append]
    split
    · rfl
    · rename_i hlt
      have hnone : s.objects[x]? = none := List.getElem?_eq_none_iff.mpr (Nat.not_lt.mp hlt)
      rw [hnone, eq_comm, List.getElem?_eq_none_iff, List.length_singleton]
      omega
  | params => exact same_params.mpr ⟨rfl, rfl⟩
  | control i => exact same_control.mpr ⟨rfl, rfl⟩
  | queue i => exact same_queue.mpr rfl

theorem keeps_runTask {i : Nat} {task : Task}
    (hcontrol : ¬P (.control i)) (hbase : task.forBase = true → ¬P .base)
    (hstep : s.runTask i task = some s') : Agree P s s' := by
  cases task with
  | enableTimeoutDelInLoop x =>
    cases hstep
    exact agree_refl P s
  | establishedInLoop x =>
    cases hstep
    exact keeps_push hcontrol _
  | releaseInloop x =>
    cases hstep
    exact keeps_push hcontrol _
  | removeConnectionInLoop x =>
    obtain ⟨conn, -, rfl⟩ := removeConnectionInLoop_some hstep
    exact keeps_base (hbase rfl) (f := fun s =>
      { s with conns := Function.update s.conns (toSizeT conn.connId) none })
      fun s l hl => same_beside s
        { s with conns := Function.update s.conns (toSizeT conn.connId) none } rfl rfl rfl rfl l hl
  | runAfterInLoop =>
    cases hstep
    exact keeps_base (hbase rfl) nextId_keeps
  | other =>
    cases hstep
    exact keeps_push hcontrol _

theorem keeps_runInLoop {thread : Option Nat} {i : Nat} {task : Task}
    (hcontrol : ∀ j ∈ thread, ¬P (.control j)) (hqueue : ∀ j ∈ crosses thread i, ¬P (.queue j))
    (hbase : thread = some i → task.forBase = true → ¬P .base)
    (hstep : s.runInLoop thread i task = some s') : Agree P s s' := by
  unfold runInLoop at hstep
  by_cases hthread : thread = some i
  · rw [if_pos hthread] at hstep
    exact keeps_runTask (hcontrol i hthread) (hbase hthread) hstep
  · rw [if_neg hthread] at hstep
    cases hstep
    exact keeps_queueInLoop (hqueue i (if_neg hthread)) task

theorem keeps_runFrame {i : Nat} {frame : Frame} (hcontrol : ¬P (.control i))
    (hqueue : ∀ j ∈ frame.queues s i, ¬P (.queue j)) (hbase : frame.usesBase i = true → ¬P .base)
    (hstep : s.runFrame i frame = some s') : Agree P s s' := by
  have hown : ∀ j ∈ some i, ¬P (.control j) := by
    intro j hj
    cases hj
    exact hcontrol
  cases frame with
  | enableTimeoutDel x =>
    obtain ⟨conn, hconn, hstep⟩ := Option.bind_eq_some_iff.mp hstep
    split at hstep
    · rename_i hon
      refine keeps_runInLoop hown (fun j hj => hqueue j ?_) (fun _ hfor => by cases hfor) hstep
      simpa [Frame.queues, hon, hconn] using hj
    · cases hstep
      exact agree_refl P s
  | established x =>
    obtain ⟨conn, hconn, hstep⟩ := Option.bind_eq_some_iff.mp hstep
    refine keeps_runInLoop hown (fun j hj => hqueue j ?_) (fun _ hfor => by cases hfor) hstep
    simpa [Frame.queues, hconn] using hj
  | insert x =>
    cases hstep
    exact keeps_base (hbase rfl) (insertConn_keeps x)
  | serverClosed x =>
    have hreleased : Agree P s { s with released := s.released ++ [x] } :=
      (agree_refl P s).released s.released _
    refine hreleased.trans (keeps_runInLoop hown hqueue (fun hi _ => hbase ?_) hstep)
    exact decide_eq_true (Option.some.inj hi)
  | code => cases hstep

/-- A step changes nothing but the places that it writes. -/
theorem keeps_step (hstep : s.step a = some s') : Agree (fun l => ¬s.writes a l) s s' := by
  have hcontrol : ∀ i, a.thread = some i → ¬¬s.writes a (.control i) := fun i hi hno => hno hi
  cases a with
  | pollReturn i =>
    obtain ⟨-, hstep⟩ := Option.ite_none_right_eq_some.mp hstep
    cases hstep
    exact keeps_setLoop i (fun hp => absurd hp (hcontrol i rfl)) fun _ => rfl
  | handle i =>
    obtain ⟨-, hstep⟩ := Option.ite_none_right_eq_some.mp hstep
    cases hstep
    exact keeps_push (hcontrol i rfl) _
  | accept =>
    obtain ⟨-, hstep⟩ := Option.ite_none_right_eq_some.mp hstep
    cases hstep
    exact keeps_newConnection (fun hno => hno rfl) (hcontrol 0 rfl) fun hno => hno ⟨rfl, rfl⟩
  | swap i =>
    obtain ⟨-, hstep⟩ := Option.ite_none_right_eq_some.mp hstep
    cases hstep
    exact keeps_setLoop i (fun hp => absurd hp (hcontrol i rfl)) fun hp => absurd rfl hp
  | runTask i =>
    simp only [step] at hstep
    split at hstep
    · rename_i task batch hp
      obtain ⟨-, hstep⟩ := Option.ite_none_right_eq_some.mp hstep
      have hrest : Agree (fun l => ¬s.writes (.runTask i) l) s
          (s.setLoop i { s.loops i with phase := .run batch }) :=
        keeps_setLoop i (fun hp => absurd hp (hcontrol i rfl)) fun _ => rfl
      refine hrest.trans (keeps_runTask (hcontrol i rfl) (fun hfor hno => hno ?_) hstep)
      simp [writes, usesBase, first, hp, Phase.batch, hfor]
    · cases hstep
  | batchDone i =>
    obtain ⟨-, hstep⟩ := Option.ite_none_right_eq_some.mp hstep
    cases hstep
    exact keeps_setLoop i (fun hp => absurd hp (hcontrol i rfl)) fun _ => rfl
  | next i =>
    simp only [step] at hstep
    split at hstep
    · rename_i frame stack hs
      have hpop : Agree (fun l => ¬s.writes (.next i) l) s
          (s.setLoop i { s.loops i with stack := stack }) :=
        keeps_setLoop i (fun hp => absurd hp (hcontrol i rfl)) fun _ => rfl
      refine hpop.trans (keeps_runFrame (hcontrol i rfl) (fun j hj hno => hno ?_) (fun hfor hno => hno ?_) hstep)
      · have hqueues : frame.queues (s.setLoop i { s.loops i with stack := stack }) i =
            frame.queues s i :=
          queues_congr frame rfl fun _ _ => rfl
        rw [hqueues] at hj
        simpa [writes, queued, top, hs] using hj
      · simp [writes, usesBase, top, hs, hfor]
    · cases hstep
  | release thread x =>
    obtain ⟨-, hstep⟩ := Option.ite_none_right_eq_some.mp hstep
    obtain ⟨conn, hconn, hstep⟩ := Option.bind_eq_some_iff.mp hstep
    cases hstep
    refine keeps_queueInLoop (fun hno => hno ?_) _
    simp [writes, queued, hconn]
  | call thread x =>
    obtain ⟨-, hstep⟩ := Option.ite_none_right_eq_some.mp hstep
    obtain ⟨conn, hconn, hstep⟩ := Option.bind_eq_some_iff.mp hstep
    have hown : ∀ j ∈ thread, ¬¬s.writes (.call thread x) (.control j) := hcontrol
    refine keeps_runInLoop hown (fun j hj hno => hno ?_) (fun _ hfor => by cases hfor) hstep
    simpa [writes, queued, hconn] using hj
  | runAfter thread =>
    obtain ⟨-, hstep⟩ := Option.ite_none_right_eq_some.mp hstep
    have hown : ∀ j ∈ thread, ¬¬s.writes (.runAfter thread) (.control j) := hcontrol
    refine keeps_runInLoop hown (fun j hj hno => hno hj) (fun hi _ hno => hno ?_) hstep
    simp [writes, usesBase, hi]
  | ret i =>
    simp only [step] at hstep
    split at hstep
    · cases hstep
      exact keeps_setLoop i (fun hp => absurd hp (hcontrol i rfl)) fun _ => rfl
    · cases hstep

/-- The steps of the server, and where they read and write. -/
def footprint : Footprint step same where
  reads := reads
  writes := writes
  covers {s a l} hw := by
    cases l with
    | params => exact hw.elim
    | object x => exact .inr hw
    | _ => exact hw
  stable {s t a} h l := by
    have hlength : a = .accept → t.objects.length = s.objects.length := by
      rintro rfl
      exact congrArg Base.created (same_base.mp (h .base rfl)).symm
    have hcreated : ∀ x, (a = .accept ∧ x = t.objects.length) ↔
        (a = .accept ∧ x = s.objects.length) :=
      fun x => and_congr_right fun ha => by rw [hlength ha]
    cases l with
    | params => exact ⟨Iff.rfl, Iff.rfl⟩
    | base => simp only [reads, writes, usesBase_agree h, and_self]
    | object x => simp only [reads, writes, looksAt_agree h, hcreated, and_self]
    | control i => exact ⟨Iff.rfl, Iff.rfl⟩
    | queue i => simp only [reads, writes, queued_agree h, and_self]
  frame hstep hw := keeps_step hstep _ hw
  determined h hstep := agree_step h hstep

/-! ## Threads -/

/-- Different threads take the steps, no queue is swapped or appended to by both, and neither step
is about the connection that the other accepts. -/
def Apart (s : TcpSever) (a b : Act) : Prop :=
  (∀ i ∈ a.thread, b.thread ≠ some i) ∧ (∀ i ∈ s.queued a, s.queued b ≠ some i) ∧
    (a = .accept → s.looksAt b ≠ some s.objects.length) ∧
      (b = .accept → s.looksAt a ≠ some s.objects.length)

instance (s : TcpSever) (a b : Act) : Decidable (Apart s a b) := inferInstanceAs (Decidable (_ ∧ _))

theorem Apart.symm {b : Act} (h : Apart s a b) : Apart s b a :=
  ⟨fun i hb ha => h.1 i ha hb, fun i hb ha => h.2.1 i ha hb, h.2.2.2, h.2.2.1⟩

/-- Only the base loop looks at the data of the server. -/
theorem thread_of_usesBase (h : LoopsOk s) (ha : s.usesBase a = true) : a.thread = some 0 := by
  cases a with
  | accept => rfl
  | runAfter thread => exact of_decide_eq_true ha
  | runTask i =>
    obtain ⟨task, htask, hfor⟩ := (Option.any_eq_true _ _).mp ha
    by_contra hi
    have hwaiting : task ∈ (s.loops i).waiting := List.mem_append_left _ (List.mem_of_head? htask)
    rw [(h i).forBase (fun h0 => hi (congrArg some h0)) task hwaiting] at hfor
    cases hfor
  | next i =>
    obtain ⟨frame, hframe, huses⟩ := (Option.any_eq_true _ _).mp ha
    have hmem : frame ∈ (s.loops i).stack := List.mem_of_head? hframe
    cases frame with
    | insert x => exact congrArg some ((h i).inserts x hmem).1
    | serverClosed x => exact congrArg some (of_decide_eq_true huses)
    | enableTimeoutDel x => cases huses
    | established x => cases huses
    | code => cases huses
  | _ => cases ha

theorem Apart.reads_of_writes {b : Act} (hloops : LoopsOk s) (h : Apart s a b) {l : Place}
    (hw : s.writes a l) :
    ¬s.reads b l := by
  obtain ⟨hthread, hqueue, haccept, -⟩ := h
  cases l with
  | params => exact hw.elim
  | base => exact fun hr => hthread 0 (thread_of_usesBase hloops hw) (thread_of_usesBase hloops hr)
  | object x =>
    obtain ⟨rfl, rfl⟩ := hw
    rintro (hlooks | ⟨rfl, -⟩)
    · exact haccept rfl hlooks
    · exact hthread 0 rfl rfl
  | control i => exact fun hr => hthread i hw hr
  | queue i => exact fun hr => hqueue i hw hr

/-- In a run of the server, two steps of different threads may change places unless both are about
one queue, or one is about the connection that the other accepts. What comes of any number of such
changes is again a run, and it leaves the same state. -/
theorem threads_reorder (isAbleDelayDel : Bool) (threadCnt : Nat) (as bs : List Act) (s : TcpSever)
    (h : Reorders step Apart (start isAbleDelayDel threadCnt) as bs)
    (hrun : exec step (start isAbleDelayDel threadCnt) as = some s) :
    ∃ released, exec step (start isAbleDelayDel threadCnt) bs =
    some { s with released := released } := by
  have hloops : ∀ s a s', LoopsOk s → step s a = some s' → LoopsOk s' :=
    fun s a s' hs hstep => (tableStep_step hs hstep).loopsOk hs
  have hapart : ∀ s a b, LoopsOk s → Apart s a b → footprint.Apart s a b :=
    fun s a b hs hab => ⟨fun l hw => hab.reads_of_writes hs hw,
      fun l hw => hab.symm.reads_of_writes hs hw⟩
  obtain ⟨t, ht, hsame⟩ :=
    footprint.reordered hloops hapart h (loopsOk_start isAbleDelayDel threadCnt) hrun
  exact ⟨t.released, eq_of_same hsame ▸ ht⟩

/-- A connection is given to a worker. -/
def handedOver : List Act :=
  [.ret 0, .pollReturn 0, .accept, .next 0, .next 0, .pollReturn 1, .swap 1]

/-- The worker may establish it before the base loop enters it, or after. -/
theorem threads_reorder_handedOver :
    ∃ s released, exec step (start true 1) (handedOver ++ [.next 0, .runTask 1]) = some s ∧
      exec step (start true 1) (handedOver ++ [.runTask 1, .next 0]) =
      some { s with released := released } := by
  have hrun : ((exec step (start true 1) handedOver).map fun s =>
      decide (Apart s (.next 0) (.runTask 1))) = some true := by
    decide +kernel
  obtain ⟨u, hu, hapart⟩ := Option.map_eq_some_iff.mp hrun
  have hreorders : Reorders step Apart (start true 1) (handedOver ++ [.next 0, .runTask 1])
      (handedOver ++ [.runTask 1, .next 0]) := .after hu (.swap [] (of_decide_eq_true hapart))
  have hend : (exec step (start true 1) (handedOver ++ [.next 0, .runTask 1])).isSome := by
    decide +kernel
  obtain ⟨s, hs⟩ := Option.isSome_iff_exists.mp hend
  obtain ⟨released, ht⟩ := threads_reorder true 1 _ _ s hreorders hs
  exact ⟨s, released, hs, ht⟩

/-! ## A thread that rests -/

/-- Nothing leaves the queue of the loop, and what comes is behind. -/
def Extends (i : Nat) (s t : TcpSever) : Prop := (s.loops i).taskQueue <+: (t.loops i).taskQueue

variable {i : Nat}

theorem extends_setLoop (j : Nat) {l : EventLoop}
    (h : i = j → (s.loops i).taskQueue <+: l.taskQueue) :
    Extends i s (s.setLoop j l) := by
  by_cases hj : i = j
  · subst hj
    simpa [Extends] using h rfl
  · simp [Extends, loops_setLoop_of_ne s hj]

theorem extends_keep (j : Nat) {phase : Phase} {stack : List Frame} :
    Extends i s (s.setLoop j { s.loops j with phase := phase, stack := stack }) := by
  refine extends_setLoop j ?_
  rintro rfl
  exact List.prefix_refl _

theorem extends_queueInLoop (j : Nat) (task : Task) : Extends i s (s.queueInLoop j task) := by
  refine extends_setLoop j ?_
  rintro rfl
  exact List.prefix_append _ _

theorem Extends.trans (h : Extends i s s') (h' : Extends i s' t) : Extends i s t :=
  List.IsPrefix.trans h h'

theorem extends_runTask {j : Nat} {task : Task} (hstep : s.runTask j task = some s') :
    Extends i s s' := by
  cases task with
  | enableTimeoutDelInLoop x =>
    cases hstep
    exact List.prefix_refl _
  | removeConnectionInLoop x =>
    obtain ⟨conn, -, rfl⟩ := removeConnectionInLoop_some hstep
    exact List.prefix_refl _
  | runAfterInLoop =>
    cases hstep
    exact List.prefix_refl _
  | establishedInLoop x =>
    cases hstep
    exact extends_keep j
  | releaseInloop x =>
    cases hstep
    exact extends_keep j
  | other =>
    cases hstep
    exact extends_keep j

theorem extends_runInLoop {thread : Option Nat} {j : Nat} {task : Task}
    (hstep : s.runInLoop thread j task = some s') :
    Extends i s s' := by
  unfold runInLoop at hstep
  split at hstep
  · exact extends_runTask hstep
  · cases hstep
    exact extends_queueInLoop j task

theorem extends_runFrame {j : Nat} {frame : Frame} (hstep : s.runFrame j frame = some s') :
    Extends i s s' := by
  cases frame with
  | enableTimeoutDel x =>
    obtain ⟨conn, -, hstep⟩ := Option.bind_eq_some_iff.mp hstep
    split at hstep
    · exact extends_runInLoop hstep
    · cases hstep
      exact List.prefix_refl _
  | established x =>
    obtain ⟨conn, -, hstep⟩ := Option.bind_eq_some_iff.mp hstep
    exact extends_runInLoop hstep
  | insert x =>
    cases hstep
    rw [Extends, (insertConn_spec s x).2.2.2.2.1]
  | serverClosed x =>
    have hqueue := extends_runInLoop (i := i) hstep
    exact hqueue
  | code => cases hstep

/-- Only the thread of a loop swaps its queue. -/
theorem extends_step (hother : a.thread ≠ some i) (hstep : s.step a = some s') :
    Extends i s s' := by
  cases a with
  | pollReturn j =>
    obtain ⟨-, hstep⟩ := Option.ite_none_right_eq_some.mp hstep
    cases hstep
    exact extends_keep j
  | handle j =>
    obtain ⟨-, hstep⟩ := Option.ite_none_right_eq_some.mp hstep
    cases hstep
    exact extends_keep j
  | accept =>
    obtain ⟨-, hstep⟩ := Option.ite_none_right_eq_some.mp hstep
    cases hstep
    obtain ⟨loop, -, -, -, -, -, -, hloops⟩ := s.newConnection_spec
    rw [Extends, hloops i fun hi => hother (congrArg some hi.symm)]
  | swap j =>
    obtain ⟨-, hstep⟩ := Option.ite_none_right_eq_some.mp hstep
    cases hstep
    exact extends_setLoop j fun hij => absurd (congrArg some hij.symm) hother
  | runTask j =>
    simp only [step] at hstep
    split at hstep
    · rename_i task batch hp
      obtain ⟨-, hstep⟩ := Option.ite_none_right_eq_some.mp hstep
      exact (extends_keep j).trans (extends_runTask hstep)
    · cases hstep
  | batchDone j =>
    obtain ⟨-, hstep⟩ := Option.ite_none_right_eq_some.mp hstep
    cases hstep
    exact extends_keep j
  | next j =>
    simp only [step] at hstep
    split at hstep
    · exact (extends_keep j).trans (extends_runFrame hstep)
    · cases hstep
  | release thread x =>
    obtain ⟨-, hstep⟩ := Option.ite_none_right_eq_some.mp hstep
    obtain ⟨conn, -, hstep⟩ := Option.bind_eq_some_iff.mp hstep
    cases hstep
    exact extends_queueInLoop conn.loop _
  | call thread x =>
    obtain ⟨-, hstep⟩ := Option.ite_none_right_eq_some.mp hstep
    obtain ⟨conn, -, hstep⟩ := Option.bind_eq_some_iff.mp hstep
    exact extends_runInLoop hstep
  | runAfter thread =>
    obtain ⟨-, hstep⟩ := Option.ite_none_right_eq_some.mp hstep
    exact extends_runInLoop hstep
  | ret j =>
    simp only [step] at hstep
    split at hstep
    · cases hstep
      exact extends_keep j
    · cases hstep

/-- What the threads of other loops leave of a loop. -/
structure Rests (i : Nat) (s t : TcpSever) : Prop where
  phase : (t.loops i).phase = (s.loops i).phase
  stack : (t.loops i).stack = (s.loops i).stack
  queue : (s.loops i).taskQueue <+: (t.loops i).taskQueue
  /-- The data of the server is that of the base loop. -/
  base : i = 0 → t.base = s.base

theorem Rests.refl (i : Nat) (s : TcpSever) : Rests i s s :=
  ⟨rfl, rfl, List.prefix_refl _, fun _ => rfl⟩

theorem Rests.trans (h : Rests i s s') (h' : Rests i s' t) : Rests i s t where
  phase := h'.phase.trans h.phase
  stack := h'.stack.trans h.stack
  queue := h.queue.trans h'.queue
  base hi := (h'.base hi).trans (h.base hi)

theorem rests_step (hloops : LoopsOk s) (hother : a.thread ≠ some i) (hstep : s.step a = some s') :
    Rests i s s' := by
  have hkeep := keeps_step hstep
  obtain ⟨hphase, hstack⟩ := same_control.mp (hkeep (.control i) hother)
  refine ⟨hphase.symm, hstack.symm, extends_step hother hstep, ?_⟩
  rintro rfl
  exact (hkeep .base fun hbase => hother (thread_of_usesBase hloops hbase)).symm

/-- While the thread of a loop takes no step, whatever the other threads do, the loop stays where it
is and its queue is only appended to; and while that of the base loop takes none, neither `_conns`
nor the ids nor the next loop of the pool change. -/
theorem loop_rests (isAbleDelayDel : Bool) (threadCnt : Nat) (pre as : List Act)
    (s t : TcpSever) (i : Nat) (hpre : exec step (start isAbleDelayDel threadCnt) pre = some s)
    (hrun : exec step s as = some t) (hother : ∀ a ∈ as, a.thread ≠ some i) : Rests i s t := by
  have hloops : LoopsOk s :=
    exec_preserves LoopsOk (fun _ _ _ hs hstep => (tableStep_step hs hstep).loopsOk hs)
    (loopsOk_start isAbleDelayDel threadCnt) hpre
  have hend : LoopsOk t ∧ Rests i s t := by
    refine exec_invariant (P := fun _ a => a.thread ≠ some i) (fun u => LoopsOk u ∧ Rests i s u) ?_
      ⟨hloops, .refl i s⟩ (along_of_mem fun _ => hother) hrun
    rintro u a u' ⟨hu, hrests⟩ ha hstep
    exact ⟨(tableStep_step hu hstep).loopsOk hu, hrests.trans (rests_step hu ha hstep)⟩
  exact hend.2

/-- The base loop has two functors of the new connection queued on the worker. -/
theorem loop_rests_handedOver :
    ∃ s t, exec step (start true 1) [.ret 0, .pollReturn 0, .accept] = some s ∧
    exec step s [.next 0, .next 0] = some t ∧
      (t.loops 1).taskQueue.length = 2 ∧ Rests 1 s t := by
  have hrun : ((exec step (start true 1) [.ret 0, .pollReturn 0, .accept]).bind fun s =>
      (exec step s [.next 0, .next 0]).map fun t => decide ((t.loops 1).taskQueue.length = 2)) =
        some true := by
    decide +kernel
  obtain ⟨s, hs, hrun⟩ := Option.bind_eq_some_iff.mp hrun
  obtain ⟨t, ht, hlength⟩ := Option.map_eq_some_iff.mp hrun
  have hother : ∀ a ∈ [Act.next 0, .next 0], a.thread ≠ some 1 := by decide
  exact ⟨s, t, hs, ht, of_decide_eq_true hlength, loop_rests true 1 _ _ s t 1 hs ht hother⟩

end TcpSever
end MuduoServer
