import MuduoServer.OutputStream

/-!
# Threads that send on one connection

`Send` from another thread goes through the task queue, from the loop's own thread
it is done at once. What leaves on the connection is made of whole payloads; those of
one thread come in the order of its calls, none is lost and none is sent twice.
-/
namespace MuduoServer
namespace Loop

open StdString Transition

variable {ι : Type} [DecidableEq ι]

/-- A step with the thread it comes from. -/
inductive Sourced (ι : Type) where
  /-- Thread `i` queues a task. -/
  | post (i : ι) (task : Task)
  /-- Any other step. -/
  | loop (a : Act)

def Act.isPost : Act → Bool
  | .post _ => true
  | _ => false

def Sourced.act : Sourced ι → Act
  | .post _ task => .post task
  | .loop a => a

def stepBy (s : Loop) : Sourced ι → Option Loop
  | .post _ task => step s (.post task)
  | .loop a => if a.isPost then none else step s a

/-- The task that a step asks for, and the thread that does; `none` is the loop's own. -/
def Sourced.asks : Sourced ι → Option (Option ι × Task)
  | .post i task => some (some i, task)
  | .loop (.call task) => some (none, task)
  | .loop _ => none

/-- The bytes that a task sends on connection `c`. -/
def sendOf (c : Nat) : Task → Option Bytes
  | .sendInLoop d b => if d = c then some b.unread else none
  | _ => none

/-- What thread `i` sends on connection `c` by these tasks, payload by payload. -/
def payloads (c : Nat) (i : Option ι) (tasks : List (Option ι × Task)) : List Bytes :=
  tasks.filterMap fun e => if e.1 = i then sendOf c e.2 else none

/-- What thread `i` has passed to `Send` of connection `c`. -/
def issued (c : Nat) (i : Option ι) (run : List (Sourced ι)) : List Bytes :=
  payloads c i (run.filterMap Sourced.asks)

/-! ## What a step does to the queued tasks -/

inductive Moves (s s' : Loop) : Act → Prop where
  | runTask {task : Task} (hexec : s.executes .runTask = some task)
    (hp : s.pending = task :: s'.pending) :
      Moves s s' .runTask
  | post (task : Task) (hp : s'.pending = s.pending ++ [task]) : Moves s s' (.post task)
  | release {d : Nat} (hp : s'.pending = s.pending ++ [.releaseInloop d]) : Moves s s' .next
  | same {a : Act} (ha : a ≠ .runTask) (hpost : a.isPost = false)
    (hp : s'.pending = s.pending) : Moves s s' a

variable {s s' : Loop} {c d : Nat}

theorem Work.pending (h : Work d s s') : s'.pending = s.pending := pending_congr h.taskQueue h.phase

theorem pending_runTask {task : Task} (h : s.runTask task = some s') : s'.pending = s.pending := by
  obtain ⟨-, rfl⟩ | ⟨d, conn, -, -, rfl⟩ | ⟨d, -, -, hwork⟩ := runTask_cases h
  · rfl
  · exact pending_congr (closing_releaseInloop s d conn).taskQueue
      (closing_releaseInloop s d conn).phase
  · exact hwork.pending

theorem moves_step {a : Act} (h : step s a = some s') : Moves s s' a := by
  cases a with
  | pollReturn ready =>
    obtain ⟨hp, -, polled, active, hpoll, rfl⟩ := step_pollReturn h
    obtain ⟨conns, rfl, -⟩ := poll_eq hpoll
    exact .same (by simp) rfl (by simp [pending, hp])
  | handle =>
    obtain ⟨d, active, conn, hp, -, -, rfl⟩ := step_handle h
    exact .same (by simp) rfl (by simp [pending, hp])
  | timer =>
    obtain ⟨active, -, -, rfl⟩ := step_timer h
    exact .same (by simp) rfl rfl
  | other =>
    obtain ⟨active, -, -, rfl⟩ := step_other h
    exact .same (by simp) rfl rfl
  | swap =>
    obtain ⟨hp, -, rfl⟩ := step_swap h
    exact .same (by simp) rfl (by simp [pending, hp])
  | runTask =>
    obtain ⟨task, batch, hp, -, hrun⟩ := step_runTask h
    have hexec : s.executes .runTask = some task := by simp only [executes, hp]
    refine .runTask hexec ?_
    rw [pending_runTask hrun]
    simp [pending, hp]
  | batchDone =>
    obtain ⟨hp, -, rfl⟩ := step_batchDone h
    exact .same (by simp) rfl (by simp [pending, hp])
  | next =>
    obtain ⟨f, stack, -, hrun⟩ := step_next h
    obtain ⟨d, rfl, rfl⟩ | ⟨d, conn, -, -, rfl⟩ | ⟨d, -, -, -, hwork⟩ := runFrame_cases hrun
    · refine .release (d := d) ?_
      simp only [pending, queueInLoop]
      cases s.phase <;> simp
    · obtain ⟨calls, frames, he, -⟩ := invoke_spec { s with stack := stack } d conn .serverClosed
      exact .same (by simp) rfl (by rw [he]; rfl)
    · exact .same (by simp) rfl hwork.pending
  | recv r bytes =>
    obtain ⟨d, stack, conn, -, hd, -, hrun⟩ := step_recv h
    exact .same (by simp) rfl (work_handerRead (s := { s with stack := stack }) hd hrun).pending
  | send r =>
    obtain ⟨d, stack, conn, -, hd, hrun⟩ := step_send h
    exact .same (by simp) rfl (work_handerWrite (s := { s with stack := stack }) hd hrun).pending
  | call task =>
    obtain ⟨-, -, hrun⟩ := step_call h
    exact .same (by simp) rfl (pending_runTask hrun)
  | release d =>
    obtain ⟨-, -, rfl⟩ := step_release h
    exact .same (by simp) rfl rfl
  | changeProtocal d connectCb closeCb msgCb =>
    obtain ⟨-, conn, -, rfl⟩ := step_changeProtocal h
    exact .same (by simp) rfl rfl
  | consume d len =>
    obtain ⟨-, conn, inbuffer, -, -, rfl⟩ := step_consume h
    exact .same (by simp) rfl rfl
  | ret =>
    obtain ⟨stack, -, rfl⟩ := step_ret h
    exact .same (by simp) rfl rfl
  | newConnection d fd callbacks =>
    obtain ⟨-, -, rfl⟩ := step_newConnection h
    exact .same (by simp) rfl rfl
  | post task =>
    cases h
    refine .post task ?_
    simp only [pending, queueInLoop]
    cases s.phase <;> simp

/-! ## What is sent -/

def Event.payload : Event → Bytes
  | .send payload => payload
  | _ => []

theorem payload_taskEvent (c : Nat) (task : Task) :
    (taskEvent c task).payload = (sendOf c task).getD [] := by
  cases task with
  | sendInLoop d b => by_cases hd : d = c <;> simp [taskEvent, sendOf, Event.payload, hd]
  | shutDownInLoop d => by_cases hd : d = c <;> simp [taskEvent, sendOf, Event.payload, hd]
  | establishedInLoop d => by_cases hd : d = c <;> simp [taskEvent, sendOf, Event.payload, hd]
  | releaseInloop d => by_cases hd : d = c <;> simp [taskEvent, sendOf, Event.payload, hd]
  | enableTimeoutDelInLoop d sec => rfl
  | disableTimeoutDelInLoop d => rfl
  | user => rfl

theorem payload_frameEvent (c : Nat) (f : Frame) : (frameEvent c f).payload = [] := by
  cases f <;> simp only [frameEvent] <;> (try split) <;> rfl

/-- Only a task sends. -/
theorem payload_event (s : Loop) (c : Nat) (a : Act) :
    (s.event c a).payload = ((s.executes a).bind (sendOf c)).getD [] := by
  have htask : ∀ task : Option Task, (task.elim .quiet (taskEvent c)).payload =
      (task.bind (sendOf c)).getD [] := by
    intro task
    cases task with
    | none => rfl
    | some task => exact payload_taskEvent c task
  cases a with
  | runTask => exact htask (s.executes .runTask)
  | call task => exact htask (some task)
  | next =>
    show (s.stack.head?.elim Event.quiet (frameEvent c)).payload = []
    cases s.stack.head? with
    | none => rfl
    | some f => exact payload_frameEvent c f
  | handle =>
    simp only [event, executes, Option.bind_none, Option.getD_none]
    split
    · split <;> rfl
    · rfl
  | recv r bytes =>
    simp only [event, executes, Option.bind_none, Option.getD_none]
    split
    · split <;> rfl
    · rfl
  | send r =>
    simp only [event, executes, Option.bind_none, Option.getD_none]
    split <;> rfl
  | release d =>
    simp only [event, executes, Option.bind_none, Option.getD_none]
    split <;> rfl
  | consume d len =>
    simp only [event, executes, Option.bind_none, Option.getD_none]
    split <;> rfl
  | post task =>
    simp only [event, executes, Option.bind_none, Option.getD_none]
    split <;> rfl
  | _ => rfl

theorem accepted_note (g : Traffic) (v : View) (e : Event) :
    (g.note v e).accepted = g.accepted ++ if v.status = .disconnected then [] else e.payload := by
  cases e with
  | send payload =>
    simp only [Traffic.note, Event.payload]
    split
    · exact (List.append_nil _).symm
    · rfl
  | _ => simp [Traffic.note, Event.payload]

/-! ## The tasks executed -/

/-- A task that the loop's thread has executed, and whether the connection watched was up then. -/
structure Executed where
  task : Task
  up : Bool

/-- The tasks that a run executes, one after the other. -/
def executed (c : Nat) : List Act → List Executed :=
  recorded step (fun done s a => done ++ (s.executes a).toList.map fun task =>
    ⟨task, decide ((s.view c).status ≠ .disconnected)⟩) [] start

/-- The bytes that the task adds to the output buffer of connection `c`; a disconnected
one takes none. -/
def Executed.payload (c : Nat) (e : Executed) : Option Bytes :=
  if e.up then sendOf c e.task else none

variable {acts : List Act}

theorem executed_concat {a : Act} (hs : exec step start acts = some s) (h : step s a = some s') :
    executed c (acts ++ [a]) = executed c acts ++ (s.executes a).toList.map fun task =>
      ⟨task, decide ((s.view c).status ≠ .disconnected)⟩ :=
  recorded_concat hs h

/-- What the output buffer has taken is what the tasks have added to it, payload by payload. -/
theorem accepted_executed (c : Nat) (h : exec step start acts = some s) :
    (traffic c acts).accepted = ((executed c acts).filterMap (Executed.payload c)).flatten := by
  refine exec_history (fun acts _ => (traffic c acts).accepted =
    ((executed c acts).filterMap (Executed.payload c)).flatten) rfl
      (fun acts s a s' hs h hstep => ?_) h
  have htraffic : traffic c (acts ++ [a]) = (traffic c acts).note (s.view c) (s.event c a) :=
    recorded_concat hs hstep
  rw [htraffic, accepted_note, executed_concat hs hstep, payload_event, h, List.filterMap_append,
    List.flatten_append]
  congr 1
  cases s.executes a with
  | none => simp
  | some task =>
    by_cases hup : (s.view c).status = .disconnected
    · simp [hup, Executed.payload]
    · cases hsend : sendOf c task <;> simp [hup, hsend, Executed.payload]

/-! ## The order -/

omit [DecidableEq ι] in
theorem act_step {l : Sourced ι} (h : stepBy s l = some s') : step s l.act = some s' := by
  cases l with
  | post i task => exact h
  | loop a =>
    simp only [stepBy] at h
    split at h
    · cases h
    · exact h

theorem payloads_concat (c : Nat) (i j : Option ι) (tasks : List (Option ι × Task)) (task : Task) :
    payloads c i (tasks ++ [(j, task)]) = payloads c i tasks ++ payloads c i [(j, task)] :=
  List.filterMap_append ..

theorem issued_concat (c : Nat) (i : Option ι) (run : List (Sourced ι)) (l : Sourced ι) :
    issued c i (run ++ [l]) = issued c i run ++ payloads c i l.asks.toList := by
  have hone : [l].filterMap Sourced.asks = l.asks.toList := by cases h : l.asks <;> simp [h]
  rw [issued, List.filterMap_append, hone]
  exact List.filterMap_append ..

/-- The tasks executed and those still queued, with the threads they come from. -/
structure Ordered (c : Nat) (run : List (Sourced ι)) (executed pending : List Task)
    (done waiting : List (Option ι × Task)) : Prop where
  order : ∀ i, payloads c i done ++ payloads c i waiting = issued c i run
  executed : done.map Prod.snd = executed
  pending : waiting.map Prod.snd = pending
  own : ∀ task, (none, task) ∈ waiting → sendOf c task = none

variable {run : List (Sourced ι)} {before queued : List Task}
    {done waiting : List (Option ι × Task)}

/-- A step that executes nothing and queues nothing. -/
theorem Ordered.same (h : Ordered c run before queued done waiting) {l : Sourced ι}
    (hl : l.asks = none) :
    Ordered c (run ++ [l]) before queued done waiting := by
  refine ⟨fun i => ?_, h.executed, h.pending, h.own⟩
  rw [issued_concat, hl]
  exact (h.order i).trans (List.append_nil _).symm

/-- A task is queued. -/
theorem Ordered.queue (h : Ordered c run before queued done waiting) {l : Sourced ι}
    {i : Option ι} {task : Task}
    (hl : l.asks.toList = [(i, task)] ∨ l.asks = none ∧ sendOf c task = none)
    (hown : i = none → sendOf c task = none) :
    Ordered c (run ++ [l]) before (queued ++ [task]) done (waiting ++ [(i, task)]) := by
  refine ⟨fun j => ?_, h.executed, ?_, fun u hu => ?_⟩
  · rw [payloads_concat, ← List.append_assoc, h.order j, issued_concat]
    congr 1
    rcases hl with hl | ⟨hl, hnone⟩
    · rw [hl]
    · rw [hl]
      simp [payloads, hnone]
  · rw [List.map_append, h.pending]
    rfl
  · rcases List.mem_append.mp hu with hu | hu
    · exact h.own u hu
    · cases List.mem_singleton.mp hu
      exact hown rfl

/-- A task is executed, from the queue or at once. -/
theorem Ordered.execute (h : Ordered c run before queued done waiting)
    {rest : List (Option ι × Task)} {l : Sourced ι} {i : Option ι} {task : Task}
    (horder : ∀ j, payloads c j [(i, task)] ++ payloads c j rest = payloads c j waiting ++
      payloads c j l.asks.toList) (hown : ∀ task, (none, task) ∈ rest → sendOf c task = none) :
    Ordered c (run ++ [l]) (before ++ [task]) (rest.map Prod.snd) (done ++ [(i, task)]) rest := by
  refine ⟨fun j => ?_, ?_, rfl, hown⟩
  · rw [payloads_concat, List.append_assoc, horder, ← List.append_assoc, h.order j, issued_concat]
  · rw [List.map_append, h.executed]
    rfl

theorem payloads_none (h : ∀ task, (none, task) ∈ waiting → sendOf c task = none) :
    payloads c none waiting = [] := by
  rw [payloads, List.filterMap_eq_nil_iff]
  rintro ⟨i, task⟩ hmem
  split
  · rename_i hi
    subst hi
    exact h task hmem
  · rfl

theorem ordered_step (h : Ordered c run before s.pending done waiting) {l : Sourced ι}
    (hstep : stepBy s l = some s') :
    ∃ done' waiting', Ordered c (run ++ [l])
    (before ++ (s.executes l.act).toList) s'.pending done' waiting' := by
  have hquiet : s.executes l.act = none → before ++ (s.executes l.act).toList = before := by
    intro hexec
    rw [hexec]
    exact List.append_nil before
  cases l with
  | post i task =>
    rw [hquiet rfl]
    cases moves_step (show step s (.post task) = some s' from hstep) with
    | post _ hp =>
      rw [hp]
      exact ⟨done, waiting ++ [(some i, task)], h.queue (.inl rfl) (by simp)⟩
    | same _ hpost => cases hpost
  | loop a =>
    have hpost : a.isPost = false := by
      by_contra hpost
      simp [stepBy, hpost] at hstep
    cases moves_step (act_step hstep) with
    | @runTask task hexec hp =>
      obtain ⟨⟨i, task⟩, rest, rfl, rfl, hrest⟩ := List.map_eq_cons_iff.mp (h.pending.trans hp)
      rw [← hrest, show s.executes (Sourced.loop (ι := ι) .runTask).act = some task from hexec]
      refine ⟨_, rest, h.execute (i := i) (fun j => ?_) fun u hu => h.own u (List.mem_cons_of_mem _ hu)⟩
      show payloads c j [(i, task)] ++ payloads c j rest = payloads c j ((i, task) :: rest) ++ []
      rw [List.append_nil]
      exact (List.filterMap_append ..).symm
    | post task hp => cases hpost
    | @release d hp =>
      rw [hquiet rfl, hp]
      exact ⟨done, waiting ++ [(none, .releaseInloop d)], h.queue (.inr ⟨rfl, rfl⟩) fun _ => rfl⟩
    | same ha _ hp =>
      rw [hp]
      cases a with
      | call task =>
        rw [← h.pending]
        refine ⟨done ++ [(none, task)], waiting, h.execute (fun j => ?_) h.own⟩
        cases j with
        | none =>
          rw [payloads_none h.own]
          exact List.append_nil _
        | some j => exact (List.append_nil _).symm
      | runTask => exact absurd rfl ha
      | _ =>
        rw [hquiet rfl]
        exact ⟨done, waiting, h.same rfl⟩

/-- What holds of a run and of the state it leads to. -/
def InOrder (c : Nat) (run : List (Sourced ι)) (s : Loop) : Prop :=
  exec step start (run.map Sourced.act) = some s ∧
    Conserved (s.view c) (traffic c (run.map Sourced.act)) ∧
    ∃ done waiting, Ordered c run
      ((executed c (run.map Sourced.act)).map Executed.task) s.pending done waiting

theorem inOrder_start (c : Nat) : InOrder c ([] : List (Sourced ι)) start :=
  ⟨rfl, rfl, [], [], fun _ => rfl, rfl, rfl, by simp⟩

theorem inOrder_concat {l : Sourced ι} (h : InOrder c run s) (hstep : stepBy s l = some s') :
    InOrder c (run ++ [l]) s' := by
  obtain ⟨hexec, hcons, done, waiting, hordered⟩ := h
  have hact : step s l.act = some s' := act_step hstep
  have hmap : (run ++ [l]).map Sourced.act = run.map Sourced.act ++ [l.act] := by simp
  have htraffic : traffic c (run.map Sourced.act ++ [l.act]) =
      (traffic c (run.map Sourced.act)).note (s.view c) (s.event c l.act) :=
        recorded_concat hexec hact
  have htasks : (executed c (run.map Sourced.act ++ [l.act])).map Executed.task =
      (executed c (run.map Sourced.act)).map Executed.task ++ (s.executes l.act).toList := by
    rw [executed_concat hexec hact, List.map_append]
    cases s.executes l.act <;> rfl
  obtain ⟨done', waiting', hordered'⟩ := ordered_step hordered hstep
  rw [InOrder, hmap, htraffic, htasks]
  refine ⟨?_, ?_, done', waiting', hordered'⟩
  · rw [exec_concat, hexec]
    exact hact
  · rw [view_step hact]
    exact conserved_step hcons _

/-- In every run, with any number of threads: of each thread's calls of `Send` the first ones have
been executed and the others are still queued, both in the order of the calls. What has left the
connection and what is in its output buffer are together the payloads that were executed while the
connection was up, whole and one behind the other. -/
theorem sends_in_order (c : Nat) (run : List (Sourced ι)) (s : Loop) (conn : Connection)
    (h : exec stepBy start run = some s) (hc : s.conns c = some conn) :
    (∃ done waiting : List (Option ι × Task),
      (∀ i, payloads c i done ++ payloads c i waiting = issued c i run) ∧
      done.map Prod.snd = (executed c (run.map Sourced.act)).map Executed.task ∧
      waiting.map Prod.snd = s.pending) ∧
    (traffic c (run.map Sourced.act)).sent ++ conn.outbuffer.unread =
      ((executed c (run.map Sourced.act)).filterMap (Executed.payload c)).flatten := by
  obtain ⟨hexec, hcons, done, waiting, hordered⟩ : InOrder c run s :=
    exec_history (InOrder c) (inOrder_start c) (fun _ _ _ _ _ h hstep => inOrder_concat h hstep) h
  refine ⟨⟨done, waiting, hordered.order, hordered.executed, hordered.pending⟩, ?_⟩
  rw [← accepted_executed c hexec, ← (view_conn hc).2.2.2]
  exact hcons

/-- Two threads queue sends; user code on the loop sends before the batch is taken. -/
def twoThreads : List (Sourced Nat) :=
  [.loop (.newConnection 1 7 fun _ => none), .post 0 (.sendInLoop 1 (Buffer.ofBytes (ascii "ab"))),
    .post 1 (.sendInLoop 1 (Buffer.ofBytes (ascii "c"))), .loop (.pollReturn []), .loop .other,
    .loop (.call (.sendInLoop 1 (Buffer.ofBytes (ascii "d")))), .loop .ret, .loop .swap,
      .loop .runTask, .loop .runTask,
    .post 0 (.sendInLoop 1 (Buffer.ofBytes (ascii "e")))]

example : ((exec stepBy start twoThreads).map fun s => (s.view 1).output) =
    some (ascii "dabc") := by decide +kernel

theorem sends_in_order_twoThreads : ∃ s conn, exec stepBy start twoThreads = some s ∧
    s.conns 1 = some conn ∧
    (∃ done waiting : List (Option Nat × Task),
      (∀ i, payloads 1 i done ++ payloads 1 i waiting = issued 1 i twoThreads) ∧
      done.map Prod.snd = (executed 1 (twoThreads.map Sourced.act)).map Executed.task ∧
      waiting.map Prod.snd = s.pending) ∧
    (traffic 1 (twoThreads.map Sourced.act)).sent ++ conn.outbuffer.unread =
      ((executed 1 (twoThreads.map Sourced.act)).filterMap (Executed.payload 1)).flatten := by
  have hrun : ((exec stepBy start twoThreads).bind fun s => s.conns 1).isSome := by decide +kernel
  obtain ⟨conn, hconn⟩ := Option.isSome_iff_exists.mp hrun
  obtain ⟨s, hs, hc⟩ := Option.bind_eq_some_iff.mp hconn
  exact ⟨s, conn, hs, hc, sends_in_order 1 twoThreads s conn hs hc⟩

end Loop
end MuduoServer
