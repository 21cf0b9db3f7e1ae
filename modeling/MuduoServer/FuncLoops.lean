import MuduoServer.ConnOwners

/-!
# Functors and the loops

The functors of the model with owners are those of the server's loops, task for task. A connection's
functors are only in the queue of its own loop, those that `NewConnection` adds come before the
connection is entered, and while `ReleaseInloop` is in the middle its functor is still there.
-/
namespace MuduoServer

open BatchQueue Transition TcpSever

namespace ConnOwners

variable {s s' : ConnOwners} {i j : Nat}

/-! ## One loop -/

/-- The tasks of the server that a functor may stand for. -/
def Func.tasks : Func → List Task
  | .bound .enableTimeoutDelInLoop x => [.other, .enableTimeoutDelInLoop x]
  | .bound .establishedInLoop x => [.other, .establishedInLoop x]
  | .bound _ _ => [.other]
  | .releaseInloop x => [.releaseInloop x]
  | .removeConnectionInLoop x => [.removeConnectionInLoop x]
  | .runAfterInLoop => [.runAfterInLoop]

theorem Func.other_mem_tasks (m : Method) (x : Nat) : Task.other ∈ (Func.bound m x).tasks := by
  cases m <;> exact List.mem_cons_self

theorem Func.eq_of_release {f : Func} {x : Nat} (h : .releaseInloop x ∈ f.tasks) :
    f = .releaseInloop x := by
  cases f with
  | bound m y => cases m <;> simp [Func.tasks] at h
  | releaseInloop y => simpa [Func.tasks, eq_comm] using h
  | removeConnectionInLoop y => simp [Func.tasks] at h
  | runAfterInLoop => simp [Func.tasks] at h

/-- A functor of a connection goes to the connection's loop, one of the server to the base loop. -/
def Func.IsFor (objects : List ConnObject) (i : Nat) : Func → Prop
  | .bound _ x | .releaseInloop x => ∃ conn, objects[x]? = some conn ∧ conn.loop = i
  | .removeConnectionInLoop _ | .runAfterInLoop => i = 0

theorem Func.IsFor.mono {objects : List ConnObject} {f : Func} (h : f.IsFor objects i)
    (more : List ConnObject) :
    f.IsFor (objects ++ more) i := by
  have hold : ∀ {x : Nat}, (∃ conn, objects[x]? = some conn ∧ conn.loop = i) →
      ∃ conn, (objects ++ more)[x]? = some conn ∧ conn.loop = i := by
    rintro x ⟨conn, hconn, hloop⟩
    exact ⟨conn, by rw [List.getElem?_append_left (List.getElem?_eq_some_iff.mp hconn).1, hconn], hloop⟩
  cases f with
  | bound m x => exact hold h
  | releaseInloop x => exact hold h
  | removeConnectionInLoop x => exact h
  | runAfterInLoop => exact h

/-- The connection that a frame of `NewConnection` before the last is about. -/
def announces : Frame → Option Nat
  | .enableTimeoutDel x | .established x => some x
  | _ => none

/-- `NewConnection` enters the connection last. -/
def InsertsLast : List Frame → Prop
  | [] => True
  | frame :: stack => (∀ x ∈ announces frame, .insert x ∈ stack) ∧ InsertsLast stack

theorem InsertsLast.append {frames stack : List Frame} (hframes : InsertsLast frames)
    (h : InsertsLast stack) :
    InsertsLast (frames ++ stack) := by
  induction frames with
  | nil => exact h
  | cons frame frames ih =>
    exact ⟨fun x hx => List.mem_append_left _ (hframes.1 x hx), ih hframes.2⟩

/-- A loop and the functors in it. -/
structure LoopInv (objects : List ConnObject) (i : Nat) (b : Batches Func) (l : EventLoop) :
    Prop where
  queue : List.Forall₂ (fun f task => task ∈ f.tasks) b.queue l.taskQueue
  batch : List.Forall₂ (fun f task => task ∈ f.tasks) b.batch l.phase.batch
  /-- The functor of a `ReleaseInloop` that has been entered is still there. -/
  closes : ∀ x, .serverClosed x ∈ l.stack → .releaseInloop x ∈ b.ran
  place : ∀ f ∈ b.running ++ b.queue, f.IsFor objects i
  inserts : InsertsLast l.stack

variable {objects : List ConnObject} {b : Batches Func} {l : EventLoop}

theorem LoopInv.mono (h : LoopInv objects i b l) (more : List ConnObject) :
    LoopInv (objects ++ more) i b l where
  queue := h.queue
  batch := h.batch
  closes := h.closes
  place f hf := (h.place f hf).mono more
  inserts := h.inserts

/-- Frames are pushed. -/
theorem LoopInv.push (h : LoopInv objects i b l) {frames : List Frame}
    (hclosed : ∀ x, .serverClosed x ∉ frames) (hinserts : InsertsLast frames) :
    LoopInv objects i b { l with stack := frames ++ l.stack } :=
  ⟨h.queue, h.batch, fun x hx => h.closes x ((List.mem_append.mp hx).resolve_left (hclosed x)),
    h.place,
    hinserts.append h.inserts⟩

theorem LoopInv.pop (h : LoopInv objects i b l) {frame : Frame} {stack : List Frame}
    (hstack : l.stack = frame :: stack) :
    LoopInv objects i b { l with stack := stack } := by
  have hinserts := h.inserts
  rw [hstack] at hinserts
  exact ⟨h.queue, h.batch, fun x hx => h.closes x (hstack ▸ List.mem_cons_of_mem frame hx),
    h.place, hinserts.2⟩

/-- The phase changes while no task is at stake. -/
theorem LoopInv.turn (h : LoopInv objects i b l) {phase : Phase}
    (hphase : phase.batch = l.phase.batch) :
    LoopInv objects i b { l with phase := phase } :=
  ⟨h.queue, by rw [hphase]; exact h.batch, h.closes, h.place, h.inserts⟩

theorem LoopInv.add (h : LoopInv objects i b l) {f : Func} {task : Task} (htask : task ∈ f.tasks)
    (hplace : f.IsFor objects i) :
    LoopInv objects i (b.add f) { l with taskQueue := l.taskQueue ++ [task] } where
  queue := List.rel_append h.queue (.cons htask .nil)
  batch := h.batch
  closes := h.closes
  place g hg := by
    have hmem : g ∈ b.running ++ b.queue ∨ g = f := by
      rcases List.mem_append.mp hg with hg | hg
      · exact .inl (List.mem_append_left _ hg)
      · exact (List.mem_append.mp hg).imp (List.mem_append_right _) List.mem_singleton.mp
    rcases hmem with hg | rfl
    · exact h.place g hg
    · exact hplace
  inserts := h.inserts

theorem LoopInv.swap (h : LoopInv objects i b l) (hstack : l.stack = []) :
    LoopInv objects i b.swap { l with taskQueue := [], phase := .run l.taskQueue } where
  queue := .nil
  batch := h.queue
  closes x hx := absurd (hstack ▸ hx) List.not_mem_nil
  place f hf :=
    h.place f (List.mem_append_right _ (by simpa [Batches.swap, Batches.running] using hf))
  inserts := h.inserts

theorem LoopInv.finish (h : LoopInv objects i b l) (hstack : l.stack = []) :
    LoopInv objects i b.finish { l with phase := .poll } where
  queue := h.queue
  batch := .nil
  closes x hx := absurd (hstack ▸ hx) List.not_mem_nil
  place f hf :=
    h.place f (List.mem_append_right _ (by simpa [Batches.finish, Batches.running] using hf))
  inserts := h.inserts

/-- A functor is run, which leaves `frames` to do. -/
theorem LoopInv.take (h : LoopInv objects i b l) {task : Task} {batch : List Task}
    (hphase : l.phase = .run (task :: batch)) (hstack : l.stack = []) {frames : List Frame}
    (hclosed : ∀ x, .serverClosed x ∈ frames → task = .releaseInloop x)
    (hinserts : InsertsLast frames) :
    LoopInv objects i b.take { l with phase := .run batch, stack := frames ++ l.stack } := by
  have hbatch := h.batch
  rw [hphase] at hbatch
  obtain ⟨f, rest, htask, hrest, hb⟩ : ∃ f rest, task ∈ f.tasks ∧
      List.Forall₂ (fun f task => task ∈ f.tasks) rest batch ∧ b.batch = f :: rest :=
        List.forall₂_cons_right_iff.mp hbatch
  refine ⟨by rw [b.queue_take]; exact h.queue, ?_, fun x hx => ?_, ?_, ?_⟩
  · rw [Batches.take_cons hb]
    exact hrest
  · rw [hstack, List.append_nil] at hx
    have hrelease := hclosed x hx
    rw [hrelease] at htask
    rw [Batches.take_cons hb, Func.eq_of_release htask]
    exact List.mem_append_right _ (List.mem_singleton.mpr rfl)
  · rw [b.running_take, b.queue_take]
    exact h.place
  · rw [hstack, List.append_nil]
    exact hinserts

/-! ## All loops -/

/-- The functors are those of the loops of the server. -/
def Matched (t : TcpSever) (funcs : Nat → Batches Func) : Prop :=
  ∀ i, LoopInv t.objects i (funcs i) (t.loops i)

variable {t t' : TcpSever} {funcs funcs' : Nat → Batches Func}

/-- One loop changes. -/
theorem Matched.update (h : Matched t funcs) (hobjects : t'.objects = t.objects) (i : Nat)
    (hi : LoopInv t.objects i (funcs' i) (t'.loops i))
    (hne : ∀ j, j ≠ i → funcs' j = funcs j ∧ t'.loops j = t.loops j) :
    Matched t' funcs' := by
  intro j
  rw [hobjects]
  by_cases hj : j = i
  · subst hj
    exact hi
  · rw [(hne j hj).1, (hne j hj).2]
    exact h j

/-- Nothing changes that the loops depend on. -/
theorem Matched.same (h : Matched t funcs) (hobjects : t'.objects = t.objects)
    (hloops : t'.loops = t.loops) :
    Matched t' funcs := by
  intro i
  rw [hobjects, hloops]
  exact h i

theorem Matched.setLoop (h : Matched t funcs) {i : Nat} {l : EventLoop}
    (hi : LoopInv t.objects i (funcs i) l) :
    Matched (t.setLoop i l) funcs :=
  h.update rfl i (by rw [loops_setLoop]; exact hi) fun _ hj => ⟨rfl, loops_setLoop_of_ne t hj l⟩

/-- A loop takes its queue, runs a functor or destroys the batch. -/
theorem Matched.exchange (h : Matched t funcs) {i : Nat} {b : Batches Func} {l : EventLoop}
    (hi : LoopInv t.objects i b l) :
    Matched (t.setLoop i l) (Function.update funcs i b) :=
  h.update rfl i (by rw [loops_setLoop, Function.update_self]; exact hi)
    fun _ hj => ⟨Function.update_of_ne hj _ _, loops_setLoop_of_ne t hj l⟩

theorem Matched.push (h : Matched t funcs) {frames : List Frame}
    (hclosed : ∀ x, .serverClosed x ∉ frames) (hinserts : InsertsLast frames) :
    Matched (t.push i frames) funcs := h.setLoop ((h i).push hclosed hinserts)

theorem Matched.pushCode (h : Matched t funcs) : Matched (t.push i [.code]) funcs :=
  h.push (by simp) ⟨fun _ hx => absurd hx (by simp [announces]), trivial⟩

theorem Matched.pop (h : Matched t funcs) {frame : Frame} {stack : List Frame}
    (hstack : (t.loops i).stack = frame :: stack) :
    Matched (t.setLoop i { t.loops i with stack := stack }) funcs := h.setLoop ((h i).pop hstack)

theorem Matched.queueInLoop (h : Matched t funcs) {f : Func} {task : Task} (htask : task ∈ f.tasks)
    (hplace : f.IsFor t.objects i) : Matched (t.queueInLoop i task) (enqueue funcs (some (i, f))) :=
  h.exchange ((h i).add htask hplace)

/-- A function of a connection that is called on some thread. -/
theorem Matched.runInLoop (h : Matched t funcs) {thread : Option Nat} {m : Method} {x : Nat}
    {task : Task} {conn : ConnObject} (hobj : t.objects[x]? = some conn)
    (htask : task ∈ (Func.bound m x).tasks) (hstep : t.runInLoop thread conn.loop task = some t') :
    Matched t' (enqueue funcs (ConnOwners.runInLoop t thread m x)) := by
  unfold TcpSever.runInLoop at hstep
  unfold ConnOwners.runInLoop
  rw [hobj, Option.bind_eq_bind, Option.bind_some]
  split at hstep
  · rename_i hthread
    rw [if_pos hthread]
    have hshape : task = .other ∨ task = .enableTimeoutDelInLoop x ∨
        task = .establishedInLoop x := by
      cases m <;> simp [Func.tasks] at htask <;> tauto
    rcases hshape with rfl | rfl | rfl
    · cases hstep
      exact h.pushCode
    · cases hstep
      exact h
    · cases hstep
      exact h.pushCode
  · rename_i hthread
    rw [if_neg hthread]
    cases hstep
    exact h.queueInLoop htask ⟨conn, hobj, rfl⟩

theorem matched_removeConnectionInLoop (h : Matched t funcs) {x : Nat}
    (hstep : t.removeConnectionInLoop x = some t') :
    Matched t' funcs := by
  obtain ⟨conn, -, he⟩ := Option.bind_eq_some_iff.mp hstep
  cases he
  exact h.same rfl rfl

theorem Matched.runTask (h : Matched t funcs) {task : Task} {batch : List Task}
    (hphase : (t.loops i).phase = .run (task :: batch)) (hstack : (t.loops i).stack = [])
    (hstep : (t.setLoop i { t.loops i with phase := .run batch }).runTask i task = some t') :
    Matched t' (Function.update funcs i (funcs i).take) := by
  have hpush : ∀ frames, (∀ x, .serverClosed x ∈ frames → task = .releaseInloop x) →
      InsertsLast frames →
      Matched ((t.setLoop i { t.loops i with phase := .run batch }).push i frames)
        (Function.update funcs i (funcs i).take) := by
    intro frames hclosed hinserts
    refine h.update rfl i ?_ fun j hj => ⟨Function.update_of_ne hj _ _, ?_⟩
    · rw [TcpSever.push, loops_setLoop, loops_setLoop, Function.update_self]
      exact (h i).take hphase hstack hclosed hinserts
    · rw [TcpSever.push, loops_setLoop_of_ne _ hj, loops_setLoop_of_ne _ hj]
  have hidle : Matched (t.setLoop i { t.loops i with phase := .run batch })
      (Function.update funcs i (funcs i).take) :=
    h.exchange ((h i).take hphase hstack (fun _ hx => absurd hx List.not_mem_nil) trivial)
  have hcode : InsertsLast [.code] := ⟨fun _ hx => absurd hx (by simp [announces]), trivial⟩
  cases task with
  | enableTimeoutDelInLoop x =>
    cases hstep
    exact hidle
  | establishedInLoop x =>
    cases hstep
    exact hpush _ (by simp) hcode
  | releaseInloop x =>
    cases hstep
    exact hpush _ (by simp [eq_comm]) (by simp [InsertsLast, announces])
  | removeConnectionInLoop x => exact matched_removeConnectionInLoop hidle hstep
  | runAfterInLoop =>
    cases hstep
    exact hidle.same rfl rfl
  | other =>
    cases hstep
    exact hpush _ (by simp) hcode

theorem Matched.runFrame (h : Matched t funcs) {frame : Frame} {stack : List Frame}
    (hstack : (t.loops i).stack = frame :: stack)
    (hstep : (t.setLoop i { t.loops i with stack := stack }).runFrame i frame = some t') :
    Matched t' (enqueue funcs (frameQueues t i frame)) := by
  have hpop := h.pop hstack
  cases frame with
  | enableTimeoutDel x =>
    obtain ⟨conn, hobj, hstep⟩ := Option.bind_eq_some_iff.mp hstep
    split at hstep
    · rename_i hable
      have hqueued : frameQueues t i (.enableTimeoutDel x) =
          ConnOwners.runInLoop t (some i) .enableTimeoutDelInLoop x :=
        if_pos hable
      rw [hqueued]
      exact hpop.runInLoop hobj (by simp [Func.tasks]) hstep
    · rename_i hable
      have hqueued : frameQueues t i (.enableTimeoutDel x) = none := if_neg hable
      rw [hqueued]
      cases hstep
      exact hpop
  | established x =>
    obtain ⟨conn, hobj, hstep⟩ := Option.bind_eq_some_iff.mp hstep
    exact hpop.runInLoop hobj (by simp [Func.tasks]) hstep
  | insert x =>
    cases hstep
    obtain ⟨hobjects, -, -, -, hloops, -⟩ :=
      insertConn_spec (t.setLoop i { t.loops i with stack := stack }) x
    exact hpop.same hobjects hloops
  | serverClosed x =>
    have hclosed : Matched { t.setLoop i
        { t.loops i with stack := stack } with released := t.released ++ [x] } funcs :=
      hpop.same rfl rfl
    simp only [frameQueues]
    simp only [TcpSever.runFrame, removeConnection, TcpSever.runInLoop, Option.some.injEq] at hstep
    split at hstep
    · rename_i hi
      rw [if_pos hi]
      exact matched_removeConnectionInLoop hclosed hstep
    · rename_i hi
      rw [if_neg hi]
      cases hstep
      exact hclosed.queueInLoop (List.mem_singleton.mpr rfl) rfl
  | code => cases hstep

/-- A step of the server. -/
theorem Matched.sever (h : Matched t funcs) {a : TcpSever.Act}
    (hcall : ∀ thread x, a ≠ .call thread x) (hstep : t.step a = some t') :
    Matched t' (enqueue (serve funcs a) (queues t a)) := by
  cases a with
  | pollReturn i =>
    obtain ⟨hcond, hstep⟩ := Option.ite_none_right_eq_some.mp hstep
    cases hstep
    exact h.setLoop ((h i).turn (by rw [hcond.2.1]; rfl))
  | handle i =>
    obtain ⟨-, hstep⟩ := Option.ite_none_right_eq_some.mp hstep
    cases hstep
    exact h.pushCode
  | accept =>
    obtain ⟨-, hstep⟩ := Option.ite_none_right_eq_some.mp hstep
    cases hstep
    obtain ⟨loop, hobjects, -, -, -, -, hbase, hloops⟩ := t.newConnection_spec
    intro j
    rw [hobjects]
    by_cases hj : j = 0
    · subst hj
      rw [hbase]
      exact ((h 0).mono _).push (by simp) (by simp [InsertsLast, announces])
    · rw [hloops j hj]
      exact (h j).mono _
  | swap i =>
    obtain ⟨hcond, hstep⟩ := Option.ite_none_right_eq_some.mp hstep
    cases hstep
    exact h.exchange ((h i).swap hcond.2)
  | runTask i =>
    simp only [TcpSever.step] at hstep
    split at hstep
    · rename_i task batch hphase
      obtain ⟨hstack, hstep⟩ := Option.ite_none_right_eq_some.mp hstep
      exact h.runTask hphase hstack hstep
    · cases hstep
  | batchDone i =>
    obtain ⟨hcond, hstep⟩ := Option.ite_none_right_eq_some.mp hstep
    cases hstep
    exact h.exchange ((h i).finish hcond.2)
  | next i =>
    simp only [TcpSever.step] at hstep
    split at hstep
    · rename_i frame stack hstack
      rw [queues, hstack]
      exact h.runFrame hstack hstep
    · cases hstep
  | release thread x =>
    obtain ⟨-, hstep⟩ := Option.ite_none_right_eq_some.mp hstep
    obtain ⟨conn, hobj, hstep⟩ := Option.bind_eq_some_iff.mp hstep
    cases hstep
    rw [queues, hobj]
    exact h.queueInLoop (f := .releaseInloop x) (List.mem_singleton.mpr rfl) ⟨conn, hobj, rfl⟩
  | call thread x => exact absurd rfl (hcall thread x)
  | runAfter thread =>
    obtain ⟨-, hstep⟩ := Option.ite_none_right_eq_some.mp hstep
    rw [queues]
    unfold TcpSever.runInLoop at hstep
    split at hstep
    · rename_i hthread
      cases hstep
      rw [if_pos hthread]
      exact h.same rfl rfl
    · rename_i hthread
      cases hstep
      rw [if_neg hthread]
      exact h.queueInLoop (f := .runAfterInLoop) (List.mem_singleton.mpr rfl) rfl
  | ret i =>
    simp only [TcpSever.step] at hstep
    split at hstep
    · rename_i stack hstack
      cases hstep
      exact h.pop hstack
    · cases hstep

end ConnOwners
end MuduoServer
