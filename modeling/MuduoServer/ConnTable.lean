import MuduoServer.Registry
import MuduoServer.TcpSever
import MuduoServer.Transition

/-!
# The connection table

`_conns` is a register of the connections: `NewConnection` creates and enters them, `ReleaseInloop`
gives them up, and the functors of `RemoveConnection` in the base loop are the removals that are
asked for. The ids are its keys, so it agrees with the connections as long as every connection is
entered under its own id.
-/
namespace MuduoServer

open StdString Transition Registry

namespace TcpSever

def Task.conn : Task → Option Nat
  | .enableTimeoutDelInLoop x | .establishedInLoop x | .releaseInloop x | .removeConnectionInLoop x => some x
  | .runAfterInLoop | .other => none

def Task.removes : Task → Option Nat
  | .removeConnectionInLoop x => some x
  | _ => none

/-- The functors that only the base loop is given. -/
def Task.forBase : Task → Bool
  | .removeConnectionInLoop _ | .runAfterInLoop => true
  | _ => false

theorem Task.removes_of_forBase {task : Task} (h : task.forBase = false) : task.removes = none := by
  cases task <;> first | rfl | cases h

def Frame.conn : Frame → Option Nat
  | .enableTimeoutDel x | .established x | .insert x | .serverClosed x => some x
  | .code => none

def Frame.inserts : Frame → Option Nat
  | .insert x => some x
  | _ => none

/-- The connections that `NewConnection` has still to enter. -/
def entering (s : TcpSever) : List Nat := (s.loops 0).stack.filterMap Frame.inserts

/-- The connections that queued functors of `RemoveConnection` take out. -/
def removals (s : TcpSever) : List Nat := (s.loops 0).waiting.filterMap Task.removes

def registry (s : TcpSever) : Register Nat where
  created := {x | x < s.objects.length}
  entering := s.entering
  listed := {x | ∃ key, s.conns key = some x}
  released := {x | x ∈ s.released}
  removals := s.removals

/-! ## What holds in every loop -/

/-- A loop `i` in a server with `n` connections. -/
structure LoopOk (n i : Nat) (l : EventLoop) : Prop where
  tasks : ∀ task ∈ l.waiting, ∀ x ∈ task.conn, x < n
  forBase : i ≠ 0 → ∀ task ∈ l.waiting, task.forBase = false
  frames : ∀ frame ∈ l.stack, ∀ x ∈ frame.conn, x < n
  /-- `ReleaseInloop` is never called from anything but `RunAlltask`. -/
  serverClosed : ∀ x, .serverClosed x ∈ l.stack → ∃ batch, l.phase = .run batch
  /-- `NewConnection` runs on the base loop, before `RunAlltask`. -/
  inserts : ∀ x, .insert x ∈ l.stack → i = 0 ∧ l.phase = .handle

def LoopsOk (s : TcpSever) : Prop := ∀ i, LoopOk s.objects.length i (s.loops i)

theorem LoopOk.mono {n m i : Nat} {l : EventLoop} (h : LoopOk n i l) (hle : n ≤ m) : LoopOk m i l :=
  ⟨fun task ht x hx => Nat.lt_of_lt_of_le (h.tasks task ht x hx) hle, h.forBase,
    fun frame hf x hx => Nat.lt_of_lt_of_le (h.frames frame hf x hx) hle, h.serverClosed, h.inserts⟩

/-- A frame is gone. -/
theorem LoopOk.pop {n i : Nat} {l : EventLoop} {frame : Frame} {stack : List Frame}
    (h : LoopOk n i l) (hstack : l.stack = frame :: stack) :
    LoopOk n i { l with stack := stack } := by
  have hmem : ∀ f ∈ stack, f ∈ l.stack := fun f hf => hstack ▸ List.mem_cons_of_mem frame hf
  exact ⟨h.tasks, h.forBase, fun f hf => h.frames f (hmem f hf),
    fun x hx => h.serverClosed x (hmem _ hx),
    fun x hx => h.inserts x (hmem _ hx)⟩

theorem loopsOk_setLoop {s : TcpSever} (h : LoopsOk s) {i : Nat} {l : EventLoop}
    (hl : LoopOk s.objects.length i l) :
    LoopsOk (s.setLoop i l) := by
  intro j
  by_cases hj : j = i
  · subst hj
    rw [loops_setLoop]
    exact hl
  · rw [loops_setLoop_of_ne s hj]
    exact h j

/-- Nothing happens that the table or the ids depend on. -/
structure Kept (s t : TcpSever) : Prop where
  objects : t.objects = s.objects
  conns : t.conns = s.conns
  connId : t.connId = s.connId
  issued : t.issued = s.issued
  released : t.released = s.released
  entering : t.entering = s.entering
  removals : t.removals = s.removals
  loops : LoopsOk t

theorem Kept.registry {s t : TcpSever} (h : Kept s t) : t.registry = s.registry := by
  simp only [TcpSever.registry, h.objects, h.conns, h.released, h.entering, h.removals]

theorem Kept.trans {s t u : TcpSever} (h : Kept s t) (h' : Kept t u) : Kept s u :=
  ⟨h'.objects.trans h.objects, h'.conns.trans h.conns, h'.connId.trans h.connId,
    h'.issued.trans h.issued,
    h'.released.trans h.released, h'.entering.trans h.entering,
      h'.removals.trans h.removals, h'.loops⟩

variable {s s' : TcpSever} {i j : Nat}

theorem kept_setLoop (h : LoopsOk s) {l : EventLoop} (hl : LoopOk s.objects.length i l)
    (hinserts : i = 0 → l.stack.filterMap Frame.inserts = (s.loops i).stack.filterMap Frame.inserts)
    (hremoves : i = 0 → l.waiting.filterMap Task.removes = (s.loops i).waiting.filterMap Task.removes) :
    Kept s (s.setLoop i l) := by
  refine ⟨rfl, rfl, rfl, rfl, rfl, ?_, ?_, loopsOk_setLoop h hl⟩
  · by_cases hi : i = 0
    · subst hi
      rw [entering, loops_setLoop]
      exact hinserts rfl
    · rw [entering, loops_setLoop_of_ne s (Ne.symm hi)]
      rfl
  · by_cases hi : i = 0
    · subst hi
      rw [removals, loops_setLoop]
      exact hremoves rfl
    · rw [removals, loops_setLoop_of_ne s (Ne.symm hi)]
      rfl

/-- Frames that are pushed but enter nothing. -/
theorem kept_push (h : LoopsOk s) {frames : List Frame}
    (hconn : ∀ frame ∈ frames, ∀ x ∈ frame.conn, x < s.objects.length)
    (hrun : ∀ x, .serverClosed x ∈ frames → ∃ batch, (s.loops i).phase = .run batch)
    (hinserts : ∀ frame ∈ frames, frame.inserts = none) : Kept s (s.push i frames) := by
  have hnone : frames.filterMap Frame.inserts = [] := List.filterMap_eq_nil_iff.mpr hinserts
  refine kept_setLoop h ⟨(h i).tasks, (h i).forBase, ?_, ?_, ?_⟩ ?_ (fun _ => rfl)
  · exact fun frame hf => (List.mem_append.mp hf).elim (hconn frame) ((h i).frames frame)
  · exact fun x hx => (List.mem_append.mp hx).elim (hrun x) ((h i).serverClosed x)
  · intro x hx
    rcases List.mem_append.mp hx with hx | hx
    · cases hinserts _ hx
    · exact (h i).inserts x hx
  · intro _
    rw [List.filterMap_append, hnone, List.nil_append]

theorem kept_queueInLoop (h : LoopsOk s) {task : Task}
    (hconn : ∀ x ∈ task.conn, x < s.objects.length) (hbase : j ≠ 0 → task.forBase = false)
    (hnone : task.removes = none) : Kept s (s.queueInLoop j task) := by
  have hwaiting : ∀ l : EventLoop, EventLoop.waiting { l with taskQueue := l.taskQueue ++ [task] } =
      l.waiting ++ [task] :=
    fun l => (List.append_assoc _ _ _).symm
  refine kept_setLoop h ⟨?_, ?_, (h j).frames, (h j).serverClosed, (h j).inserts⟩ (fun _ => rfl) ?_
  · rw [hwaiting]
    exact fun t ht => (List.mem_append.mp ht).elim ((h j).tasks t)
      (fun ht => List.mem_singleton.mp ht ▸ hconn)
  · rw [hwaiting]
    exact fun hj t ht => (List.mem_append.mp ht).elim ((h j).forBase hj t)
      (fun ht => List.mem_singleton.mp ht ▸ hbase hj)
  · intro _
    rw [hwaiting, List.filterMap_append]
    simp [hnone]

theorem Kept.refl (h : LoopsOk s) : Kept s s := ⟨rfl, rfl, rfl, rfl, rfl, rfl, rfl, h⟩

/-- The functors that have nothing to do with the table. -/
theorem kept_runTask (h : LoopsOk s) {task : Task} (hconn : ∀ x ∈ task.conn, x < s.objects.length)
    (hbase : task.forBase = false)
    (hrun : ∀ x, task = .releaseInloop x → ∃ batch, (s.loops i).phase = .run batch)
    (hstep : s.runTask i task = some s') : Kept s s' := by
  have hcode : Kept s (s.push i [.code]) := by
    refine kept_push h ?_ ?_ ?_ <;> simp [Frame.conn, Frame.inserts]
  cases task with
  | enableTimeoutDelInLoop x =>
    cases hstep
    exact .refl h
  | establishedInLoop x =>
    cases hstep
    exact hcode
  | releaseInloop x =>
    cases hstep
    refine kept_push h ?_ (fun _ _ => hrun x rfl) ?_
    · simpa [Frame.conn, Task.conn] using hconn
    · simp [Frame.inserts]
  | removeConnectionInLoop x => cases hbase
  | runAfterInLoop => cases hbase
  | other =>
    cases hstep
    exact hcode

theorem kept_runInLoop (h : LoopsOk s) {thread : Option Nat} {task : Task}
    (hconn : ∀ x ∈ task.conn, x < s.objects.length) (hbase : task.forBase = false)
    (hrun : ∀ x, task ≠ .releaseInloop x) (hstep : s.runInLoop thread i task = some s') :
    Kept s s' := by
  unfold runInLoop at hstep
  split at hstep
  · exact kept_runTask h hconn hbase (fun x hx => absurd hx (hrun x)) hstep
  · cases hstep
    exact kept_queueInLoop h hconn (fun _ => hbase) (Task.removes_of_forBase hbase)

/-! ## The ids -/

/-- The ids of the connections are faithful, and the one to be entered has the last. -/
structure IdsOk (s : TcpSever) : Prop where
  counter : s.connId = s.issued
  ids : ∀ conn ∈ s.objects, 0 < conn.connId ∧ conn.connId ≤ s.issued
  ordered : s.objects.Pairwise fun c d => c.connId < d.connId
  keyed : ∀ key x, s.conns key = some x → ∃ conn, s.objects[x]? = some conn ∧
    toSizeT conn.connId = key
  entering : ∀ x ∈ s.entering, ∃ conn, s.objects[x]? = some conn ∧ conn.connId = s.issued

theorem Kept.ids {t : TcpSever} (h : Kept s t) (hids : IdsOk s) : IdsOk t where
  counter := by rw [h.connId, h.issued]; exact hids.counter
  ids := by rw [h.objects, h.issued]; exact hids.ids
  ordered := by rw [h.objects]; exact hids.ordered
  keyed := by rw [h.conns, h.objects]; exact hids.keyed
  entering := by rw [h.entering, h.objects, h.issued]; exact hids.entering

theorem toSizeT_natCast {n : Nat} (h : n < 2 ^ 31) : toSizeT (n : Int) = n := by
  unfold toSizeT
  omega

theorem toInt_eq {n : Nat} (h : n < 2 ^ 31) : toInt n = n := by
  exact Int.bmod_eq_of_le (by omega) (by omega)

/-- Two connections never have the same key. -/
theorem IdsOk.key_inj (h : IdsOk s) (hs : s.issued < 2 ^ 31) {x y : Nat} {c d : ConnObject}
    (hx : s.objects[x]? = some c) (hy : s.objects[y]? = some d)
    (hkey : toSizeT c.connId = toSizeT d.connId) : x = y := by
  have hc := h.ids c (List.mem_of_getElem? hx)
  have hd := h.ids d (List.mem_of_getElem? hy)
  have heq : c.connId = d.connId := by
    unfold toSizeT at hkey
    omega
  obtain ⟨hxlt, rfl⟩ := List.getElem?_eq_some_iff.mp hx
  obtain ⟨hylt, rfl⟩ := List.getElem?_eq_some_iff.mp hy
  rcases Nat.lt_trichotomy x y with hlt | he | hlt
  · have := List.pairwise_iff_getElem.mp h.ordered x y hxlt hylt hlt
    omega
  · exact he
  · have := List.pairwise_iff_getElem.mp h.ordered y x hylt hxlt hlt
    omega

theorem IdsOk.nextId (h : IdsOk s) (hs : s.issued + 1 < 2 ^ 31) (hentering : s.entering = []) :
    IdsOk s.nextId where
  counter := by
    have := h.counter
    simp only [TcpSever.nextId]
    omega
  ids conn hconn := ⟨(h.ids conn hconn).1, by
    have := (h.ids conn hconn).2
    simp only [TcpSever.nextId]
    omega⟩
  ordered := h.ordered
  keyed := h.keyed
  entering := by
    intro x hx
    have hx : x ∈ s.entering := hx
    rw [hentering] at hx
    exact absurd hx List.not_mem_nil

/-! ## The steps that the table sees -/

theorem newConnection_spec (s : TcpSever) : ∃ loop,
    s.newConnection.objects = s.objects ++ [⟨toInt ((s.connId + 1) % 2 ^ 64), loop⟩] ∧
      s.newConnection.connId = (s.connId + 1) % 2 ^ 64 ∧ s.newConnection.issued = s.issued + 1 ∧
      s.newConnection.conns = s.conns ∧ s.newConnection.released = s.released ∧
      s.newConnection.loops 0 = ⟨(s.loops 0).taskQueue, (s.loops 0).phase,
        [.enableTimeoutDel s.objects.length, .established s.objects.length,
          .insert s.objects.length] ++
          (s.loops 0).stack⟩ ∧
      ∀ i, i ≠ 0 → s.newConnection.loops i = s.loops i := by
  unfold newConnection getNextEventLoop
  dsimp only
  split
  · exact ⟨0, rfl, rfl, rfl, rfl, rfl, loops_setLoop _ 0 _, fun i hi => loops_setLoop_of_ne _ hi _⟩
  · exact ⟨_, rfl, rfl, rfl, rfl, rfl, loops_setLoop _ 0 _, fun i hi => loops_setLoop_of_ne _ hi _⟩

theorem loopsOk_newConnection (h : LoopsOk s) (hphase : (s.loops 0).phase = .handle) :
    LoopsOk s.newConnection := by
  obtain ⟨loop, hobjects, -, -, -, -, hbase, hloops⟩ := s.newConnection_spec
  have hlen : s.newConnection.objects.length = s.objects.length + 1 := by
    rw [hobjects, List.length_append]; rfl
  intro i
  by_cases hi : i = 0
  · subst hi
    have hok :=
      (h 0).mono (Nat.le_of_lt (hlen ▸ Nat.lt_succ_self _ : s.objects.length < s.newConnection.objects.length))
    rw [hbase]
    refine ⟨hok.tasks, hok.forBase, ?_, ?_, fun _ _ => ⟨rfl, hphase⟩⟩
    · intro frame hf x hx
      rcases List.mem_append.mp hf with hf | hf
      · have hnew : x = s.objects.length := by
          simp only [List.mem_cons, List.not_mem_nil, or_false] at hf
          rcases hf with rfl | rfl | rfl <;> exact (Option.some.inj hx).symm
        omega
      · exact hok.frames frame hf x hx
    · intro x hx
      refine hok.serverClosed x ((List.mem_append.mp hx).resolve_left fun hf => ?_)
      simp at hf
  · rw [hloops i hi]
    exact (h i).mono (by omega)

theorem created_newConnection (h : LoopsOk s) (hids : IdsOk s) (hs : s.issued + 1 < 2 ^ 31)
    (hphase : (s.loops 0).phase = .handle) (hstack : (s.loops 0).stack = []) :
    s.newConnection.registry = s.registry.step (.create s.objects.length) ∧
    LoopsOk s.newConnection ∧
      IdsOk s.newConnection := by
  obtain ⟨loop, hobjects, hconnId, hissued, hconns, hreleased, hbase, hloops⟩ :=
    s.newConnection_spec
  rw [hids.counter, Nat.mod_eq_of_lt (by omega), toInt_eq hs] at hobjects
  rw [hids.counter, Nat.mod_eq_of_lt (by omega)] at hconnId
  rw [hstack, List.append_nil] at hbase
  have hempty : s.entering = [] := by rw [TcpSever.entering, hstack]; rfl
  have hentering : s.newConnection.entering = [s.objects.length] := by
    rw [TcpSever.entering, hbase]; rfl
  have hremovals : s.newConnection.removals = s.removals := by rw [TcpSever.removals, hbase]; rfl
  have hlen : s.newConnection.objects.length = s.objects.length + 1 := by
    rw [hobjects, List.length_append]; rfl
  have hnew : s.newConnection.objects[s.objects.length]? =
      some ⟨((s.issued + 1 : Nat) : Int), loop⟩ := by
    rw [hobjects, List.getElem?_concat_length]
  have hold : ∀ {x : Nat} {conn : ConnObject}, s.objects[x]? = some conn →
      s.newConnection.objects[x]? = some conn := by
    intro x conn hx
    rw [hobjects, List.getElem?_append_left (List.getElem?_eq_some_iff.mp hx).1, hx]
  refine ⟨?_, loopsOk_newConnection h hphase, ?_⟩
  · have hcreated : {x | x < s.newConnection.objects.length} =
        insert s.objects.length {x | x < s.objects.length} := by
      ext x
      simp only [hlen, Set.mem_ofPred_eq, Set.mem_insert_iff]
      omega
    simp only [registry, Register.step, hcreated, hentering, hempty, hremovals, hconns, hreleased]
  · refine ⟨by rw [hconnId, hissued], ?_, ?_, ?_, ?_⟩
    · intro conn hconn
      rw [hobjects] at hconn
      rw [hissued]
      rcases List.mem_append.mp hconn with hconn | hconn
      · have := hids.ids conn hconn
        omega
      · rw [List.mem_singleton.mp hconn]
        refine ⟨?_, Int.le_refl _⟩
        dsimp only
        omega
    · rw [hobjects]
      refine List.pairwise_append.mpr ⟨hids.ordered, List.pairwise_singleton _ _, ?_⟩
      intro c hc d hd
      have := hids.ids c hc
      rw [List.mem_singleton.mp hd]
      dsimp only
      omega
    · intro key x hx
      rw [hconns] at hx
      obtain ⟨conn, hobj, hkey⟩ := hids.keyed key x hx
      exact ⟨conn, hold hobj, hkey⟩
    · intro x hx
      rw [hentering] at hx
      rw [List.mem_singleton.mp hx, hissued]
      exact ⟨_, hnew, rfl⟩

theorem insertConn_spec (s : TcpSever) (x : Nat) :
    (s.insertConn x).objects = s.objects ∧ (s.insertConn x).connId = s.connId ∧
      (s.insertConn x).issued = s.issued ∧ (s.insertConn x).released = s.released ∧
      (s.insertConn x).loops = s.loops ∧
      (s.insertConn x).conns =
        if (s.conns s.connId).isSome then s.conns else Function.update s.conns s.connId
        (some x) := by
  unfold insertConn
  by_cases hsome : (s.conns s.connId).isSome = true
  · rw [if_pos hsome, if_pos hsome]
    exact ⟨rfl, rfl, rfl, rfl, rfl, rfl⟩
  · rw [if_neg hsome, if_neg hsome]
    exact ⟨rfl, rfl, rfl, rfl, rfl, rfl⟩

theorem loopsOk_insertConn (h : LoopsOk s) {x : Nat} {stack : List Frame}
    (hstack : (s.loops 0).stack = .insert x :: stack) :
    LoopsOk ((s.setLoop 0 { s.loops 0 with stack := stack }).insertConn x) := by
  obtain ⟨hobjects, -, -, -, hloops, -⟩ :=
    insertConn_spec (s.setLoop 0 { s.loops 0 with stack := stack }) x
  intro i
  rw [hobjects, hloops]
  exact loopsOk_setLoop h ((h 0).pop hstack) i

/-- The entry goes under the key of the connection, which no other connection has. -/
theorem entered_insertConn (h : LoopsOk s) (hids : IdsOk s) (hs : s.issued < 2 ^ 31) {x : Nat}
    {stack : List Frame} (hstack : (s.loops 0).stack = .insert x :: stack) :
    let t := (s.setLoop 0 { s.loops 0 with stack := stack }).insertConn x
    t.registry = s.registry.step (.enter x) ∧ LoopsOk t ∧ IdsOk t := by
  intro t
  have hentering : s.entering = x :: stack.filterMap Frame.inserts := by
    rw [TcpSever.entering, hstack]; rfl
  obtain ⟨conn, hobj, hid⟩ := hids.entering x (hentering ▸ List.mem_cons_self)
  have hkey : toSizeT conn.connId = s.connId := by
    rw [hid, hids.counter]
    exact toSizeT_natCast hs
  obtain ⟨hobjects, hconnId, hissued, hreleased, hloops, hconns⟩ :
      t.objects = s.objects ∧ t.connId = s.connId ∧ t.issued = s.issued ∧ t.released = s.released ∧
        t.loops = (s.setLoop 0 { s.loops 0 with stack := stack }).loops ∧
        t.conns = if (s.conns s.connId).isSome then s.conns
          else Function.update s.conns s.connId (some x) :=
    insertConn_spec _ x
  have htail : t.entering = stack.filterMap Frame.inserts := by
    rw [TcpSever.entering, hloops, loops_setLoop]
  have hremovals : t.removals = s.removals := by rw [TcpSever.removals, hloops, loops_setLoop]; rfl
  have hentry : ∀ key y, t.conns key = some y ↔ (key = s.connId ∧ y = x) ∨
      s.conns key = some y := by
    intro key y
    rw [hconns]
    cases hold : s.conns s.connId with
    | some z =>
      obtain ⟨conn', hobj', hkey'⟩ := hids.keyed _ z hold
      have hz : z = x := hids.key_inj hs hobj' hobj (hkey'.trans hkey.symm)
      rw [Option.isSome_some, if_pos rfl]
      refine ⟨.inr, fun hy => hy.elim ?_ id⟩
      rintro ⟨rfl, rfl⟩
      rw [hold, hz]
    | none =>
      rw [Option.isSome_none, if_neg Bool.false_ne_true]
      by_cases hk : key = s.connId
      · subst hk
        simp [hold, eq_comm]
      · rw [Function.update_of_ne hk]
        simp [hk]
  refine ⟨?_, loopsOk_insertConn h hstack, ?_⟩
  · have hlisted : {y | ∃ key, t.conns key = some y} =
        insert x {y | ∃ key, s.conns key = some y} := by
      ext y
      simp only [hentry, Set.mem_ofPred_eq, Set.mem_insert_iff]
      constructor
      · rintro ⟨key, ⟨-, hy⟩ | hy⟩
        · exact .inl hy
        · exact .inr ⟨key, hy⟩
      · rintro (hy | ⟨key, hy⟩)
        · exact ⟨s.connId, .inl ⟨rfl, hy⟩⟩
        · exact ⟨key, .inr hy⟩
    simp only [registry, Register.step, hlisted, hobjects, hreleased, htail, hremovals, hentering,
      List.tail_cons]
  · refine ⟨by rw [hconnId, hissued]; exact hids.counter, by rw [hobjects, hissued]; exact hids.ids,
      by rw [hobjects]; exact hids.ordered, ?_, ?_⟩
    · intro key y hy
      rw [hobjects]
      rcases (hentry key y).mp hy with ⟨rfl, rfl⟩ | hy
      · exact ⟨conn, hobj, hkey⟩
      · exact hids.keyed key y hy
    · intro y hy
      rw [hobjects, hissued]
      rw [htail] at hy
      exact hids.entering y (hentering ▸ List.mem_cons_of_mem x hy)

/-- The functor takes out the entry of its connection and no other. -/
theorem removed_conns (hids : IdsOk s) (hs : s.issued < 2 ^ 31) {x : Nat} {conn : ConnObject}
    (hobj : s.objects[x]? = some conn) (key y : Nat) :
    Function.update s.conns (toSizeT conn.connId) none key = some y ↔
    s.conns key = some y ∧ y ≠ x := by
  by_cases hk : key = toSizeT conn.connId
  · subst hk
    rw [Function.update_self]
    constructor
    · intro hy
      cases hy
    · rintro ⟨hy, hne⟩
      obtain ⟨conn', hobj', hkey⟩ := hids.keyed _ y hy
      exact absurd (hids.key_inj hs hobj' hobj hkey) hne
  · rw [Function.update_of_ne hk]
    constructor
    · intro hy
      refine ⟨hy, ?_⟩
      rintro rfl
      obtain ⟨conn', hobj', hkey⟩ := hids.keyed key y hy
      rw [hobj] at hobj'
      cases hobj'
      exact hk hkey.symm
    · exact fun hy => hy.1

theorem erased_registry (hids : IdsOk s) (hs : s.issued < 2 ^ 31) {x : Nat} {t : TcpSever}
    (hstep : s.removeConnectionInLoop x = some t) :
    t.registry = { s.registry with listed := s.registry.listed \ {x} } ∧ t.objects = s.objects ∧
    t.loops = s.loops ∧
      IdsOk t := by
  obtain ⟨conn, hobj, he⟩ := Option.bind_eq_some_iff.mp hstep
  cases he
  have hlisted : {y | ∃ key, Function.update s.conns (toSizeT conn.connId) none key = some y} =
      {y | ∃ key, s.conns key = some y} \ {x} := by
    ext y
    simp only [removed_conns hids hs hobj, Set.mem_sdiff, Set.mem_ofPred_eq, Set.mem_singleton_iff]
    exact ⟨fun ⟨key, hy, hne⟩ => ⟨⟨key, hy⟩, hne⟩, fun ⟨⟨key, hy⟩, hne⟩ => ⟨key, hy, hne⟩⟩
  refine ⟨?_, rfl, rfl, hids.counter, hids.ids, hids.ordered, ?_, hids.entering⟩
  · simp only [registry, hlisted]
    rfl
  · exact fun key y hy => hids.keyed key y ((removed_conns hids hs hobj key y).mp hy).1

theorem waiting_request (s : TcpSever) (x : Nat) :
    ({ s with released := s.released ++ [x] }.queueInLoop 0 (.removeConnectionInLoop x)).loops 0 =
      { s.loops 0 with taskQueue := (s.loops 0).taskQueue ++ [.removeConnectionInLoop x] } ∧
    (({ s with released := s.released ++ [x] }.queueInLoop 0 (.removeConnectionInLoop x)).loops 0).waiting =
      (s.loops 0).waiting ++ [.removeConnectionInLoop x] := by
  refine ⟨loops_setLoop _ 0 _, ?_⟩
  rw [queueInLoop, loops_setLoop]
  exact (List.append_assoc _ _ _).symm

theorem loopsOk_request (h : LoopsOk s) {x : Nat} (hx : x < s.objects.length) :
    LoopsOk ({ s with released := s.released ++ [x] }.queueInLoop 0 (.removeConnectionInLoop x)) := by
  refine loopsOk_setLoop (s := { s with released := s.released ++ [x] }) h ?_
  refine ⟨?_, fun h0 => absurd rfl h0, (h 0).frames, (h 0).serverClosed, (h 0).inserts⟩
  intro task ht y hy
  obtain ⟨hloop, hwaiting⟩ := waiting_request s x
  rw [hloop] at hwaiting
  rcases List.mem_append.mp (hwaiting ▸ ht) with ht | ht
  · exact (h 0).tasks task ht y hy
  · rw [List.mem_singleton.mp ht] at hy
    cases hy
    exact hx

/-- `ReleaseInloop` on a worker has the base loop take the connection out. -/
theorem requested (h : LoopsOk s) (hids : IdsOk s) {x : Nat} (hx : x < s.objects.length) :
    let t := { s with released := s.released ++ [x] }.queueInLoop 0 (.removeConnectionInLoop x)
    t.registry = s.registry.step (.request x) ∧ LoopsOk t ∧ IdsOk t := by
  intro t
  obtain ⟨hloop, hwaiting⟩ := waiting_request s x
  have hentering : t.entering = s.entering := by rw [TcpSever.entering, hloop]; rfl
  have hremovals : t.removals = s.removals ++ [x] := by
    rw [TcpSever.removals, hwaiting, List.filterMap_append]
    rfl
  have hreleased : {y | y ∈ s.released ++ [x]} = insert x {y | y ∈ s.released} := by
    ext y
    simp [or_comm]
  refine ⟨?_, loopsOk_request h hx, hids.counter, hids.ids, hids.ordered, hids.keyed, ?_⟩
  · simp only [registry, Register.step, hentering, hremovals, ← hreleased]
    rfl
  · rw [hentering]
    exact hids.entering

/-- `ReleaseInloop` on the base loop takes it out itself. -/
theorem retracted (h : LoopsOk s) (hids : IdsOk s) (hs : s.issued < 2 ^ 31) {x : Nat}
    (hstep : { s with released := s.released ++ [x] }.removeConnectionInLoop x = some s') :
    s'.registry = s.registry.step (.retract x) ∧ LoopsOk s' ∧ IdsOk s' := by
  have hids' : IdsOk { s with released := s.released ++ [x] } :=
    ⟨hids.counter, hids.ids, hids.ordered, hids.keyed, hids.entering⟩
  obtain ⟨hreg, hobjects, hloops, hok⟩ := erased_registry hids' hs hstep
  have hreleased : {y | y ∈ s.released ++ [x]} = insert x {y | y ∈ s.released} := by
    ext y
    simp [or_comm]
  refine ⟨?_, ?_, hok⟩
  · rw [hreg]
    simp only [registry, Register.step, hreleased]
    rfl
  · intro i
    rw [hobjects, hloops]
    exact h i

theorem kept_nextId (h : LoopsOk s) (hids : IdsOk s) (hs : s.issued + 1 < 2 ^ 31)
    (hentering : s.entering = []) :
    s.nextId.registry = s.registry ∧ LoopsOk s.nextId ∧ IdsOk s.nextId :=
  ⟨rfl, h, hids.nextId hs hentering⟩

/-! ## Runs -/

/-- Between two functions of the loop. -/
theorem kept_idle (h : LoopsOk s) {l : EventLoop} (hstack : (s.loops i).stack = [])
    (hl : l.stack = []) (hwaiting : l.waiting = (s.loops i).waiting) : Kept s (s.setLoop i l) := by
  refine kept_setLoop h ⟨?_, ?_, ?_, ?_, ?_⟩
    (fun _ => by rw [hl, hstack]) (fun _ => by rw [hwaiting])
  · exact hwaiting ▸ (h i).tasks
  · exact hwaiting ▸ (h i).forBase
  · rw [hl]
    exact fun _ hf => absurd hf List.not_mem_nil
  · rw [hl]
    exact fun _ hx => absurd hx List.not_mem_nil
  · rw [hl]
    exact fun _ hx => absurd hx List.not_mem_nil

theorem kept_pop (h : LoopsOk s) {frame : Frame} {stack : List Frame}
    (hstack : (s.loops i).stack = frame :: stack) (hnone : frame.inserts = none) :
    Kept s (s.setLoop i { s.loops i with stack := stack }) := by
  refine kept_setLoop h ((h i).pop hstack) (fun _ => ?_) (fun _ => rfl)
  rw [hstack, List.filterMap_cons_none hnone]

/-- The batch without its first task. -/
theorem LoopOk.take {n : Nat} {l : EventLoop} (h : LoopOk n i l) {task : Task} {batch : List Task}
    (hphase : l.phase = .run (task :: batch)) (hstack : l.stack = []) :
    LoopOk n i { l with phase := .run batch } := by
  have hmem : ∀ t ∈ EventLoop.waiting { l with phase := .run batch }, t ∈ l.waiting := by
    intro t ht
    rw [EventLoop.waiting, hphase]
    exact List.mem_cons_of_mem task ht
  refine ⟨fun t ht => h.tasks t (hmem t ht), fun hi t ht => h.forBase hi t (hmem t ht), h.frames,
    fun _ _ => ⟨batch, rfl⟩, ?_⟩
  intro x hx
  rw [hstack] at hx
  exact absurd hx List.not_mem_nil

/-- What a step does to the ids and the table. -/
inductive IdEvent where
  | create
  | enter (x : Nat)
  | erase (x : Nat)
  /-- `RunAfterInLoop` takes an id. -/
  | timer
  deriving DecidableEq

def Task.idEvent : Task → Option IdEvent
  | .removeConnectionInLoop x => some (.erase x)
  | .runAfterInLoop => some .timer
  | _ => none

/-- `i` is the loop whose thread has the frame. -/
def Frame.idEvent (i : Nat) : Frame → Option IdEvent
  | .insert x => some (.enter x)
  | .serverClosed x => if i = 0 then some (.erase x) else none
  | _ => none

def idEvent (s : TcpSever) : Act → Option IdEvent
  | .accept => some .create
  | .runTask i => (s.loops i).phase.batch.head?.bind Task.idEvent
  | .next i => (s.loops i).stack.head?.bind (Frame.idEvent i)
  | .runAfter thread => if thread = some 0 then some .timer else none
  | _ => none

/-- What a step can do. -/
inductive TableStep (s : TcpSever) (a : Act) : TcpSever → Prop
  | kept {s' : TcpSever} : s.idEvent a = none → Kept s s' → TableStep s a s'
  | create : a = .accept → (s.loops 0).phase = .handle → (s.loops 0).stack = [] →
    TableStep s a s.newConnection
  | enter {x : Nat} {stack : List Frame} : s.idEvent a = some (.enter x) →
    (s.loops 0).stack = .insert x :: stack →
      TableStep s a ((s.setLoop 0 { s.loops 0 with stack := stack }).insertConn x)
  /-- A worker gives a connection up. -/
  | request {x : Nat} {t : TcpSever} : s.idEvent a = none → Kept s t → x < s.objects.length →
      TableStep s a ({ t with released := t.released ++ [x] }.queueInLoop 0 (.removeConnectionInLoop x))
  /-- The base loop gives up one of its own. -/
  | retract {x : Nat} {t s' : TcpSever} : s.idEvent a = some (.erase x) → Kept s t →
    x < s.objects.length →
      s.entering = [] →
      { t with released := t.released ++ [x] }.removeConnectionInLoop x = some s' → TableStep s a s'
  | remove {x : Nat} {batch : List Task} {s' : TcpSever} : s.idEvent a = some (.erase x) →
      (s.loops 0).phase = .run (.removeConnectionInLoop x :: batch) → (s.loops 0).stack = [] →
      (s.setLoop 0 { s.loops 0 with phase := .run batch }).removeConnectionInLoop x = some s' →
        TableStep s a s'
  | timer {t : TcpSever} : s.idEvent a = some .timer → Kept s t → a = .runAfter (some 0) ∨
    s.entering = [] →
      TableStep s a t.nextId

theorem tableStep_runTask (h : LoopsOk s) {task : Task} {batch : List Task}
    (hphase : (s.loops i).phase = .run (task :: batch)) (hstack : (s.loops i).stack = [])
    (hstep : (s.setLoop i { s.loops i with phase := .run batch }).runTask i task = some s') :
    TableStep s (.runTask i) s' := by
  have htask : task ∈ (s.loops i).waiting := by
    rw [EventLoop.waiting, hphase]
    exact List.mem_cons_self
  have htake := (h i).take hphase hstack
  have hpop := loopsOk_setLoop h htake
  have hkept : task.removes = none →
      Kept s (s.setLoop i { s.loops i with phase := .run batch }) := by
    intro hnone
    refine kept_setLoop h htake (fun _ => rfl) (fun _ => ?_)
    simp only [EventLoop.waiting, hphase, Phase.batch, List.cons_append,
      List.filterMap_cons_none hnone]
  have hevent : s.idEvent (.runTask i) = task.idEvent := by
    rw [idEvent, hphase]
    rfl
  cases hbase : task.forBase with
  | false =>
    have hstay := hkept (Task.removes_of_forBase hbase)
    refine .kept ?_ (hstay.trans (kept_runTask hpop ((h i).tasks task htask) hbase
      (fun _ _ => ⟨batch, by rw [loops_setLoop]⟩) hstep))
    rw [hevent]
    cases task <;> first | rfl | cases hbase
  | true =>
    have hi : i = 0 := by
      by_contra hi
      rw [(h i).forBase hi task htask] at hbase
      cases hbase
    subst hi
    cases task with
    | removeConnectionInLoop x => exact .remove hevent hphase hstack hstep
    | runAfterInLoop =>
      cases hstep
      exact .timer hevent (hkept rfl) (.inr (by rw [TcpSever.entering, hstack]; rfl))
    | _ => cases hbase

theorem tableStep_runFrame (h : LoopsOk s) {frame : Frame} {stack : List Frame}
    (hstack : (s.loops i).stack = frame :: stack)
    (hstep : (s.setLoop i { s.loops i with stack := stack }).runFrame i frame = some s') :
    TableStep s (.next i) s' := by
  have hframe : frame ∈ (s.loops i).stack := hstack ▸ List.mem_cons_self
  have hconn := (h i).frames frame hframe
  have hevent : s.idEvent (.next i) = frame.idEvent i := by
    rw [idEvent, hstack]
    rfl
  cases frame with
  | enableTimeoutDel x =>
    have hpop := kept_pop h hstack rfl
    obtain ⟨conn, -, hstep⟩ := Option.bind_eq_some_iff.mp hstep
    split at hstep
    · refine .kept hevent (hpop.trans (kept_runInLoop hpop.loops ?_ rfl (fun _ => by simp) hstep))
      rw [hpop.objects]
      exact hconn
    · cases hstep
      exact .kept hevent hpop
  | established x =>
    have hpop := kept_pop h hstack rfl
    obtain ⟨conn, -, hstep⟩ := Option.bind_eq_some_iff.mp hstep
    refine .kept hevent (hpop.trans (kept_runInLoop hpop.loops ?_ rfl (fun _ => by simp) hstep))
    rw [hpop.objects]
    exact hconn
  | insert x =>
    obtain ⟨rfl, -⟩ := (h i).inserts x hframe
    cases hstep
    exact .enter hevent hstack
  | serverClosed x =>
    have hpop := kept_pop h hstack rfl
    obtain ⟨batch, hphase⟩ := (h i).serverClosed x hframe
    have hx : x < s.objects.length := hconn x rfl
    simp only [runFrame, removeConnection, runInLoop] at hstep
    split at hstep
    · rename_i hi
      cases hi
      refine .retract hevent hpop hx ?_ hstep
      -- nothing is entered while `RunAlltask` runs
      by_contra hne
      obtain ⟨y, hy⟩ := List.exists_mem_of_ne_nil _ hne
      obtain ⟨f, hf, hins⟩ := List.mem_filterMap.mp hy
      cases f <;> cases hins
      have hhandle := ((h 0).inserts y hf).2
      rw [hphase] at hhandle
      cases hhandle
    · rename_i hi
      cases hstep
      refine .request ?_ hpop hx
      rw [hevent]
      exact if_neg fun h0 => hi (congrArg some h0)
  | code => cases hstep

theorem tableStep_step {a : Act} (h : LoopsOk s) (hstep : step s a = some s') :
    TableStep s a s' := by
  cases a with
  | pollReturn i =>
    simp only [step] at hstep
    split at hstep
    · rename_i hcond
      cases hstep
      refine .kept rfl (kept_idle h hcond.2.2 ?_ ?_)
      · exact hcond.2.2
      · simp only [EventLoop.waiting, hcond.2.1, Phase.batch]
    · cases hstep
  | handle i =>
    simp only [step] at hstep
    split at hstep
    · cases hstep
      refine .kept rfl (kept_push h ?_ ?_ ?_) <;> simp [Frame.conn, Frame.inserts]
    · cases hstep
  | accept =>
    simp only [step] at hstep
    split at hstep
    · rename_i hcond
      cases hstep
      exact .create rfl hcond.1 hcond.2
    · cases hstep
  | swap i =>
    simp only [step] at hstep
    split at hstep
    · rename_i hcond
      cases hstep
      refine .kept rfl (kept_idle h hcond.2 ?_ ?_)
      · exact hcond.2
      · simp only [EventLoop.waiting, hcond.1, Phase.batch, List.append_nil, List.nil_append]
    · cases hstep
  | runTask i =>
    simp only [step] at hstep
    split at hstep
    · rename_i task batch hphase
      split at hstep
      · rename_i hstack
        exact tableStep_runTask h hphase hstack hstep
      · cases hstep
    · cases hstep
  | batchDone i =>
    simp only [step] at hstep
    split at hstep
    · rename_i hcond
      cases hstep
      refine .kept rfl (kept_idle h hcond.2 ?_ ?_)
      · exact hcond.2
      · simp only [EventLoop.waiting, hcond.1, Phase.batch]
    · cases hstep
  | next i =>
    simp only [step] at hstep
    split at hstep
    · rename_i frame stack hstack
      exact tableStep_runFrame h hstack hstep
    · cases hstep
  | release thread x =>
    simp only [step] at hstep
    split at hstep
    · obtain ⟨conn, hobj, hstep⟩ := Option.bind_eq_some_iff.mp hstep
      cases hstep
      refine .kept rfl (kept_queueInLoop h ?_ (fun _ => rfl) rfl)
      intro y hy
      cases hy
      exact (List.getElem?_eq_some_iff.mp hobj).1
    · cases hstep
  | call thread x =>
    simp only [step] at hstep
    split at hstep
    · obtain ⟨conn, hobj, hstep⟩ := Option.bind_eq_some_iff.mp hstep
      exact .kept rfl (kept_runInLoop h (fun _ hy => by cases hy) rfl (fun _ => by simp) hstep)
    · cases hstep
  | runAfter thread =>
    simp only [step, runInLoop] at hstep
    split at hstep
    · split at hstep
      · rename_i hthread
        cases hthread
        cases hstep
        exact .timer rfl (.refl h) (.inl rfl)
      · rename_i hthread
        cases hstep
        exact .kept (if_neg hthread)
          (kept_queueInLoop h (fun _ hy => by cases hy) (fun hj => absurd rfl hj) rfl)
    · cases hstep
  | ret i =>
    simp only [step] at hstep
    split at hstep
    · rename_i stack hstack
      cases hstep
      exact .kept rfl (kept_pop h hstack rfl)
    · cases hstep

theorem TableStep.loopsOk {a : Act} (h : LoopsOk s) (ht : TableStep s a s') : LoopsOk s' := by
  have herase : ∀ {t t' : TcpSever} {x : Nat}, LoopsOk t → t.removeConnectionInLoop x = some t' →
      LoopsOk t' := by
    intro t t' x ht hstep
    obtain ⟨conn, -, he⟩ := Option.bind_eq_some_iff.mp hstep
    cases he
    exact ht
  cases ht with
  | kept _ hkept => exact hkept.loops
  | create _ hphase _ => exact loopsOk_newConnection h hphase
  | enter _ hstack => exact loopsOk_insertConn h hstack
  | request _ hkept hx => exact loopsOk_request hkept.loops (hkept.objects ▸ hx)
  | @retract x t _ _ hkept _ _ hstep =>
    have hloops : LoopsOk { t with released := t.released ++ [x] } := hkept.loops
    exact herase hloops hstep
  | remove _ hphase hstack hstep =>
    exact herase (loopsOk_setLoop h ((h 0).take hphase hstack)) hstep
  | timer _ hkept _ => exact hkept.loops

/-- No `RunAfter` is carried out while `NewConnection` has a connection still to enter. -/
def EntersFirst (s : TcpSever) (a : Act) : Prop := a = .runAfter (some 0) → s.entering = []

instance (s : TcpSever) (a : Act) : Decidable (EntersFirst s a) :=
  inferInstanceAs (Decidable (_ → _))

/-- Every step of the server is one of the register, or none. -/
def Follows (s s' : TcpSever) : Prop :=
  ∃ e, s.registry.Enabled e ∧ s'.registry = s.registry.step e ∧ LoopsOk s' ∧ IdsOk s'

theorem Kept.follows (h : Kept s s') (hids : IdsOk s) : Follows s s' :=
  ⟨.idle, trivial, h.registry, h.loops, h.ids hids⟩

theorem Kept.followed {t : TcpSever} (h : Kept s t) (ht : Follows t s') : Follows s s' := by
  rw [Follows, h.registry] at ht
  exact ht

theorem follows_step {a : Act} (h : LoopsOk s) (hids : IdsOk s) (hs : s.issued < 2 ^ 31)
    (hs' : s'.issued < 2 ^ 31) (ha : EntersFirst s a) (hstep : step s a = some s') :
    Follows s s' := by
  cases tableStep_step h hstep with
  | kept _ hkept => exact hkept.follows hids
  | create _ hphase hstack =>
    obtain ⟨loop, -, -, hissued, -⟩ := s.newConnection_spec
    exact ⟨.create s.objects.length, Nat.lt_irrefl _,
      created_newConnection h hids (hissued ▸ hs') hphase hstack⟩
  | enter _ hstack =>
    obtain ⟨hreg, hloops, hok⟩ := entered_insertConn h hids hs hstack
    refine ⟨.enter _, ?_, hreg, hloops, hok⟩
    rw [Register.Enabled, registry, TcpSever.entering, hstack]
    rfl
  | request _ hkept hx =>
    rw [← hkept.objects] at hx
    exact hkept.followed ⟨.request _, hx, requested hkept.loops (hkept.ids hids) hx⟩
  | @retract x t _ _ hkept hx hentering hret =>
    rw [← hkept.objects] at hx
    have hno : x ∉ t.entering := by
      rw [hkept.entering, hentering]
      exact List.not_mem_nil
    exact hkept.followed ⟨.retract x, ⟨hx, hno⟩,
      retracted hkept.loops (hkept.ids hids) (hkept.issued ▸ hs) hret⟩
  | @remove x batch _ _ hphase hstack hrem =>
    have hempty : s.entering = [] := by rw [TcpSever.entering, hstack]; rfl
    have hentering : (s.setLoop 0 { s.loops 0 with phase := .run batch }).entering =
        s.entering := by
      rw [TcpSever.entering, loops_setLoop]
      rfl
    have hremovals : s.removals = x ::
        (s.setLoop 0 { s.loops 0 with phase := .run batch }).removals := by
      rw [TcpSever.removals, TcpSever.removals, loops_setLoop, EventLoop.waiting, hphase]
      rfl
    have hids' : IdsOk (s.setLoop 0 { s.loops 0 with phase := .run batch }) :=
      ⟨hids.counter, hids.ids, hids.ordered, hids.keyed, by rw [hentering]; exact hids.entering⟩
    obtain ⟨hreg, hobjects, hloops, hok⟩ := erased_registry hids' hs hrem
    refine ⟨.remove x, ⟨?_, ?_⟩, ?_, ?_, hok⟩
    · exact congrArg List.head? hremovals
    · exact fun hin => absurd (hempty ▸ hin : x ∈ []) List.not_mem_nil
    · rw [hreg]
      simp only [registry, Register.step, hentering, hremovals, List.tail_cons]
      rfl
    · intro k
      rw [hobjects, hloops]
      exact loopsOk_setLoop h ((h 0).take hphase hstack) k
  | timer _ hkept he =>
    have hempty : s.entering = [] := he.elim ha id
    obtain ⟨hreg, hloops, hok⟩ :=
      kept_nextId hkept.loops (hkept.ids hids) hs' (hkept.entering.trans hempty)
    exact ⟨.idle, trivial, hreg.trans hkept.registry, hloops, hok⟩

/-! ## Ids are only added -/

theorem issued_runTask {task : Task} (hstep : s.runTask i task = some s') :
    s.issued ≤ s'.issued := by
  cases task with
  | removeConnectionInLoop x =>
    obtain ⟨conn, -, he⟩ := Option.bind_eq_some_iff.mp hstep
    cases he
    exact Nat.le_refl _
  | runAfterInLoop =>
    cases hstep
    exact Nat.le_succ _
  | _ =>
    cases hstep
    exact Nat.le_refl _

theorem issued_runInLoop {thread : Option Nat} {task : Task}
    (hstep : s.runInLoop thread i task = some s') :
    s.issued ≤ s'.issued := by
  unfold runInLoop at hstep
  split at hstep
  · exact issued_runTask hstep
  · cases hstep
    exact Nat.le_refl _

theorem issued_runFrame {frame : Frame} (hstep : s.runFrame i frame = some s') :
    s.issued ≤ s'.issued := by
  cases frame with
  | enableTimeoutDel x =>
    obtain ⟨conn, -, hstep⟩ := Option.bind_eq_some_iff.mp hstep
    split at hstep
    · exact issued_runInLoop hstep
    · cases hstep
      exact Nat.le_refl _
  | established x =>
    obtain ⟨conn, -, hstep⟩ := Option.bind_eq_some_iff.mp hstep
    exact issued_runInLoop hstep
  | insert x =>
    cases hstep
    exact Nat.le_of_eq (insertConn_spec s x).2.2.1.symm
  | serverClosed x =>
    have hle := issued_runInLoop (s := { s with released := s.released ++ [x] }) hstep
    exact hle
  | code => cases hstep

theorem issued_step {a : Act} (hstep : step s a = some s') : s.issued ≤ s'.issued := by
  cases a with
  | accept =>
    simp only [step] at hstep
    split at hstep
    · cases hstep
      obtain ⟨loop, -, -, hissued, -⟩ := s.newConnection_spec
      omega
    · cases hstep
  | runTask i =>
    simp only [step] at hstep
    split at hstep
    · split at hstep
      · have hle := issued_runTask hstep
        exact hle
      · cases hstep
    · cases hstep
  | next i =>
    simp only [step] at hstep
    split at hstep
    · have hle := issued_runFrame hstep
      exact hle
    · cases hstep
  | release thread x =>
    simp only [step] at hstep
    split at hstep
    · obtain ⟨conn, -, hstep⟩ := Option.bind_eq_some_iff.mp hstep
      cases hstep
      exact Nat.le_refl _
    · cases hstep
  | call thread x =>
    simp only [step] at hstep
    split at hstep
    · obtain ⟨conn, -, hstep⟩ := Option.bind_eq_some_iff.mp hstep
      exact issued_runInLoop hstep
    · cases hstep
  | runAfter thread =>
    simp only [step] at hstep
    split at hstep
    · exact issued_runInLoop hstep
    · cases hstep
  | _ =>
    simp only [step] at hstep
    split at hstep
    · cases hstep
      exact Nat.le_refl _
    · cases hstep

/-! ## The table agrees -/

/-- Without ids beyond an `int` the table is an agreeing register. -/
def Sound (s : TcpSever) : Prop := s.issued < 2 ^ 31 → LoopsOk s ∧ IdsOk s ∧ s.registry.Agrees

/-- Only `main` runs. -/
theorem stack_start (isAbleDelayDel : Bool) (threadCnt i : Nat) :
    ∀ frame ∈ ((start isAbleDelayDel threadCnt).loops i).stack, frame = .code := by
  intro frame hf
  simp only [start] at hf
  split at hf
  · exact List.mem_singleton.mp hf
  · cases hf

theorem loopsOk_start (isAbleDelayDel : Bool) (threadCnt : Nat) :
    LoopsOk (start isAbleDelayDel threadCnt) := by
  have hcode := stack_start isAbleDelayDel threadCnt
  refine fun i => ⟨?_, ?_, ?_, ?_, ?_⟩
  · exact fun _ ht => absurd ht List.not_mem_nil
  · exact fun _ _ ht => absurd ht List.not_mem_nil
  · intro frame hf x hx
    rw [hcode i frame hf] at hx
    cases hx
  · exact fun x hx => by cases hcode i _ hx
  · exact fun x hx => by cases hcode i _ hx

theorem sound_start (isAbleDelayDel : Bool) (threadCnt : Nat) :
    Sound (start isAbleDelayDel threadCnt) := by
  refine fun _ => ⟨loopsOk_start isAbleDelayDel threadCnt, ⟨rfl, ?_, .nil, ?_, ?_⟩, ?_⟩
  · exact fun _ hc => absurd hc List.not_mem_nil
  · exact fun _ _ hx => by cases hx
  · exact fun _ hx => absurd hx List.not_mem_nil
  · have hempty : (start isAbleDelayDel threadCnt).registry = Register.empty := by
      simp [registry, Register.empty, start, TcpSever.entering, removals, Frame.inserts,
        EventLoop.waiting, Phase.batch]
    rw [hempty]
    exact Register.agrees_empty

theorem Sound.step {a : Act} (h : Sound s) (ha : EntersFirst s a) (hstep : step s a = some s') :
    Sound s' := by
  intro hs'
  have hs : s.issued < 2 ^ 31 := Nat.lt_of_le_of_lt (issued_step hstep) hs'
  obtain ⟨hloops, hids, hagrees⟩ := h hs
  obtain ⟨e, he, hreg, hloops', hids'⟩ := follows_step hloops hids hs hs' ha hstep
  exact ⟨hloops', hids', hreg ▸ hagrees.step he⟩

def InTable (s : TcpSever) (x : Nat) : Prop := ∃ key, s.conns key = some x

/-- In a run with fewer than 2³¹ ids in which no `RunAfter` is carried out in the middle of
`NewConnection`, a connection that is entered stays in `_conns` until its `ReleaseInloop` has run;
and when `NewConnection` is not half done and no functor of `RemoveConnection` waits, `_conns` holds
exactly the connections that are created and not released. -/
theorem connection_table_agrees (isAbleDelayDel : Bool) (threadCnt : Nat) (acts : List Act)
    (s : TcpSever) (hacts : Along step EntersFirst (start isAbleDelayDel threadCnt) acts)
    (h : exec step (start isAbleDelayDel threadCnt) acts = some s) (hissued : s.issued < 2 ^ 31) :
    (∀ x, x < s.objects.length → x ∉ s.entering → x ∉ s.released → s.InTable x) ∧
      (s.entering = [] → s.removals = [] → ∀ x, s.InTable x ↔ x < s.objects.length ∧
        x ∉ s.released) := by
  have hsound : Sound s :=
    exec_invariant Sound (fun _ _ _ hI ha hstep => hI.step ha hstep) (sound_start _ _) hacts h
  obtain ⟨-, -, hagrees⟩ := hsound hissued
  exact ⟨hagrees.kept, fun hentering hremovals => hagrees.listed_iff hentering hremovals⟩

/-- A worker establishes the connection and releases it twice before the base loop enters it. -/
def releasedFirst : List Act :=
  [.ret 0, .pollReturn 0, .accept, .next 0, .next 0, .pollReturn 1, .swap 1, .runTask 1, .runTask 1,
    .release (some 1) 0, .release (some 1) 0, .ret 1, .batchDone 1, .pollReturn 1, .swap 1,
      .runTask 1, .ret 1,
    .next 1, .runTask 1, .ret 1, .next 1, .next 0, .swap 0, .runTask 0, .runTask 0]

theorem connection_table_agrees_releasedFirst :
    ∃ s, exec step (start true 1) releasedFirst = some s ∧ s.released = [0, 0] ∧
      (∀ x, x < s.objects.length → x ∉ s.entering → x ∉ s.released → s.InTable x) ∧
      (s.entering = [] → s.removals = [] → ∀ x, s.InTable x ↔ x < s.objects.length ∧
        x ∉ s.released) := by
  have hrun : ((exec step (start true 1) releasedFirst).map fun s =>
      decide (s.released = [0, 0] ∧ s.issued < 2 ^ 31)) = some true := by
    decide +kernel
  obtain ⟨s, hs, hend⟩ := Option.map_eq_some_iff.mp hrun
  obtain ⟨hreleased, hissued⟩ := of_decide_eq_true hend
  exact ⟨s, hs, hreleased, connection_table_agrees true 1 releasedFirst s (by decide +kernel) hs hissued⟩

/-- Without workers the connect callback runs inside `NewConnection`; here it calls `RunAfter`. -/
def timerInCallback : List Act :=
  [.ret 0, .pollReturn 0, .accept, .next 0, .next 0, .runAfter (some 0), .ret 0, .next 0, .handle 0,
    .release (some 0) 0, .ret 0, .swap 0, .runTask 0, .ret 0, .next 0, .batchDone 0]

/-- The connection is entered under the id of the timer, and its release does not find it. -/
theorem released_stays_in_table :
    ∃ s, exec step (start false 0) timerInCallback = some s ∧ s.issued < 2 ^ 31 ∧ s.entering = [] ∧
    s.removals = [] ∧
      s.InTable 0 ∧ 0 ∈ s.released := by
  have hrun : ((exec step (start false 0) timerInCallback).map fun s =>
      decide (s.issued < 2 ^ 31 ∧ s.entering = [] ∧ s.removals = [] ∧ s.conns 2 = some 0 ∧
        0 ∈ s.released)) =
        some true := by
    decide +kernel
  obtain ⟨s, hs, hend⟩ := Option.map_eq_some_iff.mp hrun
  obtain ⟨hissued, hentering, hremovals, htable, hreleased⟩ := of_decide_eq_true hend
  exact ⟨s, hs, hissued, hentering, hremovals, ⟨2, htable⟩, hreleased⟩

end TcpSever
end MuduoServer
