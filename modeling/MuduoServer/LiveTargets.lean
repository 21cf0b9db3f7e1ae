import MuduoServer.FaithfulIds
import MuduoServer.FuncLoops

/-!
# Functors and the life of their connection

A functor with `this` is safe while its connection is listed, and the connection is listed until its
`ReleaseInloop` has run. The functors of that batch still find it, since the batch holds the
`ConnPtr` of `Release`; for a functor that is queued later, only a `ConnPtr` in the hands of code or
of the timer wheel keeps the connection.
-/
namespace MuduoServer

open BatchQueue Transition TcpSever

namespace ConnOwners

variable {s s' : ConnOwners} {t t' : TcpSever} {funcs : Nat → Batches Func} {i : Nat}

/-! ## The condition -/

/-- A functor with `this` of the connection waits, none of those it is destroyed with has a
`ConnPtr`, and `ReleaseInloop` has run or is in the batch. -/
def Exposes (x : Nat) (closed : Prop) (b : Batches Func) : Prop :=
  b.Exposed (Func.uses x) (Func.owns x) (Func.releases x) closed

instance (x : Nat) (closed : Prop) [Decidable closed] (b : Batches Func) :
    Decidable (Exposes x closed b) :=
  inferInstanceAs (Decidable (Batches.Exposed _ _ _ _ _))

def Exposed (s : ConnOwners) (x : Nat) : Prop :=
  ∃ conn ∈ s.sever.objects[x]?, Exposes x (x ∈ s.sever.released) (s.funcs conn.loop)

instance (s : ConnOwners) (x : Nat) : Decidable (s.Exposed x) :=
  inferInstanceAs (Decidable (∃ conn ∈ s.sever.objects[x]?, _))

/-- There is a `ConnPtr` outside `_conns` and the queues: code has it, `NewConnection` among it, or
a task of the timer wheel. -/
def Guarded (s : ConnOwners) (x : Nat) : Prop := 0 < s.held x ∨ 0 < s.timed x ∨ x ∈ s.sever.entering

instance (s : ConnOwners) (x : Nat) : Decidable (s.Guarded x) :=
  inferInstanceAs (Decidable (_ ∨ _ ∨ _))

/-- The connection of which a step gives up the last such `ConnPtr`. -/
def bares (s : ConnOwners) : Act → Option Nat
  | .sever a =>
    match s.sever.idEvent a with
    | some (.enter x) => if s.held x = 0 ∧ s.timed x = 0 then some x else none
    | _ => none
  | .drop _ x => if s.held x = 1 ∧ s.timed x = 0 ∧ x ∉ s.sever.entering then some x else none
  | .expire x => if s.held x = 0 ∧ s.timed x = 1 ∧ x ∉ s.sever.entering then some x else none
  | .call _ _ _ | .obtain _ _ => none

def KeepsIds (s : ConnOwners) : Act → Prop
  | .sever a => KeepsId s.sever a
  | _ => True

instance (s : ConnOwners) (a : Act) : Decidable (s.KeepsIds a) := by
  cases a <;> unfold KeepsIds <;> infer_instance

/-- The ids stay faithful, and no connection loses its last guard while it is exposed. -/
def Careful (s : ConnOwners) (a : Act) : Prop := s.KeepsIds a ∧ ∀ x ∈ s.bares a, ¬s.Exposed x

instance (s : ConnOwners) (a : Act) : Decidable (s.Careful a) :=
  inferInstanceAs (Decidable (_ ∧ ∀ x ∈ s.bares a, _))

/-! ## Exposed connections -/

theorem Func.owns_of_releases {f : Func} {x : Nat} (h : f.releases x) : f.owns x := by
  cases f <;> simp_all [Func.releases, Func.owns]

theorem exposes_serve {a : TcpSever.Act} {x : Nat} {closed : Prop}
    (h : Exposes x closed (serve funcs a i)) :
    Exposes x closed (funcs i) := by
  have hupdate : ∀ {j : Nat} {b : Batches Func}, Exposes x closed (Function.update funcs j b i) →
      (Exposes x closed b → Exposes x closed (funcs j)) → Exposes x closed (funcs i) := by
    intro j b hi hb
    by_cases hj : i = j
    · subst hj
      rw [Function.update_self] at hi
      exact hb hi
    · rwa [Function.update_of_ne hj] at hi
  cases a with
  | swap j => exact hupdate h (Batches.exposed_swap fun _ => Func.owns_of_releases)
  | runTask j => exact hupdate h Batches.exposed_take
  | batchDone j => exact hupdate h Batches.exposed_finish
  | _ => exact h

/-- A functor that is added exposes only the connection that it uses. -/
theorem exposes_enqueue {queued : Option (Nat × Func)} {x : Nat} {closed : Prop}
    (h : Exposes x closed (enqueue funcs queued i)) :
    Exposes x closed (funcs i) ∨ ∃ f, queued = some (i, f) ∧ f.uses x := by
  cases queued with
  | none => exact .inl h
  | some q =>
    obtain ⟨j, f⟩ := q
    simp only [enqueue] at h
    by_cases hj : i = j
    · subst hj
      rw [Function.update_self] at h
      cases huses : f.uses x with
      | false => exact .inl (Batches.exposed_add huses h)
      | true => exact .inr ⟨f, rfl, huses⟩
    · rw [Function.update_of_ne hj] at h
      exact .inl h

/-- An exposed connection has a functor with `this`. -/
theorem Exposes.uses {x : Nat} {closed : Prop} {b : Batches Func} (h : Exposes x closed b) :
    ∃ m, .bound m x ∈ b.running ++ b.queue := by
  have hbound : ∀ f ∈ b.running ++ b.queue, f.uses x → ∃ m, .bound m x ∈ b.running ++ b.queue := by
    intro f hf huses
    cases f with
    | bound m y =>
      obtain rfl : y = x := of_decide_eq_true huses
      exact ⟨m, hf⟩
    | _ => cases huses
  obtain ⟨-, ⟨⟨f, hf, hu⟩, -⟩ | ⟨⟨f, hf, hu⟩, -⟩⟩ := h
  · exact hbound f (List.mem_append_left _ (List.mem_append_right _ hf)) hu
  · exact hbound f (List.mem_append_right _ hf) hu

/-! ## Steps of the server -/

theorem released_runTask {task : Task} (hstep : t.runTask i task = some t') :
    t'.released = t.released := by
  cases task with
  | removeConnectionInLoop x =>
    obtain ⟨conn, -, he⟩ := Option.bind_eq_some_iff.mp hstep
    cases he
    rfl
  | _ =>
    cases hstep
    rfl

theorem released_runInLoop {thread : Option Nat} {task : Task}
    (hstep : t.runInLoop thread i task = some t') :
    t'.released = t.released := by
  unfold TcpSever.runInLoop at hstep
  split at hstep
  · exact released_runTask hstep
  · cases hstep
    rfl

theorem released_runFrame {frame : Frame} {x : Nat} (hstep : t.runFrame i frame = some t')
    (hx : x ∈ t'.released) :
    x ∈ t.released ∨ frame = .serverClosed x := by
  cases frame with
  | enableTimeoutDel y =>
    obtain ⟨conn, -, hstep⟩ := Option.bind_eq_some_iff.mp hstep
    split at hstep
    · exact .inl (released_runInLoop hstep ▸ hx)
    · cases hstep
      exact .inl hx
  | established y =>
    obtain ⟨conn, -, hstep⟩ := Option.bind_eq_some_iff.mp hstep
    exact .inl (released_runInLoop hstep ▸ hx)
  | insert y =>
    cases hstep
    exact .inl ((insertConn_spec t y).2.2.2.1 ▸ hx)
  | serverClosed y =>
    have hreleased : t'.released = t.released ++ [y] := released_runInLoop hstep
    rw [hreleased] at hx
    refine (List.mem_append.mp hx).imp_right fun hx => ?_
    rw [List.mem_singleton.mp hx]
  | code => cases hstep

/-- Only the end of `ReleaseInloop` gives a connection up. -/
theorem released_step {a : TcpSever.Act} {x : Nat} (hstep : t.step a = some t')
    (hx : x ∈ t'.released) :
    x ∈ t.released ∨ ∃ i, a = .next i ∧ .serverClosed x ∈ (t.loops i).stack := by
  cases a with
  | accept =>
    obtain ⟨-, hstep⟩ := Option.ite_none_right_eq_some.mp hstep
    cases hstep
    obtain ⟨loop, -, -, -, -, hreleased, -⟩ := t.newConnection_spec
    exact .inl (hreleased ▸ hx)
  | runTask i =>
    simp only [TcpSever.step] at hstep
    split at hstep
    · obtain ⟨-, hstep⟩ := Option.ite_none_right_eq_some.mp hstep
      have hreleased := released_runTask hstep
      exact .inl (hreleased ▸ hx)
    · cases hstep
  | next i =>
    simp only [TcpSever.step] at hstep
    split at hstep
    · rename_i frame stack hstack
      refine (released_runFrame hstep hx).imp_right fun hframe => ⟨i, rfl, ?_⟩
      rw [hstack, hframe]
      exact List.mem_cons_self
    · cases hstep
  | release thread y =>
    obtain ⟨-, hstep⟩ := Option.ite_none_right_eq_some.mp hstep
    obtain ⟨conn, -, hstep⟩ := Option.bind_eq_some_iff.mp hstep
    cases hstep
    exact .inl hx
  | call thread y =>
    obtain ⟨-, hstep⟩ := Option.ite_none_right_eq_some.mp hstep
    obtain ⟨conn, -, hstep⟩ := Option.bind_eq_some_iff.mp hstep
    exact .inl (released_runInLoop hstep ▸ hx)
  | runAfter thread =>
    obtain ⟨-, hstep⟩ := Option.ite_none_right_eq_some.mp hstep
    exact .inl (released_runInLoop hstep ▸ hx)
  | _ =>
    simp only [TcpSever.step] at hstep
    split at hstep
    · cases hstep
      exact .inl hx
    · cases hstep

theorem objects_step {a : TcpSever.Act} (h : TableStep t a t') :
    t'.objects = t.objects ∨ a = .accept ∧ ∃ conn, t'.objects = t.objects ++ [conn] := by
  have herase : ∀ {u u' : TcpSever} {x : Nat}, u.removeConnectionInLoop x = some u' →
      u'.objects = u.objects := by
    intro u u' x hstep
    obtain ⟨conn, -, he⟩ := Option.bind_eq_some_iff.mp hstep
    cases he
    rfl
  cases h with
  | kept _ hkept => exact .inl hkept.objects
  | create ha _ _ =>
    obtain ⟨loop, hobjects, -⟩ := t.newConnection_spec
    exact .inr ⟨ha, _, hobjects⟩
  | enter _ _ => exact .inl (insertConn_spec _ _).1
  | request _ hkept _ => exact .inl hkept.objects
  | retract _ hkept _ _ hstep =>
    have hobjects := herase hstep
    exact .inl (hobjects.trans hkept.objects)
  | remove _ _ _ hstep =>
    have hobjects := herase hstep
    exact .inl hobjects
  | timer _ hkept _ => exact .inl hkept.objects

/-- A connection that is to be entered still is, unless the step enters it. -/
theorem entering_step {a : TcpSever.Act} (h : TableStep t a t') {x : Nat} (hx : x ∈ t.entering) :
    x ∈ t'.entering ∨ t.idEvent a = some (.enter x) := by
  have hempty : (t.loops 0).stack = [] → x ∉ t.entering := by
    intro hstack
    rw [TcpSever.entering, hstack]
    exact List.not_mem_nil
  cases h with
  | kept _ hkept => exact .inl (hkept.entering ▸ hx)
  | create _ _ hstack => exact absurd hx (hempty hstack)
  | @enter y stack hevent hstack =>
    have hloops := (insertConn_spec (t.setLoop 0 { t.loops 0 with stack := stack }) y).2.2.2.2.1
    have hentering : t.entering = y :: stack.filterMap Frame.inserts := by
      rw [TcpSever.entering, hstack]; rfl
    have htail : ((t.setLoop 0 { t.loops 0 with stack := stack }).insertConn y).entering =
        stack.filterMap Frame.inserts := by
      rw [TcpSever.entering, hloops, loops_setLoop]
    rw [htail]
    refine (List.mem_cons.mp (hentering ▸ hx)).symm.imp_right fun hxy => ?_
    rw [hevent, hxy]
  | @request y u _ hkept _ =>
    refine .inl ?_
    rw [TcpSever.entering, (waiting_request u y).1]
    have hentering : x ∈ u.entering := hkept.entering ▸ hx
    exact hentering
  | retract _ _ _ hentering _ => exact absurd (hentering ▸ hx) List.not_mem_nil
  | remove _ _ hstack _ => exact absurd hx (hempty hstack)
  | timer _ hkept _ =>
    have hentering := hkept.entering ▸ hx
    exact .inl hentering

/-- A functor with `this` comes from `NewConnection`, before it enters the connection. -/
theorem queues_uses {a : TcpSever.Act} {j : Nat} {f : Func} {x : Nat} (h : queues t a = some (j, f))
    (hf : f.uses x) :
    ∃ i frame stack, a = .next i ∧ (t.loops i).stack = frame :: stack ∧
    announces frame = some x := by
  have hbound : ∀ {thread : Option Nat} {m : Method} {y : Nat}, ConnOwners.runInLoop t thread m y =
      some (j, f) → y = x := by
    intro thread m y hq
    obtain ⟨conn, -, hq⟩ := Option.bind_eq_some_iff.mp hq
    split at hq
    · cases hq
    · cases hq
      simpa [Func.uses] using hf
  cases a with
  | next i =>
    obtain ⟨frame, hframe, hq⟩ := Option.bind_eq_some_iff.mp h
    obtain ⟨stack, hstack⟩ := List.head?_eq_some_iff.mp hframe
    refine ⟨i, frame, stack, rfl, hstack, ?_⟩
    cases frame with
    | enableTimeoutDel y =>
      obtain ⟨-, hq⟩ := Option.ite_none_right_eq_some.mp hq
      exact congrArg some (hbound hq)
    | established y => exact congrArg some (hbound hq)
    | serverClosed y =>
      obtain ⟨-, hq⟩ := Option.ite_none_left_eq_some.mp hq
      cases hq
      cases hf
    | insert y => cases hq
    | code => cases hq
  | release thread y =>
    obtain ⟨conn, -, he⟩ := Option.map_eq_some_iff.mp h
    cases he
    cases hf
  | runAfter thread =>
    obtain ⟨-, he⟩ := Option.ite_none_left_eq_some.mp h
    cases he
    cases hf
  | _ => cases h

theorem Exposes.imp {x : Nat} {closed closed' : Prop} {b : Batches Func} (h : closed → closed')
    (he : Exposes x closed b) :
    Exposes x closed' b := And.imp_left (Or.imp_left h) he

/-- A step of the server exposes only a connection that `NewConnection` has still to enter. -/
theorem exposed_sever (hloops : LoopsOk s.sever) (hfuncs : Matched s.sever s.funcs)
    {a : TcpSever.Act} (hstep : s.sever.step a = some t') {x : Nat} {conn : ConnObject}
    (hobj : t'.objects[x]? = some conn)
    (h : Exposes x (x ∈ t'.released) (enqueue (serve s.funcs a) (queues s.sever a) conn.loop)) :
    s.Exposed x ∨ x ∈ t'.entering := by
  have ht := tableStep_step hloops hstep
  have hserved : ∀ conn : ConnObject, s.sever.objects[x]? = some conn →
      Exposes x (x ∈ t'.released) (serve s.funcs a conn.loop) → s.Exposed x := by
    intro conn hobj hexp
    refine ⟨conn, hobj, ?_⟩
    by_cases hrel : x ∈ t'.released
    · rcases released_step hstep hrel with hin | ⟨i, rfl, hframe⟩
      · exact (exposes_serve hexp).imp fun _ => hin
      · -- the functor of this `ReleaseInloop` is in the batch that is being run
        have hran := (hfuncs i).closes x hframe
        have hrunning : .releaseInloop x ∈ (s.funcs i).running := List.mem_append_left _ hran
        have hcloses : (Func.releaseInloop x).releases x := decide_eq_true rfl
        obtain ⟨conn', hobj', hloop⟩ := (hfuncs i).place _ (List.mem_append_left _ hrunning)
        cases hobj.symm.trans hobj'
        rw [← hloop] at hrunning
        exact Batches.exposed_close hrunning hcloses (hexp.imp fun _ => trivial)
    · exact (exposes_serve hexp).imp fun hin => absurd hin hrel
  rcases objects_step ht with hobjects | ⟨rfl, -⟩
  · rw [hobjects] at hobj
    rcases exposes_enqueue h with hexp | ⟨f, hqueued, huses⟩
    · exact .inl (hserved conn hobj hexp)
    · obtain ⟨i, frame, stack, rfl, hstack, hframe⟩ := queues_uses hqueued huses
      have hinserts := (hfuncs i).inserts
      rw [hstack] at hinserts
      have hinsert : .insert x ∈ (s.sever.loops i).stack := by
        rw [hstack]
        exact List.mem_cons_of_mem frame (hinserts.1 x hframe)
      obtain ⟨rfl, -⟩ := (hloops i).inserts x hinsert
      refine .inr ((entering_step ht (List.mem_filterMap.mpr ⟨_, hinsert, rfl⟩)).resolve_right
        fun hevent => ?_)
      rw [idEvent, hstack] at hevent
      cases frame <;> cases hframe <;> cases hevent
  · -- a new connection has no functor yet
    obtain ⟨m, hf⟩ := h.uses
    obtain ⟨conn', hobj', hloop⟩ := (hfuncs conn.loop).place _ hf
    exact .inl (hserved conn' hobj' (hloop.symm ▸ h))

/-! ## Runs -/

theorem call_cases (hloops : LoopsOk t) {thread : Option Nat} {x : Nat}
    (hstep : t.step (.call thread x) = some t') :
    ∃ conn, t.objects[x]? = some conn ∧ t.runInLoop thread conn.loop .other = some t' ∧
    Kept t t' := by
  obtain ⟨-, hstep⟩ := Option.ite_none_right_eq_some.mp hstep
  obtain ⟨conn, hobj, hstep⟩ := Option.bind_eq_some_iff.mp hstep
  exact ⟨conn, hobj, hstep, kept_runInLoop hloops (by simp [Task.conn]) rfl (by simp) hstep⟩

theorem issued_le {a : Act} (hstep : step s a = some s') : s.sever.issued ≤ s'.sever.issued := by
  cases a with
  | sever a =>
    obtain ⟨-, hstep⟩ := Option.ite_none_right_eq_some.mp hstep
    obtain ⟨t', ht', hstep⟩ := Option.bind_eq_some_iff.mp hstep
    cases hstep
    exact issued_step ht'
  | call thread m x =>
    obtain ⟨-, hstep⟩ := Option.ite_none_right_eq_some.mp hstep
    obtain ⟨t', ht', hstep⟩ := Option.bind_eq_some_iff.mp hstep
    cases hstep
    exact issued_step ht'
  | _ =>
    obtain ⟨-, hstep⟩ := Option.ite_none_right_eq_some.mp hstep
    cases hstep
    exact Nat.le_refl _

/-- The server and the functors in its loops. -/
structure Served (s : ConnOwners) : Prop where
  table : TableOk s.sever
  funcs : Matched s.sever s.funcs

theorem Served.step (h : Served s) {a : Act} (ha : s.KeepsIds a) (hstep : step s a = some s')
    (hissued : s'.sever.issued < 2 ^ 64) : Served s' := by
  cases a with
  | sever a =>
    obtain ⟨hallowed, hstep⟩ := Option.ite_none_right_eq_some.mp hstep
    obtain ⟨t', ht', hstep⟩ := Option.bind_eq_some_iff.mp hstep
    cases hstep
    refine ⟨h.table.step hissued ha ht', h.funcs.sever (fun thread x hcall => ?_) ht'⟩
    rw [hcall] at hallowed
    exact hallowed
  | call thread m x =>
    obtain ⟨-, hstep⟩ := Option.ite_none_right_eq_some.mp hstep
    obtain ⟨t', ht', hstep⟩ := Option.bind_eq_some_iff.mp hstep
    cases hstep
    obtain ⟨conn, hobj, hrun, hkept⟩ := call_cases h.table.loops ht'
    exact ⟨h.table.kept hkept, h.funcs.runInLoop hobj (Func.other_mem_tasks m x) hrun⟩
  | _ =>
    obtain ⟨-, hstep⟩ := Option.ite_none_right_eq_some.mp hstep
    cases hstep
    exact ⟨h.table, h.funcs⟩

theorem served_start (isAbleDelayDel : Bool) (threadCnt : Nat) :
    Served (start isAbleDelayDel threadCnt) where
  table := tableOk_start isAbleDelayDel threadCnt
  funcs i := by
    have hclosed : ∀ x, .serverClosed x ∉
        ((TcpSever.start isAbleDelayDel threadCnt).loops i).stack := by
      intro x hx
      cases stack_start isAbleDelayDel threadCnt i _ hx
    refine ⟨.nil, .nil, fun x hx => absurd hx (hclosed x), fun f hf => absurd hf List.not_mem_nil,
      ?_⟩
    by_cases hi : i = 0 <;> simp [start, TcpSever.start, hi, InsertsLast, announces]

/-- Every exposed connection is guarded. -/
def Safe (s : ConnOwners) : Prop := ∀ x, s.Exposed x → s.Guarded x

theorem le_addTimer (timed : Nat → Nat) (x : Option Nat) (y : Nat) :
    timed y ≤ addTimer timed x y := by
  cases x with
  | none => exact Nat.le_refl _
  | some x =>
    simp only [addTimer]
    by_cases hy : y = x
    · subst hy
      rw [Function.update_self]
      exact Nat.le_succ _
    · rw [Function.update_of_ne hy]

theorem Safe.sever (h : Safe s) (hs : Served s) {a : TcpSever.Act}
    (ha : ∀ x ∈ s.bares (.sever a), ¬s.Exposed x) (hstep : s.sever.step a = some t') :
    Safe { s with
      sever := t'
      funcs := enqueue (serve s.funcs a) (queues s.sever a)
      timed := addTimer s.timed (s.enables a) } := by
  rintro x ⟨conn, hobj, hexp⟩
  rcases exposed_sever hs.table.loops hs.funcs hstep hobj hexp with hexp | hentering
  · rcases h x hexp with hheld | htimed | hentering
    · exact .inl hheld
    · exact .inr (.inl (Nat.lt_of_lt_of_le htimed (le_addTimer _ _ _)))
    · rcases entering_step (tableStep_step hs.table.loops hstep) hentering with hin | hevent
      · exact .inr (.inr hin)
      · have hbare : ¬(s.held x = 0 ∧ s.timed x = 0) := by
          intro hbare
          refine ha x ?_ hexp
          simp only [bares, hevent]
          exact if_pos hbare
        rcases Nat.eq_zero_or_pos (s.held x) with hheld | hheld
        · have htimed : 0 < s.timed x := Nat.pos_of_ne_zero fun htimed => hbare ⟨hheld, htimed⟩
          exact .inr (.inl (Nat.lt_of_lt_of_le htimed (le_addTimer _ _ _)))
        · exact .inl hheld
  · exact .inr (.inr hentering)

/-- Code calls a function of a connection that it has. -/
theorem Safe.call (h : Safe s) (hs : Served s) {thread : Option Nat} {m : Method} {x : Nat}
    (hheld : 0 < s.held x) (hstep : s.sever.step (.call thread x) = some t') {timed : Nat → Nat}
    (htimed : ∀ y, s.timed y ≤ timed y) :
    Safe { s with
      sever := t'
      funcs := enqueue s.funcs (runInLoop s.sever thread m x)
      timed := timed } := by
  obtain ⟨-, -, -, hkept⟩ := call_cases hs.table.loops hstep
  rintro y ⟨conn, hobj, hexp⟩
  dsimp only at hobj hexp
  rw [hkept.objects] at hobj
  rw [hkept.released] at hexp
  rcases exposes_enqueue hexp with hexp | ⟨f, hqueued, huses⟩
  · rcases h y ⟨conn, hobj, hexp⟩ with hy | hy | hy
    · exact .inl hy
    · exact .inr (.inl (Nat.lt_of_lt_of_le hy (htimed y)))
    · exact .inr (.inr (hkept.entering.symm ▸ hy))
  · obtain ⟨conn', -, hqueued⟩ := Option.bind_eq_some_iff.mp hqueued
    obtain ⟨-, hqueued⟩ := Option.ite_none_left_eq_some.mp hqueued
    obtain ⟨-, rfl⟩ := Prod.mk.inj (Option.some.inj hqueued)
    obtain rfl : x = y := of_decide_eq_true huses
    exact .inl hheld

/-- The `ConnPtr`s of one connection are counted anew. -/
theorem Safe.count (h : Safe s) {held timed : Nat → Nat} (x : Nat)
    (hx : s.Exposed x → s.Guarded x → 0 < held x ∨ 0 < timed x ∨ x ∈ s.sever.entering)
    (hne : ∀ y, y ≠ x → held y = s.held y ∧ timed y = s.timed y) :
    Safe { s with held := held, timed := timed } := by
  intro y hexp
  have hguarded := h y hexp
  by_cases hyx : y = x
  · subst hyx
    exact hx hexp hguarded
  · dsimp only [Guarded]
    rw [(hne y hyx).1, (hne y hyx).2]
    exact hguarded

theorem Safe.step (h : Safe s) (hs : Served s) {a : Act} (ha : ∀ x ∈ s.bares a, ¬s.Exposed x)
    (hstep : step s a = some s') :
    Safe s' := by
  cases a with
  | sever a =>
    obtain ⟨-, hstep⟩ := Option.ite_none_right_eq_some.mp hstep
    obtain ⟨t', ht', hstep⟩ := Option.bind_eq_some_iff.mp hstep
    cases hstep
    exact h.sever hs ha ht'
  | call thread m x =>
    obtain ⟨hheld, hstep⟩ := Option.ite_none_right_eq_some.mp hstep
    obtain ⟨t', ht', hstep⟩ := Option.bind_eq_some_iff.mp hstep
    cases hstep
    refine h.call hs hheld ht' fun y => ?_
    split
    · exact le_addTimer _ _ _
    · exact Nat.le_refl _
  | obtain thread x =>
    obtain ⟨-, hstep⟩ := Option.ite_none_right_eq_some.mp hstep
    cases hstep
    refine h.count x (fun _ _ => .inl ?_) fun y hy => ⟨Function.update_of_ne hy _ _, rfl⟩
    rw [Function.update_self]
    exact Nat.succ_pos _
  | drop thread x =>
    obtain ⟨-, hstep⟩ := Option.ite_none_right_eq_some.mp hstep
    cases hstep
    refine h.count x (fun hexp hguarded => ?_) fun y hy => ⟨Function.update_of_ne hy _ _, rfl⟩
    have hbare : ¬(s.held x = 1 ∧ s.timed x = 0 ∧ x ∉ s.sever.entering) :=
      fun hbare => ha x (if_pos hbare) hexp
    rw [Function.update_self]
    by_contra hno
    simp only [not_or, Nat.not_lt, Nat.le_zero] at hno
    have hheld : 0 < s.held x :=
      hguarded.resolve_right fun hx => hx.elim (Nat.ne_of_gt · hno.2.1) hno.2.2
    exact hbare ⟨by omega, hno.2⟩
  | expire x =>
    obtain ⟨-, hstep⟩ := Option.ite_none_right_eq_some.mp hstep
    cases hstep
    refine h.count x (fun hexp hguarded => ?_) fun y hy => ⟨rfl, Function.update_of_ne hy _ _⟩
    have hbare : ¬(s.held x = 0 ∧ s.timed x = 1 ∧ x ∉ s.sever.entering) :=
      fun hbare => ha x (if_pos hbare) hexp
    rw [Function.update_self]
    by_contra hno
    simp only [not_or, Nat.not_lt, Nat.le_zero] at hno
    have htimed : 0 < s.timed x :=
      (hguarded.resolve_left (Nat.ne_of_gt · hno.1)).resolve_right hno.2.2
    exact hbare ⟨hno.1, by omega, hno.2.2⟩

theorem safe_start (isAbleDelayDel : Bool) (threadCnt : Nat) :
    Safe (start isAbleDelayDel threadCnt) := by
  rintro x ⟨conn, hobj, -⟩
  cases hobj

/-! ## The functors of a batch -/

theorem Safe.owned (h : Safe s) (hs : Served s) {f : Func} (hf : f ∈ (s.funcs i).batch) {x : Nat}
    (hx : f.conn = some x) :
    s.Owned x := by
  have hrunning : f ∈ (s.funcs i).running := List.mem_append_right _ hf
  have howner : ∀ j, ∀ g ∈ (s.funcs j).running, g.owns x → s.Owned x :=
    fun j g hg hown => .inr (.inr (.inr (.inr ⟨j, g, List.mem_append_left _ hg, hown⟩)))
  cases f with
  | bound m y =>
    cases hx
    have huses : (Func.bound m x).uses x := decide_eq_true rfl
    obtain ⟨conn, hobj, rfl⟩ := (hs.funcs i).place _ (List.mem_append_left _ hrunning)
    by_cases hexp : Exposes x (x ∈ s.sever.released) (s.funcs conn.loop)
    · rcases h x ⟨conn, hobj, hexp⟩ with hheld | htimed | hentering
      · exact .inr (.inr (.inl hheld))
      · exact .inr (.inr (.inr (.inl htimed)))
      · exact .inr (.inl hentering)
    · rcases Batches.not_exposed hexp hf huses with hrel | ⟨g, hg, hown⟩
      · by_cases hentering : x ∈ s.sever.entering
        · exact .inr (.inl hentering)
        · exact .inl (hs.table.listed x (List.getElem?_eq_some_iff.mp hobj).1 hentering hrel)
      · exact howner _ g hg hown
  | releaseInloop y =>
    cases hx
    exact howner i _ hrunning (decide_eq_true rfl)
  | removeConnectionInLoop y =>
    cases hx
    exact howner i _ hrunning (decide_eq_true rfl)
  | runAfterInLoop => cases hx

/-- A connection without a guard is owned only by its entry and by functors of the base loop
and of its own. -/
theorem Served.not_owned (hs : Served s) {x : Nat} {conn : ConnObject}
    (hobj : s.sever.objects[x]? = some conn) (hguard : ¬s.Guarded x)
    (hkey : s.sever.conns conn.timerId ≠ some x) (hfuncs : ∀ i ∈ [0, conn.loop],
      ∀ f ∈ (s.funcs i).running ++ (s.funcs i).queue, f.owns x = false) : ¬s.Owned x := by
  rintro (⟨key, hfound⟩ | hentering | hheld | htimed | ⟨i, f, hf, howns⟩)
  · obtain ⟨g, hg⟩ := hs.table.ids
    obtain ⟨conn', hobj', rfl⟩ := hg.entries x key (hg.listed key x hfound)
    cases hobj.symm.trans hobj'
    exact hkey hfound
  · exact hguard (.inr (.inr hentering))
  · exact hguard (.inl hheld)
  · exact hguard (.inr (.inl htimed))
  · have hplace := (hs.funcs i).place f hf
    have hi : i ∈ [0, conn.loop] := by
      cases f with
      | releaseInloop y =>
        obtain rfl : y = x := of_decide_eq_true howns
        obtain ⟨conn', hobj', rfl⟩ := hplace
        cases hobj.symm.trans hobj'
        exact List.mem_cons_of_mem _ List.mem_cons_self
      | removeConnectionInLoop y =>
        obtain rfl : i = 0 := hplace
        exact List.mem_cons_self
      | _ => cases howns
    exact Bool.false_ne_true ((hfuncs i hi f hf).symm.trans howns)

/-- In any run in which the ids stay faithful, there are fewer than 2⁶⁴ of them, and no exposed
connection loses its last guard: the connection of every functor that is still to be run in a batch
has a `ConnPtr`. -/
theorem live_targets (isAbleDelayDel : Bool) (threadCnt : Nat) (acts : List Act) (s : ConnOwners)
    (hacts : Along step Careful (start isAbleDelayDel threadCnt) acts)
    (h : exec step (start isAbleDelayDel threadCnt) acts = some s)
    (hissued : s.sever.issued < 2 ^ 64) :
    ∀ i, ∀ f ∈ (s.funcs i).batch, ∀ x, f.conn = some x → s.Owned x := by
  have hinv : s.sever.issued < 2 ^ 64 → Served s ∧ Safe s := by
    refine exec_invariant (fun s => s.sever.issued < 2 ^ 64 → Served s ∧ Safe s) ?_
      (fun _ => ⟨served_start isAbleDelayDel threadCnt, safe_start isAbleDelayDel threadCnt⟩) hacts h
    intro s a s' hI ha hstep hs'
    obtain ⟨hserved, hsafe⟩ := hI (Nat.lt_of_le_of_lt (issued_le hstep) hs')
    exact ⟨hserved.step ha.1 hstep hs', hsafe.step hserved ha.2 hstep⟩
  obtain ⟨hserved, hsafe⟩ := hinv hissued
  exact fun i f hf x hx => hsafe.owned hserved hf hx

/-- A user gets a `ConnPtr` in the connect callback, releases the connection, and sends again after
the base loop has taken it out of `_conns`. -/
def sendAfterRelease : List Act :=
  [.sever (.ret 0), .sever (.pollReturn 0), .sever .accept, .sever (.next 0), .sever (.next 0),
    .sever (.next 0),
    .sever (.pollReturn 1), .sever (.swap 1), .sever (.runTask 1), .obtain (some 1) 0,
      .sever (.ret 1), .sever (.batchDone 1),
    .sever (.release none 0), .sever (.pollReturn 1), .sever (.swap 1), .sever (.runTask 1),
      .sever (.ret 1), .sever (.next 1),
    .sever (.batchDone 1), .sever (.swap 0), .sever (.runTask 0), .sever (.batchDone 0),
      .call none .sendInLoop 0]

/-- The worker takes its queue. -/
def workerTurns : List Act := [.sever (.pollReturn 1), .sever (.swap 1)]

/-- As long as the user keeps its `ConnPtr`, the functor of `Send` finds the connection. -/
theorem live_targets_held :
    ∃ s, exec step (start false 1) (sendAfterRelease ++ workerTurns) = some s ∧
    (s.funcs 1).batch = [.bound .sendInLoop 0] ∧ 0 ∈ s.sever.released ∧ s.Owned 0 := by
  have hrun : (exec step (start false 1) (sendAfterRelease ++ workerTurns)).any (fun s =>
      (s.funcs 1).batch = [.bound .sendInLoop 0] ∧ 0 ∈ s.sever.released ∧ s.sever.issued < 2 ^ 64) =
        true := by
    decide +kernel
  obtain ⟨s, hs, hend⟩ := (Option.any_eq_true _ _).mp hrun
  obtain ⟨hbatch, hreleased, hissued⟩ := of_decide_eq_true hend
  refine ⟨s, hs, hbatch, hreleased, ?_⟩
  have hsend : .bound .sendInLoop 0 ∈ (s.funcs 1).batch := by
    rw [hbatch]
    exact List.mem_cons_self
  exact live_targets false 1 _ s (by decide +kernel) hs hissued 1 _ hsend 0 rfl

/-- Once the user gives up its `ConnPtr`, the functor of `Send` has `this` of a connection
that is gone. -/
theorem send_outlives_connection :
    ∃ s, exec step (start false 1) (sendAfterRelease ++ .drop none 0 :: workerTurns) = some s ∧
    (s.funcs 1).batch = [.bound .sendInLoop 0] ∧ ¬s.Owned 0 := by
  have hrun : (exec step (start false 1) (sendAfterRelease ++ .drop none 0 :: workerTurns)).any
      (fun s =>
      (s.funcs 1).batch = [.bound .sendInLoop 0] ∧ s.sever.issued < 2 ^ 64 ∧ ¬s.Guarded 0 ∧
        s.sever.objects[0]?.any (fun conn => s.sever.conns conn.timerId ≠ some 0 ∧
          ∀ i ∈ [0, conn.loop], ∀ f ∈ (s.funcs i).running ++ (s.funcs i).queue, f.owns 0 = false)) =
            true := by
    decide +kernel
  obtain ⟨s, hs, hend⟩ := (Option.any_eq_true _ _).mp hrun
  obtain ⟨hbatch, hissued, hguard, hconn⟩ := of_decide_eq_true hend
  obtain ⟨conn, hobj, hconn⟩ := (Option.any_eq_true _ _).mp hconn
  obtain ⟨hkey, hfuncs⟩ := of_decide_eq_true hconn
  have hids : Along step KeepsIds (start false 1)
      (sendAfterRelease ++ .drop none 0 :: workerTurns) := by decide +kernel
  have hserved : s.sever.issued < 2 ^ 64 → Served s := by
    refine exec_invariant (fun s => s.sever.issued < 2 ^ 64 → Served s) ?_
      (fun _ => served_start false 1) hids hs
    intro s a s' hI ha hstep hs'
    exact (hI (Nat.lt_of_le_of_lt (issued_le hstep) hs')).step ha hstep hs'
  exact ⟨s, hs, hbatch, (hserved hissued).not_owned hobj hguard hkey hfuncs⟩

end ConnOwners
end MuduoServer
