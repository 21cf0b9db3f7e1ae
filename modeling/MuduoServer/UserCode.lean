import MuduoServer.LifeCycle

/-!
# How user code comes to run

A step of the loop calls at most one callback and opens at most one frame of user
code, which is the callback's when one is called. The connect callback is called
by `EstablishedInLoop` alone.
-/
namespace MuduoServer
namespace Loop

/-- The frames of user code. -/
def depth (s : Loop) : Nat := s.stack.count .user

/-- From `s` to `s'` nothing was called and no user code opened. -/
def Silent (s s' : Loop) : Prop := s'.invoked = s.invoked ∧ s'.depth = s.depth

/-- What opened from `s` to `s'`; `K` says what may have been called. -/
inductive Opens (K : Invocation → Prop) (s s' : Loop) : Prop where
  | nothing (h : Silent s s')
  | code (hinvoked : s'.invoked = s.invoked) (hdepth : s'.depth = s.depth + 1)
  | callback (i : Invocation) (hi : K i) (hinvoked : s'.invoked = s.invoked ++ [i])
    (hdepth : s'.depth = s.depth + 1)

variable {K K' : Invocation → Prop} {s s₁ s' : Loop} {c : Nat} {conn : Connection}

theorem Opens.mono (h : Opens K s s') (hK : ∀ i, K i → K' i) : Opens K' s s' := by
  cases h with
  | nothing h => exact .nothing h
  | code hinvoked hdepth => exact .code hinvoked hdepth
  | callback i hi hinvoked hdepth => exact .callback i (hK i hi) hinvoked hdepth

/-- Before and after what opens there may be more that is silent. -/
theorem Opens.after (h : Opens K s₁ s') (hs : Silent s s₁) : Opens K s s' := by
  obtain ⟨hinv, hdep⟩ := hs
  cases h with
  | nothing h => exact .nothing ⟨h.1.trans hinv, h.2.trans hdep⟩
  | code hinvoked hdepth => exact .code (hinvoked.trans hinv) (by rw [hdepth, hdep])
  | callback i hi hinvoked hdepth =>
    exact .callback i hi (by rw [hinvoked, hinv]) (by rw [hdepth, hdep])

theorem silent_push (h : Silent s s₁) (f : Frame) (hf : f ≠ .user) : Silent s (s₁.push f) := by
  refine ⟨h.1, ?_⟩
  rw [← h.2]
  simp [depth, push, hf]

theorem opens_invoke (s : Loop) (c : Nat) (conn : Connection) (kind : Callback) :
    Opens (fun i => i.conn = c ∧ i.kind = kind) s (s.invoke c conn kind) := by
  unfold invoke
  cases conn.callbacks kind with
  | none => exact .nothing ⟨rfl, rfl⟩
  | some f => exact .callback ⟨c, kind, f⟩ ⟨rfl, rfl⟩ rfl (by simp [depth])

theorem opens_message (s : Loop) (c : Nat) (conn : Connection) :
    Opens (fun i => i.conn = c ∧ i.kind = .message) s (s.message c conn) := by
  unfold message
  split
  · exact opens_invoke s c conn .message
  · exact .nothing ⟨rfl, rfl⟩

/-! ## The functions of a connection -/

theorem opens_shutDownInLoop (s : Loop) (c : Nat) (conn : Connection) :
    Opens (fun i => i.conn = c ∧ i.kind = .message) s (s.shutDownInLoop c conn) :=
  (opens_message _ _ _).after (silent_push ⟨rfl, rfl⟩ (.shutDownRest c) (by simp))

theorem opens_handerClose (s : Loop) (c : Nat) (conn : Connection) :
    Opens (fun i => i.conn = c ∧ i.kind = .message) s (s.handerClose c conn) :=
  (opens_message _ _ _).after (silent_push ⟨rfl, rfl⟩ (.release c) (by simp))

theorem opens_handerRead {r : SysResult} {bytes : StdString.Bytes}
    (h : s.handerRead c conn r bytes = some s') :
    Opens (fun i => i.conn = c ∧ i.kind = .message) s s' := by
  unfold handerRead at h
  split at h
  · cases h
    exact opens_shutDownInLoop s c conn
  · obtain ⟨inbuffer, -, h⟩ := Option.bind_eq_some_iff.mp h
    cases h
    exact (opens_message _ _ _).after ⟨rfl, rfl⟩

theorem opens_handerWrite {r : SysResult} (h : s.handerWrite c conn r = some s') :
    Opens (fun i => i.conn = c ∧ i.kind = .message) s s' := by
  unfold handerWrite at h
  dsimp only at h
  split at h
  · cases h
    exact opens_handerClose s c conn
  · obtain ⟨outbuffer, -, h⟩ := Option.bind_eq_some_iff.mp h
    split at h
    · split at h
      · cases h
        exact .nothing (silent_push ⟨rfl, rfl⟩ (.release c) (by simp))
      · cases h
        exact .nothing ⟨rfl, rfl⟩
    · cases h
      exact .nothing ⟨rfl, rfl⟩

theorem silent_sendInLoop {b : Buffer} (h : s.sendInLoop c conn b = some s') : Silent s s' := by
  unfold sendInLoop at h
  split at h
  · cases h
    exact ⟨rfl, rfl⟩
  · obtain ⟨outbuffer, -, h⟩ := Option.bind_eq_some_iff.mp h
    dsimp only at h
    split at h
    · cases h
      exact ⟨rfl, rfl⟩
    · cases h
      exact ⟨rfl, rfl⟩

theorem opens_releaseInloop (s : Loop) (c : Nat) (conn : Connection) :
    Opens (fun i => i.conn = c ∧ i.kind = .close) s (s.releaseInloop c conn) := by
  -- with or without a timer to disable
  have hclose : ∀ s₁ : Loop, Silent s s₁ →
      Opens (fun i => i.conn = c ∧ i.kind = .close) s
        ((s₁.push (.serverClosed c)).invoke c conn .close) := by
    intro s₁ hs
    exact (opens_invoke _ c conn .close).after (silent_push hs (.serverClosed c) (by simp))
  unfold releaseInloop
  dsimp only
  split
  · exact hclose _ ⟨rfl, rfl⟩
  · exact hclose _ ⟨rfl, rfl⟩

theorem opens_runTask {task : Task} (h : s.runTask task = some s') :
    Opens (fun i => i.kind = .connect → task = .establishedInLoop i.conn) s s' := by
  cases task with
  | user =>
    cases h
    exact .code rfl (by simp [depth, push])
  | sendInLoop c b =>
    obtain ⟨conn, -, h⟩ := Option.bind_eq_some_iff.mp h
    exact .nothing (silent_sendInLoop h)
  | shutDownInLoop c =>
    obtain ⟨conn, -, h⟩ := Option.bind_eq_some_iff.mp h
    cases h
    apply (opens_shutDownInLoop s c conn).mono
    rintro i ⟨-, hkind⟩ hconnect
    cases hkind.symm.trans hconnect
  | enableTimeoutDelInLoop c sec =>
    obtain ⟨conn, -, h⟩ := Option.bind_eq_some_iff.mp h
    obtain ⟨wheel, -, h⟩ := Option.bind_eq_some_iff.mp h
    cases h
    exact .nothing ⟨rfl, rfl⟩
  | disableTimeoutDelInLoop c =>
    obtain ⟨conn, -, h⟩ := Option.bind_eq_some_iff.mp h
    cases h
    exact .nothing ⟨rfl, rfl⟩
  | establishedInLoop c =>
    obtain ⟨conn, -, h⟩ := Option.bind_eq_some_iff.mp h
    cases h
    unfold establishedInLoop
    split
    · exact .nothing ⟨rfl, rfl⟩
    · have hcall := opens_invoke (s.fdAddRead c conn) c conn .connect
      apply (hcall.after (s := s) ⟨rfl, rfl⟩).mono
      rintro i ⟨hconn, -⟩ _
      rw [hconn]
  | releaseInloop c =>
    obtain ⟨conn, -, h⟩ := Option.bind_eq_some_iff.mp h
    cases h
    apply (opens_releaseInloop s c conn).mono
    rintro i ⟨-, hkind⟩ hconnect
    cases hkind.symm.trans hconnect

theorem opens_runFrame {f : Frame} (h : s.runFrame f = some s') :
    Opens (fun i => i.kind ≠ .connect) s s' := by
  have hmessage : ∀ c (i : Invocation), i.conn = c ∧ i.kind = .message → i.kind ≠ .connect := by
    rintro c i ⟨-, hkind⟩ hconnect
    cases hkind.symm.trans hconnect
  cases f with
  | release c =>
    cases h
    exact .nothing ⟨rfl, rfl⟩
  | serverClosed c =>
    obtain ⟨conn, -, h⟩ := Option.bind_eq_some_iff.mp h
    cases h
    apply (opens_invoke s c conn .serverClosed).mono
    rintro i ⟨-, hkind⟩ hconnect
    cases hkind.symm.trans hconnect
  | handerClose c =>
    obtain ⟨conn, -, h⟩ := Option.bind_eq_some_iff.mp h
    cases h
    exact (opens_handerClose s c conn).mono (hmessage c)
  | handerErr c =>
    obtain ⟨conn, -, h⟩ := Option.bind_eq_some_iff.mp h
    cases h
    exact (opens_handerClose s c conn).mono (hmessage c)
  | handerEvent c =>
    obtain ⟨conn, -, h⟩ := Option.bind_eq_some_iff.mp h
    obtain ⟨wheel, -, h⟩ := Option.bind_eq_some_iff.mp h
    cases h
    have hcall := opens_invoke { s with wheel := wheel } c conn .event
    apply (hcall.after (s := s) ⟨rfl, rfl⟩).mono
    rintro i ⟨-, hkind⟩ hconnect
    cases hkind.symm.trans hconnect
  | shutDownRest c =>
    obtain ⟨conn, -, h⟩ := Option.bind_eq_some_iff.mp h
    cases h
    unfold shutDownRest
    split
    · split
      · exact .nothing ⟨rfl, rfl⟩
      · exact .nothing ⟨rfl, rfl⟩
    · exact .nothing (silent_push ⟨rfl, rfl⟩ (.release c) (by simp))
  | handerRead c => cases h
  | handerWrite c => cases h
  | user => cases h

/-! ## The steps -/

/-- A frame that goes on is no user code. -/
theorem silent_pop {f : Frame} {stack : List Frame} (hs : s.stack = f :: stack) (hf : f ≠ .user) :
    Silent s { s with stack := stack } := by
  refine ⟨rfl, ?_⟩
  simp [depth, hs, hf]

theorem depth_idle (h : s.stack = []) : s.depth = 0 := by simp [depth, h]

/-- Of the steps only the return of user code closes a frame of it. -/
theorem opens_step {a : Act} (ha : a ≠ .ret) (h : step s a = some s') :
    Opens (fun i => i.kind = .connect → s.event i.conn a = .established) s s' := by
  cases a with
  | ret => exact absurd rfl ha
  | pollReturn ready =>
    obtain ⟨-, -, polled, active, hpoll, rfl⟩ := step_pollReturn h
    obtain ⟨conns, rfl, -⟩ := poll_eq hpoll
    exact .nothing ⟨rfl, rfl⟩
  | handle =>
    obtain ⟨c, active, conn, -, hs, -, rfl⟩ := step_handle h
    refine .nothing ⟨rfl, ?_⟩
    rw [depth_idle hs]
    simp only [depth, channelHanderEvent]
    grind
  | timer =>
    obtain ⟨active, -, hs, rfl⟩ := step_timer h
    refine .nothing ⟨rfl, ?_⟩
    rw [depth_idle hs]
    simp only [depth, oneTime, hs, List.append_nil, List.count_eq_zero, List.mem_map,
      not_exists, not_and]
    intro t _ he
    cases he
  | other =>
    obtain ⟨-, -, -, rfl⟩ := step_other h
    exact .code rfl (by simp [depth, push])
  | swap =>
    obtain ⟨-, -, rfl⟩ := step_swap h
    exact .nothing ⟨rfl, rfl⟩
  | runTask =>
    obtain ⟨task, batch, hp, -, hrun⟩ := step_runTask h
    apply ((opens_runTask hrun).after (s := s) ⟨rfl, rfl⟩).mono
    intro i hi hconnect
    simp [event, executes, hp, hi hconnect, taskEvent]
  | batchDone =>
    obtain ⟨-, -, rfl⟩ := step_batchDone h
    exact .nothing ⟨rfl, rfl⟩
  | next =>
    obtain ⟨f, stack, hs, hrun⟩ := step_next h
    have hf : f ≠ .user := by
      rintro rfl
      cases hrun
    apply ((opens_runFrame hrun).after (silent_pop hs hf)).mono
    intro i hi hconnect
    exact absurd hconnect hi
  | recv r bytes =>
    obtain ⟨c, stack, conn, hs, -, -, hrun⟩ := step_recv h
    apply ((opens_handerRead hrun).after (silent_pop hs (by simp))).mono
    rintro i ⟨-, hkind⟩ hconnect
    cases hkind.symm.trans hconnect
  | send r =>
    obtain ⟨c, stack, conn, hs, -, hrun⟩ := step_send h
    apply ((opens_handerWrite hrun).after (silent_pop hs (by simp))).mono
    rintro i ⟨-, hkind⟩ hconnect
    cases hkind.symm.trans hconnect
  | call task =>
    obtain ⟨-, -, hrun⟩ := step_call h
    apply (opens_runTask hrun).mono
    intro i hi hconnect
    simp [event, executes, hi hconnect, taskEvent]
  | release c =>
    obtain ⟨-, -, rfl⟩ := step_release h
    exact .nothing (silent_push ⟨rfl, rfl⟩ (.release c) (by simp))
  | changeProtocal c connectCb closeCb msgCb =>
    obtain ⟨-, conn, -, rfl⟩ := step_changeProtocal h
    exact .nothing ⟨rfl, rfl⟩
  | consume c len =>
    obtain ⟨-, conn, inbuffer, -, -, rfl⟩ := step_consume h
    exact .nothing ⟨rfl, rfl⟩
  | newConnection c fd callbacks =>
    obtain ⟨-, -, rfl⟩ := step_newConnection h
    exact .nothing ⟨rfl, rfl⟩
  | post task =>
    cases h
    exact .nothing ⟨rfl, rfl⟩

/-- Bytes that arrive call the message callback, if one is set. -/
theorem invoked_received {r : SysResult} {bytes : StdString.Bytes} {f : Nat}
    (h : step s (.recv r bytes) = some s') (he : s.event c (.recv r bytes) = .received bytes)
    (hc : s.conns c = some conn) (hf : conn.callbacks .message = some f)
    (hne : (s'.view c).input ≠ []) :
    s'.invoked = s.invoked ++ [⟨c, .message, f⟩] := by
  obtain ⟨d, stack, conn', hs, hc', -, hrun⟩ := step_recv h
  have hd : d = c := by
    by_contra hd
    simp [event, hs, hd] at he
  subst hd
  cases hc.symm.trans hc'
  have hpos : ¬Socket.recv r < 0 := by
    intro hneg
    simp [event, hs, hneg] at he
  unfold handerRead at hrun
  rw [if_neg hpos] at hrun
  obtain ⟨inbuffer, -, hrun⟩ := Option.bind_eq_some_iff.mp hrun
  cases hrun
  rw [view_message, view_set] at hne
  have hread : 0 < inbuffer.currentEnableReadSpaceSize :=
    Nat.pos_of_ne_zero fun hzero => hne ((unread_eq_nil inbuffer).mpr hzero)
  simp only [message, hread, if_true, invoke, hf]
  rfl

end Loop
end MuduoServer
