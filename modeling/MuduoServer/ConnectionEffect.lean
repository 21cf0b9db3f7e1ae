import MuduoServer.Connection

/-!
# What one step of the loop can do

Running code of one connection changes that connection, its own slot in the
poller and the wheel; it calls callbacks, pushes frames and leaves the task queue
alone. The few other steps are listed one by one.
-/
namespace MuduoServer
namespace Loop

/-- The running code of connection `c` took the loop from `s` to `s'` and executed no
part of `ReleaseInloop`. -/
structure Work (c : Nat) (s s' : Loop) : Prop where
  taskQueue : s'.taskQueue = s.taskQueue
  phase : s'.phase = s.phase
  others : ∀ d, d ≠ c → s'.conns d = s.conns d
  kept : (s'.conns c).map (fun k => (k.sockfd, k.socket)) =
    (s.conns c).map (fun k => (k.sockfd, k.socket))
  channels : ∀ fd d, s'.poller.channels fd = some d → s.poller.channels fd = some d ∨
    d = c ∧ (s.conns c).map Connection.sockfd = some fd
  stack : ∃ new, s'.stack = new ++ s.stack ∧ ∀ f ∈ new, f = .user ∨ f = .shutDownRest c ∨
    f = .release c
  invoked : ∃ new, s'.invoked = s.invoked ++ new ∧
    ∀ i ∈ new, i.conn = c ∧ i.kind ≠ .close ∧ i.kind ≠ .serverClosed

namespace Work

variable {c : Nat} {s s' s'' : Loop}

theorem refl (c : Nat) (s : Loop) : Work c s s :=
  ⟨rfl, rfl, fun _ _ => rfl, rfl, fun _ _ h => .inl h, ⟨[], rfl, by simp⟩, ⟨[], by simp⟩⟩

theorem sockfd (h : Work c s s') :
    (s'.conns c).map Connection.sockfd = (s.conns c).map Connection.sockfd := by
  have hk := congrArg (Option.map Prod.fst) h.kept
  simpa [Option.map_map, Function.comp_def] using hk

theorem trans (h : Work c s s') (h' : Work c s' s'') : Work c s s'' where
  taskQueue := h'.taskQueue.trans h.taskQueue
  phase := h'.phase.trans h.phase
  others d hd := (h'.others d hd).trans (h.others d hd)
  kept := h'.kept.trans h.kept
  channels fd d hch := by
    rcases h'.channels fd d hch with hold | ⟨hd, hfd⟩
    · exact h.channels fd d hold
    · exact .inr ⟨hd, h.sockfd ▸ hfd⟩
  stack := by
    obtain ⟨new, he, hnew⟩ := h.stack
    obtain ⟨new', he', hnew'⟩ := h'.stack
    refine ⟨new' ++ new, by rw [he', he, List.append_assoc], ?_⟩
    intro f hf
    rcases List.mem_append.mp hf with hf | hf
    · exact hnew' f hf
    · exact hnew f hf
  invoked := by
    obtain ⟨new, he, hnew⟩ := h.invoked
    obtain ⟨new', he', hnew'⟩ := h'.invoked
    refine ⟨new ++ new', by rw [he', he, List.append_assoc], ?_⟩
    intro i hi
    rcases List.mem_append.mp hi with hi | hi
    · exact hnew i hi
    · exact hnew' i hi

end Work

variable {s s' : Loop} {c : Nat} {conn : Connection}

@[simp] theorem conns_set (s : Loop) (c : Nat) (conn : Connection) :
    (s.set c conn).conns c = some conn := by
  simp [set]

/-- The connection may change in everything but its descriptors. -/
theorem work_set (hc : s.conns c = some conn) (conn' : Connection)
    (hfd : conn'.sockfd = conn.sockfd) (hsocket : conn'.socket = conn.socket) :
    Work c s (s.set c conn') where
  taskQueue := rfl
  phase := rfl
  others d hd := by simp [set, hd]
  kept := by simp [hc, hfd, hsocket]
  channels _ _ h := .inl h
  stack := ⟨[], rfl, by simp⟩
  invoked := ⟨[], by simp [set]⟩

theorem work_push {f : Frame} (hf : f = .user ∨ f = .shutDownRest c ∨ f = .release c) :
    Work c s (s.push f) :=
  ⟨rfl, rfl, fun _ _ => rfl, rfl, fun _ _ h => .inl h, ⟨[f], rfl, by simpa using hf⟩,
    ⟨[], by simp [push]⟩⟩

/-- Calling a callback logs the call and leaves its user code to run, or does nothing. -/
theorem invoke_spec (s : Loop) (c : Nat) (conn : Connection) (kind : Callback) : ∃ calls frames,
    s.invoke c conn kind = { s with invoked := s.invoked ++ calls, stack := frames ++ s.stack } ∧
      calls.length ≤ 1 ∧ (∀ i ∈ calls, i.conn = c ∧ i.kind = kind) ∧ ∀ f ∈ frames, f = .user := by
  unfold invoke
  cases conn.callbacks kind with
  | none => exact ⟨[], [], by simp, by simp, nofun, nofun⟩
  | some f => exact ⟨[⟨c, kind, f⟩], [.user], rfl, by simp, by simp, by simp⟩

theorem work_invoke (kind : Callback) (hclose : kind ≠ .close) (hserver : kind ≠ .serverClosed) :
    Work c s (s.invoke c conn kind) := by
  obtain ⟨calls, frames, he, -, hcalls, hframes⟩ := invoke_spec s c conn kind
  rw [he]
  refine ⟨rfl, rfl, fun _ _ => rfl, rfl, fun _ _ h => .inl h,
    ⟨frames, rfl, fun f hf => .inl (hframes f hf)⟩,
    ⟨calls, rfl, fun i hi => ⟨(hcalls i hi).1, ?_⟩⟩⟩
  rw [(hcalls i hi).2]
  exact ⟨hclose, hserver⟩

theorem work_message : Work c s (s.message c conn) := by
  unfold message
  by_cases h : 0 < conn.inbuffer.currentEnableReadSpaceSize
  · rw [if_pos h]
    exact work_invoke .message (by decide) (by decide)
  · rw [if_neg h]
    exact .refl c s

theorem work_wheel (w : TimeWheel Nat) : Work c s { s with wheel := w } :=
  ⟨rfl, rfl, fun _ _ => rfl, rfl, fun _ _ h => .inl h, ⟨[], rfl, by simp⟩, ⟨[], by simp⟩⟩

theorem work_unpate (hc : s.conns c = some conn) (conn' : Connection)
    (hfd : conn'.sockfd = conn.sockfd) (hsocket : conn'.socket = conn.socket) :
    Work c s (s.unpate c conn') := by
  have hset := work_set hc conn' hfd hsocket
  refine ⟨rfl, rfl, hset.others, hset.kept, ?_, hset.stack, hset.invoked⟩
  intro fd d hch
  simp only [unpate] at hch
  rcases s.poller.channels_updateEvent c conn'.sockfd conn'.event with he | he
  · rw [he] at hch
    exact .inl hch
  · rw [he] at hch
    by_cases hd : fd = conn'.sockfd
    · subst hd
      rw [Function.update_self, Option.some.injEq] at hch
      exact .inr ⟨hch.symm, by simp [hc, hfd]⟩
    · rw [Function.update_of_ne hd] at hch
      exact .inl hch

/-! ## The functions of a connection -/

theorem work_shutDownInLoop (hc : s.conns c = some conn) : Work c s (s.shutDownInLoop c conn) :=
  ((work_set hc { conn with status := .disconnecting } rfl rfl).trans
    (work_push (.inr (.inl rfl)))).trans work_message

theorem work_shutDownRest (hc : s.conns c = some conn) : Work c s (s.shutDownRest c conn) := by
  unfold shutDownRest
  split
  · split
    · exact .refl c s
    · exact work_unpate hc _ rfl rfl
  · exact work_push (.inr (.inr rfl))

theorem work_handerRead (hc : s.conns c = some conn) {r : SysResult} {bytes : StdString.Bytes}
    (h : s.handerRead c conn r bytes = some s') : Work c s s' := by
  unfold handerRead at h
  split at h
  · cases h
    exact work_shutDownInLoop hc
  · obtain ⟨inbuffer, -, h⟩ := Option.bind_eq_some_iff.mp h
    cases h
    exact (work_set hc { conn with inbuffer := inbuffer } rfl rfl).trans work_message

theorem work_handerClose : Work c s (s.handerClose c conn) :=
  (work_push (.inr (.inr rfl))).trans work_message

theorem work_handerWrite (hc : s.conns c = some conn) {r : SysResult}
    (h : s.handerWrite c conn r = some s') : Work c s s' := by
  unfold handerWrite at h
  dsimp only at h
  split at h
  · cases h
    exact work_handerClose
  · obtain ⟨outbuffer, -, h⟩ := Option.bind_eq_some_iff.mp h
    have hset := work_set hc { conn with outbuffer := outbuffer } rfl rfl
    split at h
    · have hdel := hset.trans (work_unpate (conns_set s c { conn with outbuffer := outbuffer })
        { conn with outbuffer := outbuffer, event := conn.event &&& ~~~epollOut } rfl rfl)
      split at h
      · cases h
        exact hdel.trans (work_push (.inr (.inr rfl)))
      · cases h
        exact hdel
    · cases h
      exact hset

theorem work_handerEvent {s' : Loop} (h : s.handerEvent c conn = some s') : Work c s s' := by
  obtain ⟨wheel, -, h⟩ := Option.bind_eq_some_iff.mp h
  cases h
  exact (work_wheel wheel).trans (work_invoke .event (by decide) (by decide))

theorem work_sendInLoop (hc : s.conns c = some conn) {b : Buffer}
    (h : s.sendInLoop c conn b = some s') : Work c s s' := by
  unfold sendInLoop at h
  split at h
  · cases h
    exact .refl c s
  · obtain ⟨outbuffer, -, h⟩ := Option.bind_eq_some_iff.mp h
    have hset := work_set hc { conn with outbuffer := outbuffer } rfl rfl
    dsimp only at h
    split at h
    · cases h
      exact hset
    · cases h
      exact hset.trans (work_unpate (conns_set s c { conn with outbuffer := outbuffer }) _ rfl rfl)

theorem work_establishedInLoop (hc : s.conns c = some conn) :
    Work c s (s.establishedInLoop c conn) := by
  unfold establishedInLoop
  split
  · exact .refl c s
  · exact (work_unpate hc { conn with event := conn.event ||| epollIn } rfl rfl).trans
      (work_invoke .connect (by decide) (by decide))

theorem work_enableTimeoutDelInLoop (hc : s.conns c = some conn) {sec : Int}
    (h : s.enableTimeoutDelInLoop c conn sec = some s') : Work c s s' := by
  obtain ⟨wheel, -, h⟩ := Option.bind_eq_some_iff.mp h
  cases h
  exact (work_set hc { conn with isEnableTimeDel := true } rfl rfl).trans (work_wheel wheel)

theorem work_disableTimeoutDelInLoop (hc : s.conns c = some conn) :
    Work c s (s.disableTimeoutDelInLoop c conn) :=
  (work_set hc { conn with isEnableTimeDel := false } rfl rfl).trans
    (work_wheel (s.wheel.disableTimeoutDelInLoop c))

/-- `ReleaseInloop` of connection `c` took the loop from `s` to `s'`, up to the call of
`_Close_Cb`. -/
structure Closing (c : Nat) (conn : Connection) (s s' : Loop) : Prop where
  taskQueue : s'.taskQueue = s.taskQueue
  phase : s'.phase = s.phase
  others : ∀ d, d ≠ c → s'.conns d = s.conns d
  closed : ∃ k, s'.conns c = some k ∧ k.status = .disconnected ∧ k.socket = none ∧
    k.sockfd = conn.sockfd
  channels : s'.poller.channels = Function.update s.poller.channels conn.sockfd none
  stack : ∃ new, s'.stack = new ++ .serverClosed c :: s.stack ∧ ∀ f ∈ new, f = .user
  invoked : ∃ new, s'.invoked = s.invoked ++ new ∧ new.length ≤ 1 ∧ ∀ i ∈ new, i.conn = c ∧
    i.kind = .close

theorem channels_detach (s : Loop) (c : Nat) (conn : Connection) :
    (s.detach c conn).poller.channels = Function.update s.poller.channels conn.sockfd none := by
  unfold detach
  cases conn.socket <;> simp

theorem closing_releaseInloop (s : Loop) (c : Nat) (conn : Connection) :
    Closing c conn s (s.releaseInloop c conn) := by
  have hch := channels_detach s c conn
  -- with or without a timer to disable, `_Close_Cb` finds the same loop
  have hbefore : ∀ s₁ : Loop, s₁.taskQueue = s.taskQueue → s₁.phase = s.phase →
      (∀ d, d ≠ c → s₁.conns d = s.conns d) →
      (∃ k, s₁.conns c = some k ∧ k.status = .disconnected ∧ k.socket = none ∧
        k.sockfd = conn.sockfd) →
      s₁.poller = (s.detach c conn).poller → s₁.stack = s.stack → s₁.invoked = s.invoked →
      Closing c conn s ((s₁.push (.serverClosed c)).invoke c conn .close) := by
    intro s₁ hqueue hphase hothers hclosed hpoller hstack hinvoked
    obtain ⟨calls, frames, he, hlen, hcalls, hframes⟩ :=
      invoke_spec (s₁.push (.serverClosed c)) c conn .close
    rw [he]
    exact ⟨hqueue, hphase, hothers, hclosed, by simpa [push, hpoller] using hch,
      ⟨frames, by simp [push, hstack], hframes⟩, ⟨calls, by simp [push, hinvoked], hlen, hcalls⟩⟩
  unfold releaseInloop
  dsimp only
  split
  · refine hbefore _ rfl rfl ?_ ⟨_, conns_set _ _ _, rfl, rfl, rfl⟩ rfl rfl rfl
    intro d hd
    simp [disableTimeoutDelInLoop, detach, set, hd]
  · refine hbefore _ rfl rfl ?_ ⟨_, conns_set _ _ _, rfl, rfl, rfl⟩ rfl rfl rfl
    intro d hd
    simp [detach, set, hd]

/-- A task runs user code, releases a connection, or is work on its connection. -/
theorem runTask_cases {task : Task} (h : s.runTask task = some s') :
    task = .user ∧ s' = s.push .user ∨
    (∃ c conn, task = .releaseInloop c ∧ s.conns c = some conn ∧ s' = s.releaseInloop c conn) ∨
    ∃ c, task.conn = some c ∧ task.releases = none ∧ Work c s s' := by
  cases task with
  | user =>
    cases h
    exact .inl ⟨rfl, rfl⟩
  | releaseInloop c =>
    obtain ⟨conn, hc, h⟩ := Option.bind_eq_some_iff.mp h
    cases h
    exact .inr (.inl ⟨c, conn, rfl, hc, rfl⟩)
  | sendInLoop c b =>
    obtain ⟨conn, hc, h⟩ := Option.bind_eq_some_iff.mp h
    exact .inr (.inr ⟨c, rfl, rfl, work_sendInLoop hc h⟩)
  | shutDownInLoop c =>
    obtain ⟨conn, hc, h⟩ := Option.bind_eq_some_iff.mp h
    cases h
    exact .inr (.inr ⟨c, rfl, rfl, work_shutDownInLoop hc⟩)
  | enableTimeoutDelInLoop c sec =>
    obtain ⟨conn, hc, h⟩ := Option.bind_eq_some_iff.mp h
    exact .inr (.inr ⟨c, rfl, rfl, work_enableTimeoutDelInLoop hc h⟩)
  | disableTimeoutDelInLoop c =>
    obtain ⟨conn, hc, h⟩ := Option.bind_eq_some_iff.mp h
    cases h
    exact .inr (.inr ⟨c, rfl, rfl, work_disableTimeoutDelInLoop hc⟩)
  | establishedInLoop c =>
    obtain ⟨conn, hc, h⟩ := Option.bind_eq_some_iff.mp h
    cases h
    exact .inr (.inr ⟨c, rfl, rfl, work_establishedInLoop hc⟩)

/-- A frame calls `Release`, ends a `ReleaseInloop`, or is work on its connection. -/
theorem runFrame_cases {f : Frame} (h : s.runFrame f = some s') :
    (∃ c, f = .release c ∧ s' = s.queueInLoop (.releaseInloop c)) ∨
    (∃ c conn, f = .serverClosed c ∧ s.conns c = some conn ∧ s' = s.invoke c conn .serverClosed) ∨
    ∃ c, f.conn = some c ∧ f ≠ .release c ∧ f ≠ .serverClosed c ∧ Work c s s' := by
  cases f with
  | release c =>
    cases h
    exact .inl ⟨c, rfl, rfl⟩
  | serverClosed c =>
    obtain ⟨conn, hc, h⟩ := Option.bind_eq_some_iff.mp h
    cases h
    exact .inr (.inl ⟨c, conn, rfl, hc, rfl⟩)
  | handerClose c =>
    obtain ⟨conn, hc, h⟩ := Option.bind_eq_some_iff.mp h
    cases h
    exact .inr (.inr ⟨c, rfl, nofun, nofun, work_handerClose⟩)
  | handerErr c =>
    obtain ⟨conn, hc, h⟩ := Option.bind_eq_some_iff.mp h
    cases h
    exact .inr (.inr ⟨c, rfl, nofun, nofun, work_handerClose⟩)
  | handerEvent c =>
    obtain ⟨conn, hc, h⟩ := Option.bind_eq_some_iff.mp h
    exact .inr (.inr ⟨c, rfl, nofun, nofun, work_handerEvent h⟩)
  | shutDownRest c =>
    obtain ⟨conn, hc, h⟩ := Option.bind_eq_some_iff.mp h
    cases h
    exact .inr (.inr ⟨c, rfl, nofun, nofun, work_shutDownRest hc⟩)
  | handerRead c => cases h
  | handerWrite c => cases h
  | user => cases h

/-- `Poll` only sets `_revent` of connections whose channel is registered. -/
theorem poll_eq {ready : List (Nat × UInt32)} {active : List Nat}
    (h : s.poll ready = some (s', active)) :
    ∃ conns, s' = { s with conns := conns } ∧
      (∀ c, (conns c).map ({ · with revent := 0 }) = (s.conns c).map ({ · with revent := 0 })) ∧
      (∀ c, (∀ fd, s.poller.channels fd ≠ some c) → conns c = s.conns c) ∧
      ∀ c ∈ active, ∃ fd, s.poller.channels fd = some c := by
  induction ready generalizing s active with
  | nil =>
    cases h
    exact ⟨s'.conns, rfl, fun _ => rfl, fun _ _ => rfl, nofun⟩
  | cons e ready ih =>
    obtain ⟨fd, revents⟩ := e
    obtain ⟨c, hch, h⟩ := Option.bind_eq_some_iff.mp h
    obtain ⟨conn, hc, h⟩ := Option.bind_eq_some_iff.mp h
    obtain ⟨⟨s₁, active₁⟩, hpoll, h⟩ := Option.bind_eq_some_iff.mp h
    cases h
    obtain ⟨conns, rfl, hsame, hother, hactive⟩ := ih hpoll
    refine ⟨conns, rfl, ?_, ?_, ?_⟩
    · intro d
      rw [hsame d]
      by_cases hd : d = c
      · subst hd
        simp [set, hc]
      · simp [set, hd]
    · intro d hnone
      have hd : d ≠ c := fun he => hnone fd (he ▸ hch)
      rw [hother d hnone]
      simp [set, hd]
    · intro d hd
      rcases List.mem_cons.mp hd with rfl | hd
      · exact ⟨fd, hch⟩
      · exact hactive d hd

/-! ## The steps of the loop -/

/-- The connection whose code a step runs. -/
def actsOn (s : Loop) : Act → Option Nat
  | .handle =>
    match s.phase with
    | .handle (c :: _) => some c
    | _ => none
  | .runTask =>
    match s.phase with
    | .run (task :: _) => task.conn
    | _ => none
  | .next | .recv _ _ | .send _ => s.stack.head?.bind Frame.conn
  | .call task => task.conn
  | .release c | .changeProtocal c _ _ _ | .consume c _ => some c
  | _ => none

/-- How code of connection `c` comes to run: a frame goes on, a task leaves the batch, or
user code calls it. -/
inductive Enters (s : Loop) (c : Nat) : Loop → Prop where
  | frame {f : Frame} {stack : List Frame} (hs : s.stack = f :: stack) (hc : f.conn = some c)
      (hrelease : f ≠ .release c) (hserver : f ≠ .serverClosed c) : Enters s c
        { s with stack := stack }
  | task {task : Task} {batch : List Task} (hp : s.phase = .run (task :: batch))
    (hc : task.conn = some c)
      (hrelease : task.releases = none) : Enters s c { s with phase := .run batch }
  | user : Enters s c s

inductive Effect (s : Loop) : Act → Loop → Prop where
  | work {a : Act} {c : Nat} {s₀ s' : Loop} (hon : s.actsOn a = some c) (henter : Enters s c s₀)
      (hwork : Work c s₀ s') : Effect s a s'
  | releaseInloop {c : Nat} {conn : Connection} {batch : List Task}
      (hp : s.phase = .run (.releaseInloop c :: batch)) (hs : s.stack = [])
        (hc : s.conns c = some conn) :
      Effect s .runTask (({ s with phase := .run batch } : Loop).releaseInloop c conn)
  | release {c : Nat} {stack : List Frame} (hs : s.stack = .release c :: stack) :
      Effect s .next (({ s with stack := stack } : Loop).queueInLoop (.releaseInloop c))
  | serverClosed {c : Nat} {conn : Connection} {stack : List Frame}
      (hs : s.stack = .serverClosed c :: stack) (hc : s.conns c = some conn) :
      Effect s .next (({ s with stack := stack } : Loop).invoke c conn .serverClosed)
  | pollReturn {ready : List (Nat × UInt32)} {conns : Nat → Option Connection} {active : List Nat}
      (hp : s.phase = .poll)
      (hsame : ∀ c, (conns c).map ({ · with revent := 0 }) = (s.conns c).map ({ · with revent := 0 }))
      (hother : ∀ c, (∀ fd, s.poller.channels fd ≠ some c) → conns c = s.conns c)
      (hactive : ∀ c ∈ active, ∃ fd, s.poller.channels fd = some c) :
      Effect s (.pollReturn ready) { s with conns := conns, phase := .handle active }
  | handle {c : Nat} {conn : Connection} {active : List Nat} (hp : s.phase = .handle (c :: active))
      (hs : s.stack = []) (hc : s.conns c = some conn) :
      Effect s .handle { s with phase := .handle active, stack := channelHanderEvent c conn.revent }
  | timer {active : List Nat} (hp : s.phase = .handle active)
    (hs : s.stack = []) : Effect s .timer s.oneTime
  | other : Effect s .other (s.push .user)
  | swap (hp : s.phase = .handle []) (hs : s.stack = []) :
      Effect s .swap { s with taskQueue := [], phase := .run s.taskQueue }
  | userTask {batch : List Task} (hp : s.phase = .run (.user :: batch)) :
      Effect s .runTask (({ s with phase := .run batch } : Loop).push .user)
  | userCall : Effect s (.call .user) (s.push .user)
  | batchDone (hp : s.phase = .run []) : Effect s .batchDone { s with phase := .poll }
  | ret {stack : List Frame} (hs : s.stack = .user :: stack) : Effect s .ret
    { s with stack := stack }
  | newConnection {c fd : Nat} {callbacks : Callback → Option Nat} {conn : Connection}
      (hc : s.conns c = none) (hsocket : conn.socket = some fd) (hfd : conn.sockfd = fd) :
      Effect s (.newConnection c fd callbacks) { s.set c conn with poller := s.poller.opened fd }
  | post (task : Task) : Effect s (.post task) (s.queueInLoop task)

theorem idle_iff : s.idle = true ↔ s.stack = [] := List.isEmpty_iff

/-! What each act finds when it is enabled. -/

theorem step_pollReturn {ready : List (Nat × UInt32)} (h : step s (.pollReturn ready) = some s') :
    s.phase = .poll ∧ (∀ e ∈ ready, (s.poller.interest e.1).isSome) ∧ ∃ polled active,
      s.poll ready = some (polled, active) ∧ s' = { polled with phase := .handle active } := by
  simp only [step] at h
  split at h
  · rename_i hp
    obtain ⟨⟨polled, active⟩, hpoll, h⟩ := Option.map_eq_some_iff.mp h
    cases h
    exact ⟨hp.1, hp.2, polled, active, hpoll, rfl⟩
  · cases h

theorem step_timer (h : step s .timer = some s') :
    ∃ active, s.phase = .handle active ∧ s.stack = [] ∧ s' = s.oneTime := by
  simp only [step] at h
  split at h
  · rename_i active hp
    split at h
    · rename_i hs
      cases h
      exact ⟨active, hp, idle_iff.mp hs, rfl⟩
    · cases h
  · cases h

theorem step_other (h : step s .other = some s') :
    ∃ active, s.phase = .handle active ∧ s.stack = [] ∧ s' = s.push .user := by
  simp only [step] at h
  split at h
  · rename_i active hp
    split at h
    · rename_i hs
      cases h
      exact ⟨active, hp, idle_iff.mp hs, rfl⟩
    · cases h
  · cases h

theorem step_swap (h : step s .swap = some s') :
    s.phase = .handle [] ∧ s.stack = [] ∧
    s' = { s with taskQueue := [], phase := .run s.taskQueue } := by
  simp only [step] at h
  split at h
  · rename_i hp
    split at h
    · rename_i hs
      cases h
      exact ⟨hp, idle_iff.mp hs, rfl⟩
    · cases h
  · cases h

theorem step_batchDone (h : step s .batchDone = some s') :
    s.phase = .run [] ∧ s.stack = [] ∧ s' = { s with phase := .poll } := by
  simp only [step] at h
  split at h
  · rename_i hp
    split at h
    · rename_i hs
      cases h
      exact ⟨hp, idle_iff.mp hs, rfl⟩
    · cases h
  · cases h

theorem step_handle (h : step s .handle = some s') : ∃ c active conn,
    s.phase = .handle (c :: active) ∧ s.stack = [] ∧ s.conns c = some conn ∧
      s' = { s with phase := .handle active, stack := channelHanderEvent c conn.revent } := by
  simp only [step] at h
  split at h
  · rename_i c active hp
    split at h
    · rename_i hs
      obtain ⟨conn, hc, h⟩ := Option.bind_eq_some_iff.mp h
      cases h
      exact ⟨c, active, conn, hp, idle_iff.mp hs, hc, rfl⟩
    · cases h
  · cases h

theorem step_runTask (h : step s .runTask = some s') : ∃ task batch,
    s.phase = .run (task :: batch) ∧ s.stack = [] ∧
      ({ s with phase := .run batch } : Loop).runTask task = some s' := by
  simp only [step] at h
  split at h
  · rename_i task batch hp
    split at h
    · rename_i hs
      exact ⟨task, batch, hp, idle_iff.mp hs, h⟩
    · cases h
  · cases h

theorem step_next (h : step s .next = some s') : ∃ f stack,
    s.stack = f :: stack ∧ ({ s with stack := stack } : Loop).runFrame f = some s' := by
  simp only [step] at h
  split at h
  · rename_i f stack hs
    exact ⟨f, stack, hs, h⟩
  · cases h

theorem step_recv {r : SysResult} {bytes : StdString.Bytes} (h : step s (.recv r bytes) = some s') :
    ∃ c stack conn, s.stack = .handerRead c :: stack ∧ s.conns c = some conn ∧
      (r.ret ≤ 65535 ∧ bytes.length = (Socket.recv r).toNat) ∧
      ({ s with stack := stack } : Loop).handerRead c conn r bytes = some s' := by
  simp only [step] at h
  split at h
  · rename_i c stack hs
    split at h
    · rename_i hread
      obtain ⟨conn, hc, h⟩ := Option.bind_eq_some_iff.mp h
      exact ⟨c, stack, conn, hs, hc, hread, h⟩
    · cases h
  · cases h

theorem step_send {r : SysResult} (h : step s (.send r) = some s') :
    ∃ c stack conn, s.stack = .handerWrite c :: stack ∧ s.conns c = some conn ∧
      ({ s with stack := stack } : Loop).handerWrite c conn r = some s' := by
  simp only [step] at h
  split at h
  · rename_i c stack hs
    obtain ⟨conn, hc, h⟩ := Option.bind_eq_some_iff.mp h
    exact ⟨c, stack, conn, hs, hc, h⟩
  · cases h

theorem step_call {task : Task} (h : step s (.call task) = some s') :
    s.inUser ∧ task.releases = none ∧ s.runTask task = some s' := by
  simp only [step] at h
  split at h
  · rename_i huser
    exact ⟨huser.1, huser.2, h⟩
  · cases h

theorem step_release (h : step s (.release c) = some s') :
    s.inUser ∧ (s.conns c).isSome ∧ s' = s.push (.release c) := by
  simp only [step] at h
  split at h
  · rename_i huser
    cases h
    exact ⟨huser.1, huser.2, rfl⟩
  · cases h

theorem step_changeProtocal {connectCb closeCb msgCb : Option Nat}
    (h : step s (.changeProtocal c connectCb closeCb msgCb) = some s') :
    s.inUser ∧ ∃ conn, s.conns c = some conn ∧
    s' = s.changeProtocalInLoop c conn connectCb closeCb msgCb := by
  simp only [step] at h
  split at h
  · rename_i huser
    obtain ⟨conn, hc, h⟩ := Option.bind_eq_some_iff.mp h
    cases h
    exact ⟨huser, conn, hc, rfl⟩
  · cases h

theorem step_consume {len : Nat} (h : step s (.consume c len) = some s') :
    s.inUser ∧ ∃ conn inbuffer, s.conns c = some conn ∧
    conn.inbuffer.moveReadPosition len = some inbuffer ∧
      s' = s.set c { conn with inbuffer := inbuffer } := by
  simp only [step] at h
  split at h
  · rename_i huser
    obtain ⟨conn, hc, h⟩ := Option.bind_eq_some_iff.mp h
    obtain ⟨inbuffer, hmove, h⟩ := Option.bind_eq_some_iff.mp h
    cases h
    exact ⟨huser, conn, inbuffer, hc, hmove, rfl⟩
  · cases h

theorem step_ret (h : step s .ret = some s') :
    ∃ stack, s.stack = .user :: stack ∧ s' = { s with stack := stack } := by
  simp only [step] at h
  split at h
  · rename_i stack hs
    cases h
    exact ⟨stack, hs, rfl⟩
  · cases h

theorem step_newConnection {fd : Nat} {callbacks : Callback → Option Nat}
    (h : step s (.newConnection c fd callbacks) = some s') :
    s.conns c = none ∧ s.poller.isOpen fd = false ∧
      s' = { s.set c ⟨fd, .connecting, false, some fd, 0, 0, Buffer.empty, Buffer.empty, callbacks⟩ with
        poller := s.poller.opened fd } := by
  simp only [step] at h
  split at h
  · rename_i hnew
    cases h
    exact ⟨Option.isNone_iff_eq_none.mp hnew.1, hnew.2, rfl⟩
  · cases h

theorem step_effect {a : Act} (h : step s a = some s') : Effect s a s' := by
  cases a with
  | pollReturn ready =>
    obtain ⟨hp, -, polled, active, hpoll, rfl⟩ := step_pollReturn h
    obtain ⟨conns, rfl, hsame, hother, hactive⟩ := poll_eq hpoll
    exact .pollReturn hp hsame hother hactive
  | handle =>
    obtain ⟨c, active, conn, hp, hs, hc, rfl⟩ := step_handle h
    exact .handle hp hs hc
  | timer =>
    obtain ⟨active, hp, hs, rfl⟩ := step_timer h
    exact .timer hp hs
  | other =>
    obtain ⟨-, -, -, rfl⟩ := step_other h
    exact .other
  | swap =>
    obtain ⟨hp, hs, rfl⟩ := step_swap h
    exact .swap hp hs
  | runTask =>
    obtain ⟨task, batch, hp, hs, h⟩ := step_runTask h
    rcases runTask_cases h with ⟨rfl, rfl⟩ | ⟨c, conn, rfl, hc, rfl⟩ | ⟨c, hc, hrelease, hwork⟩
    · exact .userTask hp
    · exact .releaseInloop hp hs hc
    · exact .work (by simpa [actsOn, hp] using hc) (.task hp hc hrelease) hwork
  | batchDone =>
    obtain ⟨hp, -, rfl⟩ := step_batchDone h
    exact .batchDone hp
  | next =>
    obtain ⟨f, stack, hs, h⟩ := step_next h
    rcases runFrame_cases h with ⟨c, rfl, rfl⟩ | ⟨c, conn, rfl, hc, rfl⟩ |
      ⟨c, hc, hrelease, hserver, hwork⟩
    · exact .release hs
    · exact .serverClosed hs hc
    · exact .work (by simpa [actsOn, hs] using hc) (.frame hs hc hrelease hserver) hwork
  | recv r bytes =>
    obtain ⟨c, stack, conn, hs, hc, -, h⟩ := step_recv h
    exact .work (by simp [actsOn, hs, Frame.conn]) (.frame hs rfl nofun nofun)
      (work_handerRead hc h)
  | send r =>
    obtain ⟨c, stack, conn, hs, hc, h⟩ := step_send h
    exact .work (by simp [actsOn, hs, Frame.conn]) (.frame hs rfl nofun nofun)
      (work_handerWrite hc h)
  | call task =>
    obtain ⟨huser, hnot, h⟩ := step_call h
    rcases runTask_cases h with ⟨rfl, rfl⟩ | ⟨c, conn, rfl, hc, rfl⟩ | ⟨c, hc, hrelease, hwork⟩
    · exact .userCall
    · cases hnot
    · exact .work hc .user hwork
  | release c =>
    obtain ⟨-, -, rfl⟩ := step_release h
    exact .work rfl .user (work_push (.inr (.inr rfl)))
  | changeProtocal c connectCb closeCb msgCb =>
    obtain ⟨-, conn, hc, rfl⟩ := step_changeProtocal h
    exact .work rfl .user (work_set hc _ rfl rfl)
  | consume c len =>
    obtain ⟨-, conn, inbuffer, hc, -, rfl⟩ := step_consume h
    exact .work rfl .user (work_set hc _ rfl rfl)
  | ret =>
    obtain ⟨stack, hs, rfl⟩ := step_ret h
    exact .ret hs
  | newConnection c fd callbacks =>
    obtain ⟨hc, -, rfl⟩ := step_newConnection h
    exact .newConnection hc rfl rfl
  | post task =>
    cases h
    exact .post task

end Loop
end MuduoServer
