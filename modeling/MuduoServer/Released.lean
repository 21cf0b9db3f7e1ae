import MuduoServer.CloseOnce

/-!
# A connection after its release

The poller knows a channel by its descriptor alone, and of the functions that act
on a released connection only `SendInLoop` and `EstablishedInLoop` look at its
status. The others do no harm as long as neither `ShutDownInLoop` nor another
`ReleaseInloop` is among them.
-/
namespace MuduoServer
namespace Loop

open Transition

/-- Every registered channel is registered under its own descriptor. -/
def Keyed (s : Loop) : Prop :=
  ∀ fd c, s.poller.channels fd = some c → (s.conns c).map Connection.sockfd = some fd

variable {c d : Nat} {s s' : Loop} {conn : Connection}

theorem Keyed.congr (h : Keyed s) (hpoller : s'.poller = s.poller)
    (hsockfd : ∀ c, (s'.conns c).map Connection.sockfd = (s.conns c).map Connection.sockfd) :
    Keyed s' := by
  intro fd c hch
  rw [hpoller] at hch
  rw [hsockfd]
  exact h fd c hch

theorem Keyed.work (h : Keyed s) (hwork : Work d s s') : Keyed s' := by
  have hsockfd : ∀ c, (s'.conns c).map Connection.sockfd = (s.conns c).map Connection.sockfd := by
    intro c
    by_cases hc : c = d
    · rw [hc]
      exact hwork.sockfd
    · rw [hwork.others c hc]
  intro fd c hch
  rw [hsockfd]
  rcases hwork.channels fd c hch with hold | ⟨rfl, hfd⟩
  · exact h fd c hold
  · exact hfd

theorem Keyed.enters (h : Keyed s) (henter : Enters s d s') : Keyed s' := by
  cases henter <;> exact h

theorem Keyed.closing (h : Keyed s) (hc : s.conns d = some conn) (hclosing : Closing d conn s s') :
    Keyed s' := by
  obtain ⟨k, hk, -, -, hfd⟩ := hclosing.closed
  intro fd c hch
  rw [hclosing.channels] at hch
  by_cases he : fd = conn.sockfd
  · rw [he, Function.update_self] at hch
    cases hch
  · rw [Function.update_of_ne he] at hch
    by_cases hcd : c = d
    · have hold := h fd c hch
      rw [hcd, hc] at hold
      rw [hcd, hk]
      simpa [hfd] using hold
    · rw [hclosing.others c hcd]
      exact h fd c hch

theorem keyed_step {a : Act} (h : Keyed s) (hstep : step s a = some s') : Keyed s' := by
  cases step_effect hstep with
  | work hon henter hwork => exact (h.enters henter).work hwork
  | @releaseInloop d conn batch hp hs hc =>
    have h₀ : Keyed { s with phase := .run batch } := h
    exact h₀.closing hc (closing_releaseInloop _ d conn)
  | release hs => exact h
  | @serverClosed d conn stack hs hc =>
    obtain ⟨calls, frames, he, -⟩ :=
      invoke_spec ({ s with stack := stack } : Loop) d conn .serverClosed
    rw [he]
    exact h
  | pollReturn hp hsame hother hactive =>
    refine h.congr rfl fun c => ?_
    have hs := congrArg (Option.map Connection.sockfd) (hsame c)
    simpa only [Option.map_map, Function.comp_def] using hs
  | handle hp hs hc => exact h
  | timer hp hs => exact h
  | other => exact h
  | swap hp hs => exact h
  | userTask hp => exact h
  | userCall => exact h
  | batchDone hp => exact h
  | ret hs => exact h
  | @newConnection d fd callbacks conn hc hsocket hfd =>
    intro fd' c hch
    have hold := h fd' c hch
    by_cases hcd : c = d
    · rw [hcd, hc] at hold
      cases hold
    · simpa [set, hcd] using hold
  | post task => exact h

theorem keyed_start : Keyed start := nofun

/-- The calls of callbacks of connection `c`. -/
def callsOf (s : Loop) (c : Nat) : List Invocation := s.invoked.filter fun i => i.conn = c

/-- The functor that a step executes. -/
def executes (s : Loop) : Act → Option Task
  | .call task => some task
  | .runTask =>
    match s.phase with
    | .run (task :: _) => some task
    | _ => none
  | _ => none

/-- The step executes neither `ShutDownInLoop` nor `ReleaseInloop` of connection `c`. -/
def LeftAlone (c : Nat) (s : Loop) (a : Act) : Prop :=
  s.executes a ≠ some (.shutDownInLoop c) ∧ s.executes a ≠ some (.releaseInloop c)

instance (c : Nat) (s : Loop) (a : Act) : Decidable (LeftAlone c s a) :=
  inferInstanceAs (Decidable (_ ∧ _))

/-- From `s` to `s'` the connection stayed disconnected and none of its callbacks ran but
the one that its `ReleaseInloop` still had to call. -/
structure Inert (c : Nat) (s s' : Loop) : Prop where
  status : (s'.conns c).map Connection.status = some .disconnected
  calls : s'.callsOf c = s.callsOf c ∨ ∃ f, s'.callsOf c = s.callsOf c ++ [⟨c, .serverClosed, f⟩]

/-- A step that runs code of connection `c` leaves the poller alone. -/
def SparesPoller (c : Nat) (s : Loop) (a : Act) : Prop :=
  s.actsOn a = some c → ∀ s', step s a = some s' → s'.poller = s.poller

/-- What holds of connection `c` from its `ReleaseInloop` on; `log` are the calls up to
`_Close_Cb`. -/
structure Gone (c : Nat) (log : List Invocation) (s : Loop) : Prop where
  conn : ∃ k, s.conns c = some k ∧ k.status = .disconnected
  channels : ∀ fd, s.poller.channels fd ≠ some c
  active : ∀ active, s.phase = .handle active → c ∉ active
  frames : ∀ f ∈ s.stack, f.conn = some c → f = .release c ∨ f = .serverClosed c
  calls : ∃ calls, s.callsOf c = log ++ calls ∧ (∀ i ∈ calls, i.conn = c ∧ i.kind = .serverClosed) ∧
    calls.length + s.stack.count (.serverClosed c) ≤ 1

variable {log : List Invocation}

theorem callsOf_append {new : List Invocation} (h : s'.invoked = s.invoked ++ new)
    (hnew : ∀ i ∈ new, i.conn ≠ c) :
    s'.callsOf c = s.callsOf c := by
  have hnil : new.filter (fun i => i.conn = c) = [] := by
    rw [List.filter_eq_nil_iff]
    intro i hi
    simpa using hnew i hi
  rw [callsOf, h, List.filter_append, hnil, List.append_nil]
  rfl

/-- Steps that keep the connection, add frames of others and call other callbacks. -/
theorem Gone.mono (h : Gone c log s) (hconn : s'.conns c = s.conns c)
    (hchannels : ∀ fd, s'.poller.channels fd = some c → s.poller.channels fd = some c)
    (hactive : ∀ active, s'.phase = .handle active → c ∉ active)
    (hframes : ∀ f ∈ s'.stack, f.conn = some c → f ∈ s.stack ∨ f = .release c)
    (hcount : s'.stack.count (.serverClosed c) ≤ s.stack.count (.serverClosed c))
    (hcalls : s'.callsOf c = s.callsOf c) : Gone c log s' := by
  obtain ⟨k, hk, hstatus⟩ := h.conn
  obtain ⟨calls, he, hkind, hlen⟩ := h.calls
  refine ⟨⟨k, hconn.trans hk, hstatus⟩, fun fd hfd => h.channels fd (hchannels fd hfd), hactive, ?_,
    ⟨calls, hcalls.trans he, hkind, by omega⟩⟩
  intro f hf hfc
  rcases hframes f hf hfc with hold | hnew
  · exact h.frames f hold hfc
  · exact .inl hnew

theorem Gone.pop (h : Gone c log s) {f : Frame} {stack : List Frame} (hs : s.stack = f :: stack) :
    Gone c log { s with stack := stack } := by
  refine h.mono rfl (fun _ => id) h.active ?_ ?_ rfl
  · intro f' hf' _
    exact .inl (hs ▸ List.mem_cons_of_mem f hf')
  · rw [hs]
    exact (List.sublist_cons_self _ _).count_le _

theorem Gone.push (h : Gone c log s) (frames : List Frame)
    (hframes : ∀ f ∈ frames, f.conn = some c → f = .release c) :
    Gone c log { s with stack := frames ++ s.stack } := by
  refine h.mono rfl (fun _ => id) h.active ?_ ?_ rfl
  · intro f hf hfc
    rcases List.mem_append.mp hf with hnew | hold
    · exact .inr (hframes f hnew hfc)
    · exact .inl hold
  · rw [count_stack fun hin => by cases hframes _ hin rfl]

theorem Gone.take (h : Gone c log s) (batch : List Task) :
    Gone c log { s with phase := .run batch } :=
  h.mono rfl (fun _ => id) nofun (fun _ hf _ => .inl hf) (Nat.le_refl _) rfl

/-- Work on another connection. -/
theorem Gone.work (h : Gone c log s) (hne : d ≠ c) (hwork : Work d s s') : Gone c log s' := by
  obtain ⟨frames, hstack, hframes⟩ := hwork.stack
  obtain ⟨calls, hinvoked, hcalls⟩ := hwork.invoked
  refine h.mono (hwork.others c hne.symm) ?_ ?_ ?_ ?_
    (callsOf_append hinvoked fun i hi => (hcalls i hi).1 ▸ hne)
  · intro fd hfd
    rcases hwork.channels fd c hfd with hold | ⟨he, -⟩
    · exact hold
    · exact absurd he.symm hne
  · intro active hp
    exact h.active active (hwork.phase ▸ hp)
  · intro f hf hfc
    rw [hstack] at hf
    rcases List.mem_append.mp hf with hnew | hold
    · rcases hframes f hnew with rfl | rfl | rfl
      · cases hfc
      · exact absurd (Option.some.inj hfc) hne
      · exact absurd (Option.some.inj hfc) hne
    · exact .inl hold
  · rw [hstack, count_stack]
    intro hin
    rcases hframes _ hin with he | he | he <;> cases he

theorem Gone.set (h : Gone c log s) (k : Connection) (hstatus : k.status = .disconnected)
    (w : TimeWheel Nat) :
    Gone c log { s.set c k with wheel := w } :=
  ⟨⟨k, conns_set s c k, hstatus⟩, h.channels, h.active, h.frames, h.calls⟩

/-- Code that looks the connection up goes on with it. -/
theorem found (hc : s.conns c = some conn) {f : Connection → Option Loop}
    (h : (s.conns c).bind f = some s') :
    f conn = some s' := by
  rwa [hc] at h

/-- What else runs on a disconnected connection touches its timeout flag and the wheel at most. -/
theorem runTask_disconnected (hc : s.conns c = some conn) (hstatus : conn.status = .disconnected)
    {task : Task} (htask : task.conn = some c) (hshut : task ≠ .shutDownInLoop c)
    (hrelease : task ≠ .releaseInloop c) (h : s.runTask task = some s') :
    s' = s ∨ ∃ k w, k.status = .disconnected ∧ s' = { s.set c k with wheel := w } := by
  cases task with
  | user => cases htask
  | shutDownInLoop d =>
    cases htask
    exact absurd rfl hshut
  | releaseInloop d =>
    cases htask
    exact absurd rfl hrelease
  | sendInLoop d b =>
    cases htask
    have h := found hc h
    rw [sendInLoop, if_pos hstatus] at h
    cases h
    exact .inl rfl
  | establishedInLoop d =>
    cases htask
    have h := found hc h
    cases h
    rw [establishedInLoop, if_pos (by rw [hstatus]; decide)]
    exact .inl rfl
  | enableTimeoutDelInLoop d sec =>
    cases htask
    have h := found hc h
    obtain ⟨w, -, h⟩ := Option.bind_eq_some_iff.mp h
    cases h
    exact .inr ⟨{ conn with isEnableTimeDel := true }, w, hstatus, rfl⟩
  | disableTimeoutDelInLoop d =>
    cases htask
    have h := found hc h
    cases h
    exact .inr ⟨{ conn with isEnableTimeDel := false }, s.wheel.disableTimeoutDelInLoop c, hstatus,
      rfl⟩

theorem Gone.task (h : Gone c log s) {task : Task} (htask : task.conn = some c)
    (hshut : task ≠ .shutDownInLoop c) (hrelease : task ≠ .releaseInloop c)
    (hrun : s.runTask task = some s') :
    Gone c log s' ∧ s'.poller = s.poller := by
  obtain ⟨k, hc, hstatus⟩ := h.conn
  rcases runTask_disconnected hc hstatus htask hshut hrelease hrun with rfl | ⟨k', w, hk', rfl⟩
  · exact ⟨h, rfl⟩
  · exact ⟨h.set k' hk' w, rfl⟩

/-- The end of its `ReleaseInloop` makes the one call that was left. -/
theorem Gone.serverClosed (h : Gone c log s) {stack : List Frame}
    (hs : s.stack = .serverClosed c :: stack) :
    Gone c log (({ s with stack := stack } : Loop).invoke c conn .serverClosed) := by
  obtain ⟨new, frames, he, hlen, hnew, hframes⟩ :=
    invoke_spec ({ s with stack := stack } : Loop) c conn .serverClosed
  obtain ⟨calls, hcalls, hkind, hone⟩ := h.calls
  rw [hs, List.count_cons_self] at hone
  rw [he]
  refine ⟨h.conn, h.channels, h.active, ?_, ⟨calls ++ new, ?_, ?_, ?_⟩⟩
  · intro f hf hfc
    rcases List.mem_append.mp hf with hf | hf
    · rw [hframes f hf] at hfc
      cases hfc
    · exact h.frames f (hs ▸ List.mem_cons_of_mem _ hf) hfc
  · have hall : new.filter (fun i => i.conn = c) = new := by
      rw [List.filter_eq_self]
      intro i hi
      simpa using (hnew i hi).1
    simp only [callsOf, List.filter_append, hall] at hcalls ⊢
    rw [hcalls, List.append_assoc]
  · intro i hi
    rcases List.mem_append.mp hi with hi | hi
    · exact hkind i hi
    · exact hnew i hi
  · show (calls ++ new).length + (frames ++ stack).count (.serverClosed c) ≤ 1
    have hnot : Frame.serverClosed c ∉ frames := serverClosed_not_mem hframes
    rw [count_stack hnot, List.length_append]
    omega

/-- A step that runs code of the released connection. -/
theorem gone_step_on (h : Gone c log s) {a : Act} (ha : LeftAlone c s a) (hon : s.actsOn a = some c)
    (hstep : step s a = some s') : Gone c log s' ∧ s'.poller = s.poller := by
  cases a with
  | handle =>
    simp only [actsOn] at hon
    split at hon
    · rename_i d active hp
      cases hon
      exact absurd (List.mem_cons_self ..) (h.active _ hp)
    · cases hon
  | runTask =>
    obtain ⟨task, batch, hp, -, hrun⟩ := step_runTask hstep
    simp only [actsOn, hp] at hon
    simp only [LeftAlone, executes, hp, ne_eq, Option.some.injEq] at ha
    exact (h.take batch).task hon ha.1 ha.2 hrun
  | next =>
    obtain ⟨f, stack, hs, hrun⟩ := step_next hstep
    have hfc : f.conn = some c := by simpa [actsOn, hs] using hon
    rcases h.frames f (hs ▸ List.mem_cons_self ..) hfc with rfl | rfl
    · cases hrun
      exact ⟨(h.pop hs).mono rfl (fun _ => id) h.active (fun _ hf _ => .inl hf) (Nat.le_refl _) rfl,
        rfl⟩
    · obtain ⟨k, hk, hrun⟩ := Option.bind_eq_some_iff.mp hrun
      cases hrun
      obtain ⟨new, frames, he, -⟩ :=
        invoke_spec ({ s with stack := stack } : Loop) c k .serverClosed
      exact ⟨h.serverClosed hs, by rw [he]⟩
  | recv r bytes =>
    obtain ⟨d, stack, conn, hs, -⟩ := step_recv hstep
    have hfc : some d = some c := by simpa [actsOn, hs, Frame.conn] using hon
    rcases h.frames (.handerRead d) (hs ▸ List.mem_cons_self ..) hfc with he | he <;> cases he
  | send r =>
    obtain ⟨d, stack, conn, hs, -⟩ := step_send hstep
    have hfc : some d = some c := by simpa [actsOn, hs, Frame.conn] using hon
    rcases h.frames (.handerWrite d) (hs ▸ List.mem_cons_self ..) hfc with he | he <;> cases he
  | call task =>
    obtain ⟨-, -, hrun⟩ := step_call hstep
    simp only [LeftAlone, executes, ne_eq, Option.some.injEq] at ha
    exact h.task hon ha.1 ha.2 hrun
  | release d =>
    cases hon
    obtain ⟨-, -, rfl⟩ := step_release hstep
    exact ⟨h.push [.release c] (by simp), rfl⟩
  | changeProtocal d connectCb closeCb msgCb =>
    cases hon
    obtain ⟨conn, hc, hstatus⟩ := h.conn
    obtain ⟨-, k, hk, rfl⟩ := step_changeProtocal hstep
    cases hc.symm.trans hk
    exact ⟨h.set { conn with callbacks := changedCallbacks conn.callbacks connectCb closeCb msgCb }
      hstatus s.wheel, rfl⟩
  | consume d len =>
    cases hon
    obtain ⟨conn, hc, hstatus⟩ := h.conn
    obtain ⟨-, k, inbuffer, hk, -, rfl⟩ := step_consume hstep
    cases hc.symm.trans hk
    exact ⟨h.set { conn with inbuffer := inbuffer } hstatus s.wheel, rfl⟩
  | pollReturn ready => cases hon
  | timer => cases hon
  | other => cases hon
  | swap => cases hon
  | batchDone => cases hon
  | ret => cases hon
  | newConnection d fd callbacks => cases hon
  | post task => cases hon

/-- Another connection's `ReleaseInloop`. -/
theorem Gone.closing_other (h : Gone c log s) (hne : d ≠ c) (hclosing : Closing d conn s s') :
    Gone c log s' := by
  obtain ⟨frames, hstack, hframes⟩ := hclosing.stack
  obtain ⟨calls, hinvoked, -, hcalls⟩ := hclosing.invoked
  refine h.mono (hclosing.others c hne.symm) ?_ ?_ ?_ ?_
    (callsOf_append hinvoked fun i hi => (hcalls i hi).1 ▸ hne)
  · intro fd hfd
    rw [hclosing.channels] at hfd
    by_cases he : fd = conn.sockfd
    · rw [he, Function.update_self] at hfd
      cases hfd
    · rwa [Function.update_of_ne he] at hfd
  · intro active hp
    exact h.active active (hclosing.phase ▸ hp)
  · intro f hf hfc
    rw [hstack] at hf
    rcases List.mem_append.mp hf with hnew | hold
    · rw [hframes f hnew] at hfc
      cases hfc
    · rcases List.mem_cons.mp hold with rfl | hold
      · exact absurd (Option.some.inj hfc) hne
      · exact .inl hold
  · have hnot : Frame.serverClosed c ∉ frames := serverClosed_not_mem hframes
    rw [hstack, count_stack hnot, List.count_cons_of_ne (by simpa using hne)]

/-- The `ReleaseInloop` of the connection itself. -/
theorem Closing.gone (h : Closing c conn s s') (hkeyed : Keyed s) (hc : s.conns c = some conn)
    (hs : s.stack = []) (hp : ∀ active, s.phase ≠ .handle active) : Gone c (s'.callsOf c) s' := by
  obtain ⟨frames, hstack, hframes⟩ := h.stack
  obtain ⟨k, hk, hstatus, -, -⟩ := h.closed
  rw [hs] at hstack
  refine ⟨⟨k, hk, hstatus⟩, ?_, ?_, ?_, ⟨[], (List.append_nil _).symm, nofun, ?_⟩⟩
  · intro fd hfd
    rw [h.channels] at hfd
    by_cases he : fd = conn.sockfd
    · rw [he, Function.update_self] at hfd
      cases hfd
    · rw [Function.update_of_ne he] at hfd
      have hown := hkeyed fd c hfd
      rw [hc] at hown
      exact he (Option.some.inj hown).symm
  · intro active hactive
    exact absurd (h.phase ▸ hactive) (hp active)
  · intro f hf hfc
    rw [hstack] at hf
    rcases List.mem_append.mp hf with hnew | hold
    · rw [hframes f hnew] at hfc
      cases hfc
    · exact .inr (List.mem_singleton.mp hold)
  · have hnot : Frame.serverClosed c ∉ frames := serverClosed_not_mem hframes
    rw [hstack, count_stack hnot]
    simp

theorem conn_channelHanderEvent {revent : UInt32} {f : Frame}
    (h : f ∈ channelHanderEvent d revent) :
    f.conn = some d := by
  simp only [channelHanderEvent, List.mem_append, List.mem_singleton] at h
  rcases h with (h | h) | h
  · split at h
    · rw [List.mem_singleton.mp h]; rfl
    · cases h
  · split at h
    · rw [List.mem_singleton.mp h]; rfl
    · split at h
      · rw [List.mem_singleton.mp h]; rfl
      · split at h
        · rw [List.mem_singleton.mp h]; rfl
        · cases h
  · rw [h]; rfl

/-- A step that runs no code of the released connection. -/
theorem gone_step_off (h : Gone c log s) {a : Act} (ha : LeftAlone c s a)
    (hoff : s.actsOn a ≠ some c) (hstep : step s a = some s') : Gone c log s' := by
  cases step_effect hstep with
  | @work a d s₀ s' hon henter hwork =>
    have hne : d ≠ c := fun he => hoff (he ▸ hon)
    cases henter with
    | frame hs hd hrelease hserver => exact (h.pop hs).work hne hwork
    | task hp hd hrelease => exact (h.take _).work hne hwork
    | user => exact h.work hne hwork
  | @releaseInloop d conn batch hp hs hd =>
    have hne : d ≠ c := fun he => hoff (by simp [actsOn, hp, Task.conn, he])
    exact (h.take batch).closing_other hne (closing_releaseInloop _ d conn)
  | @release d stack hs =>
    exact (h.pop hs).mono rfl (fun _ => id) h.active (fun _ hf _ => .inl hf) (Nat.le_refl _) rfl
  | @serverClosed d conn stack hs hd =>
    have hne : d ≠ c := fun he => hoff (by simp [actsOn, hs, Frame.conn, he])
    obtain ⟨calls, frames, he, -, hcalls, hframes⟩ :=
      invoke_spec ({ s with stack := stack } : Loop) d conn .serverClosed
    rw [he]
    refine ((h.pop hs).push frames ?_).mono rfl (fun _ => id) h.active (fun _ hf _ => .inl hf)
      (Nat.le_refl _) (callsOf_append rfl fun i hi => (hcalls i hi).1 ▸ hne)
    intro f hf hfc
    rw [hframes f hf] at hfc
    cases hfc
  | pollReturn hp hsame hother hactive =>
    refine h.mono (hother c h.channels) (fun _ => id) ?_ (fun _ hf _ => .inl hf) (Nat.le_refl _) rfl
    intro active he hin
    cases he
    obtain ⟨fd, hfd⟩ := hactive c hin
    exact h.channels fd hfd
  | @handle d conn active hp hs hd =>
    have hne : d ≠ c := fun he => hoff (by simp [actsOn, hp, he])
    have hnone : ∀ f ∈ channelHanderEvent d conn.revent, f.conn ≠ some c := by
      intro f hf hfc
      rw [conn_channelHanderEvent hf] at hfc
      exact hne (Option.some.inj hfc)
    refine h.mono rfl (fun _ => id) ?_ (fun f hf hfc => absurd hfc (hnone f hf)) ?_ rfl
    · intro active' he
      cases he
      exact fun hin => h.active _ hp (List.mem_cons_of_mem d hin)
    · rw [List.count_eq_zero_of_not_mem fun hin => hnone _ hin rfl]
      exact Nat.zero_le _
  | timer hp hs =>
    refine (h.push _ ?_).mono rfl (fun _ => id) h.active (fun _ hf _ => .inl hf) (Nat.le_refl _) rfl
    intro f hf hfc
    obtain ⟨t, -, rfl⟩ := List.mem_map.mp hf
    rw [Frame.conn, Option.some.injEq] at hfc
    rw [hfc]
  | other => exact h.push [.user] (by simp [Frame.conn])
  | swap hp hs =>
    exact h.mono rfl (fun _ => id) (fun _ he => by cases he) (fun _ hf _ => .inl hf)
      (Nat.le_refl _) rfl
  | @userTask batch hp => exact (h.take batch).push [.user] (by simp [Frame.conn])
  | userCall => exact h.push [.user] (by simp [Frame.conn])
  | batchDone hp =>
    exact h.mono rfl (fun _ => id) (fun _ he => by cases he) (fun _ hf _ => .inl hf)
      (Nat.le_refl _) rfl
  | ret hs => exact h.pop hs
  | @newConnection d fd callbacks conn hd hsocket hfd =>
    obtain ⟨k, hk, hstatus⟩ := h.conn
    have hne : c ≠ d := by
      rintro rfl
      rw [hk] at hd
      cases hd
    refine h.mono ?_ (fun _ => id) h.active (fun _ hf _ => .inl hf) (Nat.le_refl _) rfl
    simp [Loop.set, hne]
  | post task => exact h.mono rfl (fun _ => id) h.active (fun _ hf _ => .inl hf) (Nat.le_refl _) rfl

theorem gone_step {a : Act} (h : Gone c log s) (ha : LeftAlone c s a) (hstep : step s a = some s') :
    Gone c log s' := by
  by_cases hon : s.actsOn a = some c
  · exact (gone_step_on h ha hon hstep).1
  · exact gone_step_off h ha hon hstep

theorem gone_exec {acts : List Act} (h : Gone c log s) (hacts : Along step (LeftAlone c) s acts) :
    Along step (SparesPoller c) s acts ∧ ∀ s', exec step s acts = some s' → Gone c log s' := by
  induction acts generalizing s with
  | nil =>
    refine ⟨trivial, fun s' he => ?_⟩
    cases he
    exact h
  | cons a acts ih =>
    refine ⟨⟨fun hon s' hstep => (gone_step_on h hacts.1 hon hstep).2, ?_⟩, ?_⟩
    · intro s' hstep
      exact (ih (gone_step h hacts.1 hstep) (hacts.2 s' hstep)).1
    · intro s' hexec
      obtain ⟨s₁, hstep, hexec⟩ := Option.bind_eq_some_iff.mp hexec
      exact (ih (gone_step h hacts.1 hstep) (hacts.2 s₁ hstep)).2 s' hexec

theorem Gone.inert {s₁ : Loop} (h : Gone c (s.callsOf c) s₁) : Inert c s s₁ := by
  obtain ⟨k, hk, hstatus⟩ := h.conn
  obtain ⟨calls, hcalls, hkind, hlen⟩ := h.calls
  refine ⟨by rw [hk, Option.map_some, hstatus], ?_⟩
  cases calls with
  | nil => exact .inl (hcalls.trans (List.append_nil _))
  | cons i calls =>
    have hnil : calls = [] := List.eq_nil_of_length_eq_zero (by simp at hlen; omega)
    subst hnil
    obtain ⟨hconn, hserver⟩ := hkind i (List.mem_singleton_self i)
    refine .inr ⟨i.function, ?_⟩
    rw [hcalls, ← hconn, ← hserver]

/-- From the `ReleaseInloop` of a connection on, as long as no `ShutDownInLoop` and no other
`ReleaseInloop` of it is executed, it is inert, and its code leaves the registrations of all
connections as they are, whichever of them has its old descriptor now. -/
theorem released_connection_inert (c : Nat) (before after : List Act) (batch : List Task)
    (s₀ s₁ : Loop) (hbefore : exec step start before = some s₀)
    (hp : s₀.phase = .run (.releaseInloop c :: batch)) (hrelease : step s₀ .runTask = some s₁)
    (hafter : Along step (LeftAlone c) s₁ after) :
    Along step (SparesPoller c) s₁ after ∧ ∀ s₂, exec step s₁ after = some s₂ → Inert c s₁ s₂ := by
  have hkeyed : Keyed s₀ :=
    exec_preserves Keyed (fun _ _ _ hI hstep => keyed_step hI hstep) keyed_start hbefore
  simp only [step, hp] at hrelease
  split at hrelease
  · rename_i hidle
    obtain ⟨conn, hc, hrelease⟩ := Option.bind_eq_some_iff.mp hrelease
    cases hrelease
    have hkeyed' : Keyed { s₀ with phase := .run batch } := hkeyed
    have hgone := (closing_releaseInloop { s₀ with phase := .run batch } c conn).gone hkeyed' hc
      (idle_iff.mp hidle) (fun _ he => by cases he)
    obtain ⟨hspares, hrun⟩ := gone_exec hgone hafter
    exact ⟨hspares, fun s₂ hs₂ => (hrun s₂ hs₂).inert⟩
  · cases hrelease

/-- Connection 1 on descriptor 7, up to its `ReleaseInloop`. -/
def released : List Act :=
  connected epollHup ++ [.next, .next, .next, .ret, .swap]

/-- Its close callback sends and sets a timeout; then connection 2 gets the descriptor. -/
def reuse : List Act :=
  [.call (.sendInLoop 1 Buffer.empty), .call (.enableTimeoutDelInLoop 1 5),
    .call (.disableTimeoutDelInLoop 1), .ret,
    .next, .ret, .batchDone, .newConnection 2 7 fun _ => some 2, .post (.establishedInLoop 2),
      .pollReturn [], .swap,
    .runTask, .call (.sendInLoop 1 Buffer.empty), .ret, .batchDone]

theorem released_connection_inert_reuse :
    ∃ s₀ s₁ s₂, exec step start released = some s₀ ∧ step s₀ .runTask = some s₁ ∧
    exec step s₁ reuse = some s₂ ∧
      s₂.poller.channels 7 = some 2 ∧ Along step (SparesPoller 1) s₁ reuse ∧ Inert 1 s₁ s₂ := by
  have hrun : ((exec step start released).bind fun s₀ => (step s₀ .runTask).bind fun s₁ =>
      (exec step s₁ reuse).map fun s₂ =>
        (s₀.phase, decide (Along step (LeftAlone 1) s₁ reuse), s₂.poller.channels 7)) =
      some (.run [.releaseInloop 1], true, some 2) := by
    decide +kernel
  obtain ⟨s₀, hbefore, hrun⟩ := Option.bind_eq_some_iff.mp hrun
  obtain ⟨s₁, hrelease, hrun⟩ := Option.bind_eq_some_iff.mp hrun
  obtain ⟨s₂, hafter, hrun⟩ := Option.map_eq_some_iff.mp hrun
  obtain ⟨hp, hrest⟩ := Prod.mk.inj hrun
  obtain ⟨halone, hch⟩ := Prod.mk.inj hrest
  obtain ⟨hspares, hinert⟩ :=
    released_connection_inert 1 released reuse [] s₀ s₁ hbefore hp hrelease
      (of_decide_eq_true halone)
  exact ⟨s₀, s₁, s₂, hbefore, hrelease, hafter, hch, hspares, hinert s₂ hafter⟩

/-- The connect callback of connection 2, which has the descriptor now, shuts down connection 1. -/
def shutDownLater : List Act :=
  [.ret, .next, .ret, .batchDone, .newConnection 2 7 fun _ => some 2, .post (.establishedInLoop 2),
    .pollReturn [],
    .swap, .runTask, .call (.shutDownInLoop 1), .next, .next, .ret, .batchDone, .pollReturn [],
      .swap, .runTask]

/-- Connection 1 is closed a second time, and connection 2 loses its registration. -/
theorem released_connection_not_inert :
    ∃ s₀ s₁ s₂, exec step start released = some s₀ ∧ s₀.phase = .run [.releaseInloop 1] ∧
      step s₀ .runTask = some s₁ ∧ exec step s₁ shutDownLater = some s₂ ∧
      s₂.poller.channels 7 = none ∧ s₂.poller.interest 7 = none ∧ ¬Inert 1 s₁ s₂ := by
  have hrun : ((exec step start released).bind fun s₀ => (step s₀ .runTask).bind fun s₁ =>
      (exec step s₁ shutDownLater).map fun s₂ =>
        (s₀.phase, s₂.poller.channels 7, s₂.poller.interest 7, (s₁.callsOf 1).length,
          (s₂.callsOf 1).length)) =
      some (.run [.releaseInloop 1], none, none, 3, 5) := by
    decide +kernel
  obtain ⟨s₀, hbefore, hrun⟩ := Option.bind_eq_some_iff.mp hrun
  obtain ⟨s₁, hrelease, hrun⟩ := Option.bind_eq_some_iff.mp hrun
  obtain ⟨s₂, hafter, hrun⟩ := Option.map_eq_some_iff.mp hrun
  simp only [Prod.mk.injEq] at hrun
  obtain ⟨hp, hch, hinterest, hlen₁, hlen₂⟩ := hrun
  refine ⟨s₀, s₁, s₂, hbefore, hp, hrelease, hafter, hch, hinterest, ?_⟩
  intro hinert
  rcases hinert.calls with he | ⟨f, he⟩
  · rw [he] at hlen₂
    omega
  · rw [he, List.length_append, hlen₁] at hlen₂
    simp at hlen₂

end Loop
end MuduoServer
