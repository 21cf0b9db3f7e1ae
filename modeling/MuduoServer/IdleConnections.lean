import MuduoServer.Released

/-!
# Idle connections are closed on time

All connections of a loop share its wheel. Each has a watch of its own: it starts
when timeout deletion is enabled, a channel event sets it back, and a tick
moves it on. The tick that ends it calls `Release`, and the connection is
closed before the loop polls again.
-/
namespace MuduoServer

open StdString Transition

namespace Loop

/-- What a step does to the wheel. -/
inductive Signal where
  | quiet
  | enable (c : Nat) (sec : Int)
  | disable (c : Nat)
  | event (c : Nat)
  | tick

/-- `ReleaseInloop` disables a timer that is there. -/
def taskSignal : Task → Signal
  | .enableTimeoutDelInLoop c sec => .enable c sec
  | .disableTimeoutDelInLoop c | .releaseInloop c => .disable c
  | _ => .quiet

def frameSignal : Frame → Signal
  | .handerEvent c => .event c
  | _ => .quiet

def signal (s : Loop) : Act → Signal
  | .timer => .tick
  | .next => s.stack.head?.elim .quiet frameSignal
  | a => (s.executes a).elim .quiet taskSignal

/-- The delay of the latest `EnableTimeoutDel`, and the ticks since the later of it and the last
channel event. -/
structure Watch where
  sec : Nat
  idle : Nat
  deriving DecidableEq

/-- The next tick ends the watch. -/
def Watch.ends (k : Watch) : Bool := k.idle + 1 = k.sec

def Watch.next (c : Nat) (w : Option Watch) : Signal → Option Watch
  | .quiet => w
  | .enable d sec => if d = c then some ⟨sec.toNat, 0⟩ else w
  | .disable d => if d = c then none else w
  | .event d => if d = c then w.map ({ · with idle := 0 }) else w
  | .tick => w.bind fun k => if k.ends then none else some { k with idle := k.idle + 1 }

/-- The watch of connection `c` after a run. -/
def watch (c : Nat) : List Act → Option Watch :=
  recorded step (fun w s a => Watch.next c w (s.signal a)) none start

/-- Timeout deletion is enabled for at most a turn of the wheel, for a connection of which the wheel
has no task, not even one that has been canceled. -/
def EnabledOnce (s : Loop) (a : Act) : Prop :=
  match s.signal a with
  | .enable c sec => 1 ≤ sec ∧ sec ≤ 60 ∧ s.wheel.hasTimer c = false
  | _ => True

instance (s : Loop) (a : Act) : Decidable (EnabledOnce s a) := by
  unfold EnabledOnce
  split <;> infer_instance

/-! ## The wheel and the flags -/

def enabled (s : Loop) (c : Nat) : Bool := (s.conns c).any Connection.isEnableTimeDel

/-- Nothing that has to do with timers changed. -/
def Untimed (s s' : Loop) : Prop := s'.wheel = s.wheel ∧ ∀ c, s'.enabled c = s.enabled c

/-- What the step behind a signal did. -/
inductive Turns (s s' : Loop) : Signal → Prop where
  | quiet (h : Untimed s s') : Turns s s' .quiet
  | enable {d : Nat} {sec : Int} (hwheel : s.wheel.enableTimeoutDelInLoop d sec d = some s'.wheel)
      (hself : s'.enabled d = true) (hother : ∀ c, c ≠ d → s'.enabled c = s.enabled c) : Turns s s'
        (.enable d sec)
  | disable {d : Nat} (hwheel : s'.wheel = s.wheel.disableTimeoutDelInLoop d)
      (hother : ∀ c, c ≠ d → s'.enabled c = s.enabled c) : Turns s s' (.disable d)
  | event {d : Nat} (hwheel : s.wheel.handerEvent (s.enabled d) d = some s'.wheel)
      (hsame : ∀ c, s'.enabled c = s.enabled c) : Turns s s' (.event d)
  | tick (hwheel : s'.wheel = s.wheel.runTimer)
    (hsame : ∀ c, s'.enabled c = s.enabled c) : Turns s s' .tick

variable {s s₁ s' : Loop} {c d : Nat} {conn : Connection}

theorem enabled_set (s : Loop) (d : Nat) (conn : Connection) (c : Nat) :
    (s.set d conn).enabled c = if c = d then conn.isEnableTimeDel else s.enabled c := by
  by_cases hc : c = d
  · simp [enabled, set, hc]
  · simp [enabled, set, hc]

theorem enabled_of (hc : s.conns c = some conn) : s.enabled c = conn.isEnableTimeDel := by
  rw [enabled, hc]
  rfl

theorem Untimed.trans (h : Untimed s s₁) (h' : Untimed s₁ s') : Untimed s s' :=
  ⟨h'.1.trans h.1, fun c => (h'.2 c).trans (h.2 c)⟩

theorem untimed_set (hd : s.conns d = some conn) (conn' : Connection)
    (hflag : conn'.isEnableTimeDel = conn.isEnableTimeDel) : Untimed s (s.set d conn') := by
  refine ⟨rfl, fun c => ?_⟩
  rw [enabled_set]
  split
  · rename_i hc
    rw [hc, enabled_of hd, hflag]
  · rfl

theorem untimed_unpate (hd : s.conns d = some conn) (conn' : Connection)
    (hflag : conn'.isEnableTimeDel = conn.isEnableTimeDel) : Untimed s (s.unpate d conn') :=
  untimed_set hd conn' hflag

theorem untimed_invoke (s : Loop) (d : Nat) (conn : Connection) (kind : Callback) :
    Untimed s (s.invoke d conn kind) := by
  unfold invoke
  cases conn.callbacks kind with
  | none => exact ⟨rfl, fun _ => rfl⟩
  | some f => exact ⟨rfl, fun _ => rfl⟩

theorem untimed_message (s : Loop) (d : Nat) (conn : Connection) :
    Untimed s (s.message d conn) := by
  unfold message
  split
  · exact untimed_invoke s d conn .message
  · exact ⟨rfl, fun _ => rfl⟩

theorem untimed_push (s : Loop) (f : Frame) : Untimed s (s.push f) := ⟨rfl, fun _ => rfl⟩

theorem untimed_shutDownInLoop (hd : s.conns d = some conn) : Untimed s (s.shutDownInLoop d conn) :=
  ((untimed_set hd { conn with status := .disconnecting } rfl).trans (untimed_push _ _)).trans
    (untimed_message _ d _)

theorem untimed_shutDownRest (hd : s.conns d = some conn) : Untimed s (s.shutDownRest d conn) := by
  unfold shutDownRest
  split
  · split
    · exact ⟨rfl, fun _ => rfl⟩
    · exact untimed_unpate hd _ rfl
  · exact untimed_push s _

theorem untimed_handerClose (s : Loop) (d : Nat) (conn : Connection) :
    Untimed s (s.handerClose d conn) :=
  (untimed_push s _).trans (untimed_message _ d conn)

theorem untimed_handerRead (hd : s.conns d = some conn) {r : SysResult} {bytes : Bytes}
    (h : s.handerRead d conn r bytes = some s') : Untimed s s' := by
  unfold handerRead at h
  split at h
  · cases h
    exact untimed_shutDownInLoop hd
  · obtain ⟨inbuffer, -, h⟩ := Option.bind_eq_some_iff.mp h
    cases h
    exact (untimed_set hd { conn with inbuffer := inbuffer } rfl).trans (untimed_message _ d _)

theorem untimed_handerWrite (hd : s.conns d = some conn) {r : SysResult}
    (h : s.handerWrite d conn r = some s') :
    Untimed s s' := by
  unfold handerWrite at h
  dsimp only at h
  split at h
  · cases h
    exact untimed_handerClose s d conn
  · obtain ⟨outbuffer, -, h⟩ := Option.bind_eq_some_iff.mp h
    have hset := untimed_set hd { conn with outbuffer := outbuffer } rfl
    have hdel := hset.trans (untimed_unpate (conns_set s d { conn with outbuffer := outbuffer })
      { conn with outbuffer := outbuffer, event := conn.event &&& ~~~epollOut } rfl)
    split at h
    · split at h
      · cases h
        exact hdel.trans (untimed_push _ _)
      · cases h
        exact hdel
    · cases h
      exact hset

theorem untimed_sendInLoop (hd : s.conns d = some conn) {b : Buffer}
    (h : s.sendInLoop d conn b = some s') :
    Untimed s s' := by
  unfold sendInLoop at h
  split at h
  · cases h
    exact ⟨rfl, fun _ => rfl⟩
  · obtain ⟨outbuffer, -, h⟩ := Option.bind_eq_some_iff.mp h
    have hset := untimed_set hd { conn with outbuffer := outbuffer } rfl
    dsimp only at h
    split at h
    · cases h
      exact hset
    · cases h
      exact hset.trans (untimed_unpate (conns_set s d { conn with outbuffer := outbuffer }) _ rfl)

theorem untimed_establishedInLoop (hd : s.conns d = some conn) :
    Untimed s (s.establishedInLoop d conn) := by
  unfold establishedInLoop
  split
  · exact ⟨rfl, fun _ => rfl⟩
  · exact (untimed_unpate hd { conn with event := conn.event ||| epollIn } rfl).trans
      (untimed_invoke _ d conn .connect)

/-! ## What the steps do to them -/

theorem Untimed.turns (h : Untimed s s') : Turns s s' .quiet := .quiet h

/-- The frame or task taken away leaves the timers alone. -/
theorem Turns.of {sig : Signal} (h : Turns s₁ s' sig) (hwheel : s₁.wheel = s.wheel)
    (hconns : s₁.conns = s.conns) :
    Turns s s' sig := by
  have hflag : ∀ c, s₁.enabled c = s.enabled c := fun c => by rw [enabled, enabled, hconns]
  cases h with
  | quiet h => exact .quiet ⟨h.1.trans hwheel, fun c => (h.2 c).trans (hflag c)⟩
  | enable h hself hother =>
    exact .enable (hwheel ▸ h) hself fun c hc => (hother c hc).trans (hflag c)
  | disable h hother => exact .disable (hwheel ▸ h) fun c hc => (hother c hc).trans (hflag c)
  | event h hsame =>
    rw [hwheel, hflag] at h
    exact .event h fun c => (hsame c).trans (hflag c)
  | tick h hsame => exact .tick (hwheel ▸ h) fun c => (hsame c).trans (hflag c)

theorem turns_releaseInloop (s : Loop) (d : Nat) (conn : Connection) :
    Turns s (s.releaseInloop d conn) (.disable d) := by
  have hdetach : (s.detach d conn).wheel = s.wheel := rfl
  have hclose : ∀ s₁ : Loop, s₁.wheel = s.wheel.disableTimeoutDelInLoop d →
      (∀ c, c ≠ d → s₁.enabled c = s.enabled c) →
      Turns s ((s₁.push (.serverClosed d)).invoke d conn .close) (.disable d) := by
    intro s₁ hwheel hother
    obtain ⟨hw, hf⟩ := (untimed_push s₁ (.serverClosed d)).trans (untimed_invoke _ d conn .close)
    exact .disable (hw.trans hwheel) fun c hc => (hf c).trans (hother c hc)
  unfold releaseInloop
  dsimp only
  split
  · apply hclose
    · rfl
    · intro c hc
      simp [disableTimeoutDelInLoop, enabled, detach, set, hc]
  · rename_i hno
    apply hclose
    · rw [hdetach] at hno ⊢
      exact (if_neg hno).symm
    · intro c hc
      simp [enabled, detach, set, hc]

theorem turns_runTask {task : Task} (h : s.runTask task = some s') :
    Turns s s' (taskSignal task) := by
  cases task with
  | user =>
    cases h
    exact .quiet (untimed_push s .user)
  | sendInLoop d b =>
    obtain ⟨conn, hd, h⟩ := Option.bind_eq_some_iff.mp h
    exact .quiet (untimed_sendInLoop hd h)
  | shutDownInLoop d =>
    obtain ⟨conn, hd, h⟩ := Option.bind_eq_some_iff.mp h
    cases h
    exact .quiet (untimed_shutDownInLoop hd)
  | enableTimeoutDelInLoop d sec =>
    obtain ⟨conn, hd, h⟩ := Option.bind_eq_some_iff.mp h
    obtain ⟨wheel, hwheel, h⟩ := Option.bind_eq_some_iff.mp h
    cases h
    refine .enable hwheel ?_ fun c hc => ?_
    · simp [enabled]
    · simp [enabled, set, hc]
  | disableTimeoutDelInLoop d =>
    obtain ⟨conn, hd, h⟩ := Option.bind_eq_some_iff.mp h
    cases h
    exact .disable rfl fun c hc => by simp [disableTimeoutDelInLoop, enabled, set, hc]
  | establishedInLoop d =>
    obtain ⟨conn, hd, h⟩ := Option.bind_eq_some_iff.mp h
    cases h
    exact .quiet (untimed_establishedInLoop hd)
  | releaseInloop d =>
    obtain ⟨conn, hd, h⟩ := Option.bind_eq_some_iff.mp h
    cases h
    exact turns_releaseInloop s d conn

theorem turns_runFrame {f : Frame} (h : s.runFrame f = some s') : Turns s s' (frameSignal f) := by
  cases f with
  | release d =>
    cases h
    exact .quiet ⟨rfl, fun _ => rfl⟩
  | serverClosed d =>
    obtain ⟨conn, -, h⟩ := Option.bind_eq_some_iff.mp h
    cases h
    exact .quiet (untimed_invoke s d conn .serverClosed)
  | handerClose d =>
    obtain ⟨conn, -, h⟩ := Option.bind_eq_some_iff.mp h
    cases h
    exact .quiet (untimed_handerClose s d conn)
  | handerErr d =>
    obtain ⟨conn, -, h⟩ := Option.bind_eq_some_iff.mp h
    cases h
    exact .quiet (untimed_handerClose s d conn)
  | handerEvent d =>
    obtain ⟨conn, hd, h⟩ := Option.bind_eq_some_iff.mp h
    obtain ⟨wheel, hwheel, h⟩ := Option.bind_eq_some_iff.mp h
    cases h
    obtain ⟨hw, hf⟩ := untimed_invoke { s with wheel := wheel } d conn .event
    rw [← enabled_of hd] at hwheel
    exact .event (hwheel.trans (congrArg some hw.symm)) hf
  | shutDownRest d =>
    obtain ⟨conn, hd, h⟩ := Option.bind_eq_some_iff.mp h
    cases h
    exact .quiet (untimed_shutDownRest hd)
  | handerRead d => cases h
  | handerWrite d => cases h
  | user => cases h

/-- `Poll` sets only `_revent`. -/
theorem untimed_poll {ready : List (Nat × UInt32)} {active : List Nat}
    (h : s.poll ready = some (s', active)) :
    Untimed s s' := by
  obtain ⟨conns, rfl, hsame, -, -⟩ := poll_eq h
  refine ⟨rfl, fun c => ?_⟩
  have hc := congrArg (Option.any Connection.isEnableTimeDel) (hsame c)
  rwa [Option.any_map, Option.any_map] at hc

theorem turns_step {a : Act} (h : step s a = some s') : Turns s s' (s.signal a) := by
  cases a with
  | pollReturn ready =>
    obtain ⟨-, -, polled, active, hpoll, rfl⟩ := step_pollReturn h
    obtain ⟨hwheel, hflag⟩ := untimed_poll hpoll
    exact .quiet ⟨hwheel, hflag⟩
  | handle =>
    obtain ⟨d, active, conn, -, -, -, rfl⟩ := step_handle h
    exact .quiet ⟨rfl, fun _ => rfl⟩
  | timer =>
    obtain ⟨active, -, -, rfl⟩ := step_timer h
    exact .tick rfl fun _ => rfl
  | other =>
    obtain ⟨active, -, -, rfl⟩ := step_other h
    exact .quiet (untimed_push s .user)
  | swap =>
    obtain ⟨-, -, rfl⟩ := step_swap h
    exact .quiet ⟨rfl, fun _ => rfl⟩
  | runTask =>
    obtain ⟨task, batch, hp, -, hrun⟩ := step_runTask h
    simp only [signal, executes, hp]
    exact (turns_runTask hrun).of rfl rfl
  | batchDone =>
    obtain ⟨-, -, rfl⟩ := step_batchDone h
    exact .quiet ⟨rfl, fun _ => rfl⟩
  | next =>
    obtain ⟨f, stack, hs, hrun⟩ := step_next h
    simp only [signal, hs, List.head?_cons]
    exact (turns_runFrame hrun).of rfl rfl
  | recv r bytes =>
    obtain ⟨d, stack, conn, -, hd, -, hrun⟩ := step_recv h
    exact (untimed_handerRead (s := { s with stack := stack }) hd hrun).turns.of rfl rfl
  | send r =>
    obtain ⟨d, stack, conn, -, hd, hrun⟩ := step_send h
    exact (untimed_handerWrite (s := { s with stack := stack }) hd hrun).turns.of rfl rfl
  | call task =>
    obtain ⟨-, -, hrun⟩ := step_call h
    exact turns_runTask hrun
  | release d =>
    obtain ⟨-, -, rfl⟩ := step_release h
    exact .quiet (untimed_push s _)
  | changeProtocal d connectCb closeCb msgCb =>
    obtain ⟨-, conn, hd, rfl⟩ := step_changeProtocal h
    exact .quiet (untimed_set hd _ rfl)
  | consume d len =>
    obtain ⟨-, conn, inbuffer, hd, -, rfl⟩ := step_consume h
    exact .quiet (untimed_set hd _ rfl)
  | ret =>
    obtain ⟨stack, -, rfl⟩ := step_ret h
    exact .quiet ⟨rfl, fun _ => rfl⟩
  | newConnection d fd callbacks =>
    obtain ⟨hd, -, rfl⟩ := step_newConnection h
    refine .quiet ⟨rfl, fun c => ?_⟩
    by_cases hc : c = d
    · simp [enabled, set, hc, hd]
    · simp [enabled, set, hc]
  | post task =>
    cases h
    exact .quiet ⟨rfl, fun _ => rfl⟩

/-! ## The watches -/

/-- The wheel is the table `T`, and the pending countdown of connection `c` is what is left
of its watch. -/
structure Watched (c : Nat) (s : Loop) (T : TimerTable Nat) (w : Option Watch) : Prop where
  refines : s.wheel.Refines T
  target : ∀ d e, T d = some e → e.task.task = d
  armed : ∀ k, w = some k → ∃ e, T c = some e ∧ e.canceled = false ∧ e.task.time = k.sec ∧
    e.remaining + k.idle = k.sec ∧ s.enabled c = true
  unarmed : w = none → ∀ e, T c = some e → e.canceled = true

variable {T : TimerTable Nat} {w : Option Watch}

theorem disableTimeoutDelInLoop_eq (w : TimeWheel Nat) (d : Nat) :
    w.disableTimeoutDelInLoop d = w.removeTimeTask d := by
  unfold TimeWheel.disableTimeoutDelInLoop
  split
  · rfl
  · rename_i hno
    have hnone : w.timers d = none := by simpa [TimeWheel.hasTimer] using hno
    simp [TimeWheel.removeTimeTask, hnone]

/-- Nothing happened to the countdown of the connection. -/
theorem Watched.other {T' : TimerTable Nat} (h : Watched c s T w) (hrefines : s'.wheel.Refines T')
    (htarget : ∀ d e, T' d = some e → e.task.task = d) (hc : T' c = T c)
    (hflag : s'.enabled c = s.enabled c) :
    Watched c s' T' w := by
  refine ⟨hrefines, htarget, fun k hk => ?_, fun hw e he => h.unarmed hw e (hc ▸ he)⟩
  obtain ⟨e, he, hlive, htime, hsum, hen⟩ := h.armed k hk
  exact ⟨e, hc ▸ he, hlive, htime, hsum, hflag ▸ hen⟩

theorem Watched.enable {sec : Int} (h : Watched c s T w) (hpos : 1 ≤ sec) (hmax : sec ≤ 60)
    (hfree : s.wheel.hasTimer d = false) (ht : Turns s s' (.enable d sec)) :
    ∃ T', Watched c s' T' (Watch.next c w (.enable d sec)) := by
  obtain _ | ⟨hwheel, hself, hother⟩ := ht
  have hsec : toSizeT sec = sec.toNat := by
    simp only [toSizeT]
    omega
  have hnone : T d = none := by simpa [h.refines.hasTimer] using hfree
  have hset : TimeWheel.Refines (s.wheel.setTimeTask d sec.toNat d)
      (T.set ⟨s.wheel.created, d, sec.toNat, d⟩) :=
    h.refines.set d hnone (by omega) (by omega)
  have hw : s'.wheel = s.wheel.setTimeTask d sec.toNat d := by
    simpa [TimeWheel.enableTimeoutDelInLoop, hfree, hsec] using hwheel.symm
  have htarget : ∀ d' e, (T.set ⟨s.wheel.created, d, sec.toNat, d⟩) d' = some e →
      e.task.task = d' := by
    intro d' e he
    by_cases hd : d' = d
    · rw [TimerTable.set, hd, Function.update_self, Option.some.injEq] at he
      rw [← he, hd]
    · rw [TimerTable.set, Function.update_of_ne hd] at he
      exact h.target d' e he
  refine ⟨T.set ⟨s.wheel.created, d, sec.toNat, d⟩, ?_⟩
  by_cases hd : d = c
  · subst hd
    simp only [Watch.next, if_true]
    refine ⟨hw ▸ hset, htarget, fun k hk => ?_, by simp⟩
    cases hk
    exact ⟨_, Function.update_self .., rfl, rfl, rfl, hself⟩
  · simp only [Watch.next, if_neg hd]
    exact h.other (hw ▸ hset) htarget (Function.update_of_ne (Ne.symm hd) _ _)
      (hother c (Ne.symm hd))

theorem Watched.disable (h : Watched c s T w) (ht : Turns s s' (.disable d)) :
    ∃ T', Watched c s' T' (Watch.next c w (.disable d)) := by
  obtain _ | _ | ⟨hwheel, hother⟩ := ht
  rw [disableTimeoutDelInLoop_eq] at hwheel
  have hremove := (h.refines.remove d).1
  have htarget : ∀ d' e, T.remove d d' = some e → e.task.task = d' := by
    intro d' e he
    by_cases hd : d' = d
    · rw [TimerTable.remove, hd, Function.update_self] at he
      obtain ⟨e₀, he₀, rfl⟩ := Option.map_eq_some_iff.mp he
      rw [hd]
      exact h.target d e₀ he₀
    · rw [TimerTable.remove, Function.update_of_ne hd] at he
      exact h.target d' e he
  refine ⟨T.remove d, ?_⟩
  by_cases hd : d = c
  · subst hd
    simp only [Watch.next, if_true]
    refine ⟨hwheel ▸ hremove, htarget, by simp, fun _ e he => ?_⟩
    rw [TimerTable.remove, Function.update_self] at he
    obtain ⟨e₀, -, rfl⟩ := Option.map_eq_some_iff.mp he
    rfl
  · simp only [Watch.next, if_neg hd]
    exact h.other (hwheel ▸ hremove) htarget (Function.update_of_ne (Ne.symm hd) _ _)
      (hother c (Ne.symm hd))

theorem Watched.event (h : Watched c s T w) (ht : Turns s s' (.event d)) :
    ∃ T', Watched c s' T' (Watch.next c w (.event d)) := by
  obtain _ | _ | _ | ⟨hwheel, hsame⟩ := ht
  by_cases hen : s.enabled d = true
  · obtain ⟨wheel, hflush, hrefines, -⟩ := h.refines.flush d
    rw [hen, TimeWheel.handerEvent, if_pos rfl, hflush, Option.some.injEq] at hwheel
    have htarget : ∀ d' e, T.flush d d' = some e → e.task.task = d' := by
      intro d' e he
      by_cases hd : d' = d
      · rw [TimerTable.flush, hd, Function.update_self] at he
        obtain ⟨e₀, he₀, rfl⟩ := Option.map_eq_some_iff.mp he
        rw [hd]
        exact h.target d e₀ he₀
      · rw [TimerTable.flush, Function.update_of_ne hd] at he
        exact h.target d' e he
    refine ⟨T.flush d, ?_⟩
    by_cases hd : d = c
    · subst hd
      simp only [Watch.next, if_true]
      refine ⟨hwheel ▸ hrefines, htarget, fun k hk => ?_, fun hw e he => ?_⟩
      · obtain ⟨k₀, hk₀, rfl⟩ := Option.map_eq_some_iff.mp hk
        obtain ⟨e, he, hlive, htime, -, -⟩ := h.armed k₀ hk₀
        refine ⟨{ e with remaining := e.task.time }, ?_, hlive, htime, htime, (hsame d).trans hen⟩
        rw [TimerTable.flush, Function.update_self, he]
        rfl
      · rw [TimerTable.flush, Function.update_self] at he
        obtain ⟨e₀, he₀, rfl⟩ := Option.map_eq_some_iff.mp he
        exact h.unarmed (Option.map_eq_none_iff.mp hw) e₀ he₀
    · simp only [Watch.next, if_neg hd]
      exact h.other (hwheel ▸ hrefines) htarget (Function.update_of_ne (Ne.symm hd) _ _) (hsame c)
  · rw [TimeWheel.handerEvent, if_neg hen, Option.some.injEq] at hwheel
    have hkept := h.other (hwheel ▸ h.refines) h.target rfl (hsame c)
    refine ⟨T, ?_⟩
    by_cases hd : d = c
    · subst hd
      -- a watch that runs has its flag set
      cases w with
      | none => simpa [Watch.next] using hkept
      | some k => exact absurd (h.armed k rfl).choose_spec.2.2.2.2 hen
    · simpa only [Watch.next, if_neg hd] using hkept

theorem Watched.tick (h : Watched c s T w) (ht : Turns s s' .tick) :
    ∃ T', Watched c s' T' (Watch.next c w .tick) := by
  obtain _ | _ | _ | _ | ⟨hwheel, hsame⟩ := ht
  refine ⟨T.run, hwheel ▸ h.refines.run, fun d e he => ?_, fun k hk => ?_, fun hw e he => ?_⟩
  · obtain ⟨e₀, he₀, hcut⟩ := Option.bind_eq_some_iff.mp he
    split at hcut
    · cases hcut
    · cases hcut
      exact h.target d e₀ he₀
  · obtain ⟨k₀, hk₀, hcut⟩ := Option.bind_eq_some_iff.mp hk
    split at hcut
    · cases hcut
    · rename_i hends
      cases hcut
      obtain ⟨e, he, hlive, htime, hsum, hen⟩ := h.armed k₀ hk₀
      have hne : e.remaining ≠ 1 := by
        simp only [Watch.ends, decide_eq_true_eq] at hends
        omega
      have hpos := (h.refines.entry c e he).2.1
      refine ⟨{ e with remaining := e.remaining - 1 }, ?_, hlive, htime, ?_, (hsame c).trans hen⟩
      · simp [TimerTable.run, he, hne]
      · simp only
        omega
  · obtain ⟨e₀, he₀, hcut⟩ := Option.bind_eq_some_iff.mp he
    split at hcut
    · cases hcut
    · rename_i hne
      cases hcut
      cases w with
      | none => exact h.unarmed rfl e₀ he₀
      | some k =>
        obtain ⟨e₁, he₁, -, -, hsum, -⟩ := h.armed k rfl
        cases he₀.symm.trans he₁
        have hends : k.ends = true := by simpa [Watch.next] using hw
        simp only [Watch.ends, decide_eq_true_eq] at hends
        omega

theorem Watched.step {a : Act} (h : Watched c s T w) (honce : EnabledOnce s a)
    (hstep : step s a = some s') :
    ∃ T', Watched c s' T' (Watch.next c w (s.signal a)) := by
  have ht := turns_step hstep
  unfold EnabledOnce at honce
  cases hsig : s.signal a with
  | quiet =>
    rw [hsig] at ht
    obtain ⟨hwheel, hsame⟩ := ht
    exact ⟨T, h.other (hwheel ▸ h.refines) h.target rfl (hsame c)⟩
  | enable d sec =>
    rw [hsig] at ht honce
    exact h.enable honce.1 honce.2.1 honce.2.2 ht
  | disable d => exact h.disable (hsig ▸ ht)
  | event d => exact h.event (hsig ▸ ht)
  | tick => exact h.tick (hsig ▸ ht)

/-- What a tick fires: the live tasks whose countdown ends. -/
theorem Watched.mem_fired (h : Watched c s T w) (t : TimeTask Nat) :
    t ∈ s.wheel.expiring.filter (fun t => !s.wheel.canceled t) ↔
      ∃ e, T t.task = some e ∧ e.task = t ∧ e.remaining = 1 ∧ e.canceled = false := by
  rw [List.mem_filter, h.refines.mem_expiring]
  constructor
  · rintro ⟨⟨e, he, rfl, hone⟩, hlive⟩
    have hcanceled := (h.refines.entry _ e he).2.2.2.2.1
    rw [hcanceled] at hlive
    rw [← h.target _ e he] at he
    exact ⟨e, he, rfl, hone, by simpa using hlive⟩
  · rintro ⟨e, he, rfl, hone, hlive⟩
    obtain ⟨hid, -, -, -, hcanceled, -⟩ := h.refines.entry _ e he
    exact ⟨⟨e, hid ▸ he, rfl, hone⟩, by simp [hcanceled, hlive]⟩

theorem Watched.ends_iff (h : Watched c s T w) :
    w.any Watch.ends = true ↔ ∃ e, T c = some e ∧ e.remaining = 1 ∧ e.canceled = false := by
  cases w with
  | none =>
    refine iff_of_false Bool.false_ne_true ?_
    rintro ⟨e, he, -, hlive⟩
    exact Bool.noConfusion (hlive.symm.trans (h.unarmed rfl e he))
  | some k =>
    obtain ⟨e, he, hlive, -, hsum, -⟩ := h.armed k rfl
    simp only [Option.any_some, Watch.ends, decide_eq_true_eq]
    constructor
    · intro hends
      exact ⟨e, he, by omega, hlive⟩
    · rintro ⟨e', he', hone, -⟩
      cases he.symm.trans he'
      omega

/-- The tasks that a tick fires release connections, each the one it is about, and each once. -/
theorem Watched.count_oneTime (h : Watched c s T w) (hs : s.stack = []) :
    s.oneTime.stack.count (.release c) = if w.any Watch.ends then 1 else 0 := by
  have hstack : s.oneTime.stack =
      (s.wheel.expiring.filter fun t => !s.wheel.canceled t).map fun t => Frame.release t.task := by
    simp only [oneTime, TimeWheel.fired_runTimer, List.drop_left, hs, List.append_nil]
  have hnodup : s.oneTime.stack.Nodup := by
    rw [hstack]
    refine ((TimeWheel.expiring_nodup s.wheel).filter _).map_on fun t ht u hu htu => ?_
    obtain ⟨e, he, rfl, -⟩ := (h.mem_fired t).mp ht
    obtain ⟨e', he', rfl, -⟩ := (h.mem_fired u).mp hu
    rw [← Frame.release.inj htu, he] at he'
    rw [Option.some.inj he']
  rw [hnodup.count]
  refine if_congr ?_ rfl rfl
  rw [h.ends_iff, hstack, List.mem_map]
  constructor
  · rintro ⟨t, ht, hrelease⟩
    obtain ⟨e, he, -, hone, hlive⟩ := (h.mem_fired t).mp ht
    exact ⟨e, Frame.release.inj hrelease ▸ he, hone, hlive⟩
  · rintro ⟨e, he, hone, hlive⟩
    have htask := h.target c e he
    exact ⟨e.task, (h.mem_fired e.task).mpr ⟨e, htask.symm ▸ he, rfl, hone, hlive⟩, by rw [htask]⟩

theorem watched_exec (c : Nat) {acts : List Act} (h : exec step start acts = some s)
    (honce : Along step EnabledOnce start acts) : ∃ T, Watched c s T (watch c acts) := by
  have hstart : ∃ T, Watched c start T none :=
    ⟨fun _ => none, TimeWheel.empty_refines, nofun, nofun, nofun⟩
  refine recorded_invariant (fun s w => ∃ T, Watched c s T w) ?_ hstart honce h
  rintro s w a s' ⟨T, h⟩ honce hstep
  exact h.step honce hstep

theorem count_released {c : Nat} {acts : List Act} (h : exec step start acts = some s)
    (honce : Along step EnabledOnce start acts) (htick : step s .timer = some s') :
    s'.stack.count (.release c) = if (watch c acts).any Watch.ends then 1 else 0 := by
  obtain ⟨T, hwatched⟩ := watched_exec c h honce
  obtain ⟨active, -, hs, rfl⟩ := step_timer htick
  exact hwatched.count_oneTime hs

/-- In every run that enables the timeout of a connection only while the wheel has no task of it, a
tick calls `Release` of a connection if and only if its watch ends with that tick, and once: exactly
`sec` ticks after the later of its `EnableTimeoutDel` and its last channel event, unless the timeout
was disabled or the connection released. -/
theorem idle_released (c : Nat) (acts : List Act) (s s' : Loop) (h : exec step start acts = some s)
    (honce : Along step EnabledOnce start acts) (htick : step s .timer = some s') :
    s'.stack.count (.release c) = if (watch c acts).any Watch.ends then 1 else 0 :=
  count_released h honce htick

/-- A timeout of two seconds; a byte arrives after the first tick, and another second goes by. -/
def lapse : List Act :=
  [.newConnection 1 7 fun _ => none, .post (.enableTimeoutDelInLoop 1 2),
    .post (.establishedInLoop 1),
    .pollReturn [], .swap, .runTask, .runTask, .batchDone, .pollReturn [(7, epollIn)],
      .timer, .handle,
    .recv ⟨1, 0⟩ (ascii "a"), .next, .swap, .batchDone, .pollReturn [], .timer, .swap, .batchDone,
      .pollReturn []]

example : watch 1 lapse = some ⟨2, 1⟩ := by decide +kernel

theorem idle_released_lapse :
    ∃ s s', exec step start lapse = some s ∧ step s .timer = some s' ∧
    s'.stack.count (.release 1) = 1 := by
  have hrun : (exec step start (lapse ++ [.timer])).isSome := by decide +kernel
  obtain ⟨s', hs'⟩ := Option.isSome_iff_exists.mp hrun
  rw [exec_concat] at hs'
  obtain ⟨s, hs, htick⟩ := Option.bind_eq_some_iff.mp hs'
  have hcount := idle_released 1 lapse s s' hs (by decide +kernel) htick
  have hends : (watch 1 lapse).any Watch.ends = true := by decide +kernel
  exact ⟨s, s', hs, htick, by rw [hcount, if_pos hends]⟩

/-! ## Until the next `epoll_wait` -/

/-- The descriptor is closed, or will be in this round. -/
inductive Doomed (c : Nat) (s : Loop) : Prop where
  | closed (h : s.closed c = true)
  | called {active : List Nat} (hp : s.phase = .handle active) (hmem : .release c ∈ s.stack)
  | queued {active : List Nat} (hp : s.phase = .handle active)
    (hmem : .releaseInloop c ∈ s.taskQueue)
  | taken {batch : List Task} (hp : s.phase = .run batch) (hmem : .releaseInloop c ∈ batch)

/-- A closed connection stays closed. -/
theorem closed_step {a : Act} (h : s.closed c = true) (hstep : step s a = some s') :
    s'.closed c = true := by
  cases step_effect hstep with
  | @work _ d s₀ _ hon henter hwork =>
    have hconns : s₀.conns = s.conns := by cases henter <;> rfl
    by_cases hd : c = d
    · subst hd
      have hkept := congrArg (Option.map Prod.snd) hwork.kept
      simp only [Option.map_map, Function.comp_def] at hkept
      rw [closed_eq_map] at h ⊢
      rw [show (s'.conns c).map Connection.socket = _ from hkept, hconns]
      exact h
    · exact (closed_congr ((hwork.others c hd).trans (congrFun hconns c))).trans h
  | @releaseInloop d conn batch hp hs hd =>
    have hclosing := closing_releaseInloop { s with phase := .run batch } d conn
    by_cases hcd : c = d
    · subst hcd
      obtain ⟨k, hk, -, hsocket, -⟩ := hclosing.closed
      simp [closed, hk, hsocket]
    · exact (closed_congr (hclosing.others c hcd)).trans h
  | release hs => exact h
  | @serverClosed d conn stack hs hd =>
    obtain ⟨calls, frames, he, -⟩ := invoke_spec { s with stack := stack } d conn .serverClosed
    rw [he]
    exact h
  | pollReturn hp hsame hother hactive =>
    have hc := congrArg (Option.map Connection.socket) (hsame c)
    rw [Option.map_map, Option.map_map] at hc
    rw [closed_eq_map] at h ⊢
    exact (congrArg (· == some none) hc).trans h
  | handle hp hs hd => exact h
  | timer hp hs => exact h
  | other => exact h
  | swap hp hs => exact h
  | userTask hp => exact h
  | userCall => exact h
  | batchDone hp => exact h
  | ret hs => exact h
  | @newConnection d fd callbacks conn hd hsocket hfd =>
    have hcd : c ≠ d := by
      rintro rfl
      simp [closed, hd] at h
    exact (closed_congr (by simp [set, hcd])).trans h
  | post task => exact h

theorem closed_releaseInloop (s : Loop) (c : Nat) (conn : Connection) :
    (s.releaseInloop c conn).closed c = true := by
  obtain ⟨k, hk, -, hsocket, -⟩ := (closing_releaseInloop s c conn).closed
  simp [closed, hk, hsocket]

/-- A frame that goes on or returns leaves the calls of `Release` below it. -/
theorem Doomed.step {a : Act} (h : Doomed c s) (hstep : step s a = some s') : Doomed c s' := by
  cases h with
  | closed h => exact .closed (closed_step h hstep)
  | @called active hp hmem =>
    cases step_effect hstep with
    | @work _ d s₀ _ hon henter hwork =>
      obtain ⟨new, hstack, -⟩ := hwork.stack
      cases henter with
      | @frame f stack hs hc hrelease hserver =>
        refine .called (hwork.phase.trans hp) ?_
        rw [hstack]
        rw [hs] at hmem
        rcases List.mem_cons.mp hmem with rfl | hmem
        · cases hc
          exact absurd rfl hrelease
        · exact List.mem_append_right new hmem
      | task hp' => cases hp.symm.trans hp'
      | user => exact .called (hwork.phase.trans hp) (hstack ▸ List.mem_append_right new hmem)
    | releaseInloop hp' => cases hp.symm.trans hp'
    | @release d stack hs =>
      rw [hs] at hmem
      rcases List.mem_cons.mp hmem with heq | hmem
      · cases heq
        exact .queued hp (List.mem_append_right _ List.mem_cons_self)
      · exact .called hp hmem
    | @serverClosed d conn stack hs hd =>
      obtain ⟨calls, frames, he, -⟩ := invoke_spec { s with stack := stack } d conn .serverClosed
      rw [hs] at hmem
      rw [he]
      exact .called hp (List.mem_append_right frames ((List.mem_cons.mp hmem).resolve_left (by simp)))
    | pollReturn hp' => cases hp.symm.trans hp'
    | handle hp' hs => simp [hs] at hmem
    | timer hp' hs => simp [hs] at hmem
    | other => exact .called hp (List.mem_cons_of_mem _ hmem)
    | swap hp' hs => simp [hs] at hmem
    | userTask hp' => cases hp.symm.trans hp'
    | userCall => exact .called hp (List.mem_cons_of_mem _ hmem)
    | batchDone hp' => cases hp.symm.trans hp'
    | ret hs =>
      rw [hs] at hmem
      exact .called hp ((List.mem_cons.mp hmem).resolve_left (by simp))
    | newConnection hd => exact .called hp hmem
    | post task => exact .called hp hmem
  | @queued active hp hmem =>
    cases step_effect hstep with
    | @work _ d s₀ _ hon henter hwork =>
      have hqueue : s'.taskQueue = s.taskQueue := hwork.taskQueue.trans (by cases henter <;> rfl)
      cases henter with
      | task hp' => cases hp.symm.trans hp'
      | frame => exact .queued (hwork.phase.trans hp) (hqueue ▸ hmem)
      | user => exact .queued (hwork.phase.trans hp) (hqueue ▸ hmem)
    | releaseInloop hp' => cases hp.symm.trans hp'
    | release hs => exact .queued hp (List.mem_append_left _ hmem)
    | @serverClosed d conn stack hs hd =>
      obtain ⟨calls, frames, he, -⟩ := invoke_spec { s with stack := stack } d conn .serverClosed
      rw [he]
      exact .queued hp hmem
    | pollReturn hp' => cases hp.symm.trans hp'
    | handle hp' hs => exact .queued rfl hmem
    | timer hp' hs => exact .queued hp hmem
    | other => exact .queued hp hmem
    | swap hp' hs => exact .taken rfl hmem
    | userTask hp' => cases hp.symm.trans hp'
    | userCall => exact .queued hp hmem
    | batchDone hp' => cases hp.symm.trans hp'
    | ret hs => exact .queued hp hmem
    | newConnection hd => exact .queued hp hmem
    | post task => exact .queued hp (List.mem_append_left _ hmem)
  | @taken batch hp hmem =>
    cases step_effect hstep with
    | @work _ d s₀ _ hon henter hwork =>
      cases henter with
      | @task task batch' hp' hc hrelease =>
        cases hp.symm.trans hp'
        refine .taken hwork.phase ((List.mem_cons.mp hmem).resolve_left ?_)
        rintro rfl
        cases hrelease
      | frame => exact .taken (hwork.phase.trans hp) hmem
      | user => exact .taken (hwork.phase.trans hp) hmem
    | @releaseInloop d conn batch' hp' hs hd =>
      cases hp.symm.trans hp'
      rcases List.mem_cons.mp hmem with heq | hmem
      · cases heq
        exact .closed (closed_releaseInloop _ _ _)
      · exact .taken (closing_releaseInloop _ _ _).phase hmem
    | release hs => exact .taken hp hmem
    | @serverClosed d conn stack hs hd =>
      obtain ⟨calls, frames, he, -⟩ := invoke_spec { s with stack := stack } d conn .serverClosed
      rw [he]
      exact .taken hp hmem
    | pollReturn hp' => cases hp.symm.trans hp'
    | handle hp' => cases hp.symm.trans hp'
    | timer hp' => cases hp.symm.trans hp'
    | other => exact .taken hp hmem
    | swap hp' => cases hp.symm.trans hp'
    | userTask hp' =>
      cases hp.symm.trans hp'
      exact .taken rfl ((List.mem_cons.mp hmem).resolve_left (by simp))
    | userCall => exact .taken hp hmem
    | batchDone hp' =>
      cases hp.symm.trans hp'
      cases hmem
    | ret hs => exact .taken hp hmem
    | newConnection hd => exact .taken hp hmem
    | post task => exact .taken hp hmem

/-- An idle connection does not see another `epoll_wait`: where timeouts are enabled as above, once
a tick has ended its watch its descriptor is closed when the thread is back there, whatever else
happens in between. -/
theorem idle_closed (c : Nat) (acts rest : List Act) (s t : Loop)
    (honce : Along step EnabledOnce start acts) (hends : (watch c acts).any Watch.ends = true)
    (h : exec step start acts = some s) (hrest : exec step s (.timer :: rest) = some t)
    (hpoll : t.phase = .poll) : t.closed c = true := by
  obtain ⟨s', htick, hrest⟩ := Option.bind_eq_some_iff.mp hrest
  have hcount : s'.stack.count (.release c) = _ := count_released h honce htick
  rw [if_pos hends] at hcount
  obtain ⟨active, hp, -, rfl⟩ := step_timer htick
  have hdoomed : Doomed c s.oneTime := .called hp (List.count_pos_iff.mp (by omega))
  cases exec_preserves (Doomed c) (fun _ _ _ h hstep => h.step hstep) hdoomed hrest with
  | closed h => exact h
  | called hp => cases hp.symm.trans hpoll
  | queued hp => cases hp.symm.trans hpoll
  | taken hp => cases hp.symm.trans hpoll

theorem idle_closed_lapse : ∃ s t, exec step start lapse = some s ∧
    exec step s [.timer, .next, .swap, .runTask, .next, .batchDone] = some t ∧
    t.closed 1 = true := by
  have hrun : ((exec step start (lapse ++ [.timer, .next, .swap, .runTask, .next, .batchDone])).map
      fun t => t.phase) = some .poll := by decide +kernel
  obtain ⟨t, ht, hpoll⟩ := Option.map_eq_some_iff.mp hrun
  rw [exec_append] at ht
  obtain ⟨s, hs, hrest⟩ := Option.bind_eq_some_iff.mp ht
  exact ⟨s, t, hs, hrest, idle_closed 1 lapse _ s t (by decide +kernel) (by decide +kernel) hs hrest hpoll⟩

end Loop
end MuduoServer
