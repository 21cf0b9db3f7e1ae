import MuduoServer.ConnectionView

/-!
# The life cycle of a connection

A connection is meant to be connected from its `EstablishedInLoop` to the first
`ShutDownInLoop` or `ReleaseInloop`. No function sets that status, so the guard of
`EstablishedInLoop` never closes behind it.
-/
namespace MuduoServer
namespace Loop

open Transition

inductive Stage where
  | before
  | up
  | finished
  deriving DecidableEq

structure Life where
  stage : Stage
  /-- How often `EstablishedInLoop` had its effect. -/
  established : Nat
  deriving DecidableEq

/-- `EstablishedInLoop` passes its guard. -/
def View.Establishes (v : View) (e : Event) : Prop := e = .established ∧ v.status = .connecting

instance (v : View) (e : Event) : Decidable (v.Establishes e) := inferInstanceAs (Decidable (_ ∧ _))

def Life.note (l : Life) (v : View) (e : Event) : Life where
  stage :=
    match e with
    | .established => if l.stage = .before then .up else l.stage
    | .shutDown | .released => .finished
    | _ => l.stage
  established := if v.Establishes e then l.established + 1 else l.established

/-- The life of connection `c` in a run. -/
def life (c : Nat) : List Act → Life :=
  recorded step (fun l s a => l.note (s.view c) (s.event c a)) ⟨.before, 0⟩ start

/-- Connected when it is up, and established once. -/
def LifeCycle (c : Nat) (s : Loop) (l : Life) : Prop :=
  (∀ conn, s.conns c = some conn → (conn.connected ↔ l.stage = .up)) ∧ l.established ≤ 1

/-- No `EstablishedInLoop` of connection `c` finds it still `CONNECTING`. -/
def NotEstablishing (c : Nat) (s : Loop) (a : Act) : Prop := ¬(s.view c).Establishes (s.event c a)

instance (c : Nat) (s : Loop) (a : Act) : Decidable (NotEstablishing c s a) :=
  inferInstanceAs (Decidable (¬_))

/-- How the status and the stage go together. -/
structure Staged (v : View) (l : Life) : Prop where
  status : v.status ≠ .connected
  finished : l.stage = .finished ↔ v.status ≠ .connecting

variable {v : View} {l : Life}

theorem staged_step (h : Staged v l) (e : Event) : Staged (v.step e) (l.note v e) := by
  obtain ⟨hstatus, hover⟩ := h
  cases e with
  | established =>
    refine ⟨hstatus, ?_⟩
    show (if l.stage = .before then Stage.up else l.stage) = .finished ↔ v.status ≠ .connecting
    split
    · rename_i hbefore
      rw [← hover, hbefore]
      decide
    · exact hover
  | send payload =>
    simp only [View.step]
    split <;> exact ⟨hstatus, hover⟩
  | written r =>
    simp only [View.step]
    split
    · exact ⟨hstatus, hover⟩
    · split <;> exact ⟨hstatus, hover⟩
  | shutDown => exact ⟨(fun h => by cases h), by simp [View.step, Life.note]⟩
  | shutDownRest =>
    simp only [View.step]
    split <;> exact ⟨hstatus, hover⟩
  | released => exact ⟨(fun h => by cases h), by simp [View.step, Life.note]⟩
  | _ => exact ⟨hstatus, hover⟩

/-- Without an `EstablishedInLoop` that passes its guard the connection is never up. -/
theorem life_step {e : Event} (h : Staged v l) (hno : ¬v.Establishes e) (hup : l.stage ≠ .up)
    (hnone : l.established = 0) : (l.note v e).stage ≠ .up ∧ (l.note v e).established = 0 := by
  refine ⟨?_, by simp [Life.note, hno, hnone]⟩
  cases e with
  | established =>
    have hover : l.stage = .finished := h.finished.mpr fun hc => hno ⟨rfl, hc⟩
    simp [Life.note, hover]
  | shutDown => exact fun h => by cases h
  | released => exact fun h => by cases h
  | _ => exact hup

theorem staged_exec (c : Nat) {acts : List Act} {s : Loop} (h : exec step start acts = some s) :
    Staged (s.view c) (life c acts) := by
  have hstart : Staged (start.view c) ⟨.before, 0⟩ := ⟨(fun h => by cases h), by simp [view_start]⟩
  refine recorded_invariant (fun s l => Staged (s.view c) l) ?_ hstart
    (along_of_mem fun _ _ _ => trivial) h
  intro s l a s' hI _ hstep
  rw [view_step hstep]
  exact staged_step hI _

/-- The connection is never in the status `CONNECTED`. -/
theorem not_connected {s : Loop} {c : Nat} {conn : Connection} (h : Staged (s.view c) l)
    (hc : s.conns c = some conn) : conn.connected = false := by
  have hstatus := h.status
  rw [(view_conn hc).1] at hstatus
  simp [Connection.connected, hstatus]

theorem lifeCycle_of_notEstablishing {c : Nat} {acts : List Act} {s : Loop}
    (h : exec step start acts = some s) (hno : Along step (NotEstablishing c) start acts) :
    LifeCycle c s (life c acts) := by
  have hquiet : (life c acts).stage ≠ .up ∧ (life c acts).established = 0 := by
    have hstart : Staged (start.view c) ⟨.before, 0⟩ ∧ Stage.before ≠ .up ∧ 0 = 0 :=
      ⟨⟨(fun h => by cases h), by simp [view_start]⟩, (fun h => by cases h), rfl⟩
    refine (recorded_invariant (fun s l => Staged (s.view c) l ∧ l.stage ≠ .up ∧
      l.established = 0) ?_ hstart hno h).2
    rintro s l a s' ⟨hI, hup, hnone⟩ hno hstep
    rw [view_step hstep]
    exact ⟨staged_step hI _, life_step hI hno hup hnone⟩
  refine ⟨fun conn hc => ?_, by omega⟩
  rw [not_connected (staged_exec c h) hc]
  simpa using hquiet.1

theorem executes_runTask {s s' : Loop} {a : Act} {task : Task} (hstep : step s a = some s')
    (he : s.executes a = some task) : ∃ s₀ : Loop, s₀.runTask task = some s' := by
  cases a with
  | runTask =>
    obtain ⟨task', batch, hp, -, hrun⟩ := step_runTask hstep
    simp only [executes, hp, Option.some.injEq] at he
    exact ⟨_, he ▸ hrun⟩
  | call task' =>
    obtain ⟨-, -, hrun⟩ := step_call hstep
    simp only [executes, Option.some.injEq] at he
    exact ⟨s, he ▸ hrun⟩
  | _ => cases he

theorem taskEvent_established {c : Nat} {task : Task} (h : taskEvent c task = .established) :
    task = .establishedInLoop c := by
  cases task with
  | establishedInLoop d =>
    by_contra hne
    simp_all [taskEvent]
  | sendInLoop d b => simp only [taskEvent] at h; split at h <;> cases h
  | shutDownInLoop d => simp only [taskEvent] at h; split at h <;> cases h
  | releaseInloop d => simp only [taskEvent] at h; split at h <;> cases h
  | _ => cases h

theorem event_established {c : Nat} {a : Act} {s : Loop} (h : s.event c a = .established) :
    s.executes a = some (.establishedInLoop c) := by
  cases a with
  | runTask =>
    cases he : s.executes .runTask with
    | none => simp [event, he] at h
    | some task =>
      simp only [event, he, Option.elim_some] at h
      rw [taskEvent_established h]
  | call task =>
    simp only [event, executes, Option.elim_some] at h
    rw [executes, taskEvent_established h]
  | handle =>
    simp only [event] at h
    split at h
    · split at h <;> cases h
    · cases h
  | next =>
    simp only [event] at h
    cases hs : s.stack.head? with
    | none => simp [hs] at h
    | some f =>
      simp only [hs, Option.elim_some] at h
      cases f <;> simp only [frameEvent] at h <;> first | cases h | (split at h <;> cases h)
  | recv r bytes =>
    simp only [event] at h
    split at h
    · split at h <;> cases h
    · cases h
  | send r => simp only [event] at h; split at h <;> cases h
  | release d => simp only [event] at h; split at h <;> cases h
  | consume d len => simp only [event] at h; split at h <;> cases h
  | post task => simp only [event] at h; split at h <;> cases h
  | _ => cases h

/-- The connection is there after its `EstablishedInLoop`. -/
theorem established_conn {c : Nat} {a : Act} {s s' : Loop} (hstep : step s a = some s')
    (he : s.event c a = .established) : ∃ conn, s'.conns c = some conn := by
  obtain ⟨s₀, hrun⟩ := executes_runTask hstep (event_established he)
  obtain ⟨conn, hc, hrun⟩ := Option.bind_eq_some_iff.mp hrun
  cases hrun
  have hkept := (work_establishedInLoop hc).kept
  rw [hc] at hkept
  obtain ⟨conn', hc', -⟩ := Option.map_eq_some_iff.mp hkept
  exact ⟨conn', hc'⟩

/-- On a connection that is still `CONNECTING` the stage after an `EstablishedInLoop` is up. -/
theorem Staged.up (h : Staged v l) {e : Event} (he : v.Establishes e) :
    (l.note v e).stage = .up := by
  obtain ⟨rfl, hconnecting⟩ := he
  have hnot : l.stage ≠ .finished := fun hover => h.finished.mp hover hconnecting
  cases hs : l.stage with
  | before => simp [Life.note, hs]
  | up => simp [Life.note, hs]
  | finished => exact absurd hs hnot

/-- An `EstablishedInLoop` that passes its guard should connect the connection, and does not. -/
theorem not_lifeCycle {c : Nat} {acts : List Act} {a : Act} {s s' : Loop}
    (h : exec step start acts = some s) (hstep : step s a = some s')
    (he : (s.view c).Establishes (s.event c a)) :
    ¬LifeCycle c s' (life c (acts ++ [a])) := by
  have hbefore := staged_exec c h
  have hafter : exec step start (acts ++ [a]) = some s' := by
    rw [exec_concat, h]
    exact hstep
  have hup : (life c (acts ++ [a])).stage = .up := by
    rw [life, recorded_concat h hstep]
    exact hbefore.up he
  obtain ⟨conn, hc⟩ := established_conn hstep he.1
  intro hlife
  have hconnected := (hlife.1 conn hc).mpr hup
  rw [not_connected (staged_exec c hafter) hc] at hconnected
  cases hconnected

/-- The life cycle is as documented in every state of a run exactly when no
`EstablishedInLoop` in it finds the connection still `CONNECTING`. -/
theorem life_cycle_iff (c : Nat) (acts : List Act) (s : Loop) (h : exec step start acts = some s) :
    (∀ pre t, pre <+: acts → exec step start pre = some t → LifeCycle c t (life c pre)) ↔
      Along step (NotEstablishing c) start acts := by
  rw [along_iff_everywhere]
  constructor
  · intro hlife pre a t hpre ht he
    obtain ⟨t', ht'⟩ := exec_initial hpre h
    have hstep : step t a = some t' := by
      rw [exec_concat, ht] at ht'
      exact ht'
    exact not_lifeCycle ht hstep he (hlife _ t' hpre ht')
  · intro hno pre t hpre ht
    refine lifeCycle_of_notEstablishing ht ((along_iff_everywhere _ _).mpr ?_)
    intro pre' a t' hpre' ht'
    exact hno pre' a t' (hpre'.trans hpre) ht'

/-- The connection is shut down before it could be established. -/
def shutDownFirst : List Act :=
  [.newConnection 1 7 fun _ => none, .post (.shutDownInLoop 1), .post (.establishedInLoop 1),
    .pollReturn [], .swap,
    .runTask, .next, .next, .runTask, .batchDone]

theorem life_cycle_iff_shutDownFirst :
    ∃ s, exec step start shutDownFirst = some s ∧
      ∀ pre t, pre <+: shutDownFirst → exec step start pre = some t →
      LifeCycle 1 t (life 1 pre) := by
  have hrun : (exec step start shutDownFirst).isSome = true := by decide +kernel
  obtain ⟨s, hs⟩ := Option.isSome_iff_exists.mp hrun
  exact ⟨s, hs, (life_cycle_iff 1 shutDownFirst s hs).mpr (by decide +kernel)⟩

/-- Two calls of `Established` on a connection with a connect callback. -/
def establishedTwice : List Act :=
  [.newConnection 1 7 fun _ => some 1, .post (.establishedInLoop 1), .post (.establishedInLoop 1),
    .pollReturn [],
    .swap, .runTask, .ret, .runTask, .ret, .batchDone]

theorem life_cycle_established_twice :
    ¬∀ pre t, pre <+: establishedTwice → exec step start pre = some t →
    LifeCycle 1 t (life 1 pre) := by
  intro hlife
  have hrun : ((exec step start establishedTwice).map fun s =>
      (s.times 1 .connect, (life 1 establishedTwice).established)) = some (2, 2) := by
    decide +kernel
  obtain ⟨s, hs, hboth⟩ := Option.map_eq_some_iff.mp hrun
  have htwo := congrArg Prod.snd hboth
  have hone := (hlife establishedTwice s List.prefix_rfl hs).2
  simp only at htwo
  omega

end Loop
end MuduoServer
