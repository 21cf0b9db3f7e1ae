import MuduoServer.StdString
import MuduoServer.TimeWheelSpec

/-!
# Closing idle connections

A connection with timeout deletion enabled keeps one wheel task under its timer
id, and every channel event starts the task's delay again. Enabling it a second
time while that task is pending leaves two tasks under one id, of which events
and removals reach only the newer.
-/
namespace MuduoServer

open StdString Transition

variable {τ : Type} [DecidableEq τ]

namespace TimeWheel

/-- `EnableTimeoutDelInLoop` on the wheel; the delay is an `int` converted to `uint64_t`. -/
def enableTimeoutDelInLoop (w : TimeWheel τ) (timerId : Nat) (sec : Int) (release : τ) :
    Option (TimeWheel τ) := do
  let w ← if w.hasTimer timerId then w.flushTimeTask timerId else some w
  return w.setTimeTask timerId (toSizeT sec) release

/-- `DisableTimeoutDelInLoop` on the wheel. -/
def disableTimeoutDelInLoop (w : TimeWheel τ) (timerId : Nat) : TimeWheel τ :=
  if w.hasTimer timerId then w.removeTimeTask timerId else w

/-- The flush in `HanderEvent`. -/
def handerEvent (w : TimeWheel τ) (isEnableTimeDel : Bool) (timerId : Nat) : Option (TimeWheel τ) :=
  if isEnableTimeDel then w.flushTimeTask timerId else some w

end TimeWheel

/-- One connection and the wheel of its loop. -/
structure Timeout where
  wheel : TimeWheel Unit
  isEnableTimeDel : Bool

namespace Timeout

def start : Timeout := ⟨TimeWheel.empty, false⟩

inductive Op where
  | enable (sec : Int)
  | disable
  | event
  | tick
  deriving DecidableEq

/-- A callback that runs on the wheel is a call of `Release`. -/
def step (id : Nat) (s : Timeout) : Op → Option Timeout
  | .enable sec => do
    let w ← s.wheel.enableTimeoutDelInLoop id sec ()
    return ⟨w, true⟩
  | .disable => some ⟨s.wheel.disableTimeoutDelInLoop id, false⟩
  | .event => do
    let w ← s.wheel.handerEvent s.isEnableTimeDel id
    return { s with wheel := w }
  | .tick => some { s with wheel := s.wheel.runTimer }

/-- The delay of the latest `EnableTimeoutDel`, and the ticks since the later of it
and the last channel event. -/
structure Activity where
  sec : Int
  idle : Nat
  deriving DecidableEq

def Activity.next (a : Activity) : Op → Activity
  | .enable sec => ⟨sec, 0⟩
  | .disable => a
  | .event => { a with idle := 0 }
  | .tick => { a with idle := a.idle + 1 }

def activity (ops : List Op) : Activity := ops.foldl Activity.next ⟨0, 0⟩

/-- A tick after `ops` that calls `Release` finds timeout deletion enabled and the
connection idle for its whole delay. -/
def NeverEarly (id : Nat) (ops : List Op) : Prop :=
  ∀ s s', exec (step id) start ops = some s → step id s .tick = some s' →
    s'.wheel.fired ≠ s.wheel.fired →
    s.isEnableTimeDel = true ∧ (activity ops).sec ≤ (activity (ops ++ [.tick])).idle

/-- Timeout deletion is enabled for at most a turn of the wheel, while no task of
the connection is pending. -/
def EnabledOnce (id : Nat) (s : Timeout) : Op → Prop
  | .enable sec => 1 ≤ sec ∧ sec ≤ 60 ∧ s.wheel.hasTimer id = false
  | _ => True

instance (id : Nat) (s : Timeout) (op : Op) : Decidable (EnabledOnce id s op) := by
  cases op <;> unfold EnabledOnce <;> infer_instance

/-- The one pending task counts down what the connection still has to stay idle. -/
structure Counts (id : Nat) (s : Timeout) (T : TimerTable Unit) (a : Activity) : Prop where
  refines : s.wheel.Refines T
  only : ∀ id', id' ≠ id → T id' = none
  idle : ∀ e, T id = some e → (e.task.time : Int) = a.sec ∧
    (e.canceled = false → s.isEnableTimeDel = true ∧ e.remaining + a.idle = e.task.time)

theorem counts_step {id : Nat} {s : Timeout} {T : TimerTable Unit} {a : Activity}
    (h : Counts id s T a) (op : Op) (hop : EnabledOnce id s op) :
    ∃ s' T', step id s op = some s' ∧ Counts id s' T' (a.next op) := by
  obtain ⟨href, honly, hidle⟩ := h
  cases op with
  | enable sec =>
    obtain ⟨h1, h2, hfree⟩ := hop
    have hsec : toSizeT sec = sec.toNat := by simp only [toSizeT]; omega
    have hT : T id = none := by simpa [href.hasTimer] using hfree
    have hset : (s.wheel.setTimeTask id sec.toNat ()).Refines
        (T.set ⟨s.wheel.created, id, sec.toNat, ()⟩) := href.set () hT (by omega) (by omega)
    refine ⟨⟨s.wheel.setTimeTask id sec.toNat (), true⟩, _, ?_, hset, ?_, ?_⟩
    · simp [step, TimeWheel.enableTimeoutDelInLoop, hfree, hsec]
    · intro id' hne
      rw [TimerTable.set, Function.update_of_ne hne, honly id' hne]
    · intro e he
      simp only [TimerTable.set, Function.update_self, Option.some.injEq] at he
      subst he
      exact ⟨Int.toNat_of_nonneg (by omega), fun _ => ⟨rfl, rfl⟩⟩
  | disable =>
    have hremove : s.wheel.disableTimeoutDelInLoop id = s.wheel.removeTimeTask id := by
      unfold TimeWheel.disableTimeoutDelInLoop
      split
      · rfl
      · rename_i hno
        have hnone : s.wheel.timers id = none := by simpa [TimeWheel.hasTimer] using hno
        simp [TimeWheel.removeTimeTask, hnone]
    refine ⟨_, T.remove id, rfl, ?_, ?_, ?_⟩
    · rw [hremove]; exact (href.remove id).1
    · intro id' hne
      rw [TimerTable.remove, Function.update_of_ne hne, honly id' hne]
    · intro e he
      simp only [TimerTable.remove, Function.update_self, Option.map_eq_some_iff] at he
      obtain ⟨e₀, he₀, rfl⟩ := he
      exact ⟨(hidle e₀ he₀).1, fun hc => by cases hc⟩
  | event =>
    by_cases hen : s.isEnableTimeDel = true
    · obtain ⟨w, hw, hrw, _⟩ := href.flush id
      refine ⟨{ s with wheel := w }, T.flush id,
        by simp [step, TimeWheel.handerEvent, hen, hw], hrw, ?_, ?_⟩
      · intro id' hne
        rw [TimerTable.flush, Function.update_of_ne hne, honly id' hne]
      · intro e he
        simp only [TimerTable.flush, Function.update_self, Option.map_eq_some_iff] at he
        obtain ⟨e₀, he₀, rfl⟩ := he
        exact ⟨(hidle e₀ he₀).1, fun _ => ⟨hen, rfl⟩⟩
    · refine ⟨s, T, by rw [step, TimeWheel.handerEvent, if_neg hen]; rfl, href, honly, ?_⟩
      intro e he
      exact ⟨(hidle e he).1, fun hc => absurd ((hidle e he).2 hc).1 hen⟩
  | tick =>
    refine ⟨_, T.run, rfl, href.run, ?_, ?_⟩
    · intro id' hne
      simp [TimerTable.run, honly id' hne]
    · intro e he
      obtain ⟨e₀, he₀, hcut⟩ := Option.bind_eq_some_iff.mp he
      obtain ⟨htime, hlive⟩ := hidle e₀ he₀
      have hpos := (href.entry id e₀ he₀).2.1
      by_cases h1 : e₀.remaining = 1
      · simp [h1] at hcut
      · rw [if_neg h1] at hcut
        cases hcut
        refine ⟨htime, fun hc => ⟨(hlive hc).1, ?_⟩⟩
        have := (hlive hc).2
        simp only [Activity.next]
        omega

theorem counts_exec {id : Nat} {s : Timeout} {T : TimerTable Unit} {a : Activity}
    (h : Counts id s T a) (ops : List Op) (hops : Along (step id) (EnabledOnce id) s ops) :
    ∃ s' T', exec (step id) s ops = some s' ∧ Counts id s' T' (ops.foldl Activity.next a) := by
  induction ops generalizing s T a with
  | nil => exact ⟨s, T, rfl, h⟩
  | cons op ops ih =>
    obtain ⟨s₁, T₁, hstep, h₁⟩ := counts_step h op hops.1
    obtain ⟨s', T', hexec, h'⟩ := ih h₁ (hops.2 s₁ hstep)
    exact ⟨s', T', by rw [exec_cons, hstep]; exact hexec, h'⟩

/-- As long as timeout deletion is enabled only while no task of the connection is
pending, every operation succeeds and no tick releases the connection early. -/
theorem timeout_never_early (id : Nat) (ops : List Op)
    (hops : Along (step id) (EnabledOnce id) start ops) :
    (exec (step id) start ops).isSome ∧ NeverEarly id ops := by
  have hstart : Counts id start (fun _ => none) ⟨0, 0⟩ :=
    ⟨TimeWheel.empty_refines, fun _ _ => rfl, fun e he => by cases he⟩
  obtain ⟨s, T, hexec, hs⟩ := counts_exec hstart ops hops
  refine ⟨by simp [hexec], ?_⟩
  intro s₁ s' hexec₁ htick hfired
  obtain rfl : s = s₁ := Option.some.inj (hexec.symm.trans hexec₁)
  have hlog : s'.wheel.fired =
      s.wheel.fired ++ s.wheel.expiring.filter (fun t => !s.wheel.canceled t) := by
    cases htick
    exact TimeWheel.fired_runTimer s.wheel
  have hne : s.wheel.expiring.filter (fun t => !s.wheel.canceled t) ≠ [] := by
    intro hnil
    rw [hnil, List.append_nil] at hlog
    exact hfired hlog
  obtain ⟨t, ht⟩ := List.exists_mem_of_ne_nil _ hne
  obtain ⟨hexp, hlive⟩ := List.mem_filter.mp ht
  obtain ⟨e, he, rfl, h1⟩ := (hs.refines.mem_expiring t).mp hexp
  -- the only pending task is the one of this connection
  have hid : e.task.id = id := by
    by_contra hother
    rw [hs.only _ hother] at he
    cases he
  have hcanceled := (hs.refines.entry _ e he).2.2.2.2.1
  rw [hcanceled] at hlive
  rw [hid] at he
  obtain ⟨htime, hcount⟩ := hs.idle e he
  obtain ⟨hen, hsum⟩ := hcount (by simpa using hlive)
  refine ⟨hen, ?_⟩
  simp only [activity, List.foldl_append, List.foldl_cons, List.foldl_nil, Activity.next]
  rw [h1] at hsum
  rw [← htime]
  omega

theorem timeout_never_early_event :
    (exec (step 3) start [.enable 2, .tick, .event, .tick]).isSome ∧
      NeverEarly 3 [.enable 2, .tick, .event, .tick] :=
  timeout_never_early 3 _ (by decide +kernel)

/-- Enabled for 5 ticks and then for 10, the connection is released after 5. -/
theorem timeout_early : ¬NeverEarly 1 [.enable 5, .enable 10, .tick, .tick, .tick, .tick] := by
  intro h
  have hrun : (exec (step 1) start [.enable 5, .enable 10, .tick, .tick, .tick, .tick]).isSome := by
    decide +kernel
  obtain ⟨s, hs⟩ := Option.isSome_iff_exists.mp hrun
  have hcount : ((exec (step 1) start [.enable 5, .enable 10, .tick, .tick, .tick, .tick]).map
      fun s => (s.wheel.fired.length, s.wheel.runTimer.fired.length)) = some (0, 1) := by
    decide +kernel
  rw [hs] at hcount
  obtain ⟨hbefore, hafter⟩ := Prod.mk.inj (Option.some.inj hcount)
  have hgrow : s.wheel.runTimer.fired ≠ s.wheel.fired := by
    intro he
    rw [he, hbefore] at hafter
    cases hafter
  have := (h s _ hs rfl hgrow).2
  revert this
  decide +kernel

end Timeout
end MuduoServer
