import MuduoServer.TimeWheelSpec

/-!
# The wheel and the timerfd

The timerfd counts the seconds that have passed, and a read returns how many there
were since the last one. `OneTime` drops the number and turns the wheel by one slot,
so the wheel keeps time as long as no read finds more than one expiration.
-/
namespace MuduoServer
namespace TimeWheel

open Transition

variable {τ : Type}

/-- The operations on a wheel that a timerfd drives. -/
inductive FdOp (τ : Type) where
  | set (id time : Nat) (task : τ)
  | flush (id : Nat)
  | remove (id : Nat)
  /-- A round of the loop that reads so many expirations. -/
  | oneTime (expirations : Nat)

def FdOp.expirations : FdOp τ → Nat
  | .oneTime expirations => expirations
  | _ => 0

def totalExpirations : List (FdOp τ) → Nat
  | [] => 0
  | op :: ops => op.expirations + totalExpirations ops

/-- A read of the timerfd finds a single expiration. -/
def FdOp.ReadsOne : FdOp τ → Prop
  | .oneTime expirations => expirations = 1
  | _ => True

instance : DecidablePred (FdOp.ReadsOne (τ := τ)) := fun op => by
  cases op <;> unfold FdOp.ReadsOne <;> infer_instance

/-- Every reference to the task goes before its delay is over, and the task with the last. -/
structure Timed (t : TimeTask τ) (w : TimeWheel τ) (n : Nat) : Prop where
  created : t.addr < w.created
  refs : ∀ p, t ∈ w.wheels p → ahead w.tick p + n ≤ t.time
  held : t ∈ w.dead ∨ w.Alive t
  fate : t ∈ w.dead → t ∈ w.fired ∨ w.canceled t = true

variable {w w' : TimeWheel τ} {t : TimeTask τ} {n : Nat}

theorem Timed.push (h : Timed t w n) {pos : Fin capacity} {ptr : TimeTask τ}
    (hpos : ptr = t → ahead w.tick pos + n ≤ t.time) : Timed t (w.push pos ptr) n := by
  refine ⟨h.created, fun p hp => ?_, ?_, h.fate⟩
  · rcases (mem_push w pos p ptr t).mp hp with hp | ⟨rfl, rfl⟩
    · exact h.refs p hp
    · exact hpos rfl
  · exact h.held.imp_right fun ⟨p, hp⟩ => ⟨p, (mem_push w pos p ptr t).mpr (.inl hp)⟩

/-- After the last expiration of its delay the task is gone. -/
theorem Timed.expired (h : Timed t w n) (hover : t.time ≤ n) :
    t ∈ w.dead ∧ (w.canceled t = false → t ∈ w.fired) := by
  have hdead : t ∈ w.dead := by
    refine h.held.resolve_right fun ⟨p, hp⟩ => ?_
    have hrange := (ahead_range w.tick p).1
    have hle := h.refs p hp
    omega
  refine ⟨hdead, fun hc => (h.fate hdead).resolve_right fun hc' => ?_⟩
  rw [hc] at hc'
  cases hc'

/-- Every object the wheel knows was made before. -/
structure Numbered (w : TimeWheel τ) : Prop where
  refs : ∀ p, ∀ t ∈ w.wheels p, t.addr < w.created
  dead : ∀ t ∈ w.dead, t.addr < w.created

theorem numbered_empty : Numbered (empty : TimeWheel τ) :=
  ⟨fun _ _ ht => absurd ht List.not_mem_nil, fun _ ht => absurd ht List.not_mem_nil⟩

variable [DecidableEq τ]

/-- `Timerfd_Tick` reads the number of expirations into a local variable, and aborts if it
reads nothing. -/
def oneTime (w : TimeWheel τ) (expirations : Nat) : Option (TimeWheel τ) :=
  if expirations = 0 then none else some w.runTimer

def fdStep (w : TimeWheel τ) : FdOp τ → Option (TimeWheel τ)
  | .set id time task => some (w.setTimeTask id time task)
  | .flush id => w.flushTimeTask id
  | .remove id => some (w.removeTimeTask id)
  | .oneTime expirations => w.oneTime expirations

/-- The expirations read since the task was last set or flushed. -/
def waited (t : TimeTask τ) : Nat → TimeWheel τ → FdOp τ → Nat
  | n, _, .oneTime expirations => n + expirations
  | n, w, .flush id => if w.timers id = some t then 0 else n
  | n, _, _ => n

theorem Numbered.step {op : FdOp τ} (h : Numbered w) (hstep : w.fdStep op = some w') :
    Numbered w' := by
  cases op with
  | set id time task =>
    cases hstep
    refine ⟨fun p t ht => ?_, fun t ht => Nat.lt_succ_of_lt (h.dead t ht)⟩
    rcases (mem_push _ _ p _ t).mp ht with ht | ⟨-, rfl⟩
    · exact Nat.lt_succ_of_lt (h.refs p t ht)
    · exact Nat.lt_succ_self _
  | flush id =>
    simp only [fdStep, flushTimeTask] at hstep
    split at hstep
    · cases hstep
      exact h
    · rename_i weak hweak
      obtain ⟨ptr, hlock, hstep⟩ := Option.bind_eq_some_iff.mp hstep
      obtain ⟨pos, -, hstep⟩ := Option.bind_eq_some_iff.mp hstep
      cases hstep
      unfold lock at hlock
      split at hlock
      · rename_i halive
        cases hlock
        obtain ⟨q, hq⟩ := halive
        refine ⟨fun p t ht => ?_, h.dead⟩
        rcases (mem_push w pos p weak t).mp ht with ht | ⟨-, rfl⟩
        · exact h.refs p t ht
        · exact h.refs q t hq
      · cases hlock
  | remove id =>
    cases hstep
    unfold removeTimeTask
    split
    · exact h
    · split <;> exact ⟨h.refs, h.dead⟩
  | oneTime expirations =>
    simp only [fdStep, oneTime] at hstep
    split at hstep
    · cases hstep
    · cases hstep
      refine ⟨fun p t ht => ?_, fun t ht => ?_⟩
      · rw [created_runTimer]
        exact h.refs p t ((mem_runTimer w p t).mp ht).1
      · rw [dead_runTimer] at ht
        rw [created_runTimer]
        rcases List.mem_append.mp ht with ht | ht
        · exact h.dead t ht
        · exact h.refs _ t ((mem_expiring_iff w t).mp ht).1

theorem Numbered.timed_set (h : Numbered w) (id d : Nat) (task : τ) (h1 : 1 ≤ d) (h2 : d ≤ 60) :
    Timed ⟨w.created, id, d, task⟩ (w.setTimeTask id d task) 0 := by
  have htick := w.tick.isLt
  have hpos : slot ((d + w.tick) % 2 ^ 64) = slot (d + w.tick) := by
    rw [Nat.mod_eq_of_lt]
    simp only [capacity] at htick
    omega
  refine ⟨Nat.lt_succ_self _, fun p hp => ?_, .inr ⟨slot ((d + w.tick) % 2 ^ 64), ?_⟩, fun hd => ?_⟩
  · rcases (mem_push _ _ p _ _).mp hp with hp | ⟨rfl, -⟩
    · exact absurd (h.refs p _ hp) (Nat.lt_irrefl _)
    · rw [hpos]
      exact (ahead_slot w.tick d h1 h2).le
  · exact (mem_push _ _ _ _ _).mpr (.inr ⟨rfl, rfl⟩)
  · exact absurd (h.dead _ hd) (Nat.lt_irrefl _)

theorem Timed.set (h : Timed t w n) (id time : Nat) (task : τ) :
    Timed t (w.setTimeTask id time task) n := by
  have hne : t ≠ ⟨w.created, id, time, task⟩ := by
    intro he
    have hlt := h.created
    rw [he] at hlt
    exact Nat.lt_irrefl _ hlt
  have hmem : ∀ p, t ∈ (w.setTimeTask id time task).wheels p ↔ t ∈ w.wheels p := by
    intro p
    refine (mem_push _ _ p _ t).trans ?_
    simp [hne]
  refine ⟨Nat.lt_succ_of_lt h.created, fun p hp => h.refs p ((hmem p).mp hp), ?_, fun hd => ?_⟩
  · exact h.held.imp_right fun ⟨p, hp⟩ => ⟨p, (hmem p).mpr hp⟩
  · refine (h.fate hd).imp_right fun hc => ?_
    show Function.update w.canceled _ false t = true
    rwa [Function.update_of_ne hne]

/-- A flush that finds the task starts its delay again. -/
theorem Timed.flush (h : Timed t w n) {id : Nat} (h1 : 1 ≤ t.time) (h2 : t.time ≤ 60)
    (hflush : w.flushTimeTask id = some w') : Timed t w' (waited t n w (.flush id)) := by
  have hwaited : waited t n w (.flush id) = if w.timers id = some t then 0 else n := rfl
  unfold flushTimeTask at hflush
  cases ht : w.timers id with
  | none =>
    rw [ht] at hflush hwaited
    cases hflush
    rwa [hwaited, if_neg nofun]
  | some weak =>
    rw [ht] at hflush hwaited
    obtain ⟨ptr, hlock, hflush⟩ := Option.bind_eq_some_iff.mp hflush
    obtain ⟨pos, hpos, hflush⟩ := Option.bind_eq_some_iff.mp hflush
    cases hflush
    unfold lock at hlock
    split at hlock
    · cases hlock
      by_cases he : weak = t
      · subst he
        rw [flushPos_eq w.tick (le_maxDelay h2)] at hpos
        cases hpos
        have h0 : Timed weak w 0 :=
          ⟨h.created, fun p hp => by have := h.refs p hp; omega, h.held, h.fate⟩
        rw [hwaited, if_pos rfl]
        refine h0.push fun _ => ?_
        rw [ahead_slot w.tick weak.time h1 h2]
        omega
      · rw [hwaited, if_neg (by simpa using he)]
        exact h.push fun h' => absurd h' he
    · cases hlock

theorem Timed.remove (h : Timed t w n) (id : Nat) : Timed t (w.removeTimeTask id) n := by
  unfold removeTimeTask
  split
  · exact h
  · split
    · exact h
    · rename_i ptr hlock
      refine ⟨h.created, h.refs, h.held, fun hd => (h.fate hd).imp_right fun hc => ?_⟩
      by_cases he : t = ptr
      · simp [he]
      · simpa [Function.update_of_ne he] using hc

/-- A turn of the wheel. -/
theorem Timed.run (h : Timed t w n) : Timed t w.runTimer (n + 1) := by
  refine ⟨?_, fun p hp => ?_, ?_, fun hd => ?_⟩
  · rw [created_runTimer]
    exact h.created
  · obtain ⟨hmem, hone⟩ := (mem_runTimer w p t).mp hp
    have hold := h.refs p hmem
    have hpos := (ahead_range w.tick p).1
    rw [tick_runTimer, ahead_next, if_neg hone]
    omega
  · rw [dead_runTimer]
    rcases h.held with hd | ⟨p, hp⟩
    · exact .inl (List.mem_append_left _ hd)
    · by_cases hlive : w.runTimer.Alive t
      · exact .inr hlive
      · -- the last references were in the slot that is cleared
        have hnow : ahead w.tick p = 1 := by
          by_contra hne
          exact hlive ⟨p, (mem_runTimer w p t).mpr ⟨hp, hne⟩⟩
        rw [(ahead_eq_one _ _).mp hnow] at hp
        exact .inl (List.mem_append_right _ ((mem_expiring_iff w t).mpr ⟨hp, hlive⟩))
  · rw [dead_runTimer] at hd
    rw [fired_runTimer, canceled_runTimer]
    rcases List.mem_append.mp hd with hd | hd
    · exact (h.fate hd).imp_left (List.mem_append_left _)
    · cases hc : w.canceled t with
      | true => exact .inr rfl
      | false => exact .inl (List.mem_append_right _ (List.mem_filter.mpr ⟨hd, by simp [hc]⟩))

theorem Timed.step {op : FdOp τ} (h : Timed t w n) (h1 : 1 ≤ t.time) (h2 : t.time ≤ 60)
    (hone : op.ReadsOne) (hstep : w.fdStep op = some w') : Timed t w' (waited t n w op) := by
  cases op with
  | set id time task =>
    cases hstep
    exact h.set id time task
  | flush id => exact h.flush h1 h2 hstep
  | remove id =>
    cases hstep
    exact h.remove id
  | oneTime expirations =>
    cases hone
    cases hstep
    exact h.run

theorem tick_flush {id : Nat} (h : w.flushTimeTask id = some w') : w'.tick = w.tick := by
  unfold flushTimeTask at h
  split at h
  · cases h
    rfl
  · obtain ⟨ptr, -, h⟩ := Option.bind_eq_some_iff.mp h
    obtain ⟨pos, -, h⟩ := Option.bind_eq_some_iff.mp h
    cases h
    rfl

theorem tick_remove (w : TimeWheel τ) (id : Nat) : (w.removeTimeTask id).tick = w.tick := by
  unfold removeTimeTask
  split
  · rfl
  · split <;> rfl

/-- A turn for each expiration. -/
theorem tick_step {op : FdOp τ} (hone : op.ReadsOne) (hstep : w.fdStep op = some w') :
    (w'.tick : Nat) = (w.tick + op.expirations) % capacity := by
  have hstay : (w.tick : Nat) = (w.tick + 0) % capacity := (Nat.mod_eq_of_lt w.tick.isLt).symm
  cases op with
  | set id time task =>
    cases hstep
    exact hstay
  | flush id =>
    rw [tick_flush hstep]
    exact hstay
  | remove id =>
    cases hstep
    rw [tick_remove]
    exact hstay
  | oneTime expirations =>
    cases hone
    cases hstep
    rw [tick_runTimer]
    rfl

theorem tick_exec {ops : List (FdOp τ)} (hone : ∀ op ∈ ops, op.ReadsOne)
    (h : exec fdStep w ops = some w') :
    (w'.tick : Nat) = (w.tick + totalExpirations ops) % capacity := by
  induction ops generalizing w with
  | nil =>
    cases h
    exact (Nat.mod_eq_of_lt (Fin.isLt _)).symm
  | cons op ops ih =>
    obtain ⟨w₁, hstep, h⟩ := Option.bind_eq_some_iff.mp h
    rw [ih (fun op' hop' => hone op' (List.mem_cons_of_mem op hop')) h,
      tick_step (hone op List.mem_cons_self) hstep,
      totalExpirations, Nat.mod_add_mod, Nat.add_assoc]

/-- In every run whose reads of the timerfd find one expiration each, the wheel has turned once for
each expiration, and a task is over, its callback run unless it was removed, once the expirations of
its delay have been read since it was last set or flushed. -/
theorem wheel_keeps_time (ops : List (FdOp τ)) (w : TimeWheel τ) (hone : ∀ op ∈ ops, op.ReadsOne)
    (h : exec fdStep empty ops = some w) :
    (w.tick : Nat) = totalExpirations ops % capacity ∧
    ∀ pre post id d task w₁, ops = pre ++ .set id d task :: post → exec fdStep empty pre = some w₁ →
      1 ≤ d → d ≤ 60 →
      let t : TimeTask τ := ⟨w₁.created, id, d, task⟩
      d ≤ recorded fdStep (waited t) 0 (w₁.setTimeTask id d task) post →
      t ∈ w.dead ∧ (w.canceled t = false → t ∈ w.fired) := by
  constructor
  · rw [tick_exec hone h]
    exact congrArg (· % capacity) (Nat.zero_add _)
  · rintro pre post id d task w₁ rfl hpre h1 h2 t hover
    rw [exec_append, hpre] at h
    have hnumbered : Numbered w₁ :=
      exec_preserves Numbered (fun _ _ _ hI hstep => hI.step hstep) numbered_empty hpre
    have hpost : exec fdStep (w₁.setTimeTask id d task) post = some w := h
    have hread : Along fdStep (fun _ op => op.ReadsOne) (w₁.setTimeTask id d task) post :=
      along_of_mem fun _ op hop => hone op (List.mem_append_right _ (List.mem_cons_of_mem _ hop))
    have htimed : Timed t w (recorded fdStep (waited t) 0 (w₁.setTimeTask id d task) post) := by
      refine recorded_invariant (Timed t) ?_ (hnumbered.timed_set id d task h1 h2) hread hpost
      intro w n op w' hI hop hstep
      exact hI.step h1 h2 hop hstep
    exact htimed.expired hover

/-- A task flushed once, with another one under the same id in between. -/
def timelyOps : List (FdOp Unit) :=
  [.set 7 2 (), .oneTime 1, .flush 7, .oneTime 1, .set 7 60 (), .oneTime 1]

theorem wheel_keeps_time_timely :
    ∃ w, exec fdStep empty timelyOps = some w ∧ (w.tick : Nat) = 3 ∧
      (w.canceled ⟨0, 7, 2, ()⟩ = false → (⟨0, 7, 2, ()⟩ : TimeTask Unit) ∈ w.fired) := by
  have hrun : ((exec fdStep empty timelyOps).isSome) = true := by decide +kernel
  obtain ⟨w, hw⟩ := Option.isSome_iff_exists.mp hrun
  obtain ⟨htick, hover⟩ := wheel_keeps_time timelyOps w (by decide) hw
  have hdue :=
    hover [] [.oneTime 1, .flush 7, .oneTime 1, .set 7 60 (), .oneTime 1] 7 2 () empty rfl rfl
    (by decide) (by decide)
  exact ⟨w, hw, htick, (hdue (by decide +kernel)).2⟩

/-- The loop was busy for two seconds: the delay is over, and the task is still in the wheel. -/
theorem wheel_loses_expirations :
    ∃ w, exec fdStep (empty : TimeWheel Unit) [.set 7 2 (), .oneTime 2] = some w ∧
      (w.tick : Nat) ≠ totalExpirations [FdOp.set 7 2 (), .oneTime 2] % capacity ∧
      2 ≤ recorded fdStep (waited ⟨0, 7, 2, ()⟩) 0 ((empty : TimeWheel Unit).setTimeTask 7 2 ())
      [.oneTime 2] ∧
      w.canceled ⟨0, 7, 2, ()⟩ = false ∧ (⟨0, 7, 2, ()⟩ : TimeTask Unit) ∉ w.fired := by
  have hrun : ((exec fdStep (empty : TimeWheel Unit) [.set 7 2 (), .oneTime 2]).map fun w =>
      ((w.tick : Nat), w.canceled ⟨0, 7, 2, ()⟩, w.fired)) = some (1, false, []) := by
    decide +kernel
  obtain ⟨w, hw, hmembers⟩ := Option.map_eq_some_iff.mp hrun
  simp only [Prod.mk.injEq] at hmembers
  obtain ⟨htick, hcanceled, hfired⟩ := hmembers
  refine ⟨w, hw, ?_, by decide +kernel, hcanceled, ?_⟩
  · rw [htick]
    decide
  · rw [hfired]
    exact List.not_mem_nil

end TimeWheel
end MuduoServer
