import MuduoServer.TimeWheelSpec

/-!
# Timers fire exactly

The fate of one timer is a clock that only counts ticks since the timer was last
set or flushed. The wheel destroys the timer at the tick the clock names, runs
its callback there unless it was removed, and knows its id until then.
-/
namespace MuduoServer

open Transition

variable {τ : Type}

/-- The ticks since a pending timer was last set or flushed, and whether it was
removed; or that it is over, and whether its callback ran. -/
inductive Clock where
  | pending (elapsed : Nat) (removed : Bool)
  | ended (ran : Bool)
  deriving DecidableEq

namespace Clock

def isOver : Clock → Bool
  | .pending _ _ => false
  | .ended _ => true

/-- The clock of a timer with delay `d` under `id`. -/
def next (id d : Nat) : Clock → TimeWheel.Op τ → Clock
  | .ended ran, _ => .ended ran
  | .pending elapsed removed, .run =>
    if elapsed + 1 = d then .ended (!removed) else .pending (elapsed + 1) removed
  | .pending elapsed removed, .flush id' => .pending (if id' = id then 0 else elapsed) removed
  | .pending elapsed removed, .remove id' => .pending elapsed (removed || id' == id)
  | .pending elapsed removed, .set _ _ _ => .pending elapsed removed

end Clock

namespace TimeWheel

def Op.setsId (id : Nat) : Op τ → Bool
  | .set id' _ _ => id' == id
  | _ => false

/-- An id without a countdown gets one only by being set. -/
theorem step_eq_none {T : TimerTable τ} {op : Op τ} (created : Nat) {id : Nat} (h : T id = none)
    (hop : op.setsId id = false) : T.step created op id = none := by
  cases op with
  | set id' time task =>
    have hne : id ≠ id' := by
      rintro rfl
      simp [Op.setsId] at hop
    simp [TimerTable.step, TimerTable.set, Function.update_of_ne hne, h]
  | flush id' =>
    by_cases hi : id = id'
    · subst hi; simp [TimerTable.step, TimerTable.flush, h]
    · simp [TimerTable.step, TimerTable.flush, Function.update_of_ne hi, h]
  | remove id' =>
    by_cases hi : id = id'
    · subst hi; simp [TimerTable.step, TimerTable.remove, h]
    · simp [TimerTable.step, TimerTable.remove, Function.update_of_ne hi, h]
  | run => simp [TimerTable.step, TimerTable.run, h]

variable [DecidableEq τ]

/-- The wheel has the timer `t` where its clock says. -/
def Tracks (w : TimeWheel τ) (T : TimerTable τ) (t : TimeTask τ) : Clock → Prop
  | .pending elapsed removed =>
    T t.id = some ⟨t, t.time - elapsed, removed⟩ ∧ elapsed < t.time ∧ t ∉ w.dead
  | .ended ran => t ∈ w.dead ∧ w.dead.count t = 1 ∧ w.fired.count t = if ran then 1 else 0

/-- What is dead does not die again. -/
theorem Refines.not_destroyed {w : TimeWheel τ} {T : TimerTable τ} (h : Refines w T)
    {t : TimeTask τ} (ht : t ∈ w.dead) (op : Op τ) : t ∉ w.destroyed op := by
  cases op with
  | run =>
    intro hexp
    obtain ⟨e, he, het, _⟩ := (h.mem_expiring t).mp hexp
    exact (h.buried t ht).2 e he het
  | set _ _ _ => simp [destroyed]
  | flush _ => simp [destroyed]
  | remove _ => simp [destroyed]

/-- A countdown that ends runs its callback once, unless it was removed. -/
theorem Refines.count_ran {w : TimeWheel τ} {T : TimerTable τ} (h : Refines w T) {t : TimeTask τ}
    {removed : Bool} (hT : T t.id = some ⟨t, 1, removed⟩) :
    t ∈ w.expiring ∧ (w.expiring.filter fun t => !w.canceled t).count t = if !removed
    then 1 else 0 := by
  have hmem : t ∈ w.expiring := (h.mem_expiring t).mpr ⟨_, hT, rfl, rfl⟩
  have hcanceled : w.canceled t = removed := (h.entry _ _ hT).2.2.2.2.1
  refine ⟨hmem, ?_⟩
  cases removed with
  | false =>
    have hin : t ∈ w.expiring.filter fun t => !w.canceled t :=
      List.mem_filter.mpr ⟨hmem, by simp [hcanceled]⟩
    exact List.count_eq_one_of_mem (w.expiring_nodup.filter _) hin
  | true =>
    have hout : t ∉ w.expiring.filter fun t => !w.canceled t := by simp [hcanceled]
    exact List.count_eq_zero_of_not_mem hout

theorem Refines.tracks_step {w w' : TimeWheel τ} {T : TimerTable τ} (h : Refines w T) {op : Op τ}
    (hop : w.Admissible op) {t : TimeTask τ} {c : Clock} (hc : Tracks w T t c)
    (hdead : w'.dead = w.dead ++ w.destroyed op)
    (hfired : w'.fired = w.fired ++ (w.destroyed op).filter (fun t => !w.canceled t)) :
    Tracks w' (T.step w.created op) t (c.next t.id t.time op) := by
  cases c with
  | ended ran =>
    obtain ⟨hmem, hd, hf⟩ := hc
    have hnot := h.not_destroyed hmem op
    have hnot' : t ∉ (w.destroyed op).filter (fun t => !w.canceled t) :=
      fun hmem => hnot (List.mem_filter.mp hmem).1
    refine ⟨?_, ?_, ?_⟩
    · rw [hdead]; exact List.mem_append_left _ hmem
    · rw [hdead, List.count_append, hd, List.count_eq_zero_of_not_mem hnot]
    · rw [hfired, List.count_append, hf, List.count_eq_zero_of_not_mem hnot', Nat.add_zero]
  | pending elapsed removed =>
    obtain ⟨hT, hlt, hnd⟩ := hc
    cases op with
    | set id time task =>
      have hne : t.id ≠ id := by
        rintro rfl
        have := hop.1
        rw [h.hasTimer, hT] at this
        cases this
      refine ⟨?_, hlt, by simpa [hdead, destroyed] using hnd⟩
      simp only [TimerTable.step, TimerTable.set, Function.update_of_ne hne, hT]
    | flush id =>
      refine ⟨?_, ?_, by simpa [hdead, destroyed] using hnd⟩
      · by_cases hid : id = t.id
        · subst hid; simp [TimerTable.step, TimerTable.flush, hT]
        · simp [TimerTable.step, TimerTable.flush, Function.update_of_ne (Ne.symm hid), hT, hid]
      · split <;> omega
    | remove id =>
      refine ⟨?_, hlt, by simpa [hdead, destroyed] using hnd⟩
      by_cases hid : id = t.id
      · subst hid; simp [TimerTable.step, TimerTable.remove, hT]
      · simp [TimerTable.step, TimerTable.remove, Function.update_of_ne (Ne.symm hid), hT, hid]
    | run =>
      change w'.dead = w.dead ++ w.expiring at hdead
      change w'.fired = w.fired ++ w.expiring.filter (fun t => !w.canceled t) at hfired
      by_cases hlast : elapsed + 1 = t.time
      · have hone : t.time - elapsed = 1 := by omega
        rw [hone] at hT
        obtain ⟨hmem, hran⟩ := h.count_ran hT
        have hnf : t ∉ w.fired := fun hf => hnd (h.fired t hf)
        simp only [Clock.next, if_pos hlast]
        refine ⟨?_, ?_, ?_⟩
        · rw [hdead]; exact List.mem_append_right _ hmem
        · rw [hdead, List.count_append, List.count_eq_zero_of_not_mem hnd,
            List.count_eq_one_of_mem w.expiring_nodup hmem]
        · rw [hfired, List.count_append, List.count_eq_zero_of_not_mem hnf, Nat.zero_add, hran]
      · have hout : t ∉ w.expiring := by
          intro hexp
          obtain ⟨e, he, _, h1⟩ := (h.mem_expiring t).mp hexp
          rw [hT] at he
          cases he
          simp only at h1
          omega
        simp only [Clock.next, if_neg hlast]
        refine ⟨?_, by omega, ?_⟩
        · have hne : t.time - elapsed ≠ 1 := by omega
          simp [TimerTable.step, TimerTable.run, hT, hne, Nat.sub_sub]
        · simp [hdead, hnd, hout]

/-- The id of a timer is free once the timer is over, unless it is set again. -/
theorem Tracks.free_step {w : TimeWheel τ} {T : TimerTable τ} {t : TimeTask τ} {c : Clock}
    (hc : Tracks w T t c) (hfree : c.isOver → T t.id = none) {op : Op τ}
    (hop : op.setsId t.id = false) (hover : (c.next t.id t.time op).isOver) :
    T.step w.created op t.id = none := by
  cases c with
  | ended ran => exact step_eq_none w.created (hfree rfl) hop
  | pending elapsed removed =>
    obtain ⟨hT, hlt, _⟩ := hc
    cases op with
    | run =>
      have hlast : elapsed + 1 = t.time := by
        by_contra hne
        simp [Clock.next, hne, Clock.isOver] at hover
      have h1 : t.time - elapsed = 1 := by omega
      simp [TimerTable.step, TimerTable.run, hT, h1]
    | set _ _ _ => cases hover
    | flush _ => cases hover
    | remove _ => cases hover

/-- Admissible runs succeed and keep to the table. -/
theorem Refines.exec {w : TimeWheel τ} {T : TimerTable τ} (h : Refines w T) (ops : List (Op τ))
    (hops : Along TimeWheel.step Admissible w ops) :
    ∃ w' T', Transition.exec TimeWheel.step w ops = some w' ∧ Refines w' T' ∧
      (∀ t c, Tracks w T t c → Tracks w' T' t (ops.foldl (Clock.next t.id t.time) c)) ∧
      (∀ t c, Tracks w T t c → (c.isOver → T t.id = none) → (∀ op ∈ ops, op.setsId t.id = false) →
        (ops.foldl (Clock.next t.id t.time) c).isOver → T' t.id = none) ∧
      ∀ id, T id = none → (∀ op ∈ ops, op.setsId id = false) → T' id = none := by
  induction ops generalizing w T with
  | nil => exact ⟨w, T, rfl, h, fun _ _ hc => hc, fun _ _ _ hfree _ => hfree, fun _ hid _ => hid⟩
  | cons op ops ih =>
    obtain ⟨w₁, hstep, h₁, hdead, hfired⟩ := h.step op hops.1
    obtain ⟨w', T', hexec, h', htrack, hover, hnone⟩ := ih h₁ (hops.2 w₁ hstep)
    refine ⟨w', T', by rw [exec_cons, hstep]; exact hexec, h', ?_, ?_, ?_⟩
    · intro t c hc
      exact htrack t _ (h.tracks_step hops.1 hc hdead hfired)
    · intro t c hc hfree hsets
      exact hover t _ (h.tracks_step hops.1 hc hdead hfired)
        (hc.free_step hfree (hsets op List.mem_cons_self))
        (fun op' hop' => hsets op' (List.mem_cons_of_mem _ hop'))
    · intro id hid hsets
      exact hnone id (step_eq_none w.created hid (hsets op List.mem_cons_self))
        (fun op' hop' => hsets op' (List.mem_cons_of_mem _ hop'))

/-- A timer that is set under a free id for at most a turn of the wheel is destroyed
at the tick its clock names, its callback runs there unless it was removed, and its
id is known until then. -/
theorem timer_exact (pre post : List (Op τ)) (id d : Nat) (task : τ)
    (hok : Along TimeWheel.step Admissible empty (pre ++ .set id d task :: post)) :
    ∃ w₁ w, Transition.exec TimeWheel.step empty pre = some w₁ ∧
      Transition.exec TimeWheel.step empty (pre ++ .set id d task :: post) = some w ∧
      let t : TimeTask τ := ⟨w₁.created, id, d, task⟩
      let clock := post.foldl (Clock.next id d) (.pending 0 false)
      w.dead.count t = (if clock.isOver then 1 else 0) ∧
      w.fired.count t = (if clock = .ended true then 1 else 0) ∧
      ((∀ op ∈ post, op.setsId id = false) → w.hasTimer id = !clock.isOver) ∧
      ∀ id', (∀ op ∈ pre ++ .set id d task :: post, op.setsId id' = false) →
        w.hasTimer id' = false := by
  obtain ⟨hpre, hrest⟩ := (along_append _ _ _).mp hok
  obtain ⟨w₁, T₁, hexec₁, h₁, _, _, hnone₁⟩ := empty_refines.exec pre hpre
  obtain ⟨hset, hpost⟩ := hrest w₁ hexec₁
  obtain ⟨w₂, hstep, h₂, hdead, hfired⟩ := h₁.step _ hset
  obtain ⟨w, T, hexec, h, htrack, hover, hnone⟩ := h₂.exec post (hpost w₂ hstep)
  have hwhole : Transition.exec TimeWheel.step empty (pre ++ .set id d task :: post) = some w := by
    rw [exec_append, hexec₁, Option.bind_some, exec_cons, hstep]
    exact hexec
  refine ⟨w₁, w, hexec₁, hwhole, ?_⟩
  intro t clock
  have hbegin : Tracks w₂ (T₁.set t) t (.pending 0 false) := by
    refine ⟨by simp [TimerTable.set], hset.2.1, ?_⟩
    rw [hdead]
    intro hmem
    have hold : t ∈ w₁.dead := by simpa [destroyed] using hmem
    exact Nat.lt_irrefl _ (h₁.buried t hold).1
  have hend : Tracks w T t clock := htrack t _ hbegin
  refine ⟨?_, ?_, ?_, ?_⟩
  · cases hc : clock with
    | pending elapsed removed =>
      rw [hc] at hend
      exact List.count_eq_zero_of_not_mem hend.2.2
    | ended ran =>
      rw [hc] at hend
      exact hend.2.1
  · cases hc : clock with
    | pending elapsed removed =>
      rw [hc] at hend
      exact List.count_eq_zero_of_not_mem fun hf => hend.2.2 (h.fired t hf)
    | ended ran =>
      rw [hc] at hend
      simpa using hend.2.2
  · intro hsets
    have hfree : clock.isOver → T id = none :=
      hover t _ hbegin (fun h => by cases h) hsets
    rw [h.hasTimer]
    cases hc : clock with
    | pending elapsed removed =>
      rw [hc] at hend
      have hT : T id = some ⟨t, d - elapsed, removed⟩ := hend.1
      simp [hT, Clock.isOver]
    | ended ran =>
      rw [hc] at hfree
      simp [hfree rfl, Clock.isOver]
  · intro id' hsets
    have hT₁ : T₁ id' = none := hnone₁ id' rfl fun op hop => hsets op (List.mem_append_left _ hop)
    have hT₂ := step_eq_none w₁.created hT₁ (hsets (.set id d task) (by simp))
    rw [h.hasTimer, hnone id' hT₂ fun op hop => hsets op (by simp [hop])]
    rfl

/-- Two timers, one flushed once and one removed. -/
theorem timer_exact_two :
    let pre : List (Op Unit) := [.set 1 60 (), .run]
    let post : List (Op Unit) :=
      [.flush 7, .set 2 1 (), .run, .remove 2, .flush 7, .run, .run, .run]
    ∃ w₁ w, Transition.exec TimeWheel.step empty pre = some w₁ ∧
      Transition.exec TimeWheel.step empty (pre ++ .set 7 3 () :: post) = some w ∧
      let t : TimeTask Unit := ⟨w₁.created, 7, 3, ()⟩
      let clock := post.foldl (Clock.next 7 3) (.pending 0 false)
      w.dead.count t = (if clock.isOver then 1 else 0) ∧
      w.fired.count t = (if clock = .ended true then 1 else 0) ∧
      ((∀ op ∈ post, op.setsId 7 = false) → w.hasTimer 7 = !clock.isOver) ∧
      ∀ id', (∀ op ∈ pre ++ .set 7 3 () :: post, op.setsId id' = false) → w.hasTimer id' = false :=
  timer_exact _ _ 7 3 () (by decide +kernel)

end TimeWheel
end MuduoServer
