import MuduoServer.TimerMap

/-!
# Ids that are used again

The map of the wheel knows one task of each id, the one set last, and forgets it when any task of
that id dies. A removal or a flush reaches only that task; the others of the id keep their places in
the slots.
-/
namespace MuduoServer

open Transition

variable {τ : Type}

namespace TimeWheel

/-- The delays of the wheel. -/
def Op.Delayed : Op τ → Prop
  | .set _ time _ => 1 ≤ time ∧ time ≤ 60
  | _ => True

instance (op : Op τ) : Decidable op.Delayed :=
  match op with
  | .set _ time _ => inferInstanceAs (Decidable (1 ≤ time ∧ time ≤ 60))
  | .flush _ | .remove _ | .run => .isTrue trivial

/-- The calls of `run_timer` in a sequence of operations. -/
def ticks : List (Op τ) → Nat
  | [] => 0
  | .run :: ops => ticks ops + 1
  | _ :: ops => ticks ops

theorem ticks_cons (op : Op τ) (ops : List (Op τ)) :
    ticks (op :: ops) = ticks ops + ticks [op] := by
  cases op <;> rfl

/-- What holds in every state, however ids are used. -/
structure Sound (w : TimeWheel τ) : Prop where
  alive : ∀ p, ∀ t ∈ w.wheels p, 1 ≤ t.time ∧ t.time ≤ 60 ∧ t.addr < w.created ∧ t ∉ w.dead
  named : ∀ id t, w.timers id = some t → t.id = id ∧ w.Alive t
  dead : ∀ t ∈ w.dead, t.addr < w.created
  fired : ∀ t ∈ w.fired, t ∈ w.dead

theorem empty_sound : Sound (TimeWheel.empty : TimeWheel τ) := by
  constructor <;> simp [TimeWheel.empty]

/-- What an operation can do to a task that is already there. -/
structure Moved (w : TimeWheel τ) (op : Op τ) (w' : TimeWheel τ) : Prop where
  created : w.created ≤ w'.created
  alive : ∀ t, w'.Alive t → w.Alive t ∨ t.addr = w.created
  canceled : ∀ t, t.addr < w.created → w.canceled t = true → w'.canceled t = true
  fired : ∀ t ∈ w'.fired, t ∈ w.fired ∨ w.Alive t ∧ w.canceled t = false
  kept : ∀ p t, t ∈ w.wheels p → ticks [op] < ahead w.tick p →
    t ∈ w'.wheels p ∧ ahead w'.tick p = ahead w.tick p - ticks [op]

variable {w w' : TimeWheel τ}

theorem Moved.refl (w : TimeWheel τ) {op : Op τ} (hop : ticks [op] = 0) : Moved w op w where
  created := Nat.le_refl _
  alive _ hs := .inl hs
  canceled _ _ hc := hc
  fired _ hs := .inl hs
  kept p s hs _ := ⟨hs, by rw [hop]; rfl⟩

theorem Sound.tracked (h : Sound w) : Tracked w :=
  ⟨h.named, fun p t hmem => le_maxDelay (h.alive p t hmem).2.1⟩

variable [DecidableEq τ]

theorem Sound.set (h : Sound w) (id time : Nat) (task : τ) (ht : 1 ≤ time ∧ time ≤ 60) :
    Sound (w.setTimeTask id time task) := by
  have hnew : (⟨w.created, id, time, task⟩ : TimeTask τ) ∉ w.dead :=
    fun hd => Nat.lt_irrefl _ (h.dead _ hd)
  refine ⟨fun p t hmem => ?_, Linked.set h.named id time task,
    fun t hd => Nat.lt_succ_of_lt (h.dead t hd), h.fired⟩
  rcases (mem_push _ _ p _ t).mp hmem with hmem | ⟨-, rfl⟩
  · obtain ⟨h1, h2, h3, h4⟩ := h.alive p t hmem
    exact ⟨h1, h2, Nat.lt_succ_of_lt h3, h4⟩
  · exact ⟨ht.1, ht.2, Nat.lt_succ_self _, hnew⟩

theorem moved_set (w : TimeWheel τ) (id time : Nat) (task : τ) :
    Moved w (.set id time task) (w.setTimeTask id time task) where
  created := Nat.le_succ _
  alive t ht := by
    rcases alive_push.mp ht with ht | rfl
    · exact .inl ht
    · exact .inr rfl
  canceled t hlt hc := by
    have hne : t ≠ ⟨w.created, id, time, task⟩ := by
      rintro rfl
      exact Nat.lt_irrefl _ hlt
    simpa only [setTimeTask, push, Function.update_of_ne hne] using hc
  fired t ht := .inl ht
  kept p t ht _ := ⟨(mem_push _ _ p _ t).mpr (.inl ht), rfl⟩

omit [DecidableEq τ] in
theorem Sound.push (h : Sound w) (pos : Fin capacity) {t : TimeTask τ} (ht : w.Alive t) :
    Sound (w.push pos t) := by
  refine ⟨fun p s hmem => ?_, Linked.push h.named pos t, h.dead, h.fired⟩
  rcases (mem_push w pos p t s).mp hmem with hmem | ⟨-, rfl⟩
  · exact h.alive p s hmem
  · obtain ⟨q, hq⟩ := ht
    exact h.alive q s hq

omit [DecidableEq τ] in
theorem moved_push (id : Nat) (pos : Fin capacity) {t : TimeTask τ} (ht : w.Alive t) :
    Moved w (.flush id) (w.push pos t) where
  created := Nat.le_refl _
  alive s hs := by
    rcases alive_push.mp hs with hs | rfl
    · exact .inl hs
    · exact .inl ht
  canceled _ _ hc := hc
  fired _ hs := .inl hs
  kept p s hs _ := ⟨(mem_push w pos p t s).mpr (.inl hs), rfl⟩

theorem Sound.cancel (h : Sound w) (t : TimeTask τ) :
    Sound { w with canceled := Function.update w.canceled t true } :=
  ⟨h.alive, h.named, h.dead, h.fired⟩

theorem moved_cancel (w : TimeWheel τ) (id : Nat) (t : TimeTask τ) :
    Moved w (.remove id) { w with canceled := Function.update w.canceled t true } where
  created := Nat.le_refl _
  alive _ hs := .inl hs
  canceled s _ hc := by
    by_cases hs : s = t
    · rw [hs]
      exact Function.update_self t true w.canceled
    · exact (Function.update_of_ne hs true w.canceled).trans hc
  fired _ hs := .inl hs
  kept _ _ hs _ := ⟨hs, rfl⟩

/-- A task of the slot that a tick clears is gone with it or has another reference. -/
theorem Sound.run (h : Sound w) : Sound w.runTimer := by
  have hgone : ∀ t ∈ w.expiring, ¬w.runTimer.Alive t := fun t ht => ((mem_expiring_iff w t).mp ht).2
  refine ⟨fun p t hmem => ?_, Linked.run h.named, fun t ht => ?_, fun t ht => ?_⟩
  · obtain ⟨h1, h2, h3, h4⟩ := h.alive p t ((mem_runTimer w p t).mp hmem).1
    rw [created_runTimer, dead_runTimer]
    refine ⟨h1, h2, h3, fun hd => (List.mem_append.mp hd).elim h4 fun he => hgone t he ⟨p, hmem⟩⟩
  · rw [dead_runTimer] at ht
    rw [created_runTimer]
    rcases List.mem_append.mp ht with ht | ht
    · exact h.dead t ht
    · exact (h.alive _ t ((mem_expiring_iff w t).mp ht).1).2.2.1
  · rw [dead_runTimer]
    rw [fired_runTimer] at ht
    rcases List.mem_append.mp ht with ht | ht
    · exact List.mem_append_left _ (h.fired t ht)
    · exact List.mem_append_right _ (List.mem_filter.mp ht).1

theorem moved_run (w : TimeWheel τ) : Moved w .run w.runTimer where
  created := (created_runTimer w).ge
  alive t := fun ⟨p, ht⟩ => .inl ⟨p, ((mem_runTimer w p t).mp ht).1⟩
  canceled t _ hc := by rwa [canceled_runTimer]
  fired t ht := by
    rw [fired_runTimer] at ht
    rcases List.mem_append.mp ht with ht | ht
    · exact .inl ht
    · obtain ⟨hmem, hc⟩ := List.mem_filter.mp ht
      exact .inr ⟨⟨_, ((mem_expiring_iff w t).mp hmem).1⟩, by simpa using hc⟩
  kept p t ht hlt := by
    have hone : ahead w.tick p ≠ 1 := Nat.ne_of_gt hlt
    refine ⟨(mem_runTimer w p t).mpr ⟨ht, hone⟩, ?_⟩
    rw [tick_runTimer, ahead_next, if_neg hone]
    rfl

/-- Every operation succeeds. -/
theorem Sound.step (h : Sound w) {op : Op τ} (hop : op.Delayed) :
    ∃ w', w.step op = some w' ∧ Sound w' ∧ Moved w op w' := by
  cases op with
  | set id time task => exact ⟨_, rfl, h.set id time task hop, moved_set w id time task⟩
  | flush id =>
    refine ⟨_, h.tracked.flush_eq id, ?_⟩
    cases hn : w.timers id with
    | none => exact ⟨h, Moved.refl w rfl⟩
    | some t =>
      have ha := (h.named id t hn).2
      exact ⟨h.push _ ha, moved_push id _ ha⟩
  | remove id =>
    refine ⟨_, rfl, ?_⟩
    rw [h.tracked.linked.remove_eq id]
    cases w.timers id with
    | none => exact ⟨h, Moved.refl w rfl⟩
    | some t => exact ⟨h.cancel t, moved_cancel w id t⟩
  | run => exact ⟨_, rfl, h.run, moved_run w⟩

/-! ## What becomes of a task -/

/-- The tasks `P` are there and cancelled, or gone; those in `before` had run. -/
structure Silenced (P : TimeTask τ → Prop) (before : List (TimeTask τ)) (w : TimeWheel τ) :
    Prop where
  created : ∀ t, P t → t.addr < w.created
  canceled : ∀ t, P t → w.Alive t → w.canceled t = true
  fired : ∀ t, P t → t ∈ w.fired → t ∈ before

variable {P : TimeTask τ → Prop} {before : List (TimeTask τ)}

omit [DecidableEq τ] in
theorem Silenced.moved {op : Op τ} (h : Silenced P before w) (hm : Moved w op w') :
    Silenced P before w' where
  created t hP := (h.created t hP).trans_le hm.created
  canceled t hP ha := by
    have hold := h.created t hP
    rcases hm.alive t ha with ha | hnew
    · exact hm.canceled t hold (h.canceled t hP ha)
    · omega
  fired t hP ht := by
    rcases hm.fired t ht with ht | ⟨ha, hc⟩
    · exact h.fired t hP ht
    · rw [h.canceled t hP ha] at hc
      cases hc

theorem Silenced.exec {ops : List (Op τ)} (hs : Sound w) (h : Silenced P before w)
    (hops : ∀ op ∈ ops, op.Delayed) (hrun : exec TimeWheel.step w ops = some w') :
    Silenced P before w' := by
  induction ops generalizing w with
  | nil =>
    cases hrun
    exact h
  | cons op ops ih =>
    obtain ⟨hop, hops⟩ := List.forall_mem_cons.mp hops
    obtain ⟨v, hv, hsv, hm⟩ := hs.step hop
    rw [exec_cons, hv] at hrun
    exact ih hsv (h.moved hm) hops hrun

/-- A reference keeps its task from running until its slot is cleared. -/
theorem Sound.kept_exec {ops : List (Op τ)} (hs : Sound w) {p : Fin capacity} {t : TimeTask τ}
    (ht : t ∈ w.wheels p) (hops : ∀ op ∈ ops, op.Delayed) (hlt : ticks ops < ahead w.tick p)
    (hrun : exec TimeWheel.step w ops = some w') :
    t ∉ w'.fired := by
  induction ops generalizing w with
  | nil =>
    cases hrun
    exact fun hf => (hs.alive p t ht).2.2.2 (hs.fired t hf)
  | cons op ops ih =>
    obtain ⟨hop, hops⟩ := List.forall_mem_cons.mp hops
    obtain ⟨v, hv, hsv, hm⟩ := hs.step hop
    rw [exec_cons, hv] at hrun
    rw [ticks_cons] at hlt
    obtain ⟨hmem, hahead⟩ := hm.kept p t ht (by omega)
    exact ih hsv hmem hops (by omega) hrun

/-! ## Removals and flushes under reused ids -/

/-- The map still names every task that a removal or a flush is about. A flush has nothing to do for
a task that was set or flushed within the current tick. -/
def Names (w : TimeWheel τ) : Op τ → Prop
  | .remove id => ∀ p, ∀ t ∈ w.wheels p, t.id = id → w.canceled t = false → w.timers id = some t
  | .flush id => ∀ p, ∀ t ∈ w.wheels p, t.id = id → w.canceled t = false →
      w.timers id = some t ∨ t ∈ w.wheels (slot (t.time + w.tick))
  | _ => True

instance (w : TimeWheel τ) (op : Op τ) : Decidable (w.Names op) :=
  match op with
  | .remove id =>
    inferInstanceAs (Decidable (∀ p, ∀ t ∈ w.wheels p, t.id = id → w.canceled t = false → w.timers id = some t))
  | .flush id =>
    inferInstanceAs (Decidable (∀ p, ∀ t ∈ w.wheels p, t.id = id → w.canceled t = false → _ ∨ _))
  | .set .. | .run => .isTrue trivial

/-- A removal cancels every task of its id. -/
theorem Sound.silenced (h : Sound w) {id : Nat} (hnames : w.Names (.remove id)) :
    Silenced (fun t => t.id = id ∧ t.addr < w.created) w.fired (w.removeTimeTask id) := by
  have hlast : ∀ t, t.id = id → w.Alive t → w.canceled t = true ∨ w.timers id = some t := by
    rintro t hid ⟨p, hp⟩
    cases hc : w.canceled t with
    | true => exact .inl rfl
    | false => exact .inr (hnames p t hp hid hc)
  rw [h.tracked.linked.remove_eq id]
  cases hn : w.timers id with
  | none =>
    refine ⟨fun t ht => ht.2, fun t ht ha => ?_, fun _ _ ht => ht⟩
    rcases hlast t ht.1 ha with hc | hn'
    · exact hc
    · rw [hn] at hn'
      cases hn'
  | some s =>
    refine ⟨fun t ht => ht.2, fun t ht ha => ?_, fun _ _ ht => ht⟩
    by_cases hts : t = s
    · rw [hts]
      exact Function.update_self s true w.canceled
    · refine (Function.update_of_ne hts true w.canceled).trans ?_
      rcases hlast t ht.1 ha with hc | hn'
      · exact hc
      · rw [hn] at hn'
        exact absurd (Option.some.inj hn').symm hts

/-- A flush puts every callback of the id a whole delay away. -/
theorem Sound.flushed (h : Sound w) {id : Nat} (hnames : w.Names (.flush id))
    (hstep : w.flushTimeTask id = some w') {t : TimeTask τ} (ha : w.Alive t) (hid : t.id = id)
    (hc : w.canceled t = false) :
    ∃ p, t ∈ w'.wheels p ∧ ahead w'.tick p = t.time := by
  obtain ⟨q, hq⟩ := ha
  obtain ⟨h1, h2, -⟩ := h.alive q t hq
  have hahead := ahead_slot w.tick t.time h1 h2
  rw [h.tracked.flush_eq id] at hstep
  cases hn : w.timers id with
  | none =>
    rw [hn] at hstep
    cases hstep
    rcases hnames q t hq hid hc with he | hp
    · rw [hn] at he
      cases he
    · exact ⟨_, hp, hahead⟩
  | some s =>
    rw [hn] at hstep
    cases hstep
    rcases hnames q t hq hid hc with he | hp
    · obtain rfl := Option.some.inj (hn.symm.trans he)
      exact ⟨_, (mem_push w _ _ s s).mpr (.inr ⟨rfl, rfl⟩), hahead⟩
    · exact ⟨_, (mem_push w _ _ s t).mpr (.inl hp), hahead⟩

/-- The promises of the removals and flushes of a sequence of operations. -/
structure Honoured (ops : List (Op τ)) (w : TimeWheel τ) : Prop where
  remove : ∀ pre id post v, ops = pre ++ .remove id :: post → exec step empty pre = some v →
    ∀ t, t.id = id → t.addr < v.created → t ∈ w.fired → t ∈ v.fired
  flush : ∀ pre id post v, ops = pre ++ .flush id :: post → exec step empty pre = some v →
    ∀ t, v.Alive t → t.id = id → ticks post < t.time → t ∉ w.fired

theorem Sound.exec {ops : List (Op τ)} (h : Sound w) (hops : ∀ op ∈ ops, op.Delayed) :
    ∃ w', exec TimeWheel.step w ops = some w' ∧ Sound w' := by
  refine exec_total Sound (fun v op hv hop => ?_) h (along_of_mem fun _ => hops)
  obtain ⟨v', hstep, hsound, -⟩ := hv.step hop
  exact ⟨v', hstep, hsound⟩

/-- While the map names the tasks that are meant, no removed callback runs and no flushed one runs
early, whatever ids are used again. -/
theorem reused_ids (ops : List (Op τ)) (hops : ∀ op ∈ ops, op.Delayed)
    (hnames : Along step Names empty ops) :
    ∃ w, exec step empty ops = some w ∧ Honoured ops w := by
  obtain ⟨w, hw, -⟩ := empty_sound.exec hops
  -- the state before an operation, and the rest of the run
  have hsplit : ∀ pre op post v, ops = pre ++ op :: post → exec step empty pre = some v →
      Sound v ∧ v.Names op ∧ (∀ op ∈ post, op.Delayed) ∧
        ∃ v', v.step op = some v' ∧ Sound v' ∧ Moved v op v' ∧ exec step v' post = some w := by
    rintro pre op post v rfl hv
    obtain ⟨hpre, hrest⟩ := List.forall_mem_append.mp hops
    obtain ⟨hop, hpost⟩ := List.forall_mem_cons.mp hrest
    obtain ⟨v₁, hv₁, hsound⟩ := empty_sound.exec hpre
    cases hv₁.symm.trans hv
    obtain ⟨v', hv', hs', hm⟩ := hsound.step hop
    rw [exec_append, hv, Option.bind_some, exec_cons, hv'] at hw
    exact ⟨hsound, (((along_append _ _ _).mp hnames).2 v hv).1, hpost, v', hv', hs', hm, hw⟩
  refine ⟨w, hw, ⟨fun pre id post v he hv t hid hlt ht => ?_, fun pre id post v he hv t ha hid hlt => ?_⟩⟩
  · obtain ⟨hsound, hn, hpost, v', hv', hs', -, hrun⟩ := hsplit pre _ post v he hv
    cases hv'
    exact ((hsound.silenced hn).exec hs' hpost hrun).fired t ⟨hid, hlt⟩ ht
  · obtain ⟨hsound, hn, hpost, v', hv', hs', hm, hrun⟩ := hsplit pre _ post v he hv
    obtain ⟨p, hp⟩ := ha
    have hold := hsound.alive p t hp
    cases hc : v.canceled t with
    | true =>
      have hsilent : Silenced (fun s => s = t) [] v := by
        refine ⟨fun s hs => hs ▸ hold.2.2.1, fun s hs _ => hs ▸ hc, fun s hs hf => ?_⟩
        exact absurd (hsound.fired t (hs ▸ hf)) hold.2.2.2
      exact fun hf => List.not_mem_nil (((hsilent.moved hm).exec hs' hpost hrun).fired t rfl hf)
    | false =>
      obtain ⟨q, hq, hahead⟩ := hsound.flushed hn hv' ⟨p, hp⟩ hid hc
      exact hs'.kept_exec hq hpost (hahead ▸ hlt) hrun

/-- Two timers of one id, set and flushed in one tick, then both gone; the id is set again
and removed. -/
def usedAgain : List (Op Unit) :=
  [.set 7 1 (), .set 7 2 (), .flush 7, .run, .run, .set 7 5 (), .remove 7, .run]

theorem reused_ids_usedAgain : ∃ w, exec step empty usedAgain = some w ∧ Honoured usedAgain w :=
  reused_ids usedAgain (by decide) (by decide +kernel)

/-- A removal after the second of two tasks of one id. -/
def removedTwin : List (Op Unit) :=
  [.set 7 5 (), .set 7 5 ()] ++ .remove 7 :: [.run, .run, .run, .run, .run]

/-- A flush after the death of the first of two tasks of one id. -/
def flushedTwin : List (Op Unit) :=
  [.set 7 1 (), .set 7 5 (), .run] ++ .flush 7 :: [.run, .run, .run, .run]

/-- The removal misses the older task, the flush the newer one. -/
theorem reused_ids_missed : (¬∃ w, exec step empty removedTwin = some w ∧ Honoured removedTwin w) ∧
    ¬∃ w, exec step empty flushedTwin = some w ∧ Honoured flushedTwin w := by
  constructor
  · rintro ⟨w, hw, h⟩
    have hran : (exec step empty removedTwin).all (fun w => ⟨0, 7, 5, ()⟩ ∈ w.fired) = true := by
      decide +kernel
    have hbefore : (exec step (empty : TimeWheel Unit) [.set 7 5 (), .set 7 5 ()]).any
        (fun v => 0 < v.created ∧ ⟨0, 7, 5, ()⟩ ∉ v.fired) = true := by decide +kernel
    obtain ⟨v, hv, hnew⟩ := (Option.any_eq_true _ _).mp hbefore
    obtain ⟨hcreated, hnot⟩ := of_decide_eq_true hnew
    rw [hw] at hran
    exact hnot (h.remove _ 7 _ v rfl hv ⟨0, 7, 5, ()⟩ rfl hcreated (of_decide_eq_true hran))
  · rintro ⟨w, hw, h⟩
    have hran : (exec step empty flushedTwin).all (fun w => ⟨1, 7, 5, ()⟩ ∈ w.fired) = true := by
      decide +kernel
    have hbefore : (exec step (empty : TimeWheel Unit) [.set 7 1 (), .set 7 5 (), .run]).any
        (fun v => v.Alive ⟨1, 7, 5, ()⟩) = true := by decide +kernel
    obtain ⟨v, hv, halive⟩ := (Option.any_eq_true _ _).mp hbefore
    rw [hw] at hran
    exact h.flush _ 7 _ v rfl hv ⟨1, 7, 5, ()⟩ (of_decide_eq_true halive) rfl
      (by decide) (of_decide_eq_true hran)

end TimeWheel
end MuduoServer
