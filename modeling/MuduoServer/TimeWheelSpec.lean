import Mathlib.Data.List.Count
import MuduoServer.TimeWheel
import MuduoServer.Transition

/-!
# The wheel is a table of countdowns

Seen from outside, a wheel whose ids are not reused while they are pending holds
one countdown for each id. The references a task has scattered over the slots
stay within its countdown, with one of them exactly there, so that the tick that
ends the countdown takes the last of them.
-/
namespace MuduoServer

variable {τ : Type}

/-! ## The table -/

structure Countdown (τ : Type) where
  task : TimeTask τ
  remaining : Nat
  canceled : Bool

/-- The pending countdown of each id. -/
abbrev TimerTable (τ : Type) := Nat → Option (Countdown τ)

namespace TimerTable

def set (T : TimerTable τ) (t : TimeTask τ) : TimerTable τ :=
  Function.update T t.id (some ⟨t, t.time, false⟩)

def flush (T : TimerTable τ) (id : Nat) : TimerTable τ :=
  Function.update T id ((T id).map fun e => { e with remaining := e.task.time })

def remove (T : TimerTable τ) (id : Nat) : TimerTable τ :=
  Function.update T id ((T id).map fun e => { e with canceled := true })

def run (T : TimerTable τ) : TimerTable τ := fun id =>
  (T id).bind fun e => if e.remaining = 1 then none
    else some { e with remaining := e.remaining - 1 }

/-- `created` is the address a new object gets. -/
def step (T : TimerTable τ) (created : Nat) : TimeWheel.Op τ → TimerTable τ
  | .set id time task => T.set ⟨created, id, time, task⟩
  | .flush id => T.flush id
  | .remove id => T.remove id
  | .run => T.run

end TimerTable

namespace TimeWheel

/-! ## Slots and ticks -/

/-- In how many ticks the slot is cleared. -/
def ahead (tick p : Fin capacity) : Nat := (p.val + 59 - tick.val) % 60 + 1

theorem ahead_range (tick p : Fin capacity) : 1 ≤ ahead tick p ∧ ahead tick p ≤ 60 := by
  unfold ahead; omega

theorem ahead_slot (tick : Fin capacity) (d : Nat) (h1 : 1 ≤ d) (h2 : d ≤ 60) :
    ahead tick (slot (d + tick)) = d := by
  have := tick.isLt
  simp only [ahead, slot, capacity] at this ⊢
  omega

theorem ahead_inj {tick p q : Fin capacity} (h : ahead tick p = ahead tick q) : p = q := by
  have := tick.isLt
  have := p.isLt
  have := q.isLt
  simp only [ahead, capacity] at *
  exact Fin.ext (by omega)

theorem ahead_next (tick p : Fin capacity) :
    ahead (slot (tick + 1)) p = if ahead tick p = 1 then 60 else ahead tick p - 1 := by
  have := tick.isLt
  have := p.isLt
  by_cases h : ahead tick p = 1
  · rw [if_pos h]
    simp only [ahead, slot, capacity] at *
    omega
  · rw [if_neg h]
    simp only [ahead, slot, capacity] at *
    omega

theorem ahead_eq_one (tick p : Fin capacity) : ahead tick p = 1 ↔ p = slot (tick + 1) := by
  have hone : ahead tick (slot (tick + 1)) = 1 := by
    rw [Nat.add_comm]
    exact ahead_slot tick 1 (Nat.le_refl 1) (by omega)
  constructor
  · intro h
    exact ahead_inj (h.trans hone.symm)
  · rintro rfl
    exact hone

/-- The largest delay that an `int` holds together with a tick. -/
def maxDelay : Nat := 2 ^ 31 - 61

theorem le_maxDelay {time : Nat} (h : time ≤ 60) : time ≤ maxDelay := Nat.le_trans h (by decide)

/-- The index of `set_time_task`, a sum of `uint64_t`. -/
def setIndex (time : Nat) (tick : Fin capacity) : Nat := (time + tick) % 2 ^ 64 % capacity

/-- The index of `flush_time_task`, computed in `int`; `none` is an overflow. -/
def flushIndex (time : Nat) (tick : Fin capacity) : Option Int :=
  let sum : Int := Int.bmod time (2 ^ 32) + (tick : Nat)
  if 2 ^ 31 ≤ sum then none else some (Int.tmod sum capacity)

theorem slot_setIndex (time : Nat) (tick : Fin capacity) :
    (slot ((time + tick) % 2 ^ 64)).val = setIndex time tick := rfl

theorem flushPos_flushIndex (time : Nat) (tick : Fin capacity) :
    flushPos time tick = (flushIndex time tick).bind fun i => if i < 0 then none
    else some (slot i.toNat) := by
  unfold flushPos flushIndex
  by_cases h : 2 ^ 31 ≤ Int.bmod time (2 ^ 32) + ((tick : Nat) : Int)
  · rw [if_pos h, if_pos h, Option.bind_none]
  · rw [if_neg h, if_neg h, Option.bind_some]

/-- Up to this delay the arithmetic of `int` is exact. -/
theorem flushIndex_eq (tick : Fin capacity) {time : Nat} (h : time ≤ maxDelay) :
    flushIndex time tick = some (((time + tick) % capacity : Nat) : Int) := by
  have htick := tick.isLt
  simp only [maxDelay] at h
  simp only [capacity] at htick
  have hint : Int.bmod time (2 ^ 32) = time := Int.bmod_eq_of_le (by omega) (by omega)
  have hsmall : ¬2 ^ 31 ≤ ((time + tick : Nat) : Int) := by omega
  unfold flushIndex
  rw [hint, ← Int.natCast_add]
  simp only [if_neg hsmall, Int.ofNat_tmod]

theorem flushPos_eq (tick : Fin capacity) {time : Nat} (h : time ≤ maxDelay) :
    flushPos time tick = some (slot (time + tick)) := by
  have hslot : slot ((time + tick) % capacity) = slot (time + tick) := Fin.ext (Nat.mod_mod _ _)
  rw [flushPos_flushIndex, flushIndex_eq tick h, Option.bind_some,
    if_neg (Int.not_lt.mpr (Int.natCast_nonneg _)),
    Int.toNat_natCast, hslot]

/-! ## What each operation does to the members -/

theorem mem_push (w : TimeWheel τ) (pos p : Fin capacity) (ptr t : TimeTask τ) :
    t ∈ (w.push pos ptr).wheels p ↔ t ∈ w.wheels p ∨ (p = pos ∧ t = ptr) := by
  by_cases hp : p = pos
  · subst hp; simp [push]
  · simp [push, hp]

theorem alive_push {w : TimeWheel τ} {pos : Fin capacity} {ptr t : TimeTask τ} :
    (w.push pos ptr).Alive t ↔ w.Alive t ∨ t = ptr := by
  constructor
  · rintro ⟨p, ht⟩
    rcases (mem_push w pos p ptr t).mp ht with ht | ⟨-, rfl⟩
    · exact .inl ⟨p, ht⟩
    · exact .inr rfl
  · rintro (⟨p, ht⟩ | rfl)
    · exact ⟨p, (mem_push w pos p ptr t).mpr (.inl ht)⟩
    · exact ⟨pos, (mem_push w pos pos t t).mpr (.inr ⟨rfl, rfl⟩)⟩

/-- The wheel after the objects `ds` are destroyed. -/
def bury (w : TimeWheel τ) (ds : List (TimeTask τ)) : TimeWheel τ :=
  { w with
    timers := fun id => if ∃ t ∈ ds, t.id = id then none else w.timers id
    dead := w.dead ++ ds
    fired := w.fired ++ ds.filter fun t => !w.canceled t }

theorem bury_destroy (w : TimeWheel τ) (t : TimeTask τ) (ds : List (TimeTask τ)) :
    (w.destroy t).bury ds = w.bury (t :: ds) := by
  have htimers : ∀ id, (if ∃ s ∈ ds, s.id = id then none else Function.update w.timers t.id none id) =
      if ∃ s ∈ t :: ds, s.id = id then none else w.timers id := by
    intro id
    by_cases hid : t.id = id
    · subst hid; simp
    · simp [Function.update_of_ne (Ne.symm hid), hid]
  simp only [bury, destroy, excuteTimer, htimers, List.append_assoc, List.singleton_append,
    List.filter_cons]
  cases w.canceled t <;> simp

/-! ## Refinement -/

/-- The wheel holds the countdowns of the table: references within the countdown,
and one that ends with it. -/
structure Refines (w : TimeWheel τ) (T : TimerTable τ) : Prop where
  timers : ∀ id, w.timers id = (T id).map Countdown.task
  entry : ∀ id e, T id = some e → e.task.id = id ∧ 1 ≤ e.remaining ∧ e.remaining ≤ e.task.time ∧
    e.task.time ≤ 60 ∧ w.canceled e.task = e.canceled ∧ e.task.addr < w.created
  refs : ∀ p t, t ∈ w.wheels p → ∃ e, T t.id = some e ∧ e.task = t ∧ ahead w.tick p ≤ e.remaining
  due : ∀ id e p, T id = some e → ahead w.tick p = e.remaining → e.task ∈ w.wheels p
  buried : ∀ t ∈ w.dead, t.addr < w.created ∧ ∀ e, T t.id = some e → e.task ≠ t
  fired : ∀ t ∈ w.fired, t ∈ w.dead

theorem empty_refines : Refines (TimeWheel.empty : TimeWheel τ) (fun _ => none) := by
  constructor <;> simp [TimeWheel.empty]

theorem Refines.hasTimer {w : TimeWheel τ} {T : TimerTable τ} (h : Refines w T) (id : Nat) :
    w.hasTimer id = (T id).isSome := by
  rw [TimeWheel.hasTimer, h.timers, Option.isSome_map]

theorem Refines.alive {w : TimeWheel τ} {T : TimerTable τ} (h : Refines w T) {id : Nat}
    {e : Countdown τ} (he : T id = some e) : w.Alive e.task := by
  obtain ⟨_, h1, h2, h3, _⟩ := h.entry id e he
  exact ⟨_, h.due id e (slot (e.remaining + w.tick)) he (ahead_slot w.tick _ h1 (by omega))⟩

variable [DecidableEq τ]

/-! ## Clearing a slot -/

theorem mem_dying (w : TimeWheel τ) (ts : List (TimeTask τ)) (t : TimeTask τ) :
    t ∈ w.dying ts ↔ t ∈ ts ∧ ¬w.Alive t := by
  induction ts with
  | nil => simp [dying]
  | cons s ts ih =>
    unfold dying
    by_cases hs : s ∈ ts ∨ w.Alive s
    · rw [if_pos hs, ih, List.mem_cons]
      constructor
      · rintro ⟨ht, ha⟩
        exact ⟨.inr ht, ha⟩
      · rintro ⟨rfl | ht, ha⟩
        · exact ⟨hs.resolve_right ha, ha⟩
        · exact ⟨ht, ha⟩
    · rw [if_neg hs, List.mem_cons, List.mem_cons, ih]
      obtain ⟨_, ha⟩ := not_or.mp hs
      constructor
      · rintro (rfl | ⟨ht, h⟩)
        · exact ⟨.inl rfl, ha⟩
        · exact ⟨.inr ht, h⟩
      · rintro ⟨rfl | ht, h⟩
        · exact .inl rfl
        · exact .inr ⟨ht, h⟩

theorem dying_nodup (w : TimeWheel τ) (ts : List (TimeTask τ)) : (w.dying ts).Nodup := by
  induction ts with
  | nil => exact List.nodup_nil
  | cons s ts ih =>
    unfold dying
    split
    · exact ih
    · rename_i hs
      refine List.nodup_cons.mpr ⟨fun hmem => ?_, ih⟩
      exact hs (.inl ((mem_dying w ts s).mp hmem).1)

theorem dying_destroy (w : TimeWheel τ) (t : TimeTask τ) (ts : List (TimeTask τ)) :
    (w.destroy t).dying ts = w.dying ts := by
  induction ts with
  | nil => rfl
  | cons s ts ih =>
    have hs : (w.destroy t).Alive s ↔ w.Alive s := Iff.rfl
    simp only [dying, hs, ih]

theorem release_eq (w : TimeWheel τ) (ts : List (TimeTask τ)) :
    w.release ts = w.bury (w.dying ts) := by
  induction ts generalizing w with
  | nil => simp [release, dying, bury]
  | cons t ts ih =>
    unfold release dying
    by_cases ht : t ∈ ts ∨ w.Alive t
    · rw [if_pos ht, if_pos ht, ih]
    · rw [if_neg ht, if_neg ht, ih, dying_destroy]
      exact bury_destroy w t _

/-! ## The operations refine the table -/

theorem Refines.lock {w : TimeWheel τ} {T : TimerTable τ} (h : Refines w T) {id : Nat}
    {e : Countdown τ} (he : T id = some e) : w.lock e.task = some e.task :=
  if_pos (h.alive he)

omit [DecidableEq τ] in
/-- A reference to a task of a pending id is one to the task of its countdown. -/
theorem Refines.ref_of_id {w : TimeWheel τ} {T : TimerTable τ} (h : Refines w T) {id : Nat}
    {e : Countdown τ} (he : T id = some e) {p : Fin capacity} {t : TimeTask τ} (ht : t ∈ w.wheels p)
    (hi : t.id = id) :
    t = e.task ∧ ahead w.tick p ≤ e.remaining := by
  obtain ⟨e', he', het, hle⟩ := h.refs p t ht
  rw [hi, he] at he'
  cases he'
  exact ⟨het.symm, hle⟩

omit [DecidableEq τ] in
/-- An operation on one id, whose countdown becomes `e`. -/
theorem Refines.update {w w' : TimeWheel τ} {T : TimerTable τ} (h : Refines w T) {id : Nat}
    {e : Countdown τ} (hentry : e.task.id = id ∧ 1 ≤ e.remaining ∧ e.remaining ≤ e.task.time ∧
      e.task.time ≤ 60 ∧
      w'.canceled e.task = e.canceled ∧ e.task.addr < w'.created)
    (htick : w'.tick = w.tick) (hcreated : w.created ≤ w'.created) (hdead : w'.dead = w.dead)
    (hfired : w'.fired = w.fired) (hlive : e.task ∉ w.dead)
    (htimers : w'.timers = Function.update w.timers id (some e.task))
    (hcanceled : ∀ t, t ≠ e.task → w'.canceled t = w.canceled t)
    (hrefs : ∀ p t, t ∈ w'.wheels p → t.id ≠ id ∧ t ∈ w.wheels p ∨ t = e.task ∧
      ahead w.tick p ≤ e.remaining) (hkept : ∀ p t, t ∈ w.wheels p → t ∈ w'.wheels p)
    (hdue : ∀ p, ahead w.tick p = e.remaining → e.task ∈ w'.wheels p) :
    Refines w' (Function.update T id (some e)) := by
  have hself : Function.update T id (some e) id = some e := Function.update_self ..
  have hother : ∀ id' ≠ id, Function.update T id (some e) id' = T id' :=
    fun id' hi => Function.update_of_ne hi ..
  constructor
  · intro id'
    rw [htimers]
    by_cases hi : id' = id
    · rw [hi, hself, Function.update_self, Option.map_some]
    · rw [hother id' hi, Function.update_of_ne hi, h.timers]
  · intro id' e' he'
    by_cases hi : id' = id
    · rw [hi, hself] at he'
      cases he'
      exact hi ▸ hentry
    · rw [hother id' hi] at he'
      obtain ⟨k1, k2, k3, k4, k5, k6⟩ := h.entry id' e' he'
      have hne : e'.task ≠ e.task := fun heq => hi (k1.symm.trans (heq ▸ hentry.1))
      exact ⟨k1, k2, k3, k4, (hcanceled _ hne).trans k5, k6.trans_le hcreated⟩
  · intro p t ht
    rw [htick]
    rcases hrefs p t ht with ⟨hi, ht⟩ | ⟨rfl, hle⟩
    · rw [hother t.id hi]
      exact h.refs p t ht
    · exact ⟨e, by rw [hentry.1, hself], rfl, hle⟩
  · intro id' e' p he' hp
    rw [htick] at hp
    by_cases hi : id' = id
    · rw [hi, hself] at he'
      cases he'
      exact hdue p hp
    · rw [hother id' hi] at he'
      exact hkept p _ (h.due id' e' p he' hp)
  · intro t ht
    rw [hdead] at ht
    obtain ⟨hlt, hne⟩ := h.buried t ht
    refine ⟨hlt.trans_le hcreated, fun e' he' => ?_⟩
    by_cases hi : t.id = id
    · rw [hi, hself] at he'
      cases he'
      rintro rfl
      exact hlive ht
    · rw [hother t.id hi] at he'
      exact hne e' he'
  · rw [hfired, hdead]
    exact h.fired

/-- Setting a timer under an id that is not pending. -/
theorem Refines.set {w : TimeWheel τ} {T : TimerTable τ} (h : Refines w T)
    {id time : Nat} (task : τ) (hid : T id = none) (h1 : 1 ≤ time) (h2 : time ≤ 60) :
    Refines (w.setTimeTask id time task) (T.set ⟨w.created, id, time, task⟩) := by
  have htick := w.tick.isLt
  have hpos : slot ((time + w.tick) % 2 ^ 64) = slot (time + w.tick) := by
    rw [Nat.mod_eq_of_lt]
    simp only [capacity] at htick
    omega
  have hahead := ahead_slot w.tick time h1 h2
  have hself : (w.setTimeTask id time task).canceled ⟨w.created, id, time, task⟩ = false :=
    Function.update_self ..
  apply h.update (e := ⟨⟨w.created, id, time, task⟩, time, false⟩)
  case hentry => exact ⟨rfl, h1, Nat.le_refl _, h2, hself, Nat.lt_succ_self _⟩
  case htick => rfl
  case hcreated => exact Nat.le_succ _
  case hdead => rfl
  case hfired => rfl
  case hlive => exact fun hd => Nat.lt_irrefl _ (h.buried _ hd).1
  case htimers => rfl
  case hcanceled => exact fun t hne => Function.update_of_ne hne ..
  case hrefs =>
    intro p t ht
    rcases (mem_push _ _ p _ t).mp ht with ht | ⟨rfl, rfl⟩
    · refine .inl ⟨fun hi => ?_, ht⟩
      obtain ⟨e, he, -⟩ := h.refs p t ht
      rw [hi, hid] at he
      cases he
    · rw [hpos]
      exact .inr ⟨rfl, hahead.le⟩
  case hkept => exact fun p t ht => (mem_push _ _ p _ t).mpr (.inl ht)
  case hdue =>
    intro p hp
    rw [← ahead_inj (hahead.trans hp.symm), ← hpos]
    exact (mem_push _ _ _ _ _).mpr (.inr ⟨rfl, rfl⟩)

/-- A flush starts the countdown again, and the `lock` before it does not fail. -/
theorem Refines.flush {w : TimeWheel τ} {T : TimerTable τ} (h : Refines w T) (id : Nat) :
    ∃ w', w.flushTimeTask id = some w' ∧ Refines w' (T.flush id) ∧ w'.dead = w.dead ∧
      w'.fired = w.fired ∧ w'.created = w.created := by
  have htimer := h.timers id
  cases he : T id with
  | none =>
    have hnone : T.flush id = T := by
      rw [TimerTable.flush, he, Option.map_none, ← he, Function.update_eq_self]
    rw [he] at htimer
    exact ⟨w, by simp [flushTimeTask, htimer], by rw [hnone]; exact h, rfl, rfl, rfl⟩
  | some e =>
    rw [he] at htimer
    obtain ⟨hid, h1, h2, h3, hc, ha⟩ := h.entry id e he
    have hflush : w.flushTimeTask id = some (w.push (slot (e.task.time + w.tick)) e.task) := by
      rw [flushTimeTask, htimer]
      change (w.lock e.task).bind _ = _
      rw [h.lock he, Option.bind_some, flushPos_eq w.tick (le_maxDelay h3)]
      rfl
    refine ⟨_, hflush, ?_, rfl, rfl, rfl⟩
    have hahead := ahead_slot w.tick e.task.time (by omega) h3
    rw [TimerTable.flush, he, Option.map_some]
    apply h.update
    case hentry => exact ⟨hid, by simp only; omega, Nat.le_refl _, h3, hc, ha⟩
    case htick => rfl
    case hcreated => exact Nat.le_refl _
    case hdead => rfl
    case hfired => rfl
    case hlive => exact fun hd => (h.buried _ hd).2 e (hid.symm ▸ he) rfl
    case htimers => exact (Function.update_eq_self_iff.mpr htimer.symm).symm
    case hcanceled => exact fun _ _ => rfl
    case hrefs =>
      intro p t ht
      rcases (mem_push _ _ p _ t).mp ht with ht | ⟨rfl, rfl⟩
      · by_cases hi : t.id = id
        · obtain ⟨het, hle⟩ := h.ref_of_id he ht hi
          exact .inr ⟨het, Nat.le_trans hle h2⟩
        · exact .inl ⟨hi, ht⟩
      · exact .inr ⟨rfl, hahead.le⟩
    case hkept => exact fun p t ht => (mem_push _ _ p _ t).mpr (.inl ht)
    case hdue => exact fun p hp =>
      (mem_push _ _ p _ _).mpr (.inr ⟨ahead_inj (hp.trans hahead.symm), rfl⟩)

/-- A removal only marks the countdown. -/
theorem Refines.remove {w : TimeWheel τ} {T : TimerTable τ} (h : Refines w T) (id : Nat) :
    Refines (w.removeTimeTask id) (T.remove id) ∧ (w.removeTimeTask id).dead = w.dead ∧
      (w.removeTimeTask id).fired = w.fired ∧ (w.removeTimeTask id).created = w.created := by
  have htimer := h.timers id
  cases he : T id with
  | none =>
    have hnone : T.remove id = T := by
      rw [TimerTable.remove, he, Option.map_none, ← he, Function.update_eq_self]
    rw [he] at htimer
    have hw : w.removeTimeTask id = w := by simp [removeTimeTask, htimer]
    rw [hw, hnone]
    exact ⟨h, rfl, rfl, rfl⟩
  | some e =>
    rw [he] at htimer
    obtain ⟨hid, h1, h2, h3, hc, ha⟩ := h.entry id e he
    have hw : w.removeTimeTask id =
        { w with canceled := Function.update w.canceled e.task true } := by
      simp [removeTimeTask, htimer, h.lock he]
    rw [hw]
    refine ⟨?_, rfl, rfl, rfl⟩
    rw [TimerTable.remove, he, Option.map_some]
    apply h.update
    case hentry => exact ⟨hid, h1, h2, h3, Function.update_self .., ha⟩
    case htick => rfl
    case hcreated => exact Nat.le_refl _
    case hdead => rfl
    case hfired => rfl
    case hlive => exact fun hd => (h.buried _ hd).2 e (hid.symm ▸ he) rfl
    case htimers => exact (Function.update_eq_self_iff.mpr htimer.symm).symm
    case hcanceled => exact fun t hne => Function.update_of_ne hne ..
    case hrefs =>
      intro p t ht
      by_cases hi : t.id = id
      · exact .inr (h.ref_of_id he ht hi)
      · exact .inl ⟨hi, ht⟩
    case hkept => exact fun _ _ ht => ht
    case hdue => exact fun p hp => h.due id e p he hp

/-- The objects a tick destroys. -/
def expiring (w : TimeWheel τ) : List (TimeTask τ) :=
  dying { w with tick := slot (w.tick + 1), wheels := Function.update w.wheels (slot (w.tick + 1)) [] }
    (w.wheels (slot (w.tick + 1)))

theorem runTimer_eq (w : TimeWheel τ) : w.runTimer =
    { w with tick := slot (w.tick + 1),
             wheels := Function.update w.wheels (slot (w.tick + 1)) [] }.bury w.expiring :=
  release_eq _ _

@[simp] theorem tick_runTimer (w : TimeWheel τ) : w.runTimer.tick = slot (w.tick + 1) := by
  rw [runTimer_eq]
  rfl

@[simp] theorem created_runTimer (w : TimeWheel τ) : w.runTimer.created = w.created := by
  rw [runTimer_eq]
  rfl

@[simp] theorem canceled_runTimer (w : TimeWheel τ) : w.runTimer.canceled = w.canceled := by
  rw [runTimer_eq]
  rfl

@[simp] theorem dead_runTimer (w : TimeWheel τ) : w.runTimer.dead = w.dead ++ w.expiring := by
  rw [runTimer_eq]
  rfl

@[simp] theorem fired_runTimer (w : TimeWheel τ) :
    w.runTimer.fired = w.fired ++ w.expiring.filter fun t => !w.canceled t := by
  rw [runTimer_eq]
  rfl

theorem timers_runTimer (w : TimeWheel τ) (id : Nat) :
    w.runTimer.timers id = if ∃ t ∈ w.expiring, t.id = id then none else w.timers id := by
  rw [runTimer_eq]
  rfl

theorem mem_expiring_iff (w : TimeWheel τ) (t : TimeTask τ) :
    t ∈ w.expiring ↔ t ∈ w.wheels (slot (w.tick + 1)) ∧ ¬w.runTimer.Alive t := by
  rw [expiring, mem_dying, runTimer_eq]
  rfl

theorem mem_runTimer (w : TimeWheel τ) (p : Fin capacity) (t : TimeTask τ) :
    t ∈ w.runTimer.wheels p ↔ t ∈ w.wheels p ∧ ahead w.tick p ≠ 1 := by
  rw [runTimer_eq]
  simp only [bury, ne_eq, ahead_eq_one]
  by_cases hp : p = slot (w.tick + 1)
  · subst hp
    simp
  · simp [hp]

theorem expiring_nodup (w : TimeWheel τ) : w.expiring.Nodup := dying_nodup _ _

/-- A tick destroys the objects whose countdown ends. -/
theorem Refines.mem_expiring {w : TimeWheel τ} {T : TimerTable τ} (h : Refines w T)
    (t : TimeTask τ) :
    t ∈ w.expiring ↔ ∃ e, T t.id = some e ∧ e.task = t ∧ e.remaining = 1 := by
  have hnow : ahead w.tick (slot (w.tick + 1)) = 1 := (ahead_eq_one _ _).mpr rfl
  rw [mem_expiring_iff]
  constructor
  · rintro ⟨hmem, hdead⟩
    obtain ⟨e, he, rfl, hle⟩ := h.refs _ t hmem
    refine ⟨e, he, rfl, ?_⟩
    obtain ⟨_, h1, h2, h3, _⟩ := h.entry _ e he
    by_contra hne
    -- the reference at the end of the countdown would survive
    have hend := ahead_slot w.tick e.remaining h1 (by omega)
    apply hdead
    refine ⟨slot (e.remaining + w.tick), (mem_runTimer w _ _).mpr ⟨h.due _ e _ he hend, ?_⟩⟩
    rw [hend]
    exact hne
  · rintro ⟨e, he, rfl, h1⟩
    refine ⟨h.due _ e _ he (hnow.trans h1.symm), ?_⟩
    rintro ⟨p, hp⟩
    obtain ⟨hp, hlater⟩ := (mem_runTimer w p _).mp hp
    have hle := (h.ref_of_id he hp rfl).2
    have hone := (ahead_range w.tick p).1
    omega

theorem Refines.run {w : TimeWheel τ} {T : TimerTable τ} (h : Refines w T) :
    Refines w.runTimer T.run := by
  have hexp : ∀ id e, T id = some e → (e.task ∈ w.expiring ↔ e.remaining = 1) := by
    intro id e he
    have hid := (h.entry id e he).1
    rw [h.mem_expiring, hid]
    constructor
    · rintro ⟨e', he', _, h1⟩
      rw [he] at he'
      cases he'
      exact h1
    · intro h1
      exact ⟨e, he, rfl, h1⟩
  have hstay : ∀ id e', T.run id = some e' → ∃ e, T id = some e ∧ e.remaining ≠ 1 ∧
      e' = { e with remaining := e.remaining - 1 } := by
    intro id e' he'
    obtain ⟨e, he, hcut⟩ := Option.bind_eq_some_iff.mp he'
    by_cases h1 : e.remaining = 1
    · simp [h1] at hcut
    · rw [if_neg h1] at hcut
      exact ⟨e, he, h1, (Option.some.inj hcut).symm⟩
  constructor
  · intro id
    simp only [timers_runTimer, TimerTable.run, h.timers]
    cases he : T id with
    | none => simp
    | some e =>
      have hex : (∃ t ∈ w.expiring, t.id = id) ↔ e.remaining = 1 := by
        constructor
        · rintro ⟨t, ht, rfl⟩
          obtain ⟨e', he', _, h1⟩ := (h.mem_expiring t).mp ht
          rw [he] at he'
          cases he'
          exact h1
        · intro h1
          exact ⟨e.task, (hexp id e he).mpr h1, (h.entry id e he).1⟩
      by_cases h1 : e.remaining = 1 <;> simp [hex, h1]
  · intro id e' he'
    obtain ⟨e, he, h1, rfl⟩ := hstay id e' he'
    obtain ⟨k1, k2, k3, k4, k5, k6⟩ := h.entry id e he
    rw [canceled_runTimer, created_runTimer]
    exact ⟨k1, by simp only; omega, by simp only; omega, k4, k5, k6⟩
  · intro p t ht
    obtain ⟨ht, hne⟩ := (mem_runTimer w p t).mp ht
    obtain ⟨e, he, rfl, hle⟩ := h.refs p t ht
    have hge := (ahead_range w.tick p).1
    have h1 : e.remaining ≠ 1 := by omega
    refine ⟨{ e with remaining := e.remaining - 1 }, by simp [TimerTable.run, he, h1], rfl, ?_⟩
    simp only [tick_runTimer, ahead_next, if_neg hne]
    omega
  · intro id e' p he' hp
    obtain ⟨e, he, h1, rfl⟩ := hstay id e' he'
    obtain ⟨k1, k2, k3, k4, _⟩ := h.entry id e he
    simp only [tick_runTimer, ahead_next] at hp
    have hge := (ahead_range w.tick p).1
    by_cases hone : ahead w.tick p = 1
    · rw [if_pos hone] at hp
      omega
    · rw [if_neg hone] at hp
      exact (mem_runTimer w p _).mpr ⟨h.due id e p he (by omega), hone⟩
  · intro t ht
    rw [dead_runTimer] at ht
    rw [created_runTimer]
    rcases List.mem_append.mp ht with ht | ht
    · obtain ⟨hlt, hne⟩ := h.buried t ht
      refine ⟨hlt, fun e' he' => ?_⟩
      obtain ⟨e, he, _, rfl⟩ := hstay t.id e' he'
      exact hne e he
    · obtain ⟨e, he, rfl, h1⟩ := (h.mem_expiring t).mp ht
      refine ⟨(h.entry _ e he).2.2.2.2.2, fun e' he' => ?_⟩
      obtain ⟨e₀, he₀, hne, rfl⟩ := hstay _ e' he'
      rw [he] at he₀
      cases he₀
      exact absurd h1 hne
  · intro t ht
    rw [fired_runTimer] at ht
    rw [dead_runTimer]
    rcases List.mem_append.mp ht with ht | ht
    · exact List.mem_append_left _ (h.fired t ht)
    · exact List.mem_append_right _ (List.mem_filter.mp ht).1

/-- A timer is set under an id that is not pending, for at most a turn of the wheel. -/
def Admissible (w : TimeWheel τ) : Op τ → Prop
  | .set id time _ => w.hasTimer id = false ∧ 1 ≤ time ∧ time ≤ 60
  | _ => True

instance (w : TimeWheel τ) (op : Op τ) : Decidable (w.Admissible op) := by
  cases op <;> unfold Admissible <;> infer_instance

/-- The objects an operation destroys. -/
def destroyed (w : TimeWheel τ) : Op τ → List (TimeTask τ)
  | .run => w.expiring
  | _ => []

/-- Every operation succeeds and is the operation of the table. -/
theorem Refines.step {w : TimeWheel τ} {T : TimerTable τ} (h : Refines w T) (op : Op τ)
    (hop : w.Admissible op) :
    ∃ w', w.step op = some w' ∧ Refines w' (T.step w.created op) ∧
      w'.dead = w.dead ++ w.destroyed op ∧
      w'.fired = w.fired ++ (w.destroyed op).filter (fun t => !w.canceled t) := by
  cases op with
  | set id time task =>
    obtain ⟨hid, h1, h2⟩ := hop
    rw [h.hasTimer, Option.isSome_eq_false_iff, Option.isNone_iff_eq_none] at hid
    exact ⟨_, rfl, h.set task hid h1 h2, by simp [destroyed, setTimeTask, push],
      by simp [destroyed, setTimeTask, push]⟩
  | flush id =>
    obtain ⟨w', hw, hr, hd, hf, _⟩ := h.flush id
    exact ⟨w', hw, hr, by simp [destroyed, hd], by simp [destroyed, hf]⟩
  | remove id =>
    obtain ⟨hr, hd, hf, _⟩ := h.remove id
    exact ⟨_, rfl, hr, by simp [destroyed, hd], by simp [destroyed, hf]⟩
  | run =>
    exact ⟨_, rfl, h.run, dead_runTimer w, fired_runTimer w⟩

end TimeWheel
end MuduoServer
