import MuduoServer.TimeWheelSpec

/-!
# The timer map never dangles

The map holds a weak reference for each id, and whichever task of an id dies takes the entry of the
id with it. So an entry that is still there names a task that still has a reference in some slot: a
task loses its last reference only by dying, and then its own id is forgotten.
-/
namespace MuduoServer

open Transition

variable {τ : Type}

namespace TimeWheel

/-- The delays for which a flush does not overflow. -/
def Op.Ranged : Op τ → Prop
  | .set _ time _ => time ≤ maxDelay
  | _ => True

instance (op : Op τ) : Decidable op.Ranged :=
  match op with
  | .set _ time _ => inferInstanceAs (Decidable (time ≤ maxDelay))
  | .flush _ | .remove _ | .run => .isTrue trivial

/-- Every entry of the map names a task of its id that has a reference left. -/
def Linked (w : TimeWheel τ) : Prop := ∀ id t, w.timers id = some t → t.id = id ∧ w.Alive t

theorem empty_linked : Linked (TimeWheel.empty : TimeWheel τ) := fun id t hn => by
  simp [TimeWheel.empty] at hn

variable {w : TimeWheel τ}

theorem Linked.push (h : Linked w) (pos : Fin capacity) (t : TimeTask τ) :
    Linked (w.push pos t) := by
  intro id s hn
  obtain ⟨hid, ha⟩ := h id s hn
  exact ⟨hid, alive_push.mpr (.inl ha)⟩

/-- With the delays of its tasks in range. -/
structure Tracked (w : TimeWheel τ) : Prop where
  linked : Linked w
  delay : ∀ p, ∀ t ∈ w.wheels p, t.time ≤ maxDelay

theorem Tracked.delay_of_entry (h : Tracked w) {id : Nat} {t : TimeTask τ}
    (hn : w.timers id = some t) :
    t.time ≤ maxDelay := by
  obtain ⟨-, p, hp⟩ := h.linked id t hn
  exact h.delay p t hp

theorem Tracked.push (h : Tracked w) (pos : Fin capacity) {t : TimeTask τ}
    (ht : t.time ≤ maxDelay) :
    Tracked (w.push pos t) := by
  refine ⟨h.linked.push pos t, fun p s hmem => ?_⟩
  rcases (mem_push w pos p t s).mp hmem with hmem | ⟨-, rfl⟩
  · exact h.delay p s hmem
  · exact ht

variable [DecidableEq τ]

theorem Linked.set (h : Linked w) (id time : Nat) (task : τ) :
    Linked (w.setTimeTask id time task) := by
  intro id' t hn
  by_cases hi : id' = id
  · subst hi
    simp only [setTimeTask, TimeWheel.push, Function.update_self, Option.some.injEq] at hn
    subst hn
    exact ⟨rfl, alive_push.mpr (.inr rfl)⟩
  · simp only [setTimeTask, TimeWheel.push, Function.update_of_ne hi] at hn
    obtain ⟨hid, p, hp⟩ := h id' t hn
    exact ⟨hid, alive_push.mpr (.inl ⟨p, hp⟩)⟩

/-- A task of the slot that a tick clears has another reference, or its id is forgotten. -/
theorem Linked.run (h : Linked w) : Linked w.runTimer := by
  intro id t hn
  have hboth : (¬∃ s ∈ w.expiring, s.id = id) ∧ w.timers id = some t := by
    rw [timers_runTimer] at hn
    split at hn
    · cases hn
    · rename_i hno
      exact ⟨hno, hn⟩
  obtain ⟨hid, p, hp⟩ := h id t hboth.2
  refine ⟨hid, ?_⟩
  by_cases hone : ahead w.tick p = 1
  · by_contra hno
    rw [(ahead_eq_one _ _).mp hone] at hp
    exact hboth.1 ⟨t, (mem_expiring_iff w t).mpr ⟨hp, hno⟩, hid⟩
  · exact ⟨p, (mem_runTimer w p t).mpr ⟨hp, hone⟩⟩

theorem Linked.lock (h : Linked w) {id : Nat} {t : TimeTask τ} (hn : w.timers id = some t) :
    w.lock t = some t :=
  if_pos (h id t hn).2

/-- A flush finds its task alive. -/
theorem Tracked.flush_eq (h : Tracked w) (id : Nat) :
    w.flushTimeTask id = some ((w.timers id).elim w fun t => w.push (slot (t.time + w.tick)) t) := by
  cases hn : w.timers id with
  | none => simp [flushTimeTask, hn]
  | some t =>
    rw [flushTimeTask, hn]
    change (w.lock t).bind _ = _
    rw [h.linked.lock hn, Option.bind_some, flushPos_eq w.tick (h.delay_of_entry hn)]
    rfl

theorem Linked.remove_eq (h : Linked w) (id : Nat) : w.removeTimeTask id =
    (w.timers id).elim w fun t => { w with canceled := Function.update w.canceled t true } := by
  cases hn : w.timers id with
  | none => simp [removeTimeTask, hn]
  | some t => simp [removeTimeTask, hn, h.lock hn]

/-- Every operation succeeds. -/
theorem Tracked.step (h : Tracked w) {op : Op τ} (hop : op.Ranged) :
    ∃ w', w.step op = some w' ∧ Tracked w' := by
  cases op with
  | set id time task =>
    refine ⟨_, rfl, h.linked.set id time task, fun p t hmem => ?_⟩
    rcases (mem_push _ _ p _ t).mp hmem with hmem | ⟨-, rfl⟩
    · exact h.delay p t hmem
    · exact hop
  | flush id =>
    refine ⟨_, h.flush_eq id, ?_⟩
    cases hn : w.timers id with
    | none => exact h
    | some t => exact h.push _ (h.delay_of_entry hn)
  | remove id =>
    refine ⟨_, rfl, ?_⟩
    rw [h.linked.remove_eq id]
    cases w.timers id with
    | none => exact h
    | some t => exact ⟨h.linked, h.delay⟩
  | run =>
    refine ⟨_, rfl, h.linked.run, fun p t hmem => ?_⟩
    exact h.delay p t ((mem_runTimer w p t).mp hmem).1

/-- What a flush and a set can rely on. -/
structure Sure (w : TimeWheel τ) : Prop where
  alive : ∀ id t, w.timers id = some t → w.Alive t
  lock : ∀ id t, w.timers id = some t → w.lock t = some t
  set : ∀ time ≤ maxDelay, setIndex time w.tick < capacity
  flush : ∀ id t, w.timers id = some t → ∃ i, flushIndex t.time w.tick = some i ∧
    0 ≤ i ∧ i < capacity

/-- In every run of the operations no entry of the map dangles and every index is one of a slot. -/
theorem timers_never_dangle (ops : List (Op τ)) (hops : ∀ op ∈ ops, op.Ranged) :
    ∃ w, exec step empty ops = some w ∧ Sure w := by
  have hstart : Tracked (TimeWheel.empty : TimeWheel τ) :=
    ⟨empty_linked, fun p t hmem => nomatch hmem⟩
  obtain ⟨w, hw, h⟩ :=
    exec_total Tracked (fun w op h hop => h.step hop) hstart (along_of_mem fun _ => hops)
  refine ⟨w, hw, fun id t hn => (h.linked id t hn).2, fun id t hn => h.linked.lock hn,
    fun time _ => ?_,
    fun id t hn => ?_⟩
  · rw [← slot_setIndex]
    exact Fin.isLt _
  · refine ⟨_, flushIndex_eq w.tick (h.delay_of_entry hn), Int.natCast_nonneg _, ?_⟩
    exact Int.ofNat_lt.mpr (Nat.mod_lt _ (by decide))

/-- Three tasks share an id: the first dies and takes the entry of the last one with it. -/
def sharedId : List (Op Unit) :=
  [.set 7 1 (), .set 7 2147483587 (), .flush 7, .set 7 0 (), .remove 7, .run, .flush 7,
    .set 8 61 (), .flush 8, .run]

theorem timers_never_dangle_sharedId : ∃ w, exec step empty sharedId = some w ∧ Sure w :=
  timers_never_dangle sharedId (by decide +kernel)

end TimeWheel
end MuduoServer
