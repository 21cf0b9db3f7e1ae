import Mathlib.Algebra.Group.Int.Defs
import Mathlib.Algebra.Group.Nat.Defs
import Mathlib.Data.Fintype.Basic
import Mathlib.Data.Fin.Basic
import Mathlib.Logic.Function.Basic

/-!
# The timer wheel

Sixty slots hold shared references to tasks; a task is destroyed when its last
reference goes, and its destructor runs the callback unless it was cancelled.
A map from ids to weak references finds the task a flush or a removal means.
-/
namespace MuduoServer

variable {τ : Type} [DecidableEq τ]

abbrev capacity : Nat := 60

/-- A `time_task` object: its identity and the members that never change. -/
structure TimeTask (τ : Type) where
  addr : Nat
  id : Nat
  time : Nat
  task : τ
  deriving DecidableEq

structure TimeWheel (τ : Type) where
  wheels : Fin capacity → List (TimeTask τ)
  tick : Fin capacity
  /-- The weak references of `_timers`. -/
  timers : Nat → Option (TimeTask τ)
  /-- The `_canceled` member of each object. -/
  canceled : TimeTask τ → Bool
  /-- Objects made so far; the next one gets this address. -/
  created : Nat
  /-- Destroyed objects, in order. -/
  dead : List (TimeTask τ)
  /-- Objects whose callback has run, in order. -/
  fired : List (TimeTask τ)

namespace TimeWheel

def empty : TimeWheel τ :=
  ⟨fun _ => [], 0, fun _ => none, fun _ => false, 0, [], []⟩

/-- A shared reference is left. -/
def Alive (w : TimeWheel τ) (t : TimeTask τ) : Prop := ∃ p, t ∈ w.wheels p

instance (w : TimeWheel τ) (t : TimeTask τ) : Decidable (w.Alive t) :=
  inferInstanceAs (Decidable (∃ p, t ∈ w.wheels p))

def hasTimer (w : TimeWheel τ) (id : Nat) : Bool := (w.timers id).isSome

def slot (n : Nat) : Fin capacity := ⟨n % capacity, Nat.mod_lt n (by decide)⟩

/-- `_wheels[pos].push_back(ptr)`. -/
def push (w : TimeWheel τ) (pos : Fin capacity) (ptr : TimeTask τ) : TimeWheel τ :=
  { w with wheels := Function.update w.wheels pos (w.wheels pos ++ [ptr]) }

/-- The sum in `set_time_task` is one of `uint64_t`. -/
def setTimeTask (w : TimeWheel τ) (id time : Nat) (task : τ) : TimeWheel τ :=
  let ptr : TimeTask τ := ⟨w.created, id, time, task⟩
  { w with
    timers := Function.update w.timers id (some ptr)
    canceled := Function.update w.canceled ptr false
    created := w.created + 1 }.push (slot ((time + w.tick) % 2 ^ 64)) ptr

/-- `lock()`: the object while it is alive. -/
def lock (w : TimeWheel τ) (ptr : TimeTask τ) : Option (TimeTask τ) :=
  if w.Alive ptr then some ptr else none

/-- The slot of a flush. The delay passes through an `int`, so the sum can overflow
and the remainder can be negative; both are `none`. -/
def flushPos (time : Nat) (tick : Fin capacity) : Option (Fin capacity) :=
  let sum : Int := Int.bmod time (2 ^ 32) + (tick : Nat)
  if 2 ^ 31 ≤ sum then none
  else if Int.tmod sum capacity < 0 then none
  else some (slot (Int.tmod sum capacity).toNat)

/-- `none` also where `lock` gives a null pointer, which is dereferenced. -/
def flushTimeTask (w : TimeWheel τ) (id : Nat) : Option (TimeWheel τ) :=
  match w.timers id with
  | none => some w
  | some weak => do
    let ptr ← w.lock weak
    let pos ← flushPos ptr.time w.tick
    return w.push pos ptr

def removeTimeTask (w : TimeWheel τ) (id : Nat) : TimeWheel τ :=
  match w.timers id with
  | none => w
  | some weak =>
    match w.lock weak with
    | none => w
    | some ptr => { w with canceled := Function.update w.canceled ptr true }

def excuteTimer (w : TimeWheel τ) (id : Nat) : TimeWheel τ :=
  { w with timers := Function.update w.timers id none }

/-- `~time_task`. -/
def destroy (w : TimeWheel τ) (t : TimeTask τ) : TimeWheel τ :=
  { w with
    dead := w.dead ++ [t]
    fired := if w.canceled t then w.fired else w.fired ++ [t] }.excuteTimer t.id

/-- The references of a cleared slot go one by one, and an object with its last. -/
def release (w : TimeWheel τ) : List (TimeTask τ) → TimeWheel τ
  | [] => w
  | t :: ts => if t ∈ ts ∨ w.Alive t then release w ts else release (w.destroy t) ts

/-- The objects that die when the references of `ts` go. -/
def dying (w : TimeWheel τ) : List (TimeTask τ) → List (TimeTask τ)
  | [] => []
  | t :: ts => if t ∈ ts ∨ w.Alive t then dying w ts else t :: dying w ts

def runTimer (w : TimeWheel τ) : TimeWheel τ :=
  let tick := slot (w.tick + 1)
  { w with tick := tick, wheels := Function.update w.wheels tick [] }.release (w.wheels tick)

/-- The public operations. -/
inductive Op (τ : Type) where
  | set (id time : Nat) (task : τ)
  | flush (id : Nat)
  | remove (id : Nat)
  | run

def step (w : TimeWheel τ) : Op τ → Option (TimeWheel τ)
  | .set id time task => some (w.setTimeTask id time task)
  | .flush id => w.flushTimeTask id
  | .remove id => some (w.removeTimeTask id)
  | .run => some w.runTimer

end TimeWheel
end MuduoServer
