import Mathlib.Logic.Function.Basic

/-!
# The poller and the kernel's interest set

`_channels` finds the channel registered under a file descriptor. The kernel
keeps descriptors and masks of its own: it refuses to add a descriptor twice and
to change or delete an absent one, and it forgets a descriptor that is closed.
-/
namespace MuduoServer

def epollIn : UInt32 := 0x001
def epollPri : UInt32 := 0x002
def epollOut : UInt32 := 0x004
def epollErr : UInt32 := 0x008
def epollHup : UInt32 := 0x010
def epollRdHup : UInt32 := 0x2000

/-- The test `mask & bit`. -/
def hasEvent (mask bit : UInt32) : Bool := mask &&& bit != 0

theorem hasEvent_out (mask : UInt32) : hasEvent mask epollOut = mask.toBitVec.getLsbD 2 := by
  have hbit : epollOut.toBitVec = BitVec.twoPow 32 2 := by decide
  have hne : BitVec.twoPow 32 2 ≠ 0#32 := by decide
  rw [hasEvent, Bool.eq_iff_iff, bne_iff_ne, ne_eq, ← UInt32.toBitVec_inj, UInt32.toBitVec_and,
    hbit, BitVec.and_twoPow]
  cases mask.toBitVec.getLsbD 2 <;> simp [hne]

@[simp] theorem hasEvent_out_add (mask : UInt32) :
    hasEvent (mask ||| epollOut) epollOut = true := by
  rw [hasEvent_out, UInt32.toBitVec_or, BitVec.getLsbD_or]
  exact Bool.or_true _

@[simp] theorem hasEvent_out_delete (mask : UInt32) :
    hasEvent (mask &&& ~~~epollOut) epollOut = false := by
  rw [hasEvent_out, UInt32.toBitVec_and, BitVec.getLsbD_and]
  exact Bool.and_false _

@[simp] theorem hasEvent_out_addIn (mask : UInt32) :
    hasEvent (mask ||| epollIn) epollOut = hasEvent mask epollOut := by
  rw [hasEvent_out, hasEvent_out, UInt32.toBitVec_or, BitVec.getLsbD_or]
  exact Bool.or_false _

/-- `γ` stands for the `Channel *`. -/
structure Poller (γ : Type) where
  channels : Nat → Option γ
  /-- The interest set behind `_epfd`. -/
  interest : Nat → Option UInt32
  /-- The open file descriptors. -/
  isOpen : Nat → Bool

inductive EpollCtl where
  | add
  | mod
  | del
  deriving DecidableEq

namespace Poller

variable {γ : Type}

def empty : Poller γ := ⟨fun _ => none, fun _ => none, fun _ => false⟩

def fdIsExist (p : Poller γ) (fd : Nat) : Bool := (p.channels fd).isSome

/-- A call that fails is only logged. -/
def epollOpr (p : Poller γ) (opr : EpollCtl) (fd : Nat) (events : UInt32) : Poller γ :=
  match opr with
  | .add =>
    if p.isOpen fd ∧ p.interest fd = none then
      { p with interest := Function.update p.interest fd (some events) }
    else p
  | .mod =>
    if p.isOpen fd ∧ (p.interest fd).isSome then
      { p with interest := Function.update p.interest fd (some events) }
    else p
  | .del =>
    if p.isOpen fd ∧ (p.interest fd).isSome then
      { p with interest := Function.update p.interest fd none }
    else p

def updateEvent (p : Poller γ) (ch : γ) (fd : Nat) (events : UInt32) : Poller γ :=
  if p.fdIsExist fd then p.epollOpr .mod fd events
  else
    let p := p.epollOpr .add fd events
    { p with channels := Function.update p.channels fd (some ch) }

def removeEvent (p : Poller γ) (fd : Nat) : Poller γ :=
  let p := if p.fdIsExist fd then { p with channels := Function.update p.channels fd none } else p
  p.epollOpr .del fd 0

/-- `close(2)`. -/
def close (p : Poller γ) (fd : Nat) : Poller γ :=
  { p with
    isOpen := Function.update p.isOpen fd false
    interest := Function.update p.interest fd none }

/-- A new descriptor `fd`, as `accept(2)` returns it. -/
def opened (p : Poller γ) (fd : Nat) : Poller γ :=
  { p with isOpen := Function.update p.isOpen fd true }

@[simp] theorem channels_epollOpr (p : Poller γ) (opr : EpollCtl) (fd : Nat) (events : UInt32) :
    (p.epollOpr opr fd events).channels = p.channels := by
  cases opr <;> simp only [epollOpr] <;> split <;> rfl

/-- A registration puts the channel under its descriptor unless another one is there. -/
theorem channels_updateEvent (p : Poller γ) (ch : γ) (fd : Nat) (events : UInt32) :
    (p.updateEvent ch fd events).channels = p.channels ∨
      (p.updateEvent ch fd events).channels = Function.update p.channels fd (some ch) := by
  unfold updateEvent
  by_cases h : p.fdIsExist fd = true
  · rw [if_pos h]
    exact .inl (channels_epollOpr _ _ _ _)
  · rw [if_neg h]
    refine .inr ?_
    simp only [channels_epollOpr]

/-- A removal takes whichever channel is registered under the descriptor. -/
@[simp] theorem channels_removeEvent (p : Poller γ) (fd : Nat) :
    (p.removeEvent fd).channels = Function.update p.channels fd none := by
  unfold removeEvent
  by_cases h : p.fdIsExist fd = true
  · simp only [h, if_true, channels_epollOpr]
  · have hnone : p.channels fd = none := by simpa [fdIsExist] using h
    simp only [h, Bool.false_eq_true, if_false, channels_epollOpr]
    rw [← hnone, Function.update_eq_self]

@[simp] theorem channels_close (p : Poller γ) (fd : Nat) : (p.close fd).channels = p.channels := rfl

@[simp] theorem channels_opened (p : Poller γ) (fd : Nat) : (p.opened fd).channels = p.channels :=
  rfl

/-- Where `_channels` and the kernel know the same descriptors, both change. -/
theorem updateEvent_eq (p : Poller γ) (ch : γ) (fd : Nat) (events : UInt32)
    (hopen : p.isOpen fd = true) (hsame : (p.interest fd).isSome = (p.channels fd).isSome)
    (hch : ∀ c, p.channels fd = some c → c = ch) :
    p.updateEvent ch fd events =
      { p with channels := Function.update p.channels fd (some ch)
               interest := Function.update p.interest fd (some events) } := by
  unfold updateEvent fdIsExist
  cases hc : p.channels fd with
  | none =>
    have hnone : p.interest fd = none := by simpa [hc] using hsame
    simp [epollOpr, hopen, hnone]
  | some c =>
    have hsome : (p.interest fd).isSome = true := by simpa [hc] using hsame
    obtain rfl := hch c hc
    have hkept : Function.update p.channels fd (some c) = p.channels := by
      rw [← hc, Function.update_eq_self]
    simp [epollOpr, hopen, hsome, hkept]

theorem removeEvent_eq (p : Poller γ) (fd : Nat) (hopen : p.isOpen fd = true)
    (hsame : (p.interest fd).isSome = (p.channels fd).isSome) :
    p.removeEvent fd =
      { p with channels := Function.update p.channels fd none
               interest := Function.update p.interest fd none } := by
  unfold removeEvent fdIsExist
  cases hc : p.channels fd with
  | none =>
    have hnone : p.interest fd = none := by simpa [hc] using hsame
    have hkept : Function.update p.channels fd none = p.channels := by
      rw [← hc, Function.update_eq_self]
    have hkept' : Function.update p.interest fd none = p.interest := by
      rw [← hnone, Function.update_eq_self]
    simp [epollOpr, hnone, hkept, hkept']
  | some c =>
    have hsome : (p.interest fd).isSome = true := by simpa [hc] using hsame
    simp [epollOpr, hopen, hsome]

end Poller
end MuduoServer
