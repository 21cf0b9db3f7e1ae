import MuduoServer.EchoServer
import MuduoServer.OwnedCells
import MuduoServer.Transition

/-!
# `Any` objects in memory

An `Any` is a pointer to a `PlaceHolder` on the heap, which the copy constructor
clones, the assignments swap in through an unnamed object, and the destructor
deletes. Every `PlaceHolder` has exactly one owner, whatever the allocator does,
and an `Any` is worth the value it was given: a program of constructions, copies,
assignments, swaps and destructions computes on values.
-/
namespace MuduoServer

open OwnedCells Transition

/-- The `Any` objects of a program, and the unnamed one of an assignment. -/
inductive AnyObj (ν : Type) where
  | named (x : ν)
  | temporary
  deriving DecidableEq

inductive AnyOp (ν : Type) {τ : Type} (Val : τ → Type) where
  | ctor (x : ν)
  | ctorVal (x : ν) (val : Sigma Val)
  | ctorCopy (x other : ν)
  | assign (x other : ν)
  | assignVal (x : ν) (val : Sigma Val)
  | swap (x other : ν)
  | dtor (x : ν)
  /-- `if (T *p = x.Get<T>()) *p = val`. -/
  | write (x : ν) (val : Sigma Val)

/-- The object that an operation makes, assigns or destroys. -/
def AnyOp.remade {ν τ : Type} {Val : τ → Type} : AnyOp ν Val → Option ν
  | .ctor x | .ctorVal x _ | .ctorCopy x _ | .assign x _ | .assignVal x _ | .dtor x => some x
  | .swap _ _ | .write _ _ => none

/-- Where the content of `x` is after an operation that leaves it alone. -/
def AnyOp.moved {ν τ : Type} {Val : τ → Type} [DecidableEq ν] : AnyOp ν Val → ν → ν
  | .swap x other, z => Equiv.swap x other z
  | _, z => z

/-- The holders in memory, each with the type and the value of its `_val`, and the `_content` of
every object. -/
abbrev AnyHeap (ν : Type) {τ : Type} (Val : τ → Type) := Store (AnyObj ν) (Sigma Val)

namespace AnyHeap

variable {ν τ : Type} {Val : τ → Type}

def get [DecidableEq τ] (s : AnyHeap ν Val) (x : AnyObj ν) (t : τ) : Option (Option Nat) :=
  match s.slot x with
  | none => none
  | some none => some none
  | some (some content) =>
    (s.cells.lookup content).map fun holder => if holder.1 = t then some content else none

/-- `*p = val` for a pointer `p` to the type of `val`. Undefined when no such object is there. -/
def assignThrough [DecidableEq τ] (s : AnyHeap ν Val) (p : Nat) (val : Sigma Val) :
    Option (AnyHeap ν Val) :=
  match s.cells.lookup p with
  | none => none
  | some holder => if holder.1 = val.1 then some (s.overwrite p val) else none

variable [DecidableEq ν]

def ctor (s : AnyHeap ν Val) (x : AnyObj ν) : Option (AnyHeap ν Val) :=
  match s.slot x with
  | none => some (s.vacant x)
  | some _ => none

def ctorVal (A : Allocator (Sigma Val)) (s : AnyHeap ν Val) (x : AnyObj ν) (val : Sigma Val) :
    Option (AnyHeap ν Val) :=
  match s.slot x with
  | none => some (s.fill A x val)
  | some _ => none

/-- `other._content->clone()` reads the holder, which has to be there. -/
def ctorCopy (A : Allocator (Sigma Val)) (s : AnyHeap ν Val) (x other : AnyObj ν) :
    Option (AnyHeap ν Val) :=
  match s.slot x, s.slot other with
  | none, some none => some (s.vacant x)
  | none, some (some content) => (s.cells.lookup content).map fun holder => s.fill A x holder
  | _, _ => none

def swap (s : AnyHeap ν Val) (x other : AnyObj ν) : Option (AnyHeap ν Val) :=
  match s.slot x, s.slot other with
  | some _, some _ => some (s.exchange x other)
  | _, _ => none

/-- `delete _content`, which has to be a holder that is still there. -/
def dtor (s : AnyHeap ν Val) (x : AnyObj ν) : Option (AnyHeap ν Val) := s.drop x

/-- `.swap(*this)` on the unnamed object, which then goes. -/
def swapIn (s : AnyHeap ν Val) (x : ν) : Option (AnyHeap ν Val) :=
  (s.swap .temporary (.named x)).bind fun s => s.dtor .temporary

def assign (A : Allocator (Sigma Val)) (s : AnyHeap ν Val) (x other : ν) : Option (AnyHeap ν Val) :=
  (s.ctorCopy A .temporary (.named other)).bind fun s => s.swapIn x

def assignVal (A : Allocator (Sigma Val)) (s : AnyHeap ν Val) (x : ν) (val : Sigma Val) :
    Option (AnyHeap ν Val) :=
  (s.ctorVal A .temporary val).bind fun s => s.swapIn x

variable [DecidableEq τ]

def write (s : AnyHeap ν Val) (x : ν) (val : Sigma Val) : Option (AnyHeap ν Val) :=
  (s.get (.named x) val.1).bind fun
    | none => some s
    | some p => s.assignThrough p val

def step (A : Allocator (Sigma Val)) (s : AnyHeap ν Val) : AnyOp ν Val → Option (AnyHeap ν Val)
  | .ctor x => s.ctor (.named x)
  | .ctorVal x val => s.ctorVal A (.named x) val
  | .ctorCopy x other => s.ctorCopy A (.named x) (.named other)
  | .assign x other => s.assign A x other
  | .assignVal x val => s.assignVal A x val
  | .swap x other => s.swap (.named x) (.named other)
  | .dtor x => s.dtor (.named x)
  | .write x val => s.write x val

/-- What every object is worth. -/
def values (s : AnyHeap ν Val) (x : ν) : Option (Any Val) := (s.value (.named x)).map Any.mk

/-- Between two operations every holder has one owner and no unnamed object is left. -/
structure Settled (s : AnyHeap ν Val) : Prop where
  owned : Owned s
  temporary : s.slot .temporary = none

end AnyHeap

/-! ### Values instead of pointers -/

abbrev AnyValues (ν : Type) {τ : Type} (Val : τ → Type) := ν → Option (Any Val)

namespace AnyValues

variable {ν τ : Type} {Val : τ → Type} [DecidableEq ν] [DecidableEq τ]

def create (v : AnyValues ν Val) (x : ν) (a : Any Val) : Option (AnyValues ν Val) :=
  match v x with
  | none => some (Function.update v x (some a))
  | some _ => none

def replace (v : AnyValues ν Val) (x : ν) (a : Any Val) : Option (AnyValues ν Val) :=
  match v x with
  | none => none
  | some _ => some (Function.update v x (some a))

def remove (v : AnyValues ν Val) (x : ν) : Option (AnyValues ν Val) :=
  match v x with
  | none => none
  | some _ => some (Function.update v x none)

/-- A step is possible when the objects it names are there, and the one it makes is not. -/
def step (v : AnyValues ν Val) : AnyOp ν Val → Option (AnyValues ν Val)
  | .ctor x => v.create x .empty
  | .ctorVal x val => v.create x (.ofVal val.2)
  | .ctorCopy x other => (v other).bind fun a => v.create x a
  | .assign x other => (v other).bind fun a => v.replace x a
  | .assignVal x val => v.replace x (.ofVal val.2)
  | .swap x other =>
    match v x, v other with
    | some _, some _ => some fun z => v (Equiv.swap x other z)
    | _, _ => none
  | .dtor x => v.remove x
  | .write x val =>
    (v x).map fun a => if (a.get val.1).isSome then Function.update v x (some (.ofVal val.2)) else v

end AnyValues

/-! ### What each step does -/

namespace AnyHeap

variable {ν τ : Type} {Val : τ → Type}

theorem settled_empty : Settled (Store.empty : AnyHeap ν Val) := ⟨owned_empty, rfl⟩

theorem values_none {s : AnyHeap ν Val} {x : ν} (h : s.slot (.named x) = none) :
    s.values x = none := by
  simp [values, Store.value, h]

theorem values_vacant {s : AnyHeap ν Val} {x : ν} (h : s.slot (.named x) = some none) :
    s.values x = some .empty := by
  simp [values, Store.value, h, Any.empty]

theorem values_content {s : AnyHeap ν Val} {x : ν} {content : Nat} {holder : Sigma Val}
    (h : s.slot (.named x) = some (some content)) (hc : s.cells.lookup content = some holder) :
    s.values x = some (.ofVal holder.2) := by
  simp [values, Store.value, h, hc, Any.ofVal]

/-- An object is missing, empty, or owns a holder that is there. -/
theorem Settled.cases_slot {s : AnyHeap ν Val} (h : Settled s) (x : ν) :
    s.slot (.named x) = none ∧ s.values x = none ∨
      s.slot (.named x) = some none ∧ s.values x = some .empty ∨
      ∃ content holder, s.slot (.named x) = some (some content) ∧
      s.cells.lookup content = some holder ∧
        s.values x = some (.ofVal holder.2) := by
  cases hx : s.slot (.named x) with
  | none => exact Or.inl ⟨rfl, values_none hx⟩
  | some o =>
    cases o with
    | none => exact Or.inr (Or.inl ⟨rfl, values_vacant hx⟩)
    | some content =>
      obtain ⟨holder, hc, -⟩ := h.owned.lookup hx
      exact Or.inr (Or.inr ⟨content, holder, rfl, hc, values_content hx hc⟩)

theorem Settled.values_some {s : AnyHeap ν Val} (h : Settled s) {x : ν} {o : Option Nat}
    (hx : s.slot (.named x) = some o) : ∃ a, s.values x = some a := by
  obtain ⟨hs, -⟩ | ⟨-, hv⟩ | ⟨content, holder, -, -, hv⟩ := h.cases_slot x
  · rw [hs] at hx
    cases hx
  · exact ⟨_, hv⟩
  · exact ⟨_, hv⟩

variable [DecidableEq ν]

theorem named_swap (x y z : ν) :
    Equiv.swap (AnyObj.named x) (.named y) (.named z) = .named (Equiv.swap x y z) := by
  simp only [Equiv.swap_apply_def, AnyObj.named.injEq]
  split
  · rfl
  · split <;> rfl

/-- An update of what the named objects are worth. -/
theorem values_update {s s' : AnyHeap ν Val} {x : ν} {o : Option (Option (Sigma Val))}
    (h : ∀ y, s'.value (.named y) = Function.update s.value (.named x) o (.named y)) :
    s'.values = Function.update s.values x (o.map Any.mk) := by
  funext y
  unfold values
  rw [h y]
  by_cases hyx : y = x
  · rw [hyx, Function.update_self, Function.update_self]
  · rw [Function.update_of_ne hyx, Function.update_of_ne (by simpa using hyx)]

/-- The unnamed object hands over its content and takes the old one with it. -/
theorem swapIn_settles {s : AnyHeap ν Val} {x : ν} {c o : Option Nat} (h : Owned s)
    (htmp : s.slot .temporary = some c) (hx : s.slot (.named x) = some o) :
    ∃ s', s.swapIn x = some s' ∧ Settled s' ∧ s'.slot (.named x) = some c ∧
      (∀ y, y ≠ x → s'.slot (.named y) = s.slot (.named y)) ∧
      s'.values = Function.update s.values x ((s.value .temporary).map Any.mk) ∧
      (∀ a, o ≠ some a → s'.cells.lookup a = s.cells.lookup a) ∧ ∀ a, o = some a →
      a ∉ s'.cells := by
  have hswap : s.swap .temporary (.named x) = some (s.exchange .temporary (.named x)) := by
    simp only [swap, htmp, hx]
  have hown := h.exchange .temporary (.named x)
  have htmp' : (s.exchange .temporary (.named x)).slot .temporary = some o := by
    rw [Store.exchange_slot, Equiv.swap_apply_left, hx]
  obtain ⟨s', hs', hslot, hmem, hlookup⟩ :=
    hown.drop_some (x := AnyObj.temporary) (by rw [htmp']; simp)
  have hval := value_drop hown hs'
  have hother : ∀ y, y ≠ x → Equiv.swap AnyObj.temporary (.named x) (.named y) = .named y :=
    fun y hy => Equiv.swap_apply_of_ne_of_ne (by simp) (by simpa using hy)
  refine ⟨s', ?_, ⟨hown.drop hs', ?_⟩, ?_, ?_, ?_, ?_, ?_⟩
  · rw [swapIn, hswap]
    exact hs'
  · rw [hslot, Function.update_self]
  · rw [hslot, Function.update_of_ne (by simp), Store.exchange_slot, Equiv.swap_apply_right, htmp]
  · intro y hy
    rw [hslot, Function.update_of_ne (by simp), Store.exchange_slot, hother y hy]
  · apply values_update
    intro y
    rw [hval, Function.update_of_ne (by simp), value_exchange]
    by_cases hy : y = x
    · rw [hy, Equiv.swap_apply_right, Function.update_self]
    · rw [hother y hy, Function.update_of_ne (by simpa using hy)]
  · intro a ha
    apply hlookup
    rw [htmp']
    simpa using ha
  · intro a ha hin
    apply ((hmem a).mp hin).2
    rw [htmp', ha]

/-- An object was made, assigned or destroyed: it is worth `o` now, what it held is gone, and the
others are as before. -/
structure Became (s s' : AnyHeap ν Val) (x : ν) (o : Option (Any Val)) : Prop where
  settled : Settled s'
  other : ∀ y, y ≠ x → s'.slot (.named y) = s.slot (.named y)
  values : s'.values = Function.update s.values x o
  kept : ∀ a ∈ s.cells, s.slot (.named x) ≠ some (some a) → s'.cells.lookup a = s.cells.lookup a
  gone : ∀ a, s.slot (.named x) = some (some a) → a ∉ s'.cells

theorem vacant_became {s : AnyHeap ν Val} {x : ν} (h : Settled s) (hx : s.slot (.named x) = none) :
    Became s (s.vacant (.named x)) x (some .empty) where
  settled := by
    constructor
    · exact h.owned.vacant hx
    · rw [Store.vacant_slot, Function.update_of_ne (by simp), h.temporary]
  other y hy := by rw [Store.vacant_slot, Function.update_of_ne (by simpa using hy)]
  values := by
    apply values_update (o := some none)
    intro y
    rw [value_vacant]
  kept a _ _ := rfl
  gone a ha := by
    rw [hx] at ha
    cases ha

theorem fill_became (A : Allocator (Sigma Val)) {s : AnyHeap ν Val} {x : ν} (h : Settled s)
    (val : Sigma Val) (hx : s.slot (.named x) = none) :
    Became s (s.fill A (.named x) val) x (some (.ofVal val.2)) where
  settled := by
    constructor
    · exact h.owned.fill A val hx
    · rw [Store.fill_slot, Function.update_of_ne (by simp), h.temporary]
  other y hy := by rw [Store.fill_slot, Function.update_of_ne (by simpa using hy)]
  values := by
    apply values_update (o := some (some val))
    intro y
    rw [value_fill h.owned]
  kept a ha _ := by
    rw [Store.fill_cells]
    apply Finmap.lookup_insert_of_ne
    intro heq
    exact A.place_free s.cells (heq ▸ ha)
  gone a ha := by
    rw [hx] at ha
    cases ha

theorem dtor_became {s : AnyHeap ν Val} {x : ν} (h : Settled s) (hx : s.slot (.named x) ≠ none) :
    ∃ s', s.dtor (.named x) = some s' ∧ Became s s' x none := by
  obtain ⟨s', hs', hslot, hmem, hlookup⟩ := h.owned.drop_some hx
  have hval := value_drop h.owned hs'
  refine ⟨s', hs', ⟨⟨h.owned.drop hs', ?_⟩, ?_, ?_, ?_, ?_⟩⟩
  · rw [hslot, Function.update_of_ne (by simp), h.temporary]
  · intro y hy
    rw [hslot, Function.update_of_ne (by simpa using hy)]
  · apply values_update (o := none)
    intro y
    rw [hval]
  · intro a _ ha
    exact hlookup a ha
  · intro a ha hin
    exact ((hmem a).mp hin).2 ha

/-- The end of an assignment, for an unnamed object made beside what was there. -/
theorem swapIn_became {s s₁ : AnyHeap ν Val} {x : ν} {c o : Option Nat} {b : Option (Sigma Val)}
    (hown : Owned s₁) (hmade : s₁.slot = Function.update s.slot .temporary (some c))
    (hvalue : s₁.value = Function.update s.value .temporary (some b))
    (hcells : ∀ a ∈ s.cells, s₁.cells.lookup a = s.cells.lookup a)
    (hx : s.slot (.named x) = some o) :
    ∃ s', s₁.swapIn x = some s' ∧ Became s s' x (some ⟨b⟩) := by
  have hnamed : ∀ y, s₁.slot (.named y) = s.slot (.named y) := by
    intro y
    rw [hmade, Function.update_of_ne (by simp)]
  have hvalues : s₁.values = s.values := by
    funext y
    unfold values
    rw [hvalue, Function.update_of_ne (by simp)]
  obtain ⟨s', hs', hset, -, hother, hval, hkeep, hgone⟩ :=
    swapIn_settles (c := c) hown (by rw [hmade, Function.update_self]) ((hnamed x).trans hx)
  refine ⟨s', hs', ⟨hset, ?_, ?_, ?_, ?_⟩⟩
  · intro y hy
    rw [hother y hy, hnamed y]
  · rw [hval, hvalues, hvalue, Function.update_self]
    rfl
  · intro a ha hne
    rw [hx] at hne
    rw [hkeep a (by simpa using hne), hcells a ha]
  · intro a ha
    rw [hx] at ha
    cases ha
    exact hgone a rfl

theorem assignVal_became (A : Allocator (Sigma Val)) {s : AnyHeap ν Val} {x : ν} {o : Option Nat}
    (h : Settled s) (val : Sigma Val) (hx : s.slot (.named x) = some o) :
    ∃ s', s.assignVal A x val = some s' ∧ Became s s' x (some (.ofVal val.2)) := by
  have hmade : s.ctorVal A .temporary val = some (s.fill A .temporary val) := by
    simp only [ctorVal, h.temporary]
  unfold assignVal
  rw [hmade, Option.bind_some]
  apply swapIn_became (h.owned.fill A val h.temporary) (Store.fill_slot A s _ val)
    (value_fill h.owned A _ val) _ hx
  intro a ha
  rw [Store.fill_cells]
  apply Finmap.lookup_insert_of_ne
  intro heq
  exact A.place_free s.cells (heq ▸ ha)

/-- Copying from an empty object. -/
theorem assign_empty_became (A : Allocator (Sigma Val)) {s : AnyHeap ν Val} {x y : ν}
    {o : Option Nat} (h : Settled s) (hx : s.slot (.named x) = some o)
    (hy : s.slot (.named y) = some none) :
    ∃ s', s.assign A x y = some s' ∧ Became s s' x (some .empty) := by
  have hmade : s.ctorCopy A .temporary (.named y) = some (s.vacant .temporary) := by
    simp only [ctorCopy, h.temporary, hy]
  unfold assign
  rw [hmade, Option.bind_some]
  exact swapIn_became (h.owned.vacant h.temporary) (Store.vacant_slot s _) (value_vacant s _)
    (fun _ _ => rfl) hx

/-- Copying from an object with a holder assigns the value of the holder. -/
theorem assign_content (A : Allocator (Sigma Val)) {s : AnyHeap ν Val} {x y : ν} {content : Nat}
    {holder : Sigma Val} (h : Settled s) (hy : s.slot (.named y) = some (some content))
    (hc : s.cells.lookup content = some holder) :
    s.assign A x y = s.assignVal A x holder := by
  simp only [assign, assignVal, ctorCopy, ctorVal, h.temporary, hy, hc, Option.map_some]

/-- An assignment to an object that is missing. -/
theorem swapIn_missing {s : AnyHeap ν Val} {x : ν} (hx : s.slot (.named x) = none) :
    s.swapIn x = none := by
  cases htmp : s.slot .temporary <;> simp [swapIn, swap, hx, htmp]

theorem assignVal_missing (A : Allocator (Sigma Val)) {s : AnyHeap ν Val} {x : ν} (val : Sigma Val)
    (h : Settled s) (hx : s.slot (.named x) = none) : s.assignVal A x val = none := by
  have hx' : (s.fill A .temporary val).slot (.named x) = none := by
    rw [Store.fill_slot, Function.update_of_ne (by simp), hx]
  simp only [assignVal, ctorVal, h.temporary, Option.bind_some]
  exact swapIn_missing hx'

/-- An operation on `x` either has no result on either side, or the same result on both. -/
def Makes (s : AnyHeap ν Val) (x : ν) (r : Option (AnyHeap ν Val)) (w : Option (AnyValues ν Val)) :
    Prop :=
  r = none ∧ w = none ∨ ∃ s' o, r = some s' ∧ w = some s'.values ∧ Became s s' x o

theorem create_makes {s : AnyHeap ν Val} {x : ν} {a : Any Val} {r : Option (AnyHeap ν Val)}
    (h : Settled s) (hr : s.slot (.named x) = none → ∃ s', r = some s' ∧ Became s s' x (some a))
    (hn : s.slot (.named x) ≠ none → r = none) : Makes s x r (AnyValues.create s.values x a) := by
  cases hx : s.slot (.named x) with
  | none =>
    obtain ⟨s', hs', hb⟩ := hr hx
    refine Or.inr ⟨s', _, hs', ?_, hb⟩
    simp only [AnyValues.create, values_none hx, hb.values]
  | some o =>
    obtain ⟨b, hb⟩ := h.values_some hx
    exact Or.inl ⟨hn (by simp [hx]), by simp only [AnyValues.create, hb]⟩

theorem replace_makes {s : AnyHeap ν Val} {x : ν} {a : Any Val} {r : Option (AnyHeap ν Val)}
    (h : Settled s) (hr : ∀ o, s.slot (.named x) = some o → ∃ s', r = some s' ∧
      Became s s' x (some a)) (hn : s.slot (.named x) = none → r = none) : Makes s x r
      (AnyValues.replace s.values x a) := by
  cases hx : s.slot (.named x) with
  | none => exact Or.inl ⟨hn hx, by simp only [AnyValues.replace, values_none hx]⟩
  | some o =>
    obtain ⟨s', hs', hb⟩ := hr o hx
    obtain ⟨b, hv⟩ := h.values_some hx
    refine Or.inr ⟨s', _, hs', ?_, hb⟩
    simp only [AnyValues.replace, hv, hb.values]

theorem ctor_makes {s : AnyHeap ν Val} (h : Settled s) (x : ν) :
    Makes s x (s.ctor (.named x)) (AnyValues.create s.values x .empty) := by
  apply create_makes h
  · intro hx
    exact ⟨_, by simp only [ctor, hx], vacant_became h hx⟩
  · intro hx
    obtain ⟨o, ho⟩ := Option.ne_none_iff_exists'.mp hx
    simp only [ctor, ho]

theorem ctorVal_makes (A : Allocator (Sigma Val)) {s : AnyHeap ν Val} (h : Settled s) (x : ν)
    (val : Sigma Val) :
    Makes s x (s.ctorVal A (.named x) val) (AnyValues.create s.values x (.ofVal val.2)) := by
  apply create_makes h
  · intro hx
    exact ⟨_, by simp only [ctorVal, hx], fill_became A h val hx⟩
  · intro hx
    obtain ⟨o, ho⟩ := Option.ne_none_iff_exists'.mp hx
    simp only [ctorVal, ho]

theorem ctorCopy_makes (A : Allocator (Sigma Val)) {s : AnyHeap ν Val} (h : Settled s)
    (x other : ν) :
    Makes s x (s.ctorCopy A (.named x) (.named other))
      ((s.values other).bind fun a => AnyValues.create s.values x a) := by
  have hthere : s.slot (.named x) ≠ none → s.ctorCopy A (.named x) (.named other) = none := by
    intro hx
    obtain ⟨o, ho⟩ := Option.ne_none_iff_exists'.mp hx
    simp only [ctorCopy, ho]
  obtain ⟨ho, hv⟩ | ⟨ho, hv⟩ | ⟨content, holder, ho, hc, hv⟩ := h.cases_slot other
  · left
    cases hx : s.slot (.named x) <;> simp only [ctorCopy, hx, ho, hv, Option.bind_none, and_self]
  · rw [hv, Option.bind_some]
    apply create_makes h _ hthere
    intro hx
    exact ⟨_, by simp only [ctorCopy, hx, ho], vacant_became h hx⟩
  · rw [hv, Option.bind_some]
    apply create_makes h _ hthere
    intro hx
    exact ⟨_, by simp only [ctorCopy, hx, ho, hc, Option.map_some], fill_became A h holder hx⟩

theorem assignVal_makes (A : Allocator (Sigma Val)) {s : AnyHeap ν Val} (h : Settled s) (x : ν)
    (val : Sigma Val) :
    Makes s x (s.assignVal A x val) (AnyValues.replace s.values x (.ofVal val.2)) := by
  apply replace_makes h
  · intro o hx
    exact assignVal_became A h val hx
  · exact assignVal_missing A val h

theorem assign_makes (A : Allocator (Sigma Val)) {s : AnyHeap ν Val} (h : Settled s) (x other : ν) :
    Makes s x (s.assign A x other)
    ((s.values other).bind fun a => AnyValues.replace s.values x a) := by
  obtain ⟨ho, hv⟩ | ⟨ho, hv⟩ | ⟨content, holder, ho, hc, hv⟩ := h.cases_slot other
  · left
    simp only [assign, ctorCopy, h.temporary, ho, hv, Option.bind_none, and_self]
  · rw [hv, Option.bind_some]
    apply replace_makes h
    · intro o hx
      exact assign_empty_became A h hx ho
    · intro hx
      simp only [assign, ctorCopy, h.temporary, ho, Option.bind_some]
      apply swapIn_missing
      rw [Store.vacant_slot, Function.update_of_ne (by simp), hx]
  · rw [hv, Option.bind_some, assign_content A h ho hc]
    exact assignVal_makes A h x holder

theorem dtor_makes {s : AnyHeap ν Val} (h : Settled s) (x : ν) :
    Makes s x (s.dtor (.named x)) (AnyValues.remove s.values x) := by
  cases hx : s.slot (.named x) with
  | none => exact Or.inl ⟨by simp only [dtor, Store.drop, hx], by simp only [AnyValues.remove, values_none hx]⟩
  | some o =>
    obtain ⟨s', hs', hb⟩ := dtor_became h (x := x) (by simp [hx])
    obtain ⟨b, hv⟩ := h.values_some hx
    refine Or.inr ⟨s', _, hs', ?_, hb⟩
    simp only [AnyValues.remove, hv, hb.values]

variable [DecidableEq τ]

theorem step_remade (A : Allocator (Sigma Val)) {s : AnyHeap ν Val} (h : Settled s)
    {op : AnyOp ν Val} {x : ν} (hop : op.remade = some x) :
    Makes s x (s.step A op) (AnyValues.step s.values op) := by
  cases op with
  | ctor y => cases hop; exact ctor_makes h x
  | ctorVal y val => cases hop; exact ctorVal_makes A h x val
  | ctorCopy y other => cases hop; exact ctorCopy_makes A h x other
  | assign y other => cases hop; exact assign_makes A h x other
  | assignVal y val => cases hop; exact assignVal_makes A h x val
  | dtor y => cases hop; exact dtor_makes h x
  | swap y other => cases hop
  | write y val => cases hop

/-- A swap exchanges the contents of two objects that are there. -/
theorem swap_cases {s : AnyHeap ν Val} (h : Settled s) (x other : ν) :
    s.swap (.named x) (.named other) = none ∧ AnyValues.step s.values (.swap x other) = none ∨
      s.swap (.named x) (.named other) = some (s.exchange (.named x) (.named other)) ∧
      AnyValues.step s.values (.swap x other) =
      some (values (s.exchange (.named x) (.named other))) := by
  cases hx : s.slot (.named x) with
  | none =>
    left
    simp only [swap, AnyValues.step, hx, values_none hx, and_self]
  | some o =>
    obtain ⟨a, ha⟩ := h.values_some hx
    cases hy : s.slot (.named other) with
    | none =>
      left
      simp only [swap, AnyValues.step, hx, hy, values_none hy, ha, and_self]
    | some o' =>
      obtain ⟨b, hb⟩ := h.values_some hy
      right
      simp only [swap, AnyValues.step, hx, hy, ha, hb, true_and, Option.some.injEq]
      funext z
      unfold values
      rw [value_exchange, named_swap]

omit [DecidableEq τ] in
theorem values_overwrite {s : AnyHeap ν Val} (h : Settled s) {x : ν} {p : Nat} (val : Sigma Val)
    (hx : s.slot (.named x) = some (some p)) :
    values (s.overwrite p val) = Function.update s.values x (some (.ofVal val.2)) := by
  apply values_update (o := some (some val))
  intro y
  rw [value_overwrite h.owned val hx]

/-- Writing through `Get` does nothing, or replaces a value by one of its type. -/
theorem write_cases {s : AnyHeap ν Val} (h : Settled s) (x : ν) (val : Sigma Val) :
    s.write x val = none ∧ AnyValues.step s.values (.write x val) = none ∨
      s.write x val = some s ∧ AnyValues.step s.values (.write x val) = some s.values ∨
      ∃ p holder, s.slot (.named x) = some (some p) ∧ s.cells.lookup p = some holder ∧
      holder.1 = val.1 ∧
        s.write x val = some (s.overwrite p val) ∧
        AnyValues.step s.values (.write x val) = some (values (s.overwrite p val)) := by
  obtain ⟨hs, hv⟩ | ⟨hs, hv⟩ | ⟨p, holder, hs, hc, hv⟩ := h.cases_slot x
  · left
    simp only [write, get, AnyValues.step, hs, hv, Option.bind_none, Option.map_none, and_self]
  · right
    left
    simp [write, get, AnyValues.step, hs, hv]
  · obtain ⟨t, v⟩ := holder
    right
    by_cases ht : t = val.1
    · right
      refine ⟨p, ⟨t, v⟩, hs, hc, ht, ?_, ?_⟩
      · simp only [write, get, assignThrough, hs, hc, Option.map_some, Option.bind_some, if_pos ht]
      · cases ht
        simp only [AnyValues.step, hv, Option.map_some, Any.get_ofVal, Option.isSome_some, if_true,
          values_overwrite h val hs]
    · left
      constructor
      · simp only [write, get, hs, hc, Option.map_some, Option.bind_some, if_neg ht]
      · simp [AnyValues.step, hv, Any.get_ofVal_ne v ht]

theorem step_settled (A : Allocator (Sigma Val)) {s s' : AnyHeap ν Val} {op : AnyOp ν Val}
    (h : Settled s) (hs : s.step A op = some s') : Settled s' := by
  cases hop : op.remade with
  | some x =>
    obtain ⟨hn, -⟩ | ⟨t, o, ht, -, hb⟩ := step_remade A h hop
    · rw [hn] at hs
      cases hs
    · rw [ht] at hs
      cases hs
      exact hb.settled
  | none =>
    cases op with
    | swap x other =>
      obtain ⟨hn, -⟩ | ⟨ht, -⟩ := swap_cases h x other
      · cases hn.symm.trans hs
      · cases ht.symm.trans hs
        refine ⟨h.owned.exchange _ _, ?_⟩
        rw [Store.exchange_slot, Equiv.swap_apply_of_ne_of_ne (by simp) (by simp), h.temporary]
    | write x val =>
      obtain ⟨hn, -⟩ | ⟨ht, -⟩ | ⟨p, holder, hp, -, -, ht, -⟩ := write_cases h x val
      · cases hn.symm.trans hs
      · cases ht.symm.trans hs
        exact h
      · cases ht.symm.trans hs
        exact ⟨h.owned.overwrite val (h.owned.live _ p hp), h.temporary⟩
    | _ => cases hop

/-- Memory computes what the values say. -/
theorem step_values (A : Allocator (Sigma Val)) {s : AnyHeap ν Val} (h : Settled s)
    (op : AnyOp ν Val) :
    (s.step A op).map values = AnyValues.step s.values op := by
  cases hop : op.remade with
  | some x =>
    obtain ⟨hn, hv⟩ | ⟨t, o, ht, hv, -⟩ := step_remade A h hop
    · rw [hn, hv, Option.map_none]
    · rw [ht, hv, Option.map_some]
  | none =>
    cases op with
    | swap x other =>
      obtain ⟨hn, hv⟩ | ⟨ht, hv⟩ := swap_cases h x other
      · rw [hv, step, hn, Option.map_none]
      · rw [hv, step, ht, Option.map_some]
    | write x val =>
      obtain ⟨hn, hv⟩ | ⟨ht, hv⟩ | ⟨p, holder, -, -, -, ht, hv⟩ := write_cases h x val
      · rw [hv, step, hn, Option.map_none]
      · rw [hv, step, ht, Option.map_some]
      · rw [hv, step, ht, Option.map_some]
    | _ => cases hop

/-! ### Programs -/

/-- From any settled memory a program goes wrong only where it would go wrong on values. -/
theorem exec_values (A : Allocator (Sigma Val)) {s : AnyHeap ν Val} (h : Settled s)
    (ops : List (AnyOp ν Val)) :
    (exec (step A) s ops).map values = exec AnyValues.step s.values ops := by
  induction ops generalizing s with
  | nil => rfl
  | cons op ops ih =>
    rw [exec_cons, exec_cons, ← step_values A h op]
    cases hs : s.step A op with
    | none => rfl
    | some s' => exact ih (step_settled A h hs)

/-- No program deletes a holder twice, reads one that is gone, or loses one. Whatever the allocator,
it has a result exactly when it uses objects only while they are there, and then every object is
worth what the values say. -/
theorem program_values (A : Allocator (Sigma Val)) (ops : List (AnyOp ν Val)) :
    (exec (step A) Store.empty ops).map values = exec AnyValues.step (fun _ => none) ops :=
  exec_values A settled_empty ops

/-- After any program every holder has exactly one owner, and the objects that are left own
all there is. -/
theorem program_owners (A : Allocator (Sigma Val)) {s : AnyHeap ν Val} (ops : List (AnyOp ν Val))
    (h : exec (step A) Store.empty ops = some s) :
    (∀ a, a ∈ s.cells ↔ ∃ x, s.slot (.named x) = some (some a)) ∧
      (∀ x y a, s.slot (.named x) = some (some a) → s.slot (.named y) = some (some a) → x = y) ∧
      ((∀ x, s.values x = none) → s.cells = ∅) := by
  have hset : Settled s := exec_preserves Settled (fun _ _ _ => step_settled A) settled_empty h
  refine ⟨fun a => ⟨fun ha => ?_, fun ⟨x, hx⟩ => hset.owned.live _ a hx⟩, fun x y a hx hy => ?_,
    fun hnone => ?_⟩
  · obtain ⟨x, hx⟩ := hset.owned.held a ha
    cases x with
    | named x => exact ⟨x, hx⟩
    | temporary =>
      rw [hset.temporary] at hx
      cases hx
  · exact AnyObj.named.inj (hset.owned.single _ _ a hx hy)
  · apply hset.owned.cells_eq_empty
    intro x
    cases x with
    | temporary => exact hset.temporary
    | named x =>
      cases hs : s.slot (.named x) with
      | none => rfl
      | some o =>
        obtain ⟨a, ha⟩ := hset.values_some hs
        rw [hnone x] at ha
        cases ha

/-- Two objects, of which one holds a number. -/
def twoObjects : List (AnyOp Nat Stored.Val) := [.ctorVal 0 ⟨.connContextPtr, (7 : Nat)⟩, .ctor 1]

/-- The number goes to the other object, is copied to a third, and comes back as a copy. -/
def shuffle : List (AnyOp Nat Stored.Val) := [.swap 0 1, .ctorCopy 2 1, .assign 0 2]

theorem program_owners_shuffle :
    ∃ s : AnyHeap Nat Stored.Val,
    exec (step (Allocator.next _)) Store.empty (twoObjects ++ shuffle) = some s ∧
      ∀ a, a ∈ s.cells ↔ ∃ x, s.slot (.named x) = some (some a) := by
  have hrun : (exec (step (Allocator.next _)) Store.empty (twoObjects ++ shuffle)).isSome =
      true := by decide
  obtain ⟨s, hs⟩ := Option.isSome_iff_exists.mp hrun
  exact ⟨s, hs, (program_owners _ _ hs).1⟩

/-! ### Pointers from `Get` -/

omit [DecidableEq ν] in
theorem get_eq_some {s : AnyHeap ν Val} {x : AnyObj ν} {t : τ} {p : Nat} :
    s.get x t = some (some p) ↔ s.slot x = some (some p) ∧ ∃ v, s.cells.lookup p = some ⟨t, v⟩ := by
  constructor
  · intro h
    unfold get at h
    split at h
    · cases h
    · cases h
    · next content hx =>
      obtain ⟨⟨t', v⟩, hc, hp⟩ := Option.map_eq_some_iff.mp h
      by_cases ht : t' = t
      · subst ht
        rw [if_pos rfl] at hp
        cases hp
        exact ⟨hx, v, hc⟩
      · rw [if_neg ht] at hp
        cases hp
  · rintro ⟨hx, v, hc⟩
    simp only [get, hx, hc, Option.map_some, if_true]

/-- No operation of the list makes, assigns or destroys the object that has the content of `x`. -/
def Kept : ν → List (AnyOp ν Val) → Prop
  | _, [] => True
  | x, op :: ops => op.remade ≠ some x ∧ Kept (op.moved x) ops

/-- The object that has the content of `x` after the operations. -/
def carrier (x : ν) (ops : List (AnyOp ν Val)) : ν := ops.foldl (fun x op => op.moved x) x

theorem step_pointer (A : Allocator (Sigma Val)) {s s' : AnyHeap ν Val} {op : AnyOp ν Val} {x : ν}
    {t : τ} {p : Nat} (h : Settled s) (hget : s.get (.named x) t = some (some p))
    (hkept : op.remade ≠ some x) (hs : s.step A op = some s') :
    s'.get (.named (op.moved x)) t = some (some p) := by
  obtain ⟨hx, v, hc⟩ := get_eq_some.mp hget
  rw [get_eq_some]
  cases hop : op.remade with
  | some y =>
    have hxy : x ≠ y := by
      intro hxy
      exact hkept (hxy ▸ hop)
    obtain ⟨hn, -⟩ | ⟨t', o, ht, -, hb⟩ := step_remade A h hop
    · cases hn.symm.trans hs
    · cases ht.symm.trans hs
      have hmoved : op.moved x = x := by cases op <;> first | rfl | cases hop
      have hy : s.slot (.named y) ≠ some (some p) := by
        intro hy
        exact hxy (AnyObj.named.inj (h.owned.single _ _ p hx hy))
      refine ⟨?_, v, ?_⟩
      · rw [hmoved, hb.other x hxy, hx]
      · rw [hb.kept p (h.owned.live _ p hx) hy, hc]
  | none =>
    cases op with
    | swap y other =>
      obtain ⟨hn, -⟩ | ⟨ht, -⟩ := swap_cases h y other
      · cases hn.symm.trans hs
      · cases ht.symm.trans hs
        refine ⟨?_, v, hc⟩
        rw [AnyOp.moved, Store.exchange_slot, named_swap, Equiv.swap_apply_self, hx]
    | write y val =>
      obtain ⟨hn, -⟩ | ⟨ht, -⟩ | ⟨q, holder, hq, hholder, htype, ht, -⟩ := write_cases h y val
      · cases hn.symm.trans hs
      · cases ht.symm.trans hs
        exact ⟨hx, v, hc⟩
      · cases ht.symm.trans hs
        refine ⟨hx, ?_⟩
        by_cases hpq : p = q
        · subst hpq
          rw [hc] at hholder
          cases hholder
          obtain ⟨t', v'⟩ := val
          cases htype
          exact ⟨v', Finmap.lookup_insert _⟩
        · exact ⟨v, by rw [Store.overwrite_cells, Finmap.lookup_insert_of_ne _ hpq, hc]⟩
    | _ => cases hop

theorem exec_pointer (A : Allocator (Sigma Val)) {s s' : AnyHeap ν Val} {ops : List (AnyOp ν Val)}
    {x : ν} {t : τ} {p : Nat} (h : Settled s) (hget : s.get (.named x) t = some (some p))
    (hkept : Kept x ops) (hs : exec (step A) s ops = some s') :
    s'.get (.named (carrier x ops)) t = some (some p) := by
  induction ops generalizing s x with
  | nil => cases hs; exact hget
  | cons op ops ih =>
    obtain ⟨s₁, hs₁, hs⟩ := Option.bind_eq_some_iff.mp hs
    exact ih (step_settled A h hs₁) (step_pointer A h hget hkept.1 hs₁) hkept.2 hs

/-- The holder of `x` goes with the first operation that makes, assigns or destroys its object, and
with no other. -/
theorem step_frees (A : Allocator (Sigma Val)) {s s' : AnyHeap ν Val} {op : AnyOp ν Val}
    {x : ν} {p : Nat} (h : Settled s) (hx : s.slot (.named x) = some (some p))
    (hs : s.step A op = some s') :
    p ∈ s'.cells ↔ op.remade ≠ some x := by
  obtain ⟨⟨t, v⟩, hc, -⟩ := h.owned.lookup hx
  constructor
  · intro hin hop
    obtain ⟨hn, -⟩ | ⟨s₁, o, ht, -, hb⟩ := step_remade A h hop
    · cases hn.symm.trans hs
    · cases ht.symm.trans hs
      exact hb.gone p hx hin
  · intro hkept
    have hget : s.get (.named x) t = some (some p) := get_eq_some.mpr ⟨hx, v, hc⟩
    obtain ⟨-, v', hc'⟩ := get_eq_some.mp (step_pointer A h hget hkept hs)
    exact Finmap.mem_of_lookup_eq_some hc'

/-- A pointer that `Get` returned stays good through swaps and through anything done to other
objects, and writing through it sets the value of the object that has the content by then. It
dangles from the moment that this object is assigned to or destroyed. -/
theorem pointer_lifetime (A : Allocator (Sigma Val)) {s s₁ s₂ : AnyHeap ν Val}
    {before ops : List (AnyOp ν Val)} {op : AnyOp ν Val} {x : ν} {t : τ} {p : Nat}
    (hbefore : exec (step A) Store.empty before = some s)
    (hget : s.get (.named x) t = some (some p)) (hkept : Kept x ops)
    (hops : exec (step A) s ops = some s₁) (hop : s₁.step A op = some s₂) :
    s₁.get (.named (carrier x ops)) t = some (some p) ∧
      (∀ v : Val t, ∃ s₃, s₁.assignThrough p ⟨t, v⟩ = some s₃ ∧
        s₃.values = Function.update s₁.values (carrier x ops) (some (.ofVal v))) ∧
      (p ∈ s₂.cells ↔ op.remade ≠ some (carrier x ops)) := by
  have hset : Settled s :=
    exec_preserves Settled (fun _ _ _ => step_settled A) settled_empty hbefore
  have hset₁ : Settled s₁ := exec_preserves Settled (fun _ _ _ => step_settled A) hset hops
  have hget₁ := exec_pointer A hset hget hkept hops
  obtain ⟨hx, v, hc⟩ := get_eq_some.mp hget₁
  refine ⟨hget₁, fun v => ⟨s₁.overwrite p ⟨t, v⟩, ?_, ?_⟩, step_frees A hset₁ hx hop⟩
  · simp only [assignThrough, hc, if_true]
  · exact values_overwrite hset₁ ⟨t, v⟩ hx

/-- The pointer into the first object follows its number to the second, and goes with it there. -/
theorem pointer_lifetime_shuffle :
    ∃ s₁ s₂ : AnyHeap Nat Stored.Val,
    exec (step (Allocator.next _)) Store.empty (twoObjects ++ shuffle) = some s₁ ∧
      s₁.step (Allocator.next _) (.dtor 1) = some s₂ ∧
      s₁.get (.named 1) .connContextPtr = some (some 0) ∧
      0 ∉ s₂.cells := by
  have hstart : ((exec (step (Allocator.next _)) Store.empty twoObjects).bind
      fun s => s.get (.named 0) .connContextPtr) =
      some (some 0) := rfl
  obtain ⟨s, hs, hget⟩ := Option.bind_eq_some_iff.mp hstart
  have hrun : ((exec (step (Allocator.next _)) Store.empty (twoObjects ++ shuffle)).bind fun s =>
      s.step (Allocator.next _) (.dtor 1)).isSome = true := by decide
  obtain ⟨s₂, hs₂⟩ := Option.isSome_iff_exists.mp hrun
  obtain ⟨s₁, hs₁, hd⟩ := Option.bind_eq_some_iff.mp hs₂
  have hops : exec (step (Allocator.next _)) s shuffle = some s₁ := by
    rw [exec_append, hs] at hs₁
    exact hs₁
  have hkept : Kept 0 shuffle := by
    simp [Kept, shuffle, AnyOp.remade, AnyOp.moved, Equiv.swap_apply_left]
  obtain ⟨hget₁, -, hin⟩ := pointer_lifetime (Allocator.next _) hs hget hkept hops hd
  exact ⟨s₁, s₂, hs₁, hd, hget₁, fun h => hin.mp h (by decide)⟩

end AnyHeap

end MuduoServer
