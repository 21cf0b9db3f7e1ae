import Mathlib.Data.List.Basic

/-!
# Queues

A first-in first-out queue is a list with its oldest element in front. An
operation gives back what it takes out; one that asks for more than there is has
no result.
-/
namespace FifoQueue

variable {α : Type}

inductive Op (α : Type) where
  | append (xs : List α)
  | pop (n : Nat)
  /-- Take out everything up to the first element that meets `p`, or nothing. -/
  | popThrough (p : α → Bool)
  | clear
  | keep

/-- The shortest prefix that ends in an element with `p`, and the rest. -/
def through (p : α → Bool) : List α → Option (List α × List α)
  | [] => none
  | x :: xs => if p x then some ([x], xs) else (through p xs).map fun r => (x :: r.1, r.2)

def step (q : List α) : Op α → Option (List α × List α)
  | .append xs => some (q ++ xs, [])
  | .pop n => if n ≤ q.length then some (q.drop n, q.take n) else none
  | .popThrough p =>
    match through p q with
    | none => some (q, [])
    | some (out, rest) => some (rest, out)
  | .clear => some ([], [])
  | .keep => some (q, [])

theorem through_none {p : α → Bool} {q : List α} (h : ∀ x ∈ q, p x = false) :
    through p q = none := by
  induction q with
  | nil => rfl
  | cons x q ih =>
    simp [through, h x List.mem_cons_self, ih fun y hy => h y (List.mem_cons_of_mem x hy)]

theorem through_some {p : α → Bool} {init rest : List α} {x : α} (hinit : ∀ y ∈ init, p y = false)
    (hx : p x = true) : through p (init ++ x :: rest) = some (init ++ [x], rest) := by
  induction init with
  | nil => simp [through, hx]
  | cons y init ih =>
    have htail := ih fun z hz => hinit z (List.mem_cons_of_mem y hz)
    simp [through, hinit y List.mem_cons_self, htail]

/-- The queue and everything taken out so far, one entry for each operation. -/
def stepLogged : List α × List (List α) → Op α → Option (List α × List (List α))
  | (q, outs), op => (step q op).map fun r => (r.1, outs ++ [r.2])

end FifoQueue
