import Mathlib.Data.List.Basic

/-!
# How deep a path goes

A path is a list of moves from a starting directory. The walk keeps the depth
below the start and fails when a move leads above it.
-/
namespace PathDepth

inductive Move where
  | stay | up | enter
  deriving DecidableEq, Repr

/-- The depth reached, or `none` once a move has led above the start. -/
def walk : Nat → List Move → Option Nat
  | d, [] => some d
  | d, .stay :: ms => walk d ms
  | 0, .up :: _ => none
  | d + 1, .up :: ms => walk d ms
  | d, .enter :: ms => walk (d + 1) ms

@[simp] theorem walk_nil (d : Nat) : walk d [] = some d := by cases d <;> rfl
@[simp] theorem walk_stay (d : Nat) (ms : List Move) : walk d (.stay :: ms) = walk d ms := by
  cases d <;> rfl
@[simp] theorem walk_up_zero (ms : List Move) : walk 0 (.up :: ms) = none := rfl
@[simp] theorem walk_up_succ (d : Nat) (ms : List Move) : walk (d + 1) (.up :: ms) = walk d ms :=
  rfl
@[simp] theorem walk_enter (d : Nat) (ms : List Move) :
    walk d (.enter :: ms) = walk (d + 1) ms := by
  cases d <;> rfl

theorem walk_append (d : Nat) (ms ns : List Move) :
    walk d (ms ++ ns) = (walk d ms).bind (fun d' => walk d' ns) := by
  induction ms generalizing d with
  | nil => simp
  | cons m ms ih =>
    cases m with
    | stay => simpa using ih d
    | enter => simpa using ih (d + 1)
    | up =>
      cases d with
      | zero => rfl
      | succ d => simpa using ih d

/-- Moves that stay do not matter. -/
theorem walk_filter_stay (d : Nat) (ms : List Move) :
    walk d (ms.filter (· ≠ .stay)) = walk d ms := by
  induction ms generalizing d with
  | nil => rfl
  | cons m ms ih =>
    cases m with
    | stay => simpa using ih d
    | enter => simpa using ih (d + 1)
    | up =>
      cases d with
      | zero => simp
      | succ d => simpa using ih d

/-- The walk never leads above the start. -/
def StaysBelow (ms : List Move) : Prop := (walk 0 ms).isSome

instance (ms : List Move) : Decidable (StaysBelow ms) := by unfold StaysBelow; infer_instance

/-- Entering at the end, or staying there, leads above nothing. -/
theorem staysBelow_concat {m : Move} (ms : List Move) (hm : m ≠ .up) :
    StaysBelow (ms ++ [m]) ↔ StaysBelow ms := by
  unfold StaysBelow
  rw [walk_append]
  cases walk 0 ms with
  | none => rfl
  | some d => cases m <;> simp_all

/-! ## The directory at each prefix -/

def Move.rise : Move → Int
  | .stay => 0
  | .up => -1
  | .enter => 1

/-- The depth a path ends at when nothing stops it from going above the start. -/
def height : List Move → Int
  | [] => 0
  | m :: ms => m.rise + height ms

@[simp] theorem height_nil : height [] = 0 := rfl
@[simp] theorem height_cons (m : Move) (ms : List Move) : height (m :: ms) = m.rise + height ms :=
  rfl

/-- A walk fails exactly if some prefix of it ends above the start. -/
theorem walk_eq_none_iff (d : Nat) (ms : List Move) :
    walk d ms = none ↔ ∃ k, d + height (ms.take k) < 0 := by
  induction ms generalizing d with
  | nil =>
    simp only [walk_nil, reduceCtorEq, List.take_nil, height_nil, false_iff, not_exists]
    omega
  | cons m ms ih =>
    -- the empty prefix is never above the start
    have hcons : (∃ k, d + height ((m :: ms).take k) < 0) ↔
        ∃ k, d + m.rise + height (ms.take k) < 0 := by
      constructor
      · rintro ⟨k, hk⟩
        cases k with
        | zero =>
          simp only [List.take_zero, height_nil] at hk
          omega
        | succ k => exact ⟨k, by simpa [Int.add_assoc] using hk⟩
      · rintro ⟨k, hk⟩
        exact ⟨k + 1, by simpa [Int.add_assoc] using hk⟩
    rw [hcons]
    cases m with
    | stay => simpa [Move.rise] using ih d
    | enter => simpa [Move.rise] using ih (d + 1)
    | up =>
      cases d with
      | zero =>
        simp only [walk_up_zero, true_iff]
        exact ⟨0, by simp [Move.rise]⟩
      | succ d =>
        have hback : (d : Int) + 1 + -1 = d := by omega
        simpa [Move.rise, hback] using ih d

end PathDepth
