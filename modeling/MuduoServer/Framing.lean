import Mathlib.Data.List.Basic

/-!
# Readers of a stream

A reader takes an item from the front of a stream and leaves the rest. A text reads as
an item if the reader finds that item in it whatever follows, so texts written one
behind the other read as their items, in order and with nothing left over.
-/
namespace Framing

variable {α β γ ι : Type}

abbrev Reader (α β : Type) := List α → Option (β × List α)

/-- `text` reads as `b`, whatever follows. -/
def Reads (p : Reader α β) (text : List α) (b : β) : Prop :=
  ∀ rest, p (text ++ rest) = some (b, rest)

/-- Read with `p`, then with the reader the item asks for. -/
def Reader.andThen (p : Reader α β) (f : β → Reader α γ) : Reader α γ :=
  fun s => (p s).bind fun x => f x.1 x.2

/-- The items of `p` that `f` accepts, converted. -/
def Reader.convert (p : Reader α β) (f : β → Option γ) : Reader α γ :=
  fun s => (p s).bind fun x => (f x.1).map fun c => (c, x.2)

theorem Reads.andThen {p : Reader α β} {f : β → Reader α γ} {text text' : List α} {b : β} {c : γ}
    (hp : Reads p text b) (hf : Reads (f b) text' c) : Reads (p.andThen f) (text ++ text') c := by
  intro rest
  rw [Reader.andThen, List.append_assoc, hp]
  exact hf rest

theorem Reads.convert {p : Reader α β} {f : β → Option γ} {text : List α} {b : β} {c : γ}
    (hp : Reads p text b) (hf : f b = some c) : Reads (p.convert f) text c := by
  intro rest
  rw [Reader.convert, hp, Option.bind_some, hf]
  rfl

/-- The next `n` elements. -/
def exactly (n : Nat) : Reader α (List α) :=
  fun s => if n ≤ s.length then some (s.take n, s.drop n) else none

theorem reads_exactly (text : List α) : Reads (exactly text.length) text text := by
  intro rest
  simp [exactly]

/-- What comes before the first `a` with a `b` behind it. -/
def upTo [DecidableEq α] (a b : α) : Reader α (List α)
  | [] => none
  | [_] => none
  | x :: y :: s =>
    if x = a ∧ y = b then some ([], s) else (upTo a b (y :: s)).map fun r => (x :: r.1, r.2)

theorem reads_upTo [DecidableEq α] {a : α} (b : α) {text : List α} (h : a ∉ text) :
    Reads (upTo a b) (text ++ [a, b]) text := by
  intro rest
  induction text with
  | nil => simp [upTo]
  | cons x text ih =>
    obtain ⟨hx, htext⟩ := List.ne_and_not_mem_of_not_mem_cons h
    have hstep : ∀ s : List α, s ≠ [] →
        upTo a b (x :: s) = (upTo a b s).map fun r => (x :: r.1, r.2) := by
      intro s hs
      cases s with
      | nil => exact absurd rfl hs
      | cons y s => exact if_neg (fun he => hx he.1.symm)
    rw [List.cons_append, List.cons_append, hstep _ (by simp), ih htext]
    rfl

/-- Items up to one that is the last; it is not kept. The fuel bounds their number. -/
def blockLoop (p : Reader α β) (last : β → Bool) : Nat → Reader α (List β)
  | 0, _ => none
  | n + 1, s => (p s).bind fun x =>
      if last x.1 then some ([], x.2) else (blockLoop p last n x.2).map fun r => (x.1 :: r.1, r.2)

def block (p : Reader α β) (last : β → Bool) : Reader α (List β) :=
  fun s => blockLoop p last s.length s

theorem reads_blockLoop {p : Reader α β} {last : β → Bool} (xs : List ι) {text : ι → List α}
    {item : ι → β} {close : List α} {b : β}
    (hitem : ∀ x ∈ xs, Reads p (text x) (item x) ∧ last (item x) = false) (hclose : Reads p close b)
    (hlast : last b = true) {fuel : Nat} (hfuel : xs.length < fuel) :
    Reads (blockLoop p last fuel) (xs.flatMap text ++ close) (xs.map item) := by
  induction xs generalizing fuel with
  | nil =>
    intro rest
    obtain ⟨n, rfl⟩ := Nat.exists_eq_succ_of_ne_zero (Nat.ne_of_gt hfuel)
    rw [List.flatMap_nil, List.nil_append, blockLoop, hclose, Option.bind_some, if_pos hlast]
    rfl
  | cons x xs ih =>
    intro rest
    obtain ⟨n, rfl⟩ := Nat.exists_eq_succ_of_ne_zero (Nat.ne_of_gt (Nat.zero_lt_of_lt hfuel))
    obtain ⟨hx, hnot⟩ := hitem x List.mem_cons_self
    have hxs :=
      ih (fun y hy => hitem y (List.mem_cons_of_mem _ hy)) (Nat.lt_of_succ_lt_succ hfuel) rest
    rw [List.flatMap_cons, List.append_assoc, List.append_assoc, ← List.append_assoc _ close,
      blockLoop, hx,
      Option.bind_some, if_neg (by simp [hnot]), hxs]
    rfl

theorem length_le_flatMap (xs : List ι) {text : ι → List α} (h : ∀ x ∈ xs, text x ≠ []) :
    xs.length ≤ (xs.flatMap text).length := by
  induction xs with
  | nil => exact Nat.zero_le _
  | cons x xs ih =>
    have hx : 0 < (text x).length := List.length_pos_iff.mpr (h x List.mem_cons_self)
    have hxs := ih (fun y hy => h y (List.mem_cons_of_mem _ hy))
    rw [List.flatMap_cons, List.length_append, List.length_cons]
    omega

/-- Texts behind each other and a closing text read as the items of the texts. -/
theorem reads_block {p : Reader α β} {last : β → Bool} (xs : List ι) {text : ι → List α}
    {item : ι → β} {close : List α} {b : β}
    (hitem : ∀ x ∈ xs, Reads p (text x) (item x) ∧ last (item x) = false)
    (hne : ∀ x ∈ xs, text x ≠ []) (hclose : Reads p close b) (hlast : last b = true)
    (hcloses : close ≠ []) :
    Reads (block p last) (xs.flatMap text ++ close) (xs.map item) := by
  intro rest
  refine reads_blockLoop xs hitem hclose hlast ?_ rest
  have hlen := length_le_flatMap xs hne
  have hpos : 0 < close.length := List.length_pos_iff.mpr hcloses
  rw [List.length_append, List.length_append]
  omega

/-- Items to the end of the stream. The fuel bounds their number. -/
def allLoop (p : Reader α β) : Nat → List α → Option (List β)
  | _, [] => some []
  | 0, _ :: _ => none
  | n + 1, x :: s => (p (x :: s)).bind fun r => (allLoop p n r.2).map (r.1 :: ·)

/-- The items of a whole stream; `none` if something is left over. -/
def all (p : Reader α β) (s : List α) : Option (List β) := allLoop p s.length s

theorem allLoop_flatMap {p : Reader α β} (xs : List ι) {text : ι → List α} {item : ι → β}
    (hitem : ∀ x ∈ xs, Reads p (text x) (item x)) (hne : ∀ x ∈ xs, text x ≠ []) {fuel : Nat}
    (hfuel : xs.length ≤ fuel) : allLoop p fuel (xs.flatMap text) = some (xs.map item) := by
  induction xs generalizing fuel with
  | nil => cases fuel <;> rfl
  | cons x xs ih =>
    obtain ⟨n, rfl⟩ :=
      Nat.exists_eq_succ_of_ne_zero (Nat.ne_of_gt (Nat.lt_of_lt_of_le (Nat.succ_pos _) hfuel))
    obtain ⟨c, cs, hx⟩ := List.exists_cons_of_ne_nil (hne x List.mem_cons_self)
    have hstep : allLoop p (n + 1) (text x ++ xs.flatMap text) =
        (p (text x ++ xs.flatMap text)).bind fun r => (allLoop p n r.2).map (r.1 :: ·) := by
      rw [hx]
      rfl
    have hxs := ih (fun y hy => hitem y (List.mem_cons_of_mem _ hy))
      (fun y hy => hne y (List.mem_cons_of_mem _ hy)) (Nat.le_of_succ_le_succ hfuel)
    rw [List.flatMap_cons, hstep, hitem x List.mem_cons_self, Option.bind_some, hxs]
    rfl

/-- Texts behind each other read as their items, with nothing left over. -/
theorem all_flatMap {p : Reader α β} (xs : List ι) {text : ι → List α} {item : ι → β}
    (hitem : ∀ x ∈ xs, Reads p (text x) (item x)) (hne : ∀ x ∈ xs, text x ≠ []) :
    all p (xs.flatMap text) = some (xs.map item) :=
  allLoop_flatMap xs hitem hne (length_le_flatMap xs hne)

end Framing
