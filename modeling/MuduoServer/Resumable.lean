import Mathlib.Data.List.Basic

/-!
# Parsers that resume

A parser is called on the bytes at hand. It finishes an item, fails, or keeps a
state and the bytes it could not use yet. If every answer survives the arrival
of more input, the items read from a stream do not depend on how it was cut.
-/
namespace Resumable

variable {σ β ω : Type}

inductive Step (σ β ω : Type) where
  | more (s : σ) (rest : List β) : Step σ β ω
  | done (out : ω) (rest : List β) : Step σ β ω
  | failed : Step σ β ω

structure Parser (σ β ω : Type) where
  start : σ
  step : σ → List β → Step σ β ω

/-- Later bytes `v` change no answer given on `u`. -/
structure Lawful (P : Parser σ β ω) : Prop where
  done_append : ∀ s u v o r, P.step s u = .done o r → P.step s (u ++ v) = .done o (r ++ v)
  failed_append : ∀ s u v, P.step s u = .failed → P.step s (u ++ v) = .failed
  more_append : ∀ s u v s' r, P.step s u = .more s' r → P.step s (u ++ v) = P.step s' (r ++ v)

/-- Read items while there is input; the result is the resting state, or `none`
after a failure. -/
inductive Drains (P : Parser σ β ω) : σ → List β → List ω → Option (σ × List β) → Prop where
  | idle (s : σ) : Drains P s [] [] (some (s, []))
  | more {s u s' r} : u ≠ [] → P.step s u = .more s' r → Drains P s u [] (some (s', r))
  | failed {s u} : u ≠ [] → P.step s u = .failed → Drains P s u [] none
  | done {s u o r os e} : u ≠ [] → P.step s u = .done o r → Drains P P.start r os e →
      Drains P s u (o :: os) e

/-- One drain for each arriving segment, until the first failure. -/
inductive Feeds (P : Parser σ β ω) : σ → List β → List (List β) → List ω →
    Option (σ × List β) → Prop where
  | nil (s : σ) (r : List β) : Feeds P s r [] [] (some (s, r))
  | cons {s r seg segs s' r' os os' e} : Drains P s (r ++ seg) os (some (s', r')) →
      Feeds P s' r' segs os' e → Feeds P s r (seg :: segs) (os ++ os') e
  | stop {s r seg segs os} : Drains P s (r ++ seg) os none → Feeds P s r (seg :: segs) os none

variable {P : Parser σ β ω}

theorem Drains.det {s : σ} {u : List β} {os os' : List ω} {e e' : Option (σ × List β)}
    (h : Drains P s u os e) (h' : Drains P s u os' e') : os = os' ∧ e = e' := by
  induction h generalizing os' with
  | idle s =>
    cases h' with
    | idle => exact ⟨rfl, rfl⟩
    | more hu _ => exact absurd rfl hu
    | failed hu _ => exact absurd rfl hu
    | done hu _ _ => exact absurd rfl hu
  | more hu hs =>
    cases h' with
    | idle => exact absurd rfl hu
    | more _ hs' => rw [hs] at hs'; cases hs'; exact ⟨rfl, rfl⟩
    | failed _ hs' => rw [hs] at hs'; cases hs'
    | done _ hs' _ => rw [hs] at hs'; cases hs'
  | failed hu hs =>
    cases h' with
    | idle => exact absurd rfl hu
    | more _ hs' => rw [hs] at hs'; cases hs'
    | failed _ _ => exact ⟨rfl, rfl⟩
    | done _ hs' _ => rw [hs] at hs'; cases hs'
  | done hu hs _ ih =>
    cases h' with
    | idle => exact absurd rfl hu
    | more _ hs' => rw [hs] at hs'; cases hs'
    | failed _ hs' => rw [hs] at hs'; cases hs'
    | done _ hs' hd =>
      rw [hs] at hs'
      cases hs'
      obtain ⟨ho, he⟩ := ih hd
      exact ⟨by rw [ho], he⟩

/-- A resting parser has used what it can: called again it keeps its state. -/
def Resting (P : Parser σ β ω) (s : σ) (r : List β) : Prop := r = [] ∨ P.step s r = .more s r

theorem Drains.resting (hP : Lawful P) {s : σ} {u : List β} {os : List ω} {s' : σ} {r : List β}
    (h : Drains P s u os (some (s', r))) : Resting P s' r := by
  generalize he : some (s', r) = e at h
  induction h with
  | idle s => cases he; exact .inl rfl
  | more hu hs =>
    cases he
    have h := hP.more_append _ _ [] _ _ hs
    rw [List.append_nil, List.append_nil, hs] at h
    exact .inr h.symm
  | failed _ _ => cases he
  | done _ _ _ ih => exact ih he

theorem Drains.append (hP : Lawful P) {s : σ} {u v : List β} {os os' : List ω} {s' : σ}
    {r : List β} {e : Option (σ × List β)} (h : Drains P s u os (some (s', r)))
    (h' : Drains P s' (r ++ v) os' e) : Drains P s (u ++ v) (os ++ os') e := by
  generalize hm : some (s', r) = m at h
  induction h with
  | idle s => cases hm; exact h'
  | more hu hs =>
    cases hm
    have hs' := hP.more_append _ _ v _ _ hs
    have hne := List.append_ne_nil_of_left_ne_nil hu v
    generalize hx : r ++ v = x at h' hs'
    cases h' with
    | idle =>
      -- nothing is left over and nothing arrived
      obtain ⟨rfl, rfl⟩ := List.append_eq_nil_iff.mp hx
      exact .more hne (by rwa [List.append_nil])
    | more _ ht => exact .more hne (hs'.trans ht)
    | failed _ ht => exact .failed hne (hs'.trans ht)
    | done _ ht hd => exact .done hne (hs'.trans ht) hd
  | failed _ _ => cases hm
  | done hu hs _ ih => exact .done (by simp [hu]) (hP.done_append _ _ v _ _ hs) (ih hm)

theorem Drains.append_failed (hP : Lawful P) {s : σ} {u : List β} (v : List β) {os : List ω}
    (h : Drains P s u os none) : Drains P s (u ++ v) os none := by
  generalize hm : (none : Option (σ × List β)) = m at h
  induction h with
  | idle s => cases hm
  | more _ _ => cases hm
  | failed hu hs => exact .failed (by simp [hu]) (hP.failed_append _ _ v hs)
  | done hu hs _ ih => exact .done (by simp [hu]) (hP.done_append _ _ v _ _ hs) (ih hm)

/-- Feeding segments one by one reads what one drain of their concatenation reads. -/
theorem Feeds.drains (hP : Lawful P) {s : σ} {r : List β} {segs : List (List β)} {os : List ω}
    {e : Option (σ × List β)} (h : Feeds P s r segs os e) (hr : Resting P s r) :
    Drains P s (r ++ segs.flatten) os e := by
  induction h with
  | nil s r =>
    rw [List.flatten_nil, List.append_nil]
    cases r with
    | nil => exact .idle s
    | cons b r => exact .more (by simp) (hr.resolve_left (by simp))
  | cons hd _ ih =>
    rw [List.flatten_cons, ← List.append_assoc]
    exact hd.append hP (ih (hd.resting hP))
  | stop hd =>
    rw [List.flatten_cons, ← List.append_assoc]
    exact hd.append_failed hP _

/-- Two ways of cutting one stream give the same items and the same ending. -/
theorem Feeds.segmentation (hP : Lawful P) {segs segs' : List (List β)} {os os' : List ω}
    {e e' : Option (σ × List β)} (h : Feeds P P.start [] segs os e)
    (h' : Feeds P P.start [] segs' os' e') (hcut : segs.flatten = segs'.flatten) :
    os = os' ∧ e = e' := by
  have hd := h.drains hP (.inl rfl)
  have hd' := h'.drains hP (.inl rfl)
  rw [hcut] at hd
  exact hd.det hd'

end Resumable
