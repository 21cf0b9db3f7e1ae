import Mathlib.Data.Setoid.Basic
import MuduoServer.Transition

/-!
# Steps that keep apart

A state is looked at in places. A step reads some of them and writes some of these; what it writes,
and where, depends on what it reads. Two steps keep apart when neither writes what the
other reads. They can then be taken in either order, and a run may be reordered
as long as only such steps change places.
-/
namespace Transition

variable {σ α ι : Type}

/-- The places that the steps of a system read and write. -/
structure Footprint (step : σ → α → Option σ) (same : ι → Setoid σ) where
  reads : σ → α → ι → Prop
  writes : σ → α → ι → Prop
  covers : ∀ {s a l}, writes s a l → reads s a l
  /-- Where a step reads and writes depends on what it reads. -/
  stable : ∀ {s t a}, (∀ l, reads s a l → same l s t) →
    ∀ l, (reads t a l ↔ reads s a l) ∧ (writes t a l ↔ writes s a l)
  /-- What is not written stays. -/
  frame : ∀ {s s' a l}, step s a = some s' → ¬writes s a l → same l s s'
  /-- Whether a step can be taken, and what it leaves, depends on what it reads. -/
  determined : ∀ {s s' t a}, (∀ l, reads s a l → same l s t) → step s a = some s' →
    ∃ t', step t a = some t' ∧ ∀ l, reads s a l → same l s' t'

namespace Footprint

variable {step : σ → α → Option σ} {same : ι → Setoid σ} (F : Footprint step same)

/-- Neither step writes what the other reads. -/
def Apart (s : σ) (a b : α) : Prop :=
  (∀ l, F.writes s a l → ¬F.reads s b l) ∧ ∀ l, F.writes s b l → ¬F.reads s a l

variable {s s₁ s₂ t : σ} {a b : α} {as : List α}

/-- Steps from states that look the same lead to states that look the same. -/
theorem congr (F : Footprint step same) (h : ∀ l, same l s t) (hs : step s a = some s₁) :
    ∃ t₁, step t a = some t₁ ∧ ∀ l, same l s₁ t₁ := by
  obtain ⟨t₁, ht, hread⟩ := F.determined (fun l _ => h l) hs
  refine ⟨t₁, ht, fun l => ?_⟩
  by_cases hw : F.writes s a l
  · exact hread l (F.covers hw)
  · have hw' : ¬F.writes t a l := fun hw' => hw ((F.stable (fun l _ => h l) l).2.mp hw')
    exact (same l).trans ((same l).trans ((same l).symm (F.frame hs hw)) (h l)) (F.frame ht hw')

theorem exec_congr (F : Footprint step same) (h : ∀ l, same l s t) (hs : exec step s as = some s₁) :
    ∃ t₁, exec step t as = some t₁ ∧ ∀ l, same l s₁ t₁ := by
  induction as generalizing s t with
  | nil =>
    cases hs
    exact ⟨t, rfl, h⟩
  | cons a as ih =>
    obtain ⟨s', hs', hs⟩ := Option.bind_eq_some_iff.mp hs
    obtain ⟨t', ht', h'⟩ := F.congr h hs'
    obtain ⟨t₁, ht, h₁⟩ := ih h' hs
    exact ⟨t₁, by rw [exec_cons, ht']; exact ht, h₁⟩

/-- Steps that keep apart can be taken in the other order. -/
theorem Apart.swap {F : Footprint step same} (h : F.Apart s a b) (ha : step s a = some s₁)
    (hb : step s₁ b = some s₂) :
    ∃ t₁ t₂, step s b = some t₁ ∧ step t₁ a = some t₂ ∧ ∀ l, same l s₂ t₂ := by
  have hkeep : ∀ l, F.reads s b l → same l s s₁ := fun l hl => F.frame ha fun hw => h.1 l hw hl
  have hwhere := F.stable hkeep
  obtain ⟨t₁, ht₁, hbread⟩ :=
    F.determined (fun l hl => (same l).symm (hkeep l ((hwhere l).1.mp hl))) hb
  have hkeep' : ∀ l, F.reads s a l → same l s t₁ := fun l hl => F.frame ht₁ fun hw => h.2 l hw hl
  have hwhere' := F.stable hkeep'
  obtain ⟨t₂, ht₂, haread⟩ := F.determined hkeep' ha
  refine ⟨t₁, t₂, ht₁, ht₂, fun l => ?_⟩
  have hb_frame : ¬F.writes s b l → same l s₁ s₂ :=
    fun hw => F.frame hb fun hw' => hw ((hwhere l).2.mp hw')
  have ha_frame : ¬F.writes s a l → same l t₁ t₂ :=
    fun hw => F.frame ht₂ fun hw' => hw ((hwhere' l).2.mp hw')
  by_cases hwa : F.writes s a l
  · have hwb : ¬F.writes s b l := fun hwb => h.1 l hwa (F.covers hwb)
    exact (same l).trans ((same l).symm (hb_frame hwb)) (haread l (F.covers hwa))
  · by_cases hwb : F.writes s b l
    · exact (same l).trans (hbread l ((hwhere l).1.mpr (F.covers hwb))) (ha_frame hwa)
    · have hback : same l s₂ s :=
        (same l).trans ((same l).symm (hb_frame hwb)) ((same l).symm (F.frame ha hwa))
      exact (same l).trans hback ((same l).trans (F.frame ht₁ hwb) (ha_frame hwa))

end Footprint

/-- The second run has the steps of the first, where some that may change places have done so. -/
inductive Reorders (step : σ → α → Option σ) (apart : σ → α → α → Prop) :
    σ → List α → List α → Prop where
  | refl (s : σ) (as : List α) : Reorders step apart s as as
  | swap {s : σ} {a b : α} (as : List α) (h : apart s a b) : Reorders step apart s (a :: b :: as)
    (b :: a :: as)
  | later {s : σ} {a : α} {as bs : List α} (h : ∀ t, step s a = some t →
    Reorders step apart t as bs) :
    Reorders step apart s (a :: as) (a :: bs)
  | trans {s : σ} {as bs cs : List α} (h : Reorders step apart s as bs)
    (h' : Reorders step apart s bs cs) :
    Reorders step apart s as cs

/-- The runs begin alike. -/
theorem Reorders.after {step : σ → α → Option σ} {apart : σ → α → α → Prop} {s t : σ}
    {pre as bs : List α} (hpre : exec step s pre = some t) (h : Reorders step apart t as bs) :
    Reorders step apart s (pre ++ as) (pre ++ bs) := by
  induction pre generalizing s with
  | nil =>
    cases hpre
    exact h
  | cons a pre ih =>
    obtain ⟨s', hs', hpre⟩ := Option.bind_eq_some_iff.mp hpre
    refine .later fun u hu => ?_
    rw [hs'] at hu
    cases hu
    exact ih hpre

/-- A run that is reordered ends in a state that looks the same. -/
theorem Footprint.reordered {step : σ → α → Option σ} {same : ι → Setoid σ}
    (F : Footprint step same) {apart : σ → α → α → Prop} {I : σ → Prop}
    (hI : ∀ s a s', I s → step s a = some s' → I s')
    (hapart : ∀ s a b, I s → apart s a b → F.Apart s a b) {s t : σ} {as bs : List α}
    (h : Reorders step apart s as bs) (hs : I s) (hrun : exec step s as = some t) :
    ∃ t', exec step s bs = some t' ∧ ∀ l, same l t t' := by
  induction h generalizing t with
  | refl s as => exact ⟨t, hrun, fun l => (same l).refl t⟩
  | swap as hab =>
    obtain ⟨s₁, ha, hrun⟩ := Option.bind_eq_some_iff.mp hrun
    obtain ⟨s₂, hb, hrun⟩ := Option.bind_eq_some_iff.mp hrun
    obtain ⟨t₁, t₂, hb', ha', hsame⟩ := (hapart _ _ _ hs hab).swap ha hb
    obtain ⟨t', ht', h'⟩ := F.exec_congr hsame hrun
    refine ⟨t', ?_, h'⟩
    rw [exec_cons, hb', Option.bind_some, exec_cons, ha']
    exact ht'
  | @later s a as bs _ ih =>
    obtain ⟨s₁, ha, hrun⟩ := Option.bind_eq_some_iff.mp hrun
    obtain ⟨t', ht', h'⟩ := ih s₁ ha (hI s a s₁ hs ha) hrun
    refine ⟨t', ?_, h'⟩
    rw [exec_cons, ha]
    exact ht'
  | trans _ _ ih ih' =>
    obtain ⟨t₁, ht₁, h₁⟩ := ih hs hrun
    obtain ⟨t', ht', h'⟩ := ih' hs ht₁
    exact ⟨t', ht', fun l => (same l).trans (h₁ l) (h' l)⟩

end Transition
