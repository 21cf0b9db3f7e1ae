import Mathlib.Data.List.Induction
import Mathlib.Data.Option.Basic

/-!
# Runs of a transition system

A step is a partial function of the state and an action; `none` means that the
action is not enabled. A condition `P` on steps holds along a run when every
step the run takes meets it, and an invariant that steps of this kind preserve
holds at the end of the run.
-/
namespace Transition

variable {σ α : Type}

def exec (step : σ → α → Option σ) : σ → List α → Option σ
  | s, [] => some s
  | s, a :: as => (step s a).bind (fun s' => exec step s' as)

/-- Every step taken meets `P`. -/
def Along (step : σ → α → Option σ) (P : σ → α → Prop) : σ → List α → Prop
  | _, [] => True
  | s, a :: as => P s a ∧ ∀ s', step s a = some s' → Along step P s' as

variable {step : σ → α → Option σ} {P Q : σ → α → Prop}

@[simp] theorem exec_nil (s : σ) : exec step s [] = some s := rfl

theorem exec_cons (s : σ) (a : α) (as : List α) :
    exec step s (a :: as) = (step s a).bind (fun s' => exec step s' as) := rfl

theorem exec_append (s : σ) (as bs : List α) :
    exec step s (as ++ bs) = (exec step s as).bind (fun s' => exec step s' bs) := by
  induction as generalizing s with
  | nil => rfl
  | cons a as ih =>
    rw [List.cons_append, exec_cons, exec_cons]
    cases step s a with
    | none => rfl
    | some s' => exact ih s'

theorem exec_concat (s : σ) (as : List α) (a : α) :
    exec step s (as ++ [a]) = (exec step s as).bind (fun s' => step s' a) := by
  rw [exec_append]
  congr 1
  funext s'
  rw [exec_cons]
  cases step s' a <;> rfl

/-- The invariant rule for runs under a condition on steps. -/
theorem exec_invariant (I : σ → Prop) (hstep : ∀ s a s', I s → P s a → step s a = some s' → I s')
    {s s' : σ} {as : List α} (hs : I s) (hP : Along step P s as) (h : exec step s as = some s') :
    I s' := by
  induction as generalizing s with
  | nil => cases h; exact hs
  | cons a as ih =>
    obtain ⟨t, ht, h⟩ := Option.bind_eq_some_iff.mp h
    exact ih (hstep s a t hs hP.1 ht) (hP.2 t ht) h

/-- The invariant rule for a state together with the run that led to it. -/
theorem exec_history (R : List α → σ → Prop) {start s : σ} {as : List α} (hstart : R [] start)
    (hstep : ∀ as s a s', exec step start as = some s → R as s → step s a = some s' →
      R (as ++ [a]) s') (h : exec step start as = some s) : R as s := by
  induction as using List.reverseRecOn generalizing s with
  | nil => cases h; exact hstart
  | append_singleton as a ih =>
    rw [exec_concat] at h
    obtain ⟨t, ht, ha⟩ := Option.bind_eq_some_iff.mp h
    exact hstep as t a s ht (ih ht) ha

/-- The invariant rule for all runs. -/
theorem exec_preserves (I : σ → Prop) (hstep : ∀ s a s', I s → step s a = some s' → I s')
    {s s' : σ} {as : List α} (hs : I s) (h : exec step s as = some s') : I s' := by
  induction as generalizing s with
  | nil => cases h; exact hs
  | cons a as ih =>
    obtain ⟨t, ht, h⟩ := Option.bind_eq_some_iff.mp h
    exact ih (hstep s a t hs ht) h

/-- A run whose steps are all enabled under the invariant reaches its end. -/
theorem exec_total (I : σ → Prop) (hstep : ∀ s a, I s → P s a → ∃ s', step s a = some s' ∧ I s')
    {s : σ} {as : List α} (hs : I s) (hP : Along step P s as) :
    ∃ s', exec step s as = some s' ∧ I s' := by
  induction as generalizing s with
  | nil => exact ⟨s, rfl, hs⟩
  | cons a as ih =>
    obtain ⟨t, ht, hI⟩ := hstep s a hs hP.1
    rw [exec_cons, ht]
    exact ih hI (hP.2 t ht)

/-- What the steps that a run takes are charged. -/
def charges (step : σ → α → Option σ) (charge : σ → α → Nat) : σ → List α → Nat
  | _, [] => 0
  | s, a :: as => charge s a + (step s a).elim 0 fun s' => charges step charge s' as

/-- The amortised rule: where each step lowers the potential, but for what it is charged, a run is
no longer than the potential it starts with and the charges. -/
theorem exec_charged (I : σ → Prop) (potential : σ → Nat) (charge : σ → α → Nat)
    (hstep : ∀ s a s', I s → P s a → step s a = some s' → I s' ∧
      potential s' + 1 ≤ potential s + charge s a)
    {s s' : σ} {as : List α} (hs : I s) (hP : Along step P s as) (h : exec step s as = some s') :
    potential s' + as.length ≤ potential s + charges step charge s as := by
  induction as generalizing s with
  | nil =>
    cases h
    exact Nat.le_refl _
  | cons a as ih =>
    obtain ⟨t, ht, h⟩ := Option.bind_eq_some_iff.mp h
    obtain ⟨hI, hpaid⟩ := hstep s a t hs hP.1 ht
    have hrest := ih hI (hP.2 t ht) h
    rw [charges, ht, Option.elim_some, List.length_cons]
    omega

/-- What an observer has noted after a run, adding to its notes `g` at each step taken. -/
def recorded {γ : Type} (step : σ → α → Option σ) (note : γ → σ → α → γ) : γ → σ → List α → γ
  | g, _, [] => g
  | g, s, a :: as =>
    match step s a with
    | none => g
    | some s' => recorded step note (note g s a) s' as

/-- The invariant rule for a run together with its notes. -/
theorem recorded_invariant {γ : Type} {note : γ → σ → α → γ} (I : σ → γ → Prop)
    (hstep : ∀ s g a s', I s g → P s a → step s a = some s' → I s' (note g s a)) {s s' : σ} {g : γ}
    {as : List α} (hs : I s g) (hP : Along step P s as) (h : exec step s as = some s') :
    I s' (recorded step note g s as) := by
  induction as generalizing s g with
  | nil => cases h; exact hs
  | cons a as ih =>
    obtain ⟨t, ht, h⟩ := Option.bind_eq_some_iff.mp h
    simp only [recorded, ht]
    exact ih (hstep s g a t hs hP.1 ht) (hP.2 t ht) h

theorem recorded_actions {s s' : σ} {as : List α} (bs : List α) (h : exec step s as = some s') :
    recorded step (fun bs _ a => bs ++ [a]) bs s as = bs ++ as := by
  induction as generalizing s bs with
  | nil => exact (List.append_nil bs).symm
  | cons a as ih =>
    obtain ⟨t, ht, h⟩ := Option.bind_eq_some_iff.mp h
    simp only [recorded, ht]
    rw [ih _ h, List.append_assoc]
    rfl

/-- The invariant rule for a state together with the run that led to it, under a
condition on steps. -/
theorem exec_history_along (R : List α → σ → Prop) {start s : σ} {as : List α} (hstart : R [] start)
    (hstep : ∀ as s a s', R as s → P s a → step s a = some s' → R (as ++ [a]) s')
    (hP : Along step P start as) (h : exec step start as = some s) : R as s := by
  have hrun :=
    recorded_invariant (fun s as => R as s) (fun s as a s' => hstep as s a s') hstart hP h
  rwa [recorded_actions [] h] at hrun

theorem recorded_concat {γ : Type} {note : γ → σ → α → γ} {g : γ} {s s' t : σ} {as : List α} {a : α}
    (h : exec step s as = some s') (ha : step s' a = some t) :
    recorded step note g s (as ++ [a]) = note (recorded step note g s as) s' a := by
  induction as generalizing s g with
  | nil =>
    cases h
    simp only [List.nil_append, recorded, ha]
  | cons b as ih =>
    obtain ⟨s₁, hb, h⟩ := Option.bind_eq_some_iff.mp h
    simp only [List.cons_append, recorded, hb]
    exact ih h

/-- A condition holds along a run when it holds at every step that a prefix of it leads to. -/
theorem along_iff_everywhere (s : σ) (as : List α) :
    Along step P s as ↔ ∀ pre a t, pre ++ [a] <+: as → exec step s pre = some t → P t a := by
  induction as generalizing s with
  | nil => simp [Along]
  | cons b as ih =>
    constructor
    · rintro ⟨hb, hrest⟩ pre a t hpre ht
      cases pre with
      | nil =>
        cases ht
        obtain ⟨rfl, -⟩ := List.cons_prefix_cons.mp hpre
        exact hb
      | cons b' pre =>
        obtain ⟨rfl, hpre'⟩ := List.cons_prefix_cons.mp hpre
        obtain ⟨s₁, hs₁, ht⟩ := Option.bind_eq_some_iff.mp ht
        exact (ih s₁).mp (hrest s₁ hs₁) pre a t hpre' ht
    · intro h
      refine ⟨h [] b s (by simp) rfl, fun s₁ hs₁ => (ih s₁).mpr fun pre a t hpre ht => ?_⟩
      have hpre' : (b :: pre) ++ [a] <+: b :: as := List.cons_prefix_cons.mpr ⟨rfl, hpre⟩
      refine h (b :: pre) a t hpre' ?_
      rw [exec_cons, hs₁]
      exact ht

/-- Every prefix of a run is a run. -/
theorem exec_initial {s s' : σ} {pre as : List α} (hpre : pre <+: as)
    (h : exec step s as = some s') :
    ∃ t, exec step s pre = some t := by
  obtain ⟨post, rfl⟩ := hpre
  rw [exec_append] at h
  obtain ⟨t, ht, -⟩ := Option.bind_eq_some_iff.mp h
  exact ⟨t, ht⟩

/-- A run goes through, or there is a first step that is not enabled. -/
theorem exec_or_stuck (s : σ) (as : List α) : (∃ s', exec step s as = some s') ∨
    ∃ pre a t, pre ++ [a] <+: as ∧ exec step s pre = some t ∧ step t a = none := by
  induction as generalizing s with
  | nil => exact .inl ⟨s, rfl⟩
  | cons a as ih =>
    cases ht : step s a with
    | none => exact .inr ⟨[], a, s, by simp, rfl, ht⟩
    | some t =>
      obtain ⟨s', hs'⟩ | ⟨pre, b, u, hpre, hu, hstuck⟩ := ih t
      · exact .inl ⟨s', by rw [exec_cons, ht]; exact hs'⟩
      · refine .inr ⟨a :: pre, b, u, List.cons_prefix_cons.mpr ⟨rfl, hpre⟩, ?_, hstuck⟩
        rw [exec_cons, ht]
        exact hu

/-- A condition on actions alone. -/
theorem along_of_mem {s : σ} {as : List α} (h : ∀ s, ∀ a ∈ as, P s a) : Along step P s as := by
  induction as generalizing s with
  | nil => trivial
  | cons a as ih =>
    exact ⟨h s a List.mem_cons_self, fun s' _ => ih fun t b hb => h t b (List.mem_cons_of_mem a hb)⟩

/-- A condition that steps meet when they are taken. -/
theorem along_of_exec {s s' : σ} {as : List α} (hP : ∀ s, ∀ a ∈ as, ∀ t, step s a = some t → P s a)
    (h : exec step s as = some s') : Along step P s as := by
  induction as generalizing s with
  | nil => trivial
  | cons a as ih =>
    obtain ⟨t, ht, h⟩ := Option.bind_eq_some_iff.mp h
    refine ⟨hP s a List.mem_cons_self t ht, fun u hu => ?_⟩
    cases ht.symm.trans hu
    exact ih (fun s b hb => hP s b (List.mem_cons_of_mem a hb)) h

theorem along_congr (h : ∀ s a, P s a ↔ Q s a) (s : σ) (as : List α) :
    Along step P s as ↔ Along step Q s as := by
  induction as generalizing s with
  | nil => exact Iff.rfl
  | cons a as ih => exact and_congr (h s a) (forall₂_congr fun s' _ => ih s')

theorem along_mono (h : ∀ s a, P s a → Q s a) {s : σ} {as : List α} (hP : Along step P s as) :
    Along step Q s as := by
  induction as generalizing s with
  | nil => trivial
  | cons a as ih => exact ⟨h s a hP.1, fun t ht => ih (hP.2 t ht)⟩

theorem along_and {s : σ} {as : List α} (hP : Along step P s as) (hQ : Along step Q s as) :
    Along step (fun s a => P s a ∧ Q s a) s as := by
  induction as generalizing s with
  | nil => trivial
  | cons a as ih => exact ⟨⟨hP.1, hQ.1⟩, fun t ht => ih (hP.2 t ht) (hQ.2 t ht)⟩

theorem along_append (s : σ) (as bs : List α) :
    Along step P s (as ++ bs) ↔
      Along step P s as ∧ ∀ s', exec step s as = some s' → Along step P s' bs := by
  induction as generalizing s with
  | nil => simp [Along]
  | cons a as ih =>
    simp only [List.cons_append, Along, ih, exec_cons, Option.bind_eq_some_iff]
    constructor
    · rintro ⟨ha, hr⟩
      exact ⟨⟨ha, fun t ht => (hr t ht).1⟩, fun s' ⟨t, ht, hs⟩ => (hr t ht).2 s' hs⟩
    · rintro ⟨⟨ha, hr⟩, hb⟩
      exact ⟨ha, fun t ht => ⟨hr t ht, fun s' hs => hb s' ⟨t, ht, hs⟩⟩⟩

/-- Every step of one system is a run of the other. The whole run is these runs one behind the
other, and its steps meet `Q`. -/
theorem exec_refines {τ β : Type} {step' : τ → β → Option τ} {Q : τ → β → Prop}
    (acts : σ → α → List β) (abs : σ → τ) (hsim : ∀ s a s', P s a → step s a = some s' →
      exec step' (abs s) (acts s a) = some (abs s') ∧ Along step' Q (abs s) (acts s a))
    {s s' : σ} {as : List α} (hP : Along step P s as) (h : exec step s as = some s') :
    exec step' (abs s) (recorded step (fun bs t a => bs ++ acts t a) [] s as) = some (abs s') ∧
      Along step' Q (abs s) (recorded step (fun bs t a => bs ++ acts t a) [] s as) := by
  refine recorded_invariant (fun t bs => exec step' (abs s) bs = some (abs t) ∧
    Along step' Q (abs s) bs) ?_
    ⟨rfl, trivial⟩ hP h
  rintro t bs a t' ⟨hrun, hmeets⟩ ha hstep
  obtain ⟨hrun', hmeets'⟩ := hsim t a t' ha hstep
  constructor
  · rw [exec_append, hrun]
    exact hrun'
  · refine (along_append _ _ _).mpr ⟨hmeets, fun u hu => ?_⟩
    cases hrun.symm.trans hu
    exact hmeets'

instance decidableAlong [∀ s a, Decidable (P s a)] : ∀ s as, Decidable (Along step P s as)
  | _, [] => isTrue trivial
  | s, a :: as =>
    match inferInstanceAs (Decidable (P s a)), hs : step s a with
    | isFalse h, _ => isFalse fun ha => h ha.1
    | isTrue h, none => isTrue ⟨h, fun s' h' => by rw [hs] at h'; cases h'⟩
    | isTrue h, some t =>
      match decidableAlong t as with
      | isTrue ht => isTrue ⟨h, fun s' h' => by rw [hs] at h'; cases h'; exact ht⟩
      | isFalse ht => isFalse fun ha => ht (ha.2 t hs)

end Transition
