import Mathlib.Data.Set.Insert

/-!
# Registers with delayed removal

A register lists the objects in use. An object is created, then entered. When it is given up, it is
removed at once or its removal is asked for through a queue, and either may happen more than once.
-/
namespace Registry

variable {κ : Type}

structure Register (κ : Type) where
  created : Set κ
  /-- Created and still to be entered. -/
  entering : List κ
  listed : Set κ
  released : Set κ
  /-- The removals that are asked for, the next one first. -/
  removals : List κ

inductive Event (κ : Type) where
  | create (x : κ)
  | enter (x : κ)
  /-- `x` is given up and its removal asked for. -/
  | request (x : κ)
  /-- `x` is given up and removed at once. -/
  | retract (x : κ)
  /-- The next removal that is asked for. -/
  | remove (x : κ)
  | idle

namespace Register

def step (r : Register κ) : Event κ → Register κ
  | .create x => { r with created := insert x r.created, entering := x :: r.entering }
  | .enter x => { r with entering := r.entering.tail, listed := insert x r.listed }
  | .request x => { r with released := insert x r.released, removals := r.removals ++ [x] }
  | .retract x => { r with released := insert x r.released, listed := r.listed \ {x} }
  | .remove x => { r with listed := r.listed \ {x}, removals := r.removals.tail }
  | .idle => r

/-- No object is removed before it is entered. -/
def Enabled (r : Register κ) : Event κ → Prop
  | .create x => x ∉ r.created
  | .enter x => r.entering.head? = some x
  | .request x => x ∈ r.created
  | .retract x => x ∈ r.created ∧ x ∉ r.entering
  | .remove x => r.removals.head? = some x ∧ x ∉ r.entering
  | .idle => True

structure Agrees (r : Register κ) : Prop where
  nodup : r.entering.Nodup
  entering : ∀ x ∈ r.entering, x ∈ r.created
  listed : ∀ x ∈ r.listed, x ∈ r.created ∧ x ∉ r.entering
  released : ∀ x ∈ r.released, x ∈ r.created
  removals : ∀ x ∈ r.removals, x ∈ r.released
  /-- What is entered and not given up is listed. -/
  kept : ∀ x ∈ r.created, x ∉ r.entering → x ∉ r.released → x ∈ r.listed
  /-- What is given up and listed, or still to be listed, will be removed. -/
  asked : ∀ x ∈ r.released, x ∈ r.listed ∨ x ∈ r.entering → x ∈ r.removals

def empty : Register κ := ⟨∅, [], ∅, ∅, []⟩

theorem agrees_empty : Agrees (empty : Register κ) := by
  constructor <;> simp [empty]

theorem Agrees.step {r : Register κ} (h : Agrees r) {e : Event κ} (he : r.Enabled e) :
    Agrees (r.step e) := by
  cases e with
  | create x =>
    have hnew : ∀ y ∈ r.created, y ≠ x := fun y hy hyx => he (hyx ▸ hy)
    exact {
      nodup := List.nodup_cons.mpr ⟨fun hin => he (h.entering x hin), h.nodup⟩
      entering := List.forall_mem_cons.mpr ⟨.inl rfl, fun y hy => .inr (h.entering y hy)⟩
      listed := fun y hy => ⟨.inr (h.listed y hy).1,
        List.not_mem_cons_of_ne_of_not_mem (hnew y (h.listed y hy).1) (h.listed y hy).2⟩
      released := fun y hy => .inr (h.released y hy)
      removals := h.removals
      kept := fun y hy hin hrel => by
        obtain ⟨hyx, hin⟩ := List.ne_and_not_mem_of_not_mem_cons hin
        exact h.kept y (hy.resolve_left hyx) hin hrel
      asked := fun y hrel hy => by
        refine h.asked y hrel (hy.imp_right fun hin => ?_)
        exact (List.mem_cons.mp hin).resolve_left (hnew y (h.released y hrel)) }
  | enter x =>
    obtain ⟨rest, hrest⟩ := List.head?_eq_some_iff.mp he
    have hmem : ∀ y, y ∈ r.entering ↔ y = x ∨ y ∈ rest := fun y => by rw [hrest, List.mem_cons]
    have hnodup := h.nodup
    rw [hrest, List.nodup_cons] at hnodup
    have htail : (r.step (.enter x)).entering = rest := by rw [Register.step, hrest, List.tail_cons]
    exact {
      nodup := htail ▸ hnodup.2
      entering := fun y hy => h.entering y ((hmem y).mpr (.inr (htail ▸ hy)))
      listed := fun y hy => by
        rw [htail]
        rcases hy with rfl | hy
        · exact ⟨h.entering y ((hmem y).mpr (.inl rfl)), hnodup.1⟩
        · exact ⟨(h.listed y hy).1, fun hin => (h.listed y hy).2 ((hmem y).mpr (.inr hin))⟩
      released := h.released
      removals := h.removals
      kept := fun y hy hin hrel => by
        by_cases hyx : y = x
        · exact .inl hyx
        · rw [htail] at hin
          exact .inr (h.kept y hy (fun hin' => ((hmem y).mp hin').elim hyx hin) hrel)
      asked := fun y hrel hy => by
        rw [htail] at hy
        rcases hy with (rfl | hy) | hy
        · exact h.asked y hrel (.inr ((hmem y).mpr (.inl rfl)))
        · exact h.asked y hrel (.inl hy)
        · exact h.asked y hrel (.inr ((hmem y).mpr (.inr hy))) }
  | request x =>
    exact {
      nodup := h.nodup
      entering := h.entering
      listed := h.listed
      released := fun y hy => hy.elim (fun hyx => hyx ▸ he) (h.released y)
      removals := fun y hy => (List.mem_append.mp hy).elim (fun hin => .inr (h.removals y hin))
        (fun hin => .inl (List.mem_singleton.mp hin))
      kept := fun y hy hin hrel => h.kept y hy hin fun hrel' => hrel (.inr hrel')
      asked :=
        fun y hrel hy => List.mem_append.mpr
          (hrel.elim (fun hyx => .inr (List.mem_singleton.mpr hyx))
        (fun hrel => .inl (h.asked y hrel hy))) }
  | retract x =>
    exact {
      nodup := h.nodup
      entering := h.entering
      listed := fun y hy => h.listed y hy.1
      released := fun y hy => hy.elim (fun hyx => hyx ▸ he.1) (h.released y)
      removals := fun y hy => .inr (h.removals y hy)
      kept := fun y hy hin hrel =>
        ⟨h.kept y hy hin fun hrel' => hrel (.inr hrel'), fun hyx => hrel (.inl hyx)⟩
      asked := fun y hrel hy => by
        have hyx : y ≠ x := hy.elim (fun hy => hy.2) (fun hin hyx => he.2 (hyx ▸ hin))
        exact h.asked y (hrel.resolve_left hyx) (hy.imp_left fun hy => hy.1) }
  | remove x =>
    obtain ⟨hhead, hnot⟩ := he
    obtain ⟨rest, hrest⟩ := List.head?_eq_some_iff.mp hhead
    have htail : (r.step (.remove x)).removals = rest := by
      rw [Register.step, hrest, List.tail_cons]
    have hreleased : x ∈ r.released := h.removals x (hrest ▸ List.mem_cons_self)
    exact {
      nodup := h.nodup
      entering := h.entering
      listed := fun y hy => h.listed y hy.1
      released := h.released
      removals := fun y hy => h.removals y (hrest ▸ List.mem_cons_of_mem x (htail ▸ hy))
      kept := fun y hy hin hrel => ⟨h.kept y hy hin hrel, fun hyx => hrel (hyx ▸ hreleased)⟩
      asked := fun y hrel hy => by
        have hyx : y ≠ x := hy.elim (fun hy => hy.2) (fun hin hyx => hnot (hyx ▸ hin))
        have hin := h.asked y hrel (hy.imp_left fun hy => hy.1)
        rw [hrest] at hin
        rw [htail]
        exact (List.mem_cons.mp hin).resolve_left hyx }
  | idle => exact h

/-- When nothing is half done the register lists what is created and not given up. -/
theorem Agrees.listed_iff {r : Register κ} (h : Agrees r) (hentering : r.entering = [])
    (hremovals : r.removals = []) (x : κ) : x ∈ r.listed ↔ x ∈ r.created ∧ x ∉ r.released := by
  constructor
  · intro hx
    refine ⟨(h.listed x hx).1, fun hrel => ?_⟩
    have hask := h.asked x hrel (.inl hx)
    rw [hremovals] at hask
    exact List.not_mem_nil hask
  · rintro ⟨hcreated, hnot⟩
    exact h.kept x hcreated (hentering ▸ List.not_mem_nil) hnot

end Register
end Registry
