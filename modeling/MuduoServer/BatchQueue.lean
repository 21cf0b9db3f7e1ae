import Mathlib.Data.List.Basic

/-!
# Queues that are served in batches

Functors are added to a queue. The whole queue is taken as a batch, whose functors are run in order
and destroyed together at its end, so that what a functor owns lives as long as its batch. Some
functors use an object without owning it; others own it, and one of these, when it is run, gives up
the entry that keeps the object.
-/
namespace BatchQueue

structure Batches (φ : Type) where
  /-- The functors of the batch that have been run. -/
  ran : List φ
  batch : List φ
  queue : List φ

namespace Batches

variable {φ : Type}

def empty : Batches φ := ⟨[], [], []⟩

def running (b : Batches φ) : List φ := b.ran ++ b.batch

def add (b : Batches φ) (f : φ) : Batches φ := { b with queue := b.queue ++ [f] }

def swap (b : Batches φ) : Batches φ := ⟨[], b.queue, []⟩

/-- The next functor of the batch is run. -/
def take (b : Batches φ) : Batches φ :=
  match b.batch with
  | [] => b
  | f :: batch => { b with ran := b.ran ++ [f], batch := batch }

/-- The batch is destroyed. -/
def finish (b : Batches φ) : Batches φ := { b with ran := [], batch := [] }

theorem take_nil {b : Batches φ} (h : b.batch = []) : b.take = b := by
  rw [take, h]

theorem take_cons {b : Batches φ} {f : φ} {batch : List φ} (h : b.batch = f :: batch) :
    b.take = ⟨b.ran ++ [f], batch, b.queue⟩ := by
  rw [take, h]

@[simp] theorem running_take (b : Batches φ) : b.take.running = b.running := by
  cases hb : b.batch with
  | nil => rw [take_nil hb]
  | cons f batch => simp [take_cons hb, running, hb]

@[simp] theorem queue_take (b : Batches φ) : b.take.queue = b.queue := by
  cases hb : b.batch with
  | nil => rw [take_nil hb]
  | cons f batch => rw [take_cons hb]

theorem batch_take_subset (b : Batches φ) : b.take.batch ⊆ b.batch := by
  cases hb : b.batch with
  | nil => rw [take_nil hb, hb]; exact List.Subset.refl _
  | cons f batch => rw [take_cons hb]; exact List.subset_cons_self f batch

/-! ## Uses that nothing protects -/

variable (uses owns closes : φ → Bool)

/-- A functor that uses the object waits, none of those it is destroyed with owns it, and the
object's entry is given up or about to be. -/
def Exposed (closed : Prop) (b : Batches φ) : Prop :=
  (closed ∨ ∃ f ∈ b.running, closes f) ∧
    ((∃ f ∈ b.batch, uses f) ∧ (∀ f ∈ b.running, owns f = false) ∨
      (∃ f ∈ b.queue, uses f) ∧ ∀ f ∈ b.queue, owns f = false)

instance (closed : Prop) [Decidable closed] (b : Batches φ) :
    Decidable (b.Exposed uses owns closes closed) :=
  inferInstanceAs (Decidable ((_ ∨ _) ∧ (_ ∨ _)))

variable {uses owns closes} {b : Batches φ} {closed : Prop}

theorem exposed_swap (hcloses : ∀ f, closes f → owns f)
    (h : b.swap.Exposed uses owns closes closed) :
    b.Exposed uses owns closes closed := by
  obtain ⟨hclosed, ⟨huse, hown⟩ | ⟨⟨f, hf, -⟩, -⟩⟩ := h
  · refine ⟨.inl (hclosed.resolve_right ?_), .inr ⟨huse, hown⟩⟩
    rintro ⟨f, hf, hc⟩
    exact Bool.false_ne_true ((hown f hf).symm.trans (hcloses f hc))
  · exact absurd hf List.not_mem_nil

theorem exposed_take (h : b.take.Exposed uses owns closes closed) :
    b.Exposed uses owns closes closed := by
  rw [Exposed, running_take, queue_take] at h
  exact h.imp_right (Or.imp_left (And.imp_left fun ⟨f, hf, hu⟩ => ⟨f, b.batch_take_subset hf, hu⟩))

theorem exposed_finish (h : b.finish.Exposed uses owns closes closed) :
    b.Exposed uses owns closes closed := by
  obtain ⟨hclosed, ⟨⟨f, hf, -⟩, -⟩ | hqueue⟩ := h
  · exact absurd hf List.not_mem_nil
  · refine ⟨.inl (hclosed.resolve_right ?_), .inr hqueue⟩
    rintro ⟨f, hf, -⟩
    exact absurd hf List.not_mem_nil

theorem exposed_add {f : φ} (hf : uses f = false) (h : (b.add f).Exposed uses owns closes closed) :
    b.Exposed uses owns closes closed := by
  refine h.imp_right (Or.imp_right ?_)
  rintro ⟨⟨g, hg, hu⟩, hown⟩
  refine ⟨⟨g, (List.mem_append.mp hg).resolve_right fun hg' => ?_, hu⟩,
    fun g hg => hown g (List.mem_append_left _ hg)⟩
  rw [List.mem_singleton.mp hg', hf] at hu
  exact Bool.false_ne_true hu

/-- The entry is given up by a functor of the batch. -/
theorem exposed_close {f : φ} (hf : f ∈ b.running) (hc : closes f)
    (h : b.Exposed uses owns closes True) :
    b.Exposed uses owns closes closed := ⟨.inr ⟨f, hf, hc⟩, h.2⟩

/-- What protects the use of an object that is not exposed. -/
theorem not_exposed (h : ¬b.Exposed uses owns closes closed) {f : φ} (hf : f ∈ b.batch)
    (hu : uses f) :
    ¬closed ∨ ∃ g ∈ b.running, owns g := by
  by_contra hno
  obtain ⟨hclosed, hown⟩ := not_or.mp hno
  refine h ⟨.inl (not_not.mp hclosed), .inl ⟨⟨f, hf, hu⟩, fun g hg => ?_⟩⟩
  exact Bool.eq_false_iff.mpr fun howns => hown ⟨g, hg, howns⟩

end Batches
end BatchQueue
