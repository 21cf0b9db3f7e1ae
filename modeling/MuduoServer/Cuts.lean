import Mathlib.Data.List.Basic
import Mathlib.Data.List.Infix
import MuduoServer.Rewrite

/-!
# Cutting a list at a pattern

A list is cut at the leftmost occurrences of a pattern that do not overlap: a piece ends where the
pattern stands for the first time, and the next piece begins behind that occurrence. The pieces are
unique, they do not contain the pattern, and the pattern put back between them gives the list.
-/
namespace Cuts

open Rewrite (Rule sweep scan_cons scan_found)

variable {α : Type} {sep g rest s : List α} {gs : List (List α)}

/-- Behind `g` the pattern stands in `g ++ (sep ++ rest)` for the first time. -/
def FirstAt (sep g rest : List α) : Prop := ∀ k < g.length, ¬sep <+: (g ++ (sep ++ rest)).drop k

/-- The pieces of a list. -/
inductive Cut (sep : List α) : List α → List (List α) → Prop where
  | last {s : List α} : ¬sep <:+: s → Cut sep s [s]
  | next {g rest : List α} {gs : List (List α)} : FirstAt sep g rest → Cut sep rest gs →
      Cut sep (g ++ (sep ++ rest)) (g :: gs)

theorem firstAt_nil (sep rest : List α) : FirstAt sep [] rest :=
  fun k hk => absurd hk (Nat.not_lt_zero k)

theorem firstAt_cons {c : α} : FirstAt sep (c :: g) rest ↔ ¬sep <+: c :: (g ++ (sep ++ rest)) ∧
    FirstAt sep g rest := by
  constructor
  · intro h
    exact ⟨h 0 (Nat.succ_pos _), fun k hk => h (k + 1) (Nat.succ_lt_succ hk)⟩
  · rintro ⟨hhead, htail⟩ k hk
    cases k with
    | zero => exact hhead
    | succ k => exact htail k (Nat.lt_of_succ_lt_succ hk)

/-- A pattern stands somewhere, and then somewhere first, or nowhere. -/
theorem first_or_none (sep s : List α) :
    ¬sep <:+: s ∨ ∃ g rest, s = g ++ (sep ++ rest) ∧ FirstAt sep g rest := by
  induction s with
  | nil =>
    by_cases hsep : sep = []
    · subst hsep
      exact .inr ⟨[], [], rfl, firstAt_nil _ _⟩
    · exact .inl fun h => hsep (List.infix_nil.mp h)
  | cons c s ih =>
    by_cases hp : sep <+: c :: s
    · obtain ⟨rest, hrest⟩ := hp
      exact .inr ⟨[], rest, hrest.symm, firstAt_nil _ _⟩
    · rcases ih with hno | ⟨g, rest, rfl, hfirst⟩
      · exact .inl fun h => (List.infix_cons_iff.mp h).elim hp hno
      · exact .inr ⟨c :: g, rest, rfl, firstAt_cons.mpr ⟨hp, hfirst⟩⟩

theorem FirstAt.unique {g' rest' : List α} (h : FirstAt sep g rest) (h' : FirstAt sep g' rest')
    (he : g ++ (sep ++ rest) = g' ++ (sep ++ rest')) : g = g' ∧ rest = rest' := by
  have hlen : g.length = g'.length := by
    rcases Nat.lt_trichotomy g.length g'.length with hlt | heq | hlt
    · refine absurd ?_ (h' g.length hlt)
      rw [← he, List.drop_left]
      exact List.prefix_append _ _
    · exact heq
    · refine absurd ?_ (h g'.length hlt)
      rw [he, List.drop_left]
      exact List.prefix_append _ _
  obtain ⟨hg, hrest⟩ := List.append_inj he hlen
  exact ⟨hg, List.append_cancel_left hrest⟩

theorem FirstAt.avoids (hsep : sep ≠ []) (h : FirstAt sep g rest) : ¬sep <:+: g := by
  rintro ⟨xs, ys, rfl⟩
  have hlt : xs.length < (xs ++ sep ++ ys).length := by
    have := List.length_pos_iff.mpr hsep
    simp only [List.length_append]
    omega
  refine h xs.length hlt ?_
  rw [List.append_assoc, List.append_assoc, List.drop_left]
  exact List.prefix_append _ _

/-- A pattern whose first letter does not occur earlier. -/
theorem firstAt_of_not_mem {c : α} {tail : List α} (hc : c ∉ g) : FirstAt (c :: tail) g rest := by
  induction g with
  | nil => exact firstAt_nil _ _
  | cons d g ih =>
    refine firstAt_cons.mpr ⟨fun hp => hc ?_, ih fun hin => hc (List.mem_cons_of_mem d hin)⟩
    rw [(List.cons_prefix_cons.mp hp).1]
    exact List.mem_cons_self

theorem not_infix_of_not_mem {c : α} {tail : List α} (hc : c ∉ s) : ¬c :: tail <:+: s :=
  fun h => hc (h.subset List.mem_cons_self)

/-! ## The pieces -/

theorem exists_cut (hsep : sep ≠ []) (s : List α) : ∃ gs, Cut sep s gs := by
  induction hn : s.length using Nat.strong_induction_on generalizing s with
  | _ n ih =>
    rcases first_or_none sep s with hno | ⟨g, rest, rfl, hfirst⟩
    · exact ⟨[s], .last hno⟩
    · have hshort : rest.length < n := by
        have := List.length_pos_iff.mpr hsep
        simp only [← hn, List.length_append]
        omega
      obtain ⟨gs, hgs⟩ := ih rest.length hshort rest rfl
      exact ⟨g :: gs, .next hfirst hgs⟩

theorem Cut.ne_nil (h : Cut sep s gs) : gs ≠ [] := by
  cases h <;> simp

theorem Cut.unique {gs' : List (List α)} (h : Cut sep s gs) (h' : Cut sep s gs') : gs = gs' := by
  induction h generalizing gs' with
  | last hno =>
    cases h' with
    | last => rfl
    | next => exact absurd (List.infix_append' _ _ _) hno
  | @next g rest gs hfirst hrest ih =>
    generalize hs : g ++ (sep ++ rest) = s at h'
    cases h' with
    | last hno => exact absurd (hs ▸ List.infix_append' _ _ _) hno
    | @next g' rest' gs' hfirst' hrest' =>
      obtain ⟨rfl, rfl⟩ := hfirst.unique hfirst' hs
      rw [ih hrest']

theorem cut_nil (hsep : sep ≠ []) (h : Cut sep [] gs) : gs = [[]] :=
  h.unique (.last fun hin => hsep (List.infix_nil.mp hin))

/-- The pattern between the pieces gives the list. -/
theorem Cut.intercalate (h : Cut sep s gs) : sep.intercalate gs = s := by
  induction h with
  | last _ => exact List.intercalate_singleton
  | next _ hrest ih => rw [List.intercalate_cons_of_ne_nil hrest.ne_nil, ih, List.append_assoc]

theorem Cut.avoids (hsep : sep ≠ []) (h : Cut sep s gs) : ∀ p ∈ gs, ¬sep <:+: p := by
  induction h with
  | last hno => simpa using hno
  | next hfirst _ ih =>
    intro p hp
    rcases List.mem_cons.mp hp with rfl | hp
    · exact hfirst.avoids hsep
    · exact ih p hp

variable [DecidableEq α]

/-- Cutting at a letter. -/
theorem cut_splitOn (c : α) (s : List α) : Cut [c] s (s.splitOn c) := by
  induction hn : s.length using Nat.strong_induction_on generalizing s with
  | _ n ih =>
    by_cases hc : c ∈ s
    · obtain ⟨g, rest, rfl, hg⟩ := List.eq_append_cons_of_mem hc
      have hshort : rest.length < n := by
        simp only [← hn, List.length_append, List.length_cons]
        omega
      rw [List.splitOn_append_cons_self_of_not_mem hg]
      exact .next (firstAt_of_not_mem hg) (ih rest.length hshort rest rfl)
    · rw [List.splitOn_eq_singleton hc]
      exact .last (not_infix_of_not_mem hc)

/-! ## Sweeps -/

variable {q : Rule α}

/-- A sweep replaces the first occurrence of a pattern and goes on behind it. -/
theorem sweep_first (hq : q.old ≠ []) (h : FirstAt q.old g rest) :
    sweep [q] (g ++ (q.old ++ rest)) = g ++ (q.new ++ sweep [q] rest) := by
  induction g with
  | nil =>
    have hf : [q].find? (fun r => r.old.isPrefixOf (q.old ++ rest)) = some q := by simp
    simp [sweep, scan_found hf hq]
  | cons c g ih =>
    obtain ⟨hhead, htail⟩ := firstAt_cons.mp h
    have hf : [q].find? (fun r => r.old.isPrefixOf (c :: (g ++ (q.old ++ rest)))) = none := by
      simp [hhead]
    have hcons : sweep [q] (c :: (g ++ (q.old ++ rest))) = c ::
        sweep [q] (g ++ (q.old ++ rest)) := by
      simp [sweep, scan_cons, hf]
    rw [List.cons_append, hcons, ih htail, List.cons_append]

theorem sweep_none (h : ¬q.old <:+: s) : sweep [q] s = s := by
  induction s with
  | nil => rfl
  | cons c s ih =>
    have hf : [q].find? (fun r => r.old.isPrefixOf (c :: s)) = none := by
      simpa using fun hp : q.old <+: c :: s => h hp.isInfix
    have hcons : sweep [q] (c :: s) = c :: sweep [q] s := by simp [sweep, scan_cons, hf]
    rw [hcons, ih fun hin => h (List.infix_cons hin)]

/-- The pieces put together are the list without the occurrences. -/
theorem Cut.flatten (hsep : sep ≠ []) (h : Cut sep s gs) : gs.flatten = sweep [⟨sep, []⟩] s := by
  induction h with
  | last hno => simp [sweep_none (q := ⟨sep, []⟩) hno]
  | next hfirst _ ih =>
    rw [List.flatten_cons, ih]
    exact (sweep_first (q := ⟨sep, []⟩) hsep hfirst).symm

end Cuts
