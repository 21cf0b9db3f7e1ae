import MuduoServer.Resumable

/-!
# A resumable parser on its way through a stream

Between two calls a parser has read some items of the bytes that have arrived and
keeps a state and the bytes it has not used. Whatever arrives next, it goes on as
one drain of the whole stream would.
-/
namespace Resumable

variable {σ β ω : Type} {P : Parser σ β ω} {t u : List β} {os : List ω} {s : σ}

/-- Of the bytes `t` the items `os` have been read; the state is `s` and `u` is unread. -/
def Trail (P : Parser σ β ω) (t : List β) (os : List ω) (s : σ) (u : List β) : Prop :=
  ∀ v os' e, Drains P s (u ++ v) os' e → Drains P P.start (t ++ v) (os ++ os') e

theorem trail_start (P : Parser σ β ω) : Trail P [] [] P.start [] := fun _ _ _ h => h

theorem Trail.arrive (h : Trail P t os s u) (v : List β) : Trail P (t ++ v) os s (u ++ v) := by
  intro w os' e hd
  rw [List.append_assoc] at hd ⊢
  exact h (v ++ w) os' e hd

/-- A call that finishes no item. -/
theorem Trail.more (hP : Lawful P) (h : Trail P t os s u) (hu : u ≠ []) {s' : σ} {r : List β}
    (hs : P.step s u = .more s' r) : Trail P t os s' r := by
  intro v os' e hd
  have hcall : Drains P s u [] (some (s', r)) := .more hu hs
  exact h v os' e (hcall.append hP hd)

/-- A call that finishes an item; the parser starts again. -/
theorem Trail.done (hP : Lawful P) (h : Trail P t os s u) (hu : u ≠ []) {o : ω} {r : List β}
    (hs : P.step s u = .done o r) : Trail P t (os ++ [o]) P.start r := by
  intro v os' e hd
  have hcall : Drains P s (u ++ v) (o :: os') e :=
    .done (by simp [hu]) (hP.done_append s u v o r hs) hd
  rw [List.append_assoc]
  exact h v (o :: os') e hcall

/-- At rest the parser has read all that the bytes so far complete. -/
theorem Trail.rest (h : Trail P t os s u) (hr : Resting P s u) :
    Drains P P.start t os (some (s, u)) := by
  have hstay : Drains P s u [] (some (s, u)) := by
    by_cases hu : u = []
    · subst hu
      exact .idle s
    · exact .more hu (hr.resolve_left hu)
  have hall := h [] [] (some (s, u)) (by rwa [List.append_nil])
  rwa [List.append_nil, List.append_nil] at hall

/-- On its way through a stream the parser has read the first items of the stream, and the others
are still to come. -/
theorem Trail.within (h : Trail P t os s u) {w : List β} {all : List ω} {e : Option (σ × List β)}
    (hall : Drains P P.start (t ++ w) all e) (htotal : ∃ os' e', Drains P s (u ++ w) os' e') :
    ∃ rest, all = os ++ rest ∧ Drains P s (u ++ w) rest e := by
  obtain ⟨rest, e', hd⟩ := htotal
  obtain ⟨rfl, rfl⟩ := hall.det (h w rest e' hd)
  exact ⟨rest, rfl, hd⟩

/-- A call on the way through a stream that ends well does not fail. -/
theorem Drains.not_failed (hP : Lawful P) {w : List β} {rest : List ω} {e : σ × List β}
    (hd : Drains P s (u ++ w) rest (some e)) (hu : u ≠ []) : P.step s u ≠ .failed := by
  intro hs
  have hcall : Drains P s u [] none := .failed hu hs
  cases (hd.det (hcall.append_failed hP w)).2

/-- What a call finishes comes first in the drain of a longer input. -/
theorem Drains.first (hP : Lawful P) {w : List β} {items : List ω} {e : Option (σ × List β)}
    (hd : Drains P s (u ++ w) items e) {o : ω} {r : List β} (hs : P.step s u = .done o r) :
    u ++ w ≠ [] → ∃ os, items = o :: os := by
  intro hne
  have hdone := hP.done_append s u w o r hs
  generalize u ++ w = x at hd hdone hne
  cases hd with
  | idle => exact absurd rfl hne
  | more _ hmore => cases hdone.symm.trans hmore
  | failed _ hfailed => cases hdone.symm.trans hfailed
  | done _ hdone' _ =>
    cases hdone.symm.trans hdone'
    exact ⟨_, rfl⟩

end Resumable
