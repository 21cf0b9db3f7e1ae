import Mathlib.Data.List.Basic

/-!
# Backtracking regular expressions

The ordered matcher of ECMAScript: an expression yields its parses of a prefix
in the order backtracking visits them, and a whole-string match is the first
parse that leaves nothing over. Groups are recorded as they close.
-/
namespace EcmaRegex

variable {α γ : Type}

inductive Regex (α : Type) where
  | empty : Regex α
  | char (p : α → Bool) : Regex α
  | seq (r t : Regex α) : Regex α
  | alt (r t : Regex α) : Regex α
  | star (greedy : Bool) (r : Regex α) : Regex α
  | group (n : Nat) (r : Regex α) : Regex α

namespace Regex

def plus (greedy : Bool) (r : Regex α) : Regex α := .seq r (.star greedy r)

/-- `(?:r)?`, which prefers to match `r`. -/
def opt (r : Regex α) : Regex α := .alt r .empty

/-- A sequence of single characters. -/
def word : List (α → Bool) → Regex α
  | [] => .empty
  | p :: ps => .seq (.char p) (word ps)

end Regex

/-- One way to match a prefix: the text consumed, the groups closed, the rest. -/
structure Match (α : Type) where
  text : List α
  groups : List (Nat × List α)
  rest : List α

def Match.andThen (m n : Match α) : Match α := ⟨m.text ++ n.text, m.groups ++ n.groups, n.rest⟩

def Match.close (i : Nat) (m : Match α) : Match α :=
  ⟨m.text, m.groups ++ [(i, m.text)], m.rest⟩

/-- Iterations of `f`; an iteration that consumes nothing is refused. -/
def iterate (f : List α → List (Match α)) (greedy : Bool) : Nat → List α → List (Match α)
  | 0, s => [⟨[], [], s⟩]
  | n + 1, s =>
    let again := ((f s).filter (fun m => !m.text.isEmpty)).flatMap
      (fun m => (iterate f greedy n m.rest).map m.andThen)
    if greedy then again ++ [⟨[], [], s⟩] else ⟨[], [], s⟩ :: again

/-- All parses of prefixes of `s`, in backtracking order. -/
def parses : Regex α → List α → List (Match α)
  | .empty, s => [⟨[], [], s⟩]
  | .char _, [] => []
  | .char p, c :: cs => if p c then [⟨[c], [], cs⟩] else []
  | .seq r t, s => (parses r s).flatMap (fun m => (parses t m.rest).map m.andThen)
  | .alt r t, s => parses r s ++ parses t s
  | .star greedy r, s => iterate (parses r) greedy s.length s
  | .group n r, s => (parses r s).map (Match.close n)

/-- The first parse the continuation accepts. -/
def first (r : Regex α) (s : List α) (k : Match α → Option γ) : Option γ := (parses r s).findSome? k

/-- Accept only at the end of the input. -/
def atEnd (m : Match α) : Option (List (Nat × List α)) :=
  if m.rest.isEmpty then some m.groups else none

/-- `regex_match`: the groups of the first parse of the whole string. -/
def regexMatch (r : Regex α) (s : List α) : Option (List (Nat × List α)) := first r s atEnd

/-- The last text group `n` matched, empty when it took no part. -/
def sub (groups : List (Nat × List α)) (n : Nat) : List α := (groups.reverse.lookup n).getD []

/-! ## Matching with a continuation -/

@[simp] theorem first_empty (s : List α) (k : Match α → Option γ) :
    first .empty s k = k ⟨[], [], s⟩ := by
  simp [first, parses]

@[simp] theorem first_char_nil (p : α → Bool) (k : Match α → Option γ) :
    first (.char p) [] k = none := rfl

@[simp] theorem first_char_cons (p : α → Bool) (c : α) (cs : List α) (k : Match α → Option γ) :
    first (.char p) (c :: cs) k = if p c then k ⟨[c], [], cs⟩ else none := by
  by_cases h : p c <;> simp [first, parses, h]

@[simp] theorem first_seq (r t : Regex α) (s : List α) (k : Match α → Option γ) :
    first (.seq r t) s k = first r s (fun m => first t m.rest (fun n => k (m.andThen n))) := by
  simp only [first, parses]
  induction parses r s with
  | nil => rfl
  | cons m ms ih =>
    rw [List.flatMap_cons, List.findSome?_append, ih, List.findSome?_cons, List.findSome?_map]
    change (List.findSome? (fun n => k (m.andThen n)) (parses t m.rest)).or _ = _
    cases List.findSome? (fun n => k (m.andThen n)) (parses t m.rest) <;> rfl

@[simp] theorem first_alt (r t : Regex α) (s : List α) (k : Match α → Option γ) :
    first (.alt r t) s k = (first r s k).or (first t s k) := by
  simp only [first, parses, List.findSome?_append]

@[simp] theorem first_group (n : Nat) (r : Regex α) (s : List α) (k : Match α → Option γ) :
    first (.group n r) s k = first r s (fun m => k (m.close n)) := by
  simp only [first, parses, List.findSome?_map]
  rfl

@[simp] theorem first_opt (r : Regex α) (s : List α) (k : Match α → Option γ) :
    first (.opt r) s k = (first r s k).or (k ⟨[], [], s⟩) := by
  simp [Regex.opt]

@[simp] theorem first_plus (g : Bool) (r : Regex α) (s : List α) (k : Match α → Option γ) :
    first (.plus g r) s k = first r s
    (fun m => first (.star g r) m.rest (fun n => k (m.andThen n))) :=
  first_seq r (.star g r) s k

@[simp] theorem first_star_char_nil (g : Bool) (p : α → Bool) (k : Match α → Option γ) :
    first (.star g (.char p)) [] k = k ⟨[], [], []⟩ := by
  simp [first, parses, iterate]

/-- A starred class tries one more character before it stops, or after. -/
theorem first_star_char_cons (g : Bool) (p : α → Bool) (c : α) (cs : List α)
    (k : Match α → Option γ) :
    first (.star g (.char p)) (c :: cs) k =
      if p c then
        let again := first (.star g (.char p)) cs (fun m => k ⟨c :: m.text, m.groups, m.rest⟩)
        if g then again.or (k ⟨[], [], c :: cs⟩) else (k ⟨[], [], c :: cs⟩).or again
      else k ⟨[], [], c :: cs⟩ := by
  by_cases h : p c
  · have ha : (List.map (Match.andThen ⟨[c], [], cs⟩) (iterate (parses (.char p)) g cs.length cs)).findSome? k =
        first (.star g (.char p)) cs (fun m => k ⟨c :: m.text, m.groups, m.rest⟩) := by
      simp only [first, parses, List.findSome?_map]
      rfl
    cases g
    · simp only [first, parses, List.length_cons, iterate, h, if_true, List.isEmpty_cons,
        Bool.not_false, List.filter_cons_of_pos, List.filter_nil, List.flatMap_cons,
          List.flatMap_nil,
        List.append_nil, Bool.false_eq_true, if_false]
      rw [List.findSome?_cons]
      cases k ⟨[], [], c :: cs⟩ with
      | none => simpa [first, parses] using ha
      | some y => rfl
    · simp only [first, parses, List.length_cons, iterate, h, if_true, List.isEmpty_cons,
        Bool.not_false, List.filter_cons_of_pos, List.filter_nil, List.flatMap_cons,
          List.flatMap_nil,
        List.append_nil]
      rw [List.findSome?_append, ha]
      simp [first, parses]
  · cases g <;> simp [first, parses, iterate, h]

/-- A greedy class takes the longest run when the continuation accepts it. -/
theorem first_greedy_run (p : α → Bool) (run tail : List α) (k : Match α → Option γ) (y : γ)
    (hrun : ∀ c ∈ run, p c) (htail : ∀ c ∈ tail.head?, p c = false)
    (hk : k ⟨run, [], tail⟩ = some y) :
    first (.star true (.char p)) (run ++ tail) k = some y := by
  induction run generalizing k with
  | nil =>
    cases tail with
    | nil => simpa using hk
    | cons c cs =>
      have hc : p c = false := htail c rfl
      simpa [first_star_char_cons, hc] using hk
  | cons c run ih =>
    have hc : p c := hrun c (by simp)
    have hr : ∀ d ∈ run, p d := fun d hd => hrun d (by simp [hd])
    rw [List.cons_append, first_star_char_cons]
    simp only [hc, if_true]
    have hgoal := ih (fun m => k ⟨c :: m.text, m.groups, m.rest⟩) hr hk
    simp [hgoal]

/-- A lazy class takes the shortest prefix the continuation accepts. -/
theorem first_lazy_run (p : α → Bool) (w tail : List α) (k : Match α → Option γ) (y : γ)
    (hw : ∀ c ∈ w, p c)
    (hshort : ∀ u v, w = u ++ v → v ≠ [] → k ⟨u, [], v ++ tail⟩ = none)
    (hk : k ⟨w, [], tail⟩ = some y) :
    first (.star false (.char p)) (w ++ tail) k = some y := by
  induction w generalizing k with
  | nil =>
    cases tail with
    | nil => simpa using hk
    | cons c cs =>
      rw [List.nil_append, first_star_char_cons]
      by_cases hc : p c <;> simp [hc, hk]
  | cons c w ih =>
    have hc : p c := hw c (by simp)
    have hstop : k ⟨[], [], c :: (w ++ tail)⟩ = none := hshort [] (c :: w) rfl (by simp)
    rw [List.cons_append, first_star_char_cons]
    simp only [hc, if_true, hstop, Option.none_or, Bool.false_eq_true, if_false]
    apply ih (fun m => k ⟨c :: m.text, m.groups, m.rest⟩) (fun d hd => hw d (by simp [hd]))
    · intro u v he hv
      exact hshort (c :: u) v (by simp [he]) hv
    · exact hk

/-! ## What a match can be -/

/-- The characters and the groups of an expression keep to `I`. -/
def Admits (I : Match α → Prop) : Regex α → Prop
  | .empty => True
  | .char p => ∀ c s, p c → I ⟨[c], [], s⟩
  | .seq r t | .alt r t => Admits I r ∧ Admits I t
  | .star _ r => Admits I r
  | .group n r => (∀ s, ∀ m ∈ parses r s, I m → I (m.close n)) ∧ Admits I r

theorem admits_word {I : Match α → Prop} (ps : List (α → Bool))
    (h : ∀ p ∈ ps, ∀ c s, p c → I ⟨[c], [], s⟩) :
    Admits I (.word ps) := by
  induction ps with
  | nil => exact trivial
  | cons p ps ih => exact ⟨h p List.mem_cons_self, ih fun q hq => h q (List.mem_cons_of_mem _ hq)⟩

section Induction

variable {I : Match α → Prop} (hempty : ∀ s, I ⟨[], [], s⟩)
    (hthen : ∀ m n, I m → I n → I (m.andThen n))

include hempty hthen

theorem iterate_induction {f : List α → List (Match α)} {greedy : Bool} (hf : ∀ s, ∀ m ∈ f s, I m)
    (fuel : Nat) (s : List α) : ∀ m ∈ iterate f greedy fuel s, I m := by
  induction fuel generalizing s with
  | zero =>
    intro m hm
    rw [List.mem_singleton.mp hm]
    exact hempty s
  | succ fuel ih =>
    have hagain : ∀ m ∈ ((f s).filter (fun m => !m.text.isEmpty)).flatMap
        (fun m => (iterate f greedy fuel m.rest).map m.andThen), I m := by
      intro m hm
      obtain ⟨m₁, hm₁, hm⟩ := List.mem_flatMap.mp hm
      obtain ⟨m₂, hm₂, rfl⟩ := List.mem_map.mp hm
      exact hthen m₁ m₂ (hf s m₁ (List.mem_filter.mp hm₁).1) (ih _ m₂ hm₂)
    intro m hm
    cases greedy with
    | true =>
      rcases List.mem_append.mp hm with hm | hm
      · exact hagain m hm
      · rw [List.mem_singleton.mp hm]
        exact hempty s
    | false =>
      rcases List.mem_cons.mp hm with rfl | hm
      · exact hempty s
      · exact hagain m hm

/-- What holds of nothing, of the characters and of the groups, and of one match behind another,
holds of every match. -/
theorem parses_induction {r : Regex α} (h : Admits I r) (s : List α) : ∀ m ∈ parses r s, I m := by
  induction r generalizing s with
  | empty =>
    intro m hm
    rw [List.mem_singleton.mp hm]
    exact hempty s
  | char p =>
    cases s with
    | nil => exact fun m hm => absurd hm List.not_mem_nil
    | cons d s =>
      intro m hm
      by_cases hd : p d
      · rw [parses, if_pos hd] at hm
        rw [List.mem_singleton.mp hm]
        exact h d s hd
      · rw [parses, if_neg hd] at hm
        exact absurd hm List.not_mem_nil
  | seq r t ihr iht =>
    intro m hm
    obtain ⟨m₁, hm₁, hm⟩ := List.mem_flatMap.mp hm
    obtain ⟨m₂, hm₂, rfl⟩ := List.mem_map.mp hm
    exact hthen m₁ m₂ (ihr h.1 s m₁ hm₁) (iht h.2 _ m₂ hm₂)
  | alt r t ihr iht =>
    intro m hm
    exact (List.mem_append.mp hm).elim (ihr h.1 s m) (iht h.2 s m)
  | star greedy r ih => exact iterate_induction hempty hthen (ih h) s.length s
  | group n r ih =>
    intro m hm
    obtain ⟨m₁, hm₁, rfl⟩ := List.mem_map.mp hm
    exact h.1 s m₁ hm₁ (ih h.2 s m₁ hm₁)

end Induction

/-- What all groups of an expression have in common holds of the groups of a match. -/
theorem sub_regexMatch {P : Nat → List α → Prop} {r : Regex α}
    (h : Admits (fun m => ∀ g ∈ m.groups, P g.1 g.2) r) {s : List α} {groups : List (Nat × List α)}
    (hmatch : regexMatch r s = some groups) (n : Nat) : sub groups n = [] ∨ P n (sub groups n) := by
  obtain ⟨m, hm, hend⟩ := List.exists_of_findSome?_eq_some hmatch
  have hall : ∀ g ∈ m.groups, P g.1 g.2 :=
    parses_induction (fun _ _ hg => absurd hg List.not_mem_nil)
      (fun m n hm hn g hg => (List.mem_append.mp hg).elim (hm g) (hn g)) h s m hm
  have hgroups : groups = m.groups := by
    unfold atEnd at hend
    split at hend
    · exact (Option.some.inj hend).symm
    · cases hend
  unfold sub
  cases hlookup : groups.reverse.lookup n with
  | none => exact .inl rfl
  | some w =>
    obtain ⟨l, l', he, -⟩ := List.lookup_eq_some_iff.mp hlookup
    have hin : (n, w) ∈ groups :=
      List.mem_reverse.mp (he ▸ List.mem_append_right _ List.mem_cons_self)
    exact .inr (hall (n, w) (hgroups ▸ hin))

/-! ## The language of an expression -/

/-- The texts an expression can consume. -/
def Lang : Regex α → List α → Prop
  | .empty, w => w = []
  | .char p, w => ∃ c, p c ∧ w = [c]
  | .seq r t, w => ∃ u v, w = u ++ v ∧ Lang r u ∧ Lang t v
  | .alt r t, w => Lang r w ∨ Lang t w
  | .star _ r, w => ∃ us : List (List α), w = us.flatten ∧ ∀ u ∈ us, Lang r u
  | .group _ r, w => Lang r w

theorem iterate_lang {r : Regex α} {greedy : Bool}
    (hr : ∀ s, ∀ m ∈ parses r s, s = m.text ++ m.rest ∧ Lang r m.text) (fuel : Nat) (s : List α) :
    ∀ m ∈ iterate (parses r) greedy fuel s, s = m.text ++ m.rest ∧
    Lang (.star greedy r) m.text := by
  have hstop : ∀ s : List α, s = [] ++ s ∧ Lang (.star greedy r) [] :=
    fun s => ⟨rfl, [], rfl, by simp⟩
  induction fuel generalizing s with
  | zero =>
    intro m hm
    rw [List.mem_singleton.mp hm]
    exact hstop s
  | succ fuel ih =>
    have hagain : ∀ m ∈ ((parses r s).filter (fun m => !m.text.isEmpty)).flatMap
        (fun m => (iterate (parses r) greedy fuel m.rest).map m.andThen),
        s = m.text ++ m.rest ∧ Lang (.star greedy r) m.text := by
      intro m hm
      obtain ⟨m₁, hm₁, hm⟩ := List.mem_flatMap.mp hm
      obtain ⟨m₂, hm₂, rfl⟩ := List.mem_map.mp hm
      obtain ⟨hs, hlang⟩ := hr s m₁ (List.mem_filter.mp hm₁).1
      obtain ⟨hs', us, hus, hall⟩ := ih m₁.rest m₂ hm₂
      refine ⟨?_, m₁.text :: us, ?_, List.forall_mem_cons.mpr ⟨hlang, hall⟩⟩
      · rw [hs, hs', Match.andThen, List.append_assoc]
      · rw [List.flatten_cons, ← hus]
        rfl
    intro m hm
    cases greedy with
    | true =>
      rcases List.mem_append.mp hm with hm | hm
      · exact hagain m hm
      · rw [List.mem_singleton.mp hm]
        exact hstop s
    | false =>
      rcases List.mem_cons.mp hm with rfl | hm
      · exact hstop s
      · exact hagain m hm

/-- Every parse splits its input into a text of the language and the rest. -/
theorem parses_lang (r : Regex α) (s : List α) :
    ∀ m ∈ parses r s, s = m.text ++ m.rest ∧ Lang r m.text := by
  induction r generalizing s with
  | empty =>
    intro m hm
    rw [List.mem_singleton.mp hm]
    exact ⟨rfl, rfl⟩
  | char p =>
    cases s with
    | nil => exact fun m hm => absurd hm List.not_mem_nil
    | cons d s =>
      intro m hm
      by_cases hd : p d
      · rw [parses, if_pos hd] at hm
        rw [List.mem_singleton.mp hm]
        exact ⟨rfl, d, hd, rfl⟩
      · rw [parses, if_neg hd] at hm
        exact absurd hm List.not_mem_nil
  | seq r t ihr iht =>
    intro m hm
    obtain ⟨m₁, hm₁, hm⟩ := List.mem_flatMap.mp hm
    obtain ⟨m₂, hm₂, rfl⟩ := List.mem_map.mp hm
    obtain ⟨hs, hlang⟩ := ihr s m₁ hm₁
    obtain ⟨hs', hlang'⟩ := iht m₁.rest m₂ hm₂
    exact ⟨by rw [hs, hs', Match.andThen, List.append_assoc], m₁.text, m₂.text, rfl, hlang, hlang'⟩
  | alt r t ihr iht =>
    intro m hm
    rcases List.mem_append.mp hm with hm | hm
    · exact ⟨(ihr s m hm).1, .inl (ihr s m hm).2⟩
    · exact ⟨(iht s m hm).1, .inr (iht s m hm).2⟩
  | star greedy r ih => exact iterate_lang ih s.length s
  | group n r ih =>
    intro m hm
    obtain ⟨m₁, hm₁, rfl⟩ := List.mem_map.mp hm
    exact ih s m₁ hm₁

/-- A string that matches is in the language. -/
theorem lang_of_regexMatch {r : Regex α} {s : List α} (h : (regexMatch r s).isSome) : Lang r s := by
  obtain ⟨groups, hmatch⟩ := Option.isSome_iff_exists.mp h
  obtain ⟨m, hm, hend⟩ := List.exists_of_findSome?_eq_some hmatch
  obtain ⟨hs, hlang⟩ := parses_lang r s m hm
  unfold atEnd at hend
  split at hend
  · rename_i hrest
    rw [List.isEmpty_iff.mp hrest, List.append_nil] at hs
    exact hs ▸ hlang
  · cases hend

/-- The runs of a class. -/
theorem lang_star_char {greedy : Bool} {p : α → Bool} {w : List α}
    (h : Lang (.star greedy (.char p)) w) :
    ∀ c ∈ w, p c := by
  obtain ⟨us, rfl, hall⟩ := h
  intro c hc
  obtain ⟨u, hu, hcu⟩ := List.mem_flatten.mp hc
  obtain ⟨d, hd, rfl⟩ := hall u hu
  rw [List.mem_singleton.mp hcu]
  exact hd

theorem lang_plus_char {greedy : Bool} {p : α → Bool} {w : List α}
    (h : Lang (.plus greedy (.char p)) w) :
    w ≠ [] ∧ ∀ c ∈ w, p c := by
  obtain ⟨u, v, rfl, ⟨c, hc, rfl⟩, hv⟩ := h
  exact ⟨by simp, List.forall_mem_cons.mpr ⟨hc, lang_star_char hv⟩⟩

theorem lang_word {ps : List (α → Bool)} {w : List α} (h : Lang (.word ps) w) :
    List.Forall₂ (fun p c => p c = true) ps w := by
  induction ps generalizing w with
  | nil =>
    have hw : w = [] := h
    exact hw ▸ .nil
  | cons p ps ih =>
    obtain ⟨u, v, rfl, ⟨c, hc, rfl⟩, hv⟩ := h
    exact .cons hc (ih hv)

end EcmaRegex
