import Mathlib.Data.List.Basic
import Mathlib.Data.List.Find
import Mathlib.Data.List.Infix

/-!
# Rewriting a list by several rules

A rule replaces a pattern. One sweep over the list replaces the occurrences of all patterns at once,
a chain runs one rule after the other, each over what the rules before it have left. Here a letter
stands at the beginning of every pattern and nowhere else in one, so that occurrences do not overlap
and a sweep splits at each of them.
-/
namespace Rewrite

/-- A pattern, and what takes its place. -/
structure Rule (α : Type) where
  old : List α
  new : List α
  deriving DecidableEq

variable {α : Type}

/-- A letter begins every pattern and occurs nowhere else in one, and no pattern begins another. -/
structure Apart (h : α) (rules : List (Rule α)) : Prop where
  starts : ∀ r ∈ rules, ∃ rest, r.old = h :: rest ∧ h ∉ rest
  prefixFree : ∀ r ∈ rules, ∀ q ∈ rules, r.old <+: q.old → r = q

variable {h : α} {all rules : List (Rule α)} {r q : Rule α} {s xs ys : List α}

theorem Apart.old_ne_nil (ha : Apart h all) (hr : r ∈ all) : r.old ≠ [] := by
  obtain ⟨rest, he, -⟩ := ha.starts r hr
  simp [he]

/-- Of two patterns at one place each is the other. -/
theorem Apart.eq_of_prefix (ha : Apart h all) (hr : r ∈ all) (hq : q ∈ all) (hrs : r.old <+: s)
    (hqs : q.old <+: s) :
    r = q := by
  rcases List.prefix_or_prefix_of_prefix hrs hqs with hp | hp
  · exact ha.prefixFree r hr q hq hp
  · exact (ha.prefixFree q hq r hr hp).symm

/-- A pattern that stands before an occurrence of another one ends before it. -/
theorem prefix_append_iff (ha : Apart h all) (hq : q ∈ all) (hr : r ∈ all) (hxs : xs ≠ [])
    (ys : List α) :
    q.old <+: xs ++ (r.old ++ ys) ↔ q.old <+: xs := by
  refine ⟨fun hp => ?_, fun hp => hp.trans (List.prefix_append _ _)⟩
  obtain ⟨rest, he, hrest⟩ := ha.starts q hq
  obtain ⟨rest', he', -⟩ := ha.starts r hr
  by_cases hlen : q.old.length ≤ xs.length
  · exact List.prefix_of_prefix_length_le hp (List.prefix_append _ _) hlen
  · -- the letter at the beginning of `r` would stand inside `q`
    exfalso
    have hin : xs ++ [h] <+: q.old := by
      refine List.prefix_of_prefix_length_le ?_ hp (by simp; omega)
      rw [he', List.cons_append]
      exact ⟨rest' ++ ys, by simp⟩
    obtain ⟨c, xs, rfl⟩ := List.exists_cons_of_ne_nil hxs
    rw [he, List.cons_append, List.cons_prefix_cons] at hin
    exact hrest (hin.2.subset (by simp))

variable [DecidableEq α]

/-- The letters and the occurrences of patterns behind the first `n` letters, from left to right. -/
def scanFrom (rules : List (Rule α)) : Nat → List α → List (α ⊕ Rule α)
  | _, [] => []
  | n + 1, _ :: s => scanFrom rules n s
  | 0, c :: s =>
    match rules.find? fun r => r.old.isPrefixOf (c :: s) with
    | some r => .inr r :: scanFrom rules (r.old.length - 1) s
    | none => .inl c :: scanFrom rules 0 s

def scan (rules : List (Rule α)) (s : List α) : List (α ⊕ Rule α) := scanFrom rules 0 s

/-- All occurrences are replaced at once. -/
def sweep (rules : List (Rule α)) (s : List α) : List α :=
  (scan rules s).flatMap (Sum.elim (fun c => [c]) Rule.new)

/-- The rules run one after the other. -/
def chain (rules : List (Rule α)) (s : List α) : List α := rules.foldl (fun t r => sweep [r] t) s

def occurrences (r : Rule α) (s : List α) : Nat := (scan [r] s).countP Sum.isRight

theorem scanFrom_drop (rules : List (Rule α)) (n : Nat) (s : List α) :
    scanFrom rules n s = scan rules (s.drop n) := by
  induction s generalizing n with
  | nil => cases n <;> rfl
  | cons c s ih =>
    cases n with
    | zero => rfl
    | succ n => exact ih n

@[simp] theorem scan_nil (rules : List (Rule α)) : scan rules [] = [] := rfl

theorem scan_cons (rules : List (Rule α)) (c : α) (s : List α) :
    scan rules (c :: s) =
      match rules.find? fun r => r.old.isPrefixOf (c :: s) with
      | some r => .inr r :: scan rules (s.drop (r.old.length - 1))
      | none => .inl c :: scan rules s := by
  rw [scan, scanFrom]
  split <;> rw [scanFrom_drop]
  rfl

theorem begins_of_found (hf : rules.find? (fun r => r.old.isPrefixOf s) = some q) :
    q ∈ rules ∧ q.old <+: s := by
  have hp := List.find?_some hf
  exact ⟨List.mem_of_find?_eq_some hf, List.isPrefixOf_iff_prefix.mp hp⟩

/-- At a place where a pattern stands it is taken. -/
theorem scan_found (hf : rules.find? (fun r => r.old.isPrefixOf s) = some r) (hr : r.old ≠ []) :
    scan rules s = .inr r :: scan rules (s.drop r.old.length) := by
  cases s with
  | nil =>
    have hp := List.find?_some hf
    simp [hr] at hp
  | cons c s =>
    rw [scan_cons, hf]
    obtain ⟨n, hn⟩ : ∃ n, r.old.length = n + 1 := Nat.exists_eq_succ_of_ne_zero (by simpa using hr)
    simp [hn]

/-- Where the letter does not stand no pattern begins. -/
theorem scan_append_plain (ha : Apart h all) (hsub : rules ⊆ all) (hxs : h ∉ xs) (ys : List α) :
    scan rules (xs ++ ys) = xs.map .inl ++ scan rules ys := by
  induction xs with
  | nil => rfl
  | cons c xs ih =>
    have hc : c ≠ h := fun hc => hxs (hc ▸ List.mem_cons_self)
    have hnone : rules.find? (fun r => r.old.isPrefixOf (c :: (xs ++ ys))) = none := by
      rw [List.find?_eq_none]
      intro r hr hp
      obtain ⟨rest, he, -⟩ := ha.starts r (hsub hr)
      rw [he, List.isPrefixOf_iff_prefix] at hp
      exact hc (List.cons_prefix_cons.mp hp).1.symm
    rw [List.cons_append, scan_cons, hnone]
    exact congrArg _ (ih fun hin => hxs (List.mem_cons_of_mem c hin))

theorem find_at_pattern (ha : Apart h all) (hsub : rules ⊆ all) (hr : r ∈ all) (ys : List α) :
    rules.find? (fun q => q.old.isPrefixOf (r.old ++ ys)) = if r ∈ rules then some r else none := by
  have honly : ∀ q ∈ rules, q.old.isPrefixOf (r.old ++ ys) → q = r := fun q hq hp =>
    ha.eq_of_prefix (hsub hq) hr (List.isPrefixOf_iff_prefix.mp hp) (List.prefix_append _ _)
  by_cases hin : r ∈ rules
  · rw [if_pos hin]
    obtain ⟨q, hq⟩ := Option.isSome_iff_exists.mp (List.find?_isSome.mpr ⟨r, hin, by simp⟩ :
      (rules.find? fun q => q.old.isPrefixOf (r.old ++ ys)).isSome)
    obtain ⟨hmem, hp⟩ := begins_of_found hq
    rw [hq, honly q hmem (List.isPrefixOf_iff_prefix.mpr hp)]
  · rw [if_neg hin, List.find?_eq_none]
    exact fun q hq hp => hin (honly q hq hp ▸ hq)

/-- A sweep splits at every occurrence of a pattern. -/
theorem scan_append (ha : Apart h all) (hsub : rules ⊆ all) (hr : r ∈ all) (xs ys : List α) :
    scan rules (xs ++ (r.old ++ ys)) =
      scan rules xs ++ ((if r ∈ rules then [.inr r] else r.old.map .inl) ++ scan rules ys) := by
  induction hn : xs.length using Nat.strong_induction_on generalizing xs with
  | _ n ih =>
    cases xs with
    | nil =>
      by_cases hin : r ∈ rules
      · have hf := find_at_pattern ha hsub hr ys
        rw [if_pos hin] at hf ⊢
        simp [scan_found hf (ha.old_ne_nil hr)]
      · have hf := find_at_pattern ha hsub hr ys
        rw [if_neg hin] at hf ⊢
        obtain ⟨rest, he, hrest⟩ := ha.starts r hr
        rw [he, List.cons_append] at hf
        rw [he, List.cons_append, List.nil_append, scan_cons, hf]
        exact congrArg _ (scan_append_plain ha hsub hrest ys)
    | cons c xs =>
      have hsame : rules.find? (fun q => q.old.isPrefixOf (c :: xs ++ (r.old ++ ys))) =
          rules.find? (fun q => q.old.isPrefixOf (c :: xs)) := by
        refine List.find?_congr fun q hq => ?_
        rw [Bool.eq_iff_iff, List.isPrefixOf_iff_prefix, List.isPrefixOf_iff_prefix]
        exact prefix_append_iff ha (hsub hq) hr (List.cons_ne_nil _ _) ys
      rw [List.cons_append, scan_cons, ← List.cons_append, hsame, scan_cons]
      cases hf : rules.find? fun q => q.old.isPrefixOf (c :: xs) with
      | none =>
        exact congrArg _ (ih xs.length (by simp [← hn]) xs rfl)
      | some q =>
        have hp := (begins_of_found hf).2.length_le
        rw [List.length_cons] at hp
        dsimp only
        rw [List.drop_append_of_le_length (by omega)]
        refine congrArg _ (ih _ ?_ _ rfl)
        simp only [List.length_drop, ← hn, List.length_cons]
        omega

theorem sweep_append (ha : Apart h all) (hsub : rules ⊆ all) (hr : r ∈ all) (xs ys : List α) :
    sweep rules (xs ++ (r.old ++ ys)) = sweep rules xs ++
    ((if r ∈ rules then r.new else r.old) ++ sweep rules ys) := by
  rw [sweep, scan_append ha hsub hr]
  have hplain : ∀ u : List α, (u.map Sum.inl).flatMap
      (Sum.elim (fun c => [c]) (Rule.new (α := α))) = u := by
    intro u
    induction u with
    | nil => rfl
    | cons c u ih => simpa using ih
  split <;> simp [sweep, hplain]

theorem occurrences_append (ha : Apart h all) (hq : q ∈ all) (hr : r ∈ all) (xs ys : List α) :
    occurrences q (xs ++ (r.old ++ ys)) = occurrences q xs +
    ((if r = q then 1 else 0) + occurrences q ys) := by
  have hsub : [q] ⊆ all := by simpa using hq
  have hplain : ∀ u : List α, (u.map Sum.inl : List (α ⊕ Rule α)).countP Sum.isRight = 0 := by
    intro u
    rw [List.countP_eq_zero]
    simp
  simp only [occurrences, scan_append ha hsub hr, List.countP_append, List.mem_singleton]
  split <;> simp [hplain]

/-! ## The occurrences of one pattern -/

/-- A pattern that does not occur does not occur behind any letter. -/
theorem occurrences_cons (hq : q.old ≠ []) (c : α) (s : List α) :
    occurrences q (c :: s) = 0 ↔ ¬q.old <+: c :: s ∧ occurrences q s = 0 := by
  by_cases hp : q.old <+: c :: s
  · have hf : [q].find? (fun r => r.old.isPrefixOf (c :: s)) = some q := by simp [hp]
    simp [occurrences, scan_found hf hq, hp]
  · have hf : [q].find? (fun r => r.old.isPrefixOf (c :: s)) = none := by simp [hp]
    simp [occurrences, scan_cons, hf, hp]

theorem occurrences_drop (hq : q.old ≠ []) (h : occurrences q s = 0) (n : Nat) :
    occurrences q (s.drop n) = 0 := by
  induction s generalizing n with
  | nil => simpa using h
  | cons c s ih =>
    cases n with
    | zero => exact h
    | succ n => exact ih ((occurrences_cons hq c s).mp h).2 n

/-- What does not occur need not be looked for. -/
theorem scan_concat (hq : q.old ≠ []) (hs : occurrences q s = 0) (rules : List (Rule α)) :
    scan (rules ++ [q]) s = scan rules s := by
  induction hn : s.length using Nat.strong_induction_on generalizing s with
  | _ n ih =>
    cases s with
    | nil => rfl
    | cons c s =>
      obtain ⟨hnot, hrest⟩ := (occurrences_cons hq c s).mp hs
      have hlast : [q].find? (fun r => r.old.isPrefixOf (c :: s)) = none := by simp [hnot]
      rw [scan_cons, scan_cons, List.find?_append, hlast, Option.or_none]
      rw [List.length_cons] at hn
      split
      · refine congrArg _ (ih _ ?_ (occurrences_drop hq hrest _) rfl)
        rw [List.length_drop]
        omega
      · exact congrArg _ (ih _ (by omega) hrest rfl)

theorem sweep_concat (hq : q.old ≠ []) (hs : occurrences q s = 0) (rules : List (Rule α)) :
    sweep (rules ++ [q]) s = sweep rules s := by
  rw [sweep, scan_concat hq hs, sweep]

@[simp] theorem sweep_nil (s : List α) : sweep [] s = s := by
  induction s with
  | nil => rfl
  | cons c s ih =>
    rw [sweep] at ih ⊢
    rw [scan_cons]
    simpa using ih

theorem sweep_single (hq : q.old ≠ []) (hs : occurrences q s = 0) : sweep [q] s = s :=
  (sweep_concat hq hs []).trans (sweep_nil s)

/-- The first occurrence of a pattern. -/
theorem first_occurrence (hq : q.old ≠ []) (hs : occurrences q s ≠ 0) :
    ∃ xs ys, s = xs ++ (q.old ++ ys) ∧ occurrences q xs = 0 := by
  induction s with
  | nil => exact absurd rfl hs
  | cons c s ih =>
    by_cases hp : q.old <+: c :: s
    · obtain ⟨ys, hys⟩ := hp
      exact ⟨[], ys, hys.symm, rfl⟩
    · have hrest : occurrences q s ≠ 0 := fun hz => hs ((occurrences_cons hq c s).mpr ⟨hp, hz⟩)
      obtain ⟨xs, ys, he, hxs⟩ := ih hrest
      refine ⟨c :: xs, ys, congrArg _ he, (occurrences_cons hq c xs).mpr ⟨fun hpre => hp ?_, hxs⟩⟩
      rw [he]
      exact hpre.trans (List.prefix_append (c :: xs) _)

/-- Induction from one occurrence of a pattern to the next. -/
theorem occurrence_induction {P : List α → Prop} (hq : q.old ≠ [])
    (none : ∀ s, occurrences q s = 0 → P s)
    (some : ∀ xs ys, occurrences q xs = 0 → P ys → P (xs ++ (q.old ++ ys))) (s : List α) : P s := by
  induction hn : s.length using Nat.strong_induction_on generalizing s with
  | _ n ih =>
    by_cases hs : occurrences q s = 0
    · exact none s hs
    · obtain ⟨xs, ys, rfl, hxs⟩ := first_occurrence hq hs
      refine some xs ys hxs (ih _ ?_ ys rfl)
      have := List.length_pos_iff.mpr hq
      simp only [← hn, List.length_append]
      omega

/-! ## One stage -/

section

variable (ha : Apart h all) (hsub : rules ⊆ all) (hq : q ∈ all)

include ha hsub hq

theorem sweep_append_old (hnew : q ∉ rules) (xs ys : List α) :
    sweep rules (xs ++ (q.old ++ ys)) = sweep rules xs ++ (q.old ++ sweep rules ys) := by
  rw [sweep_append ha hsub hq, if_neg hnew]

theorem sweep_append_new (xs ys : List α) :
    sweep (rules ++ [q]) (xs ++ (q.old ++ ys)) = sweep (rules ++ [q]) xs ++
    (q.new ++ sweep (rules ++ [q]) ys) := by
  rw [sweep_append ha (List.append_subset.mpr ⟨hsub, by simpa using hq⟩) hq, if_pos (by simp)]

end

section

variable (ha : Apart h all) (hq : q ∈ all)

include ha hq

theorem sweep_single_append (xs ys : List α) :
    sweep [q] (xs ++ (q.old ++ ys)) = sweep [q] xs ++ (q.new ++ sweep [q] ys) :=
  sweep_append_new ha (List.nil_subset all) hq xs ys

theorem occurrences_append_self (xs ys : List α) :
    occurrences q (xs ++ (q.old ++ ys)) = occurrences q xs + (1 + occurrences q ys) := by
  rw [occurrences_append ha hq hq, if_pos rfl]

/-- A sweep of other rules loses no occurrence. -/
theorem occurrences_sweep_le (hsub : rules ⊆ all) (hnew : q ∉ rules) (s : List α) :
    occurrences q s ≤ occurrences q (sweep rules s) := by
  induction s using occurrence_induction (ha.old_ne_nil hq) with
  | none s hs =>
    rw [hs]
    exact Nat.zero_le _
  | some xs ys hxs ih =>
    rw [sweep_append_old ha hsub hq hnew, occurrences_append_self ha hq,
      occurrences_append_self ha hq]
    omega

/-- A rule run behind a sweep does what it would have done in it, if the sweep has brought no
new occurrence. -/
theorem sweep_sweep (hsub : rules ⊆ all) (hnew : q ∉ rules) (s : List α)
    (hsame : occurrences q (sweep rules s) = occurrences q s) :
    sweep [q] (sweep rules s) = sweep (rules ++ [q]) s := by
  have hne := ha.old_ne_nil hq
  induction s using occurrence_induction hne with
  | none s hs => rw [sweep_concat hne hs, sweep_single hne (hsame.trans hs)]
  | some xs ys hxs ih =>
    have hle := occurrences_sweep_le ha hq hsub hnew xs
    have hle' := occurrences_sweep_le ha hq hsub hnew ys
    rw [sweep_append_old ha hsub hq hnew] at hsame ⊢
    rw [occurrences_append_self ha hq, occurrences_append_self ha hq] at hsame
    rw [sweep_single_append ha hq, sweep_append_new ha hsub hq, ih (by omega), sweep_concat hne hxs,
      sweep_single hne (by omega)]

/-- A rule that changes nothing may run or not. -/
theorem sweep_trivial (hsub : rules ⊆ all) (hnew : q ∉ rules) (hold : q.old = q.new) (s : List α) :
    sweep (rules ++ [q]) s = sweep rules s := by
  induction s using occurrence_induction (ha.old_ne_nil hq) with
  | none s hs => exact sweep_concat (ha.old_ne_nil hq) hs rules
  | some xs ys hxs ih =>
    rw [sweep_append_new ha hsub hq, sweep_append_old ha hsub hq hnew, ih,
      sweep_concat (ha.old_ne_nil hq) hxs, hold]

/-- What a rule adds to the number of letters of a kind. -/
theorem countP_sweep_concat (hsub : rules ⊆ all) (hnew : q ∉ rules) (p : α → Bool) (s : List α) :
    (sweep (rules ++ [q]) s).countP p + occurrences q s * q.old.countP p =
      (sweep rules s).countP p + occurrences q s * q.new.countP p := by
  induction s using occurrence_induction (ha.old_ne_nil hq) with
  | none s hs => rw [sweep_concat (ha.old_ne_nil hq) hs, hs, Nat.zero_mul, Nat.zero_mul]
  | some xs ys hxs ih =>
    rw [sweep_append_new ha hsub hq, sweep_append_old ha hsub hq hnew,
      occurrences_append_self ha hq, hxs,
      sweep_concat (ha.old_ne_nil hq) hxs]
    simp only [List.countP_append, Nat.zero_add, Nat.add_mul, Nat.one_mul]
    omega

theorem countP_sweep_single (p : α → Bool) (s : List α) :
    (sweep [q] s).countP p + occurrences q s * q.old.countP p = s.countP p +
    occurrences q s * q.new.countP p := by
  have hcount := countP_sweep_concat ha hq (List.nil_subset all) List.not_mem_nil p s
  rwa [List.nil_append, sweep_nil] at hcount

end

/-! ## Chains -/

theorem chain_concat (rules : List (Rule α)) (q : Rule α) (s : List α) :
    chain (rules ++ [q]) s = sweep [q] (chain rules s) := by
  rw [chain, List.foldl_append]
  rfl

theorem chain_append_old (ha : Apart h all) (hsub : rules ⊆ all) (hq : q ∈ all) (hnew : q ∉ rules)
    (xs ys : List α) :
    chain rules (xs ++ (q.old ++ ys)) = chain rules xs ++ (q.old ++ chain rules ys) := by
  induction rules using List.reverseRecOn with
  | nil => rfl
  | append_singleton rules r ih =>
    obtain ⟨hsub, hr⟩ := List.append_subset.mp hsub
    have hne : q ∉ [r] := fun hin => hnew (List.mem_append_right _ hin)
    rw [chain_concat, chain_concat, chain_concat,
      ih hsub (fun hin => hnew (List.mem_append_left _ hin)),
      sweep_append_old ha hr hq hne]

theorem occurrences_chain_le (ha : Apart h all) (hsub : rules ⊆ all) (hq : q ∈ all)
    (hnew : q ∉ rules) (s : List α) :
    occurrences q s ≤ occurrences q (chain rules s) := by
  induction rules using List.reverseRecOn with
  | nil => exact Nat.le_refl _
  | append_singleton rules r ih =>
    obtain ⟨hsub, hr⟩ := List.append_subset.mp hsub
    have hne : q ∉ [r] := fun hin => hnew (List.mem_append_right _ hin)
    rw [chain_concat]
    exact (ih hsub (fun hin => hnew (List.mem_append_left _ hin))).trans
      (occurrences_sweep_le ha hq hr hne _)

/-- Something holds of each rule of the list and those in front of it. -/
def AtStages (P : List (Rule α) → Rule α → Prop) (rules : List (Rule α)) : Prop :=
  ∀ front q, front ++ [q] <+: rules → P front q

/-- Behind a sweep of those in front of it no rule of the list finds more than in the text, unless
it changes nothing. -/
def Fresh (rules : List (Rule α)) (s : List α) : Prop :=
  AtStages (fun front q => occurrences q (sweep front s) = occurrences q s ∨ q.old = q.new) rules

/-- In the chain no rule of the list finds more than in the text. -/
def Steady (rules : List (Rule α)) (s : List α) : Prop :=
  AtStages (fun front q => occurrences q (chain front s) = occurrences q s) rules

/-- In the chain only rules that keep the length find more than in the text. -/
def Level (rules : List (Rule α)) (s : List α) : Prop :=
  AtStages (fun front q => occurrences q (chain front s) = occurrences q s ∨
    q.old.length = q.new.length) rules

omit [DecidableEq α] in
theorem atStages_nil (P : List (Rule α) → Rule α → Prop) : AtStages P [] :=
  fun front q hp => absurd (List.prefix_nil.mp hp) (by simp)

omit [DecidableEq α] in
theorem atStages_concat {P : List (Rule α) → Rule α → Prop} :
    AtStages P (rules ++ [q]) ↔ AtStages P rules ∧ P rules q := by
  constructor
  · exact fun h => ⟨fun front r hp => h front r (hp.trans (List.prefix_append _ _)),
      h rules q (List.prefix_refl _)⟩
  · rintro ⟨hfront, hlast⟩ front r hp
    rcases List.prefix_concat_iff.mp hp with he | hp
    · obtain ⟨rfl, hr⟩ := List.append_inj' he rfl
      obtain rfl : r = q := by simpa using hr
      exact hlast
    · exact hfront front r hp

omit [DecidableEq α] in
theorem not_mem_of_nodup_concat (hnd : (rules ++ [q]).Nodup) : rules.Nodup ∧ q ∉ rules := by
  obtain ⟨hrules, -, hdis⟩ := List.nodup_append.mp hnd
  exact ⟨hrules, fun hin => hdis q hin q (by simp) rfl⟩

theorem sweep_self (ha : Apart h all) (hq : q ∈ all) (hold : q.old = q.new) (s : List α) :
    sweep [q] s = s :=
  (sweep_trivial ha hq (List.nil_subset all) List.not_mem_nil hold s).trans (sweep_nil s)

/-- A chain whose rules find only what was there is one sweep. -/
theorem chain_eq_sweep (ha : Apart h all) (hsub : rules ⊆ all) (hnd : rules.Nodup)
    (hf : Fresh rules s) :
    chain rules s = sweep rules s := by
  induction rules using List.reverseRecOn with
  | nil => exact (sweep_nil s).symm
  | append_singleton rules q ih =>
    obtain ⟨hsub, hq⟩ := List.append_subset.mp hsub
    obtain ⟨hnd, hnew⟩ := not_mem_of_nodup_concat hnd
    have hq : q ∈ all := hq (by simp)
    obtain ⟨hfront, hlast⟩ := atStages_concat.mp hf
    rw [chain_concat, ih hsub hnd hfront]
    rcases hlast with hsame | hold
    · exact sweep_sweep ha hq hsub hnew s hsame
    · rw [sweep_self ha hq hold, sweep_trivial ha hq hsub hnew hold]

theorem Steady.fresh (ha : Apart h all) (hsub : rules ⊆ all) (hnd : rules.Nodup)
    (hf : Steady rules s) :
    Fresh rules s := by
  induction rules using List.reverseRecOn with
  | nil => exact atStages_nil _
  | append_singleton rules q ih =>
    have hrules := (List.append_subset.mp hsub).1
    have hdistinct := (not_mem_of_nodup_concat hnd).1
    obtain ⟨hfront, hlast⟩ := atStages_concat.mp hf
    have hfresh := ih hrules hdistinct hfront
    refine atStages_concat.mpr ⟨hfresh, .inl ?_⟩
    rw [← chain_eq_sweep ha hrules hdistinct hfresh]
    exact hlast

/-! ## From the result back to the stages -/

/-- A level chain is as long as the sweep. -/
theorem length_chain (ha : Apart h all) (hsub : rules ⊆ all) (hnd : rules.Nodup)
    (hl : Level rules s) :
    (chain rules s).length = (sweep rules s).length := by
  induction rules using List.reverseRecOn with
  | nil => exact congrArg _ (sweep_nil s).symm
  | append_singleton rules q ih =>
    obtain ⟨hsub, hq⟩ := List.append_subset.mp hsub
    obtain ⟨hnd, hnew⟩ := not_mem_of_nodup_concat hnd
    have hq : q ∈ all := hq (by simp)
    obtain ⟨hfront, hlast⟩ := atStages_concat.mp hl
    have hlen := ih hsub hnd hfront
    have hchain := countP_sweep_single ha hq (fun _ => true) (chain rules s)
    have hsweep := countP_sweep_concat ha hq hsub hnew (fun _ => true) s
    simp only [List.countP_true] at hchain hsweep
    rw [chain_concat]
    rcases hlast with hsame | hkeep
    · rw [hsame] at hchain
      omega
    · rw [hkeep] at hchain hsweep
      omega

theorem Level.split (ha : Apart h all) (hsub : rules ⊆ all) (hnd : rules.Nodup) (hq : q ∈ all)
    (hnew : q ∉ rules) (hl : Level rules (xs ++ (q.old ++ ys))) :
    Level rules xs ∧ Level rules ys := by
  have hboth : ∀ front r, front ++ [r] <+: rules →
      (occurrences r (chain front xs) = occurrences r xs ∧
      occurrences r (chain front ys) = occurrences r ys) ∨ r.old.length = r.new.length := by
    intro front r hp
    refine (hl front r hp).imp_left fun hsame => ?_
    have hin : front ++ [r] ⊆ rules := hp.subset
    have hfront : front ⊆ all := fun _ hr => hsub (hin (List.mem_append_left _ hr))
    have hr : r ∈ all := hsub (hin (by simp))
    have hqr : q ≠ r := fun he => hnew (he ▸ hin (by simp))
    have hqfront : q ∉ front := fun hq => hnew (hin (List.mem_append_left _ hq))
    have hrfront := (not_mem_of_nodup_concat (hnd.sublist hp.sublist)).2
    have hle := occurrences_chain_le ha hfront hr hrfront xs
    have hle' := occurrences_chain_le ha hfront hr hrfront ys
    rw [chain_append_old ha hfront hq hqfront, occurrences_append ha hr hq,
      occurrences_append ha hr hq,
      if_neg hqr] at hsame
    omega
  exact ⟨fun front r hp => (hboth front r hp).imp_left And.left,
    fun front r hp => (hboth front r hp).imp_left And.right⟩

/-- Behind a level chain a rule that finds only what was there ends at the sweep only
from the sweep. -/
theorem chain_eq_of_concat (ha : Apart h all) (hsub : rules ⊆ all) (hq : q ∈ all)
    (hnd : (rules ++ [q]).Nodup) (hl : Level rules s)
    (hsame : occurrences q (chain rules s) = occurrences q s)
    (he : chain (rules ++ [q]) s = sweep (rules ++ [q]) s) : chain rules s = sweep rules s := by
  have hne := ha.old_ne_nil hq
  obtain ⟨hnd, hnew⟩ := not_mem_of_nodup_concat hnd
  rw [chain_concat] at he
  induction s using occurrence_induction hne with
  | none s hs => rwa [sweep_single hne (hsame.trans hs), sweep_concat hne hs] at he
  | some xs ys hxs ih =>
    obtain ⟨hlxs, hlys⟩ := hl.split ha hsub hnd hq hnew
    have hle := occurrences_chain_le ha hsub hq hnew xs
    have hle' := occurrences_chain_le ha hsub hq hnew ys
    rw [chain_append_old ha hsub hq hnew] at hsame he ⊢
    rw [occurrences_append_self ha hq, occurrences_append_self ha hq] at hsame
    rw [sweep_single_append ha hq, sweep_append_new ha hsub hq, sweep_concat hne hxs,
      sweep_single hne (by omega)] at he
    obtain ⟨hfront, hrest⟩ := List.append_inj he (length_chain ha hsub hnd hlxs)
    rw [hfront, ih hlys (by omega) (List.append_cancel_left hrest),
      sweep_append_old ha hsub hq hnew]

/-- A rule that keeps the length leaves the text as it is only where it finds nothing, unless it
changes nothing. -/
theorem occurrences_eq_zero (ha : Apart h all) (hq : q ∈ all) (hkeep : q.old.length = q.new.length)
    (hold : q.old ≠ q.new) (he : sweep [q] s = s) : occurrences q s = 0 := by
  have hne := ha.old_ne_nil hq
  by_contra hs
  obtain ⟨xs, ys, rfl, hxs⟩ := first_occurrence hne hs
  rw [sweep_single_append ha hq, sweep_single hne hxs] at he
  exact hold (List.append_inj_left (List.append_cancel_left he) hkeep.symm).symm

/-- Behind a sweep a rule that keeps the length ends at the larger sweep only if it finds
what was there. -/
theorem occurrences_of_sweep_sweep (ha : Apart h all) (hsub : rules ⊆ all) (hq : q ∈ all)
    (hnew : q ∉ rules) (hkeep : q.old.length = q.new.length) (hold : q.old ≠ q.new)
    (he : sweep [q] (sweep rules s) = sweep (rules ++ [q]) s) :
    occurrences q (sweep rules s) = occurrences q s := by
  have hne := ha.old_ne_nil hq
  induction s using occurrence_induction hne with
  | none s hs =>
    rw [sweep_concat hne hs] at he
    rw [occurrences_eq_zero ha hq hkeep hold he, hs]
  | some xs ys hxs ih =>
    rw [sweep_append_old ha hsub hq hnew] at he ⊢
    rw [sweep_single_append ha hq, sweep_append_new ha hsub hq, sweep_concat hne hxs] at he
    have hlen := countP_sweep_single ha hq (fun _ => true) (sweep rules xs)
    simp only [List.countP_true, hkeep] at hlen
    obtain ⟨hfront, hrest⟩ := List.append_inj he (by omega)
    rw [occurrences_append_self ha hq, occurrences_append_self ha hq, hxs,
      occurrences_eq_zero ha hq hkeep hold hfront, ih (List.append_cancel_left hrest)]

/-- A level chain in which a rule finds more only behind rules that do not: it ends at the sweep
only if it is fresh. -/
theorem fresh_of_chain_eq (ha : Apart h all) (hsub : rules ⊆ all) (hnd : rules.Nodup)
    (hl : Level rules s) (hfirst : AtStages
      (fun front q => occurrences q (chain front s) ≠ occurrences q s → Steady front s) rules)
    (he : chain rules s = sweep rules s) : Fresh rules s := by
  induction rules using List.reverseRecOn with
  | nil => exact atStages_nil _
  | append_singleton rules q ih =>
    obtain ⟨hsub, hq⟩ := List.append_subset.mp hsub
    have hq : q ∈ all := hq (by simp)
    obtain ⟨hrules, hnew⟩ := not_mem_of_nodup_concat hnd
    obtain ⟨hlevel, hlast⟩ := atStages_concat.mp hl
    obtain ⟨hfront, hbehind⟩ := atStages_concat.mp hfirst
    refine atStages_concat.mpr ?_
    by_cases hsame : occurrences q (chain rules s) = occurrences q s
    · have hback := chain_eq_of_concat ha hsub hq hnd hlevel hsame he
      refine ⟨ih hsub hrules hlevel hfront hback, .inl ?_⟩
      rwa [← hback]
    · have hfresh := (hbehind hsame).fresh ha hsub hrules
      have hkeep := hlast.resolve_left hsame
      rw [chain_concat, chain_eq_sweep ha hsub hrules hfresh] at he
      refine ⟨hfresh, or_iff_not_imp_right.mpr fun hold => ?_⟩
      exact occurrences_of_sweep_sweep ha hsub hq hnew hkeep hold he

/-! ## What the stages add -/

/-- How many occurrences of a rule the rules in front of it have brought. -/
def gained (front : List (Rule α)) (q : Rule α) (s : List α) : Nat :=
  occurrences q (chain front s) - occurrences q s

/-- The gains of the rules behind `front`, each times a weight. -/
def weigh (w : Rule α → Nat) (s : List α) : List (Rule α) → List (Rule α) → Nat
  | _, [] => 0
  | front, q :: rest => gained front q s * w q + weigh w s (front ++ [q]) rest

@[simp] theorem gained_nil (q : Rule α) (s : List α) : gained [] q s = 0 := Nat.sub_self _

theorem gained_eq_zero (ha : Apart h all) (hsub : rules ⊆ all) (hq : q ∈ all) (hnew : q ∉ rules) :
    gained rules q s = 0 ↔ occurrences q (chain rules s) = occurrences q s := by
  have hle := occurrences_chain_le ha hsub hq hnew s
  unfold gained
  omega

/-- The chain has what the sweep has, and what each gained occurrence took away and brought. -/
theorem countP_chain (ha : Apart h all) (p : α → Bool) (front rest : List (Rule α))
    (hsub : front ++ rest ⊆ all) (hnd : (front ++ rest).Nodup) :
    (chain (front ++ rest) s).countP p + weigh (fun r => r.old.countP p) s front rest +
    (sweep front s).countP p =
      (sweep (front ++ rest) s).countP p + weigh (fun r => r.new.countP p) s front rest +
      (chain front s).countP p := by
  induction rest generalizing front with
  | nil =>
    simp only [List.append_nil, weigh]
    omega
  | cons q rest ih =>
    have hsplit : front ++ q :: rest = front ++ [q] ++ rest := by simp
    rw [hsplit] at hsub hnd ⊢
    obtain ⟨hfront, hq⟩ := List.append_subset.mp (List.append_subset.mp hsub).1
    have hq : q ∈ all := hq (by simp)
    have hnew := (not_mem_of_nodup_concat (List.nodup_append.mp hnd).1).2
    have hrest := ih (front ++ [q]) hsub hnd
    have hsweep := countP_sweep_concat ha hq hfront hnew p s
    have hchain := countP_sweep_single ha hq p (chain front s)
    have hmore : occurrences q (chain front s) = occurrences q s + gained front q s := by
      have hle := occurrences_chain_le ha hfront hq hnew s
      unfold gained
      omega
    rw [hmore, Nat.add_mul, Nat.add_mul, ← chain_concat] at hchain
    simp only [weigh]
    omega

/-- Where chain and sweep agree the gained occurrences took away as many letters of each kind as
they brought. -/
theorem gains_balance (ha : Apart h all) (hsub : rules ⊆ all) (hnd : rules.Nodup)
    (he : chain rules s = sweep rules s) (p : α → Bool) :
    weigh (fun r => r.old.countP p) s [] rules = weigh (fun r => r.new.countP p) s [] rules := by
  have hcount := countP_chain (s := s) ha p [] rules hsub hnd
  rw [List.nil_append, he, sweep_nil] at hcount
  have hnil : (chain [] s).countP p = s.countP p := rfl
  omega

omit [DecidableEq α] in
/-- The stages of a list of rules are its places. -/
theorem stage_index {front : List (Rule α)} (hp : front ++ [q] <+: rules) :
    front = rules.take front.length ∧ rules[front.length]? = some q := by
  obtain ⟨rest, rfl⟩ := hp
  simp

end Rewrite
