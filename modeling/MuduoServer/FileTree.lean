import Mathlib.Logic.Function.Basic

/-!
# Files under several names

A path leads, by links, to a place, and a place has a file, something else or nothing. Two places
may have the same file. A program that makes files where there is nothing and writes over files
that are there takes no name away and gives no old file a new one.
-/
namespace FileTree

variable {π β : Type} [DecidableEq π]

inductive Entry where
  | file (n : Nat)
  /-- A directory, a device or anything else that is no regular file. -/
  | other
  deriving DecidableEq

structure Tree (π β : Type) where
  /-- The place a path leads to when links are followed. -/
  follow : π → π
  entry : π → Option Entry
  /-- The files by their numbers. -/
  texts : List β
  numbered : ∀ p n, entry p = some (.file n) → n < texts.length

namespace Tree

/-- The file that a path leads to. -/
def node (t : Tree π β) (p : π) : Option Nat :=
  match t.entry (t.follow p) with
  | some (.file n) => some n
  | some .other | none => none

/-- The path leads to something. -/
def taken (t : Tree π β) (p : π) : Bool := (t.entry (t.follow p)).isSome

def text (t : Tree π β) (p : π) : Option β := (t.node p).bind fun n => t.texts[n]?

/-- A new file where the path leads. -/
def create (t : Tree π β) (p : π) (b : β) : Tree π β where
  follow := t.follow
  entry := Function.update t.entry (t.follow p) (some (.file t.texts.length))
  texts := t.texts ++ [b]
  numbered q n h := by
    rw [List.length_append, List.length_singleton]
    by_cases hq : q = t.follow p
    · rw [hq, Function.update_self] at h
      cases h
      exact Nat.lt_succ_self _
    · rw [Function.update_of_ne hq] at h
      exact Nat.lt_succ_of_lt (t.numbered q n h)

/-- A new text for the file that the path leads to. -/
def write (t : Tree π β) (p : π) (b : β) : Tree π β where
  follow := t.follow
  entry := t.entry
  texts := (t.node p).elim t.texts fun n => t.texts.set n b
  numbered q n h := by
    cases t.node p with
    | none => exact t.numbered q n h
    | some m =>
      rw [Option.elim_some, List.length_set]
      exact t.numbered q n h

variable {t t' t'' : Tree π β} {p q : π} {b : β} {m n : Nat}

omit [DecidableEq π] in
theorem node_eq_some : t.node p = some n ↔ t.entry (t.follow p) = some (.file n) := by
  unfold node
  split
  · rename_i m hm
    rw [hm]
    simp
  · rename_i hm
    rw [hm]
    simp
  · rename_i hm
    rw [hm]
    simp

omit [DecidableEq π] in
theorem node_lt (h : t.node p = some n) : n < t.texts.length := t.numbered _ n (node_eq_some.mp h)

omit [DecidableEq π] in
theorem taken_of_node (h : t.node p = some n) : t.taken p = true := by
  rw [taken, node_eq_some.mp h]
  rfl

omit [DecidableEq π] in
theorem text_of_node (h : t.node p = some n) : t.text p = t.texts[n]? := by
  rw [text, h, Option.bind_some]

omit [DecidableEq π] in
theorem node_of_text (h : t.text p = some b) : ∃ n, t.node p = some n ∧ t.texts[n]? = some b :=
  Option.bind_eq_some_iff.mp h

section

omit [DecidableEq π]

/-- What is at a place does not depend on the path that leads to it. -/
theorem node_of_follow (h : t.follow p = t.follow q) : t.node p = t.node q := by
  rw [node, h]
  rfl

theorem taken_of_follow (h : t.follow p = t.follow q) : t.taken p = t.taken q := by
  rw [taken, h]
  rfl

theorem text_of_follow (h : t.follow p = t.follow q) : t.text p = t.text q := by
  rw [text, node_of_follow h]
  rfl

end

/-! ## A new file -/

theorem node_create (h : t.follow q = t.follow p) :
    (t.create p b).node q = some t.texts.length := by
  rw [node_eq_some]
  show Function.update t.entry (t.follow p) _ (t.follow q) = _
  rw [h, Function.update_self]

theorem node_create_of_ne (h : t.follow q ≠ t.follow p) : (t.create p b).node q = t.node q := by
  have hentry : (t.create p b).entry (t.follow q) = t.entry (t.follow q) :=
    Function.update_of_ne h ..
  show (match (t.create p b).entry (t.follow q) with
    | some (.file n) => some n
    | some .other | none => none) = _
  rw [hentry]
  rfl

theorem taken_create_of_ne (h : t.follow q ≠ t.follow p) : (t.create p b).taken q = t.taken q :=
  congrArg Option.isSome (Function.update_of_ne h ..)

theorem texts_create (h : n < t.texts.length) : (t.create p b).texts[n]? = t.texts[n]? :=
  List.getElem?_append_left h

theorem text_create : (t.create p b).text p = some b := by
  rw [text_of_node (node_create rfl)]
  exact List.getElem?_concat_length

theorem text_create_of_ne (h : t.follow q ≠ t.follow p) : (t.create p b).text q = t.text q := by
  cases hnode : t.node q with
  | none => rw [text, text, node_create_of_ne h, hnode]; rfl
  | some n =>
    rw [text_of_node hnode, text_of_node ((node_create_of_ne h).trans hnode)]
    exact texts_create (node_lt hnode)

/-! ## A new text -/

omit [DecidableEq π]

@[simp] theorem node_write (t : Tree π β) (p q : π) (b : β) : (t.write p b).node q = t.node q := rfl

@[simp] theorem taken_write (t : Tree π β) (p q : π) (b : β) : (t.write p b).taken q = t.taken q :=
  rfl

theorem texts_write_of_ne (h : t.node p ≠ some n) : (t.write p b).texts[n]? = t.texts[n]? := by
  show ((t.node p).elim t.texts fun m => t.texts.set m b)[n]? = _
  cases hnode : t.node p with
  | none => rfl
  | some m =>
    have hne : m ≠ n := fun he => h (he ▸ hnode)
    exact List.getElem?_set_ne hne

theorem text_write (h : t.node p = some n) : (t.write p b).text p = some b := by
  rw [text_of_node (t := t.write p b) h]
  show ((t.node p).elim t.texts fun m => t.texts.set m b)[n]? = _
  rw [h]
  exact List.getElem?_set_self (node_lt h)

theorem text_write_of_ne (h : t.node q = none ∨ t.node p ≠ t.node q) :
    (t.write p b).text q = t.text q := by
  cases hnode : t.node q with
  | none => rw [text, text, node_write, hnode]; rfl
  | some n =>
    rw [text_of_node (t := t.write p b) hnode, text_of_node hnode]
    exact texts_write_of_ne (hnode ▸ h.resolve_left (by simp [hnode]))

/-! ## What stays -/

/-- No name is taken away, a name that is new leads to a new file, and a new file is
in one place. -/
structure Grows (t t' : Tree π β) : Prop where
  follow : t'.follow = t.follow
  kept : ∀ p e, t.entry p = some e → t'.entry p = some e
  fresh : ∀ p n, t'.entry p = some (.file n) → t.entry p = some (.file n) ∨ t.texts.length ≤ n
  single : ∀ p q n, t.texts.length ≤ n → t'.entry p = some (.file n) →
    t'.entry q = some (.file n) → p = q
  length : t.texts.length ≤ t'.texts.length

theorem Grows.refl (t : Tree π β) : t.Grows t where
  follow := rfl
  kept _ _ h := h
  fresh _ _ h := .inl h
  single p _ n hn hp _ := absurd (t.numbered p n hp) (Nat.not_lt.mpr hn)
  length := Nat.le_refl _

theorem Grows.trans (h : t.Grows t') (h' : t'.Grows t'') : t.Grows t'' where
  follow := h'.follow.trans h.follow
  kept p e he := h'.kept p e (h.kept p e he)
  fresh p n hn := by
    obtain hold | hnew := h'.fresh p n hn
    · exact h.fresh p n hold
    · exact .inr (Nat.le_trans h.length hnew)
  single p q n hn hp hq := by
    by_cases hold : n < t'.texts.length
    · have hkept : ∀ p, t''.entry p = some (.file n) → t'.entry p = some (.file n) :=
        fun p hp => (h'.fresh p n hp).resolve_right (Nat.not_le.mpr hold)
      exact h.single p q n hn (hkept p hp) (hkept q hq)
    · exact h'.single p q n (Nat.not_lt.mp hold) hp hq
  length := Nat.le_trans h.length h'.length

theorem grows_write (t : Tree π β) (p : π) (b : β) : t.Grows (t.write p b) where
  follow := rfl
  kept _ _ h := h
  fresh _ _ h := .inl h
  single q _ n hn hq _ := absurd (t.numbered q n hq) (Nat.not_lt.mpr hn)
  length := by
    show _ ≤ ((t.node p).elim t.texts fun n => t.texts.set n b).length
    cases t.node p with
    | none => exact Nat.le_refl _
    | some n => exact Nat.le_of_eq (List.length_set ..).symm

theorem grows_create [DecidableEq π] (h : t.taken p = false) (b : β) : t.Grows (t.create p b) where
  follow := rfl
  kept q e he := by
    have hq : q ≠ t.follow p := by
      rintro rfl
      rw [taken, he] at h
      cases h
    exact (Function.update_of_ne hq ..).trans he
  fresh q n hn := by
    by_cases hq : q = t.follow p
    · have hnew : (t.create p b).entry q = some (.file t.texts.length) := by
        rw [hq]
        exact Function.update_self ..
      cases hnew.symm.trans hn
      exact .inr (Nat.le_refl _)
    · exact .inl ((Function.update_of_ne hq ..).symm.trans hn)
  single q r n hn hq hr := by
    have hplace : ∀ q, (t.create p b).entry q = some (.file n) → q = t.follow p := by
      intro q hq
      by_contra hne
      have hold : t.entry q = some (.file n) := (Function.update_of_ne hne ..).symm.trans hq
      exact absurd (t.numbered q n hold) (Nat.not_lt.mpr hn)
    rw [hplace q hq, hplace r hr]
  length := by
    show _ ≤ (t.texts ++ [b]).length
    rw [List.length_append]
    exact Nat.le_add_right _ _

/-- The names of a file that is there stay the same. -/
theorem Grows.node_iff (h : t.Grows t') (hn : n < t.texts.length) :
    t'.node p = some n ↔ t.node p = some n := by
  rw [node_eq_some, node_eq_some, h.follow]
  constructor
  · intro hnew
    exact (h.fresh _ n hnew).resolve_right (Nat.not_le.mpr hn)
  · exact h.kept _ _

/-- Two names of a new file lead to one place. -/
theorem Grows.follow_eq (h : t.Grows t') (hn : t.texts.length ≤ n) (hp : t'.node p = some n)
    (hq : t'.node q = some n) : t.follow p = t.follow q := by
  have hsame := h.single _ _ n hn (node_eq_some.mp hp) (node_eq_some.mp hq)
  rwa [h.follow] at hsame

theorem Grows.taken (h : t.Grows t') (hp : t.taken p = true) : t'.taken p = true := by
  obtain ⟨e, he⟩ := Option.isSome_iff_exists.mp hp
  rw [Tree.taken, h.follow, h.kept _ e he]
  rfl

end Tree
end FileTree
