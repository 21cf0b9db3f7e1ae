import MuduoServer.StdStringSpec
import MuduoServer.Uitl

/-!
# What the utilities compute

Splitting at a single byte keeps the non-empty pieces between separators, and
percent decoding undoes percent encoding byte by byte.
-/
namespace MuduoServer

open StdString
open Cuts (Cut cut_nil cut_splitOn exists_cut)
open Rewrite (sweep)

namespace Uitl

/-- The pieces `split` keeps. -/
def pieces (c : UInt8) (s : Bytes) : List Bytes := (s.splitOn c).filter (· ≠ [])

/-- From any place the loop keeps the non-empty pieces of what is left. -/
theorem splitLoop_cut {src sep : Bytes} (hsep : sep ≠ []) {fuel offset : Nat} {gaps : List Bytes}
    (v : List Bytes) (hf : src.length ≤ offset + fuel) (hcut : Cut sep (src.drop offset) gaps) :
    splitLoop src sep fuel offset v = .ok (v ++ gaps.filter (· ≠ [])) := by
  induction fuel generalizing offset gaps v with
  | zero =>
    rw [List.drop_of_length_le (by omega)] at hcut
    simp [splitLoop, cut_nil hsep hcut]
  | succ fuel ih =>
    unfold splitLoop
    by_cases hlt : offset < src.length
    · have hne : src.drop offset ≠ [] := by simpa using hlt
      rw [if_pos hlt]
      generalize hs : src.drop offset = s at hcut hne
      cases hcut with
      | last hno =>
        have hsub : substrFrom src offset = .ok s := by
          rw [substrFrom, substr, if_pos hlt.le, hs, List.take_of_length_le]
          rw [← hs, List.length_drop]
          omega
        rw [find_absent (hs ▸ hno)]
        simp [hsub, hne, Bind.bind, Except.bind, Pure.pure, Except.pure]
      | @next g rest gaps hfirst hrest =>
        have hpos := List.length_pos_iff.mpr hsep
        have hnext : src.drop (offset + g.length + sep.length) = rest := by
          rw [← List.drop_drop, ← List.drop_drop, hs, List.drop_left, List.drop_left]
        have hih : ∀ v, splitLoop src sep fuel (offset + g.length + sep.length) v =
            .ok (v ++ gaps.filter (· ≠ [])) := fun v => ih v (by omega) (hnext.symm ▸ hrest)
        simp only [find_firstAt hs hfirst]
        by_cases hg : g = []
        · subst hg
          rw [if_pos (by simp), hih]
          simp
        · have hoff : offset ≠ offset + g.length := by
            have := List.length_pos_iff.mpr hg
            omega
          have hsub : substr src offset (offset + g.length - offset) = .ok g := by
            rw [substr, if_pos hlt.le, hs, Nat.add_sub_cancel_left, List.take_left]
          rw [if_neg hoff, hsub]
          simp only [Bind.bind, Except.bind]
          rw [hih]
          simp [hg]
    · rw [List.drop_of_length_le (Nat.le_of_not_lt hlt)] at hcut
      simp [hlt, cut_nil hsep hcut]

theorem splitLoop_single (src : Bytes) (c : UInt8) (fuel offset : Nat) (v : List Bytes)
    (hf : src.length ≤ offset + fuel) :
    splitLoop src [c] fuel offset v = .ok (v ++ pieces c (src.drop offset)) :=
  splitLoop_cut (List.cons_ne_nil c []) v hf (cut_splitOn c _)

/-- Splitting at one byte never throws and keeps the non-empty pieces in order. -/
theorem split_single (src : Bytes) (c : UInt8) (v : List Bytes) :
    split src [c] v = .ok (v ++ pieces c src, (v ++ pieces c src).length) := by
  simp [split, splitLoop_single src c src.length 0 v (by omega), Bind.bind, Except.bind, Pure.pure,
    Except.pure]

/-- `VaildPath` always returns: it follows the levels of the non-empty components. -/
theorem vaildPath_eq (path : Bytes) : vaildPath path = .ok (levels 0 (pieces slash path)) := by
  rw [vaildPath, split_single]
  rfl

theorem pieces_ne_nil (c : UInt8) (s p : Bytes) (h : p ∈ pieces c s) : p ≠ [] := by
  simpa using (List.mem_filter.mp h).2

/-- The loop leaves after `n` turns: at the end of the string, or where the separator does
not come again. -/
inductive Leaves (src sep : Bytes) : Nat → Nat → Prop where
  | finished {offset : Nat} : src.length ≤ offset → Leaves src sep 0 offset
  | remainder {offset : Nat} : offset < src.length → find src sep offset = none →
    Leaves src sep 1 offset
  | next {n offset pos : Nat} : offset < src.length → find src sep offset = some pos →
      Leaves src sep n (pos + sep.length) → Leaves src sep (n + 1) offset

/-- Every turn takes the offset past a separator. -/
theorem exists_leaves (src : Bytes) {sep : Bytes} (hsep : sep ≠ []) (offset : Nat) :
    ∃ n ≤ src.length - offset, Leaves src sep n offset := by
  induction hm : src.length - offset using Nat.strong_induction_on generalizing offset with
  | _ m ih =>
    by_cases hlt : offset < src.length
    · cases hfind : find src sep offset with
      | none => exact ⟨1, by omega, .remainder hlt hfind⟩
      | some pos =>
        obtain ⟨i, -, hi⟩ := Option.map_eq_some_iff.mp hfind
        have hpos := List.length_pos_iff.mpr hsep
        obtain ⟨n, hn, hleaves⟩ :=
          ih (src.length - (pos + sep.length)) (by omega) (pos + sep.length) rfl
        exact ⟨n + 1, by omega, .next hlt hfind hleaves⟩
    · exact ⟨0, Nat.zero_le _, .finished (Nat.le_of_not_lt hlt)⟩

/-- What `split` makes of a string whose separators leave these gaps. -/
structure GreedySplit (src sep : Bytes) (container gaps : List Bytes) : Prop where
  cut : Cut sep src gaps
  only : ∀ gaps', Cut sep src gaps' → gaps' = gaps
  whole : sep.intercalate gaps = src
  leaves : ∃ n ≤ src.length, Leaves src sep n 0
  result : split src sep container =
    .ok (container ++ gaps.filter (· ≠ []), (container ++ gaps.filter (· ≠ [])).length)
  clean : ∀ p ∈ gaps.filter (· ≠ []), p ≠ [] ∧ ¬sep <:+: p
  removed : (gaps.filter (· ≠ [])).flatten = sweep [⟨sep, []⟩] src

/-- Splitting appends the non-empty pieces between the leftmost separators that do not overlap. -/
theorem split_greedy (src sep : Bytes) (container : List Bytes) (hsep : sep ≠ []) :
    ∃ gaps, GreedySplit src sep container gaps := by
  obtain ⟨gaps, hcut⟩ := exists_cut hsep src
  have hloop := splitLoop_cut hsep container (Nat.le_add_left src.length 0) hcut
  refine ⟨gaps, hcut, fun _ hcut' => hcut'.unique hcut, hcut.intercalate,
    exists_leaves src hsep 0, ?_, ?_, ?_⟩
  · rw [split, if_neg hsep, hloop]
    rfl
  · intro p hp
    obtain ⟨hin, hne⟩ := List.mem_filter.mp hp
    exact ⟨by simpa using hne, hcut.avoids hsep p hin⟩
  · rw [List.flatten_filter_ne_nil]
    exact hcut.flatten hsep

/-- Separators in front, at the end and next to each other, and an `a` too many for them. -/
theorem split_greedy_overlapping :
    ∃ gaps, GreedySplit (ascii "aaaaabaaaacaa") (ascii "aa") [ascii "x"] gaps :=
  split_greedy (ascii "aaaaabaaaacaa") (ascii "aa") [ascii "x"] (by decide)

/-! ## Percent coding -/

theorem urlEnCodeByte_cases (b : Bool) (e : UInt8) :
    (urlEnCodeByte b e = [e] ∧ e ≠ 43 ∧ e ≠ 37) ∨ (urlEnCodeByte b e = [43] ∧ b = true ∧ e = 32) ∨
      urlEnCodeByte b e = [37, hexDigit (e / 16), hexDigit (e % 16)] := by
  revert b e
  decide +kernel

theorem decodedByte_hexDigit : ∀ e : UInt8,
    decodedByte (conv (hexDigit (e / 16))) (conv (hexDigit (e % 16))) = e := by
  decide +kernel

@[simp] theorem urlDecode_plain (c : UInt8) (s : Bytes) (b : Bool) (hp : c ≠ 43) (hc : c ≠ 37) :
    urlDecode (c :: s) b = c :: urlDecode s b := by
  rw [urlDecode.eq_def]
  simp [hp, hc]

@[simp] theorem urlDecode_plus (s : Bytes) : urlDecode (43 :: s) true = 32 :: urlDecode s true := by
  rw [urlDecode.eq_def]
  simp

@[simp] theorem urlDecode_escape (x y : UInt8) (s : Bytes) (b : Bool) :
    urlDecode (37 :: x :: y :: s) b = decodedByte (conv x) (conv y) :: urlDecode s b := by
  rw [urlDecode.eq_def]
  simp

theorem urlDecode_urlEnCodeByte (b : Bool) (e : UInt8) (s : Bytes) :
    urlDecode (urlEnCodeByte b e ++ s) b = e :: urlDecode s b := by
  rcases urlEnCodeByte_cases b e with ⟨h, hp, hc⟩ | ⟨h, hb, he⟩ | h
  · simp [h, hp, hc]
  · subst hb
    rw [h, he]
    exact urlDecode_plus s
  · simp [h, decodedByte_hexDigit]

/-- Decoding undoes encoding, for either treatment of blanks. -/
theorem urlDecode_encoded (s : Bytes) (b : Bool) : urlDecode (urlEnCode s b) b = s := by
  induction s with
  | nil => simp [urlEnCode, urlDecode]
  | cons e s ih =>
    have h : urlEnCode (e :: s) b = urlEnCodeByte b e ++ urlEnCode s b := by simp [urlEnCode]
    rw [h, urlDecode_urlEnCodeByte, ih]

/-- ASCII letters, digits and the four marks that are written as they are. -/
def isUnreserved (c : UInt8) : Bool := isAlnum c || c == 45 || c == 95 || c == 126 || c == 46

def isUpperHex (c : UInt8) : Bool := isDigit c || (65 ≤ c && c ≤ 70)

/-- Percent-coded text: unreserved bytes, `%XX` groups and, if blanks become `+`, plus signs. -/
inductive Encoded (isSpaceToPlus : Bool) : Bytes → Prop where
  | nil : Encoded isSpaceToPlus []
  | literal {c : UInt8} {s : Bytes} : isUnreserved c → Encoded isSpaceToPlus s →
    Encoded isSpaceToPlus (c :: s)
  | plus {s : Bytes} : isSpaceToPlus → Encoded isSpaceToPlus s → Encoded isSpaceToPlus (43 :: s)
  | escape {x y : UInt8} {s : Bytes} : isUpperHex x → isUpperHex y → Encoded isSpaceToPlus s →
      Encoded isSpaceToPlus (37 :: x :: y :: s)

theorem isUpperHex_hexDigit :
    ∀ e : UInt8, isUpperHex (hexDigit (e / 16)) ∧ isUpperHex (hexDigit (e % 16)) := by
  decide +kernel

theorem encoded_urlEnCodeByte (b : Bool) (e : UInt8) {s : Bytes} (h : Encoded b s) :
    Encoded b (urlEnCodeByte b e ++ s) := by
  unfold urlEnCodeByte
  split
  · rename_i he
    refine .literal ?_ h
    simp only [isUnreserved, Bool.or_eq_true, beq_iff_eq]
    tauto
  · split
    · rename_i he
      exact .plus he.1 h
    · exact .escape (isUpperHex_hexDigit e).1 (isUpperHex_hexDigit e).2 h

theorem encoded_urlEnCode (s : Bytes) (b : Bool) : Encoded b (urlEnCode s b) := by
  induction s with
  | nil => exact .nil
  | cons e s ih =>
    rw [urlEnCode, List.flatMap_cons]
    exact encoded_urlEnCodeByte b e ih

/-- Percent coding is undone by decoding, and its text is percent-coded text. -/
theorem percent_coding (s : Bytes) (b : Bool) :
    urlDecode (urlEnCode s b) b = s ∧ Encoded b (urlEnCode s b) :=
  ⟨urlDecode_encoded s b, encoded_urlEnCode s b⟩

end Uitl
end MuduoServer
