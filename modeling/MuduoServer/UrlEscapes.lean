import MuduoServer.UitlSpec

/-!
# Which escapes are decoded

`UrlDecode` takes the two characters behind every `%`, whatever they are: `CONV` counts all letters
as digits and gives -1 for other characters, which nobody checks. What it does with a `%` is what
percent coding means exactly if both characters are hexadecimal digits.
-/
namespace MuduoServer

open StdString

namespace Uitl

/-- What one iteration of the loop of `UrlDecode` reads. -/
inductive Reading where
  | plain (c : UInt8)
  | plus
  | escape (first second : UInt8)
  deriving DecidableEq

/-- What it appends to `ret`. -/
def Reading.byte : Reading → UInt8
  | .plain c => c
  | .plus => 32
  | .escape first second => decodedByte (conv first) (conv second)

/-- The characters it consumes. -/
def Reading.text : Reading → Bytes
  | .plain c => [c]
  | .plus => [43]
  | .escape first second => [37, first, second]

/-- The iterations of `UrlDecode`. -/
def readings : Bytes → Bool → List Reading
  | [], _ => []
  | c :: rest, isSpaceToPlus =>
    if c = 43 ∧ isSpaceToPlus then .plus :: readings rest isSpaceToPlus
    else if c = 37 then
      match rest with
      | a :: b :: rest => .escape a b :: readings rest isSpaceToPlus
      | _ => []
    else .plain c :: readings rest isSpaceToPlus

/-- A digit of base 16. -/
def isHexDigit (c : UInt8) : Bool := isDigit c || (65 ≤ c && c ≤ 70) || (97 ≤ c && c ≤ 102)

/-- Its value. -/
def hexValue (c : UInt8) : Nat :=
  if isDigit c then c.toNat - 48 else if c ≤ 70 then c.toNat - 55 else c.toNat - 87

/-- Every `%` is followed by two hexadecimal digits, or by less than two characters. -/
inductive WellEscaped : Bytes → Prop where
  | nil : WellEscaped []
  | plain {c : UInt8} {s : Bytes} : c ≠ 37 → WellEscaped s → WellEscaped (c :: s)
  | escape {a b : UInt8} {s : Bytes} : isHexDigit a → isHexDigit b → WellEscaped s →
    WellEscaped (37 :: a :: b :: s)
  | cut {s : Bytes} : s.length < 2 → WellEscaped (37 :: s)

/-- The digits of an escape are real, and it stands for their value. -/
def Reading.Real : Reading → UInt8 → Prop
  | .escape first second, byte =>
    isHexDigit first ∧ isHexDigit second ∧ byte.toNat = 16 * hexValue first + hexValue second
  | _, _ => True

@[simp] theorem readings_plain (c : UInt8) (s : Bytes) (b : Bool) (hc : c ≠ 37) :
    readings (c :: s) b = (if c = 43 ∧ b then .plus else .plain c) :: readings s b := by
  rw [readings.eq_def]
  dsimp only
  split <;> simp [*]

@[simp] theorem readings_escape (x y : UInt8) (s : Bytes) (b : Bool) :
    readings (37 :: x :: y :: s) b = .escape x y :: readings s b := by
  rw [readings.eq_def]
  simp

theorem readings_cut {s : Bytes} (b : Bool) (hs : s.length < 2) : readings (37 :: s) b = [] := by
  rw [readings.eq_def]
  match s, hs with
  | [], _ => simp
  | [_], _ => simp

/-- The output is the bytes of the iterations. -/
theorem urlDecode_readings (s : Bytes) (b : Bool) :
    urlDecode s b = (readings s b).map Reading.byte := by
  fun_induction readings s b with
  | case1 => rfl
  | case2 c rest b h ih =>
    obtain ⟨rfl, rfl⟩ := h
    rw [urlDecode_plus, ih]
    rfl
  | case3 b x y rest h ih =>
    rw [urlDecode_escape, ih]
    rfl
  | case4 rest b hrest h =>
    rw [urlDecode.eq_def]
    dsimp only
    rw [if_neg h, if_pos rfl]
    split
    · exact absurd rfl (hrest _ _ _)
    · rfl
  | case5 c rest b h hc ih =>
    rw [urlDecode.eq_def]
    simp [h, hc, ih, Reading.byte]

/-- The iterations read the string from left to right, up to a `%` too near to its end. -/
theorem readings_text (s : Bytes) (b : Bool) :
    ∃ rest, s = (readings s b).flatMap Reading.text ++ rest ∧
    (rest = [] ∨ ∃ t, rest = 37 :: t ∧ t.length < 2) := by
  fun_induction readings s b with
  | case1 => exact ⟨[], rfl, .inl rfl⟩
  | case2 c rest b h ih =>
    obtain ⟨r, hr, hend⟩ := ih
    exact ⟨r, by rw [List.flatMap_cons, List.append_assoc, ← hr, h.1]; rfl, hend⟩
  | case3 b x y rest h ih =>
    obtain ⟨r, hr, hend⟩ := ih
    exact ⟨r, by rw [List.flatMap_cons, List.append_assoc, ← hr]; rfl, hend⟩
  | case4 rest b hrest h =>
    refine ⟨37 :: rest, rfl, .inr ⟨rest, rfl, ?_⟩⟩
    match rest, hrest with
    | [], _ => simp
    | [_], _ => simp
    | x :: y :: r, hrest => exact absurd rfl (hrest x y r)
  | case5 c rest b h hc ih =>
    obtain ⟨r, hr, hend⟩ := ih
    exact ⟨r, by rw [List.flatMap_cons, List.append_assoc, ← hr]; rfl, hend⟩

theorem conv_hex : ∀ c : UInt8, isHexDigit c → conv c = hexValue c ∧ hexValue c < 16 := by
  decide +kernel

theorem decodedByte_hex {x y : UInt8} (hx : isHexDigit x) (hy : isHexDigit y) :
    (decodedByte (conv x) (conv y)).toNat = 16 * hexValue x + hexValue y := by
  obtain ⟨hx, hx'⟩ := conv_hex x hx
  obtain ⟨hy, hy'⟩ := conv_hex y hy
  rw [decodedByte, hx, hy, UInt8.toNat_ofNat']
  omega

theorem real_iff_wellEscaped (s : Bytes) (b : Bool) :
    (∀ r ∈ readings s b, r.Real r.byte) ↔ WellEscaped s := by
  constructor
  · intro h
    fun_induction readings s b with
    | case1 => exact .nil
    | case2 c rest b hp ih =>
      rw [hp.1]
      exact .plain (by decide) (ih fun r hr => h r (List.mem_cons_of_mem _ hr))
    | case3 b x y rest hp ih =>
      obtain ⟨hx, hy, -⟩ := h _ List.mem_cons_self
      exact .escape hx hy (ih fun r hr => h r (List.mem_cons_of_mem _ hr))
    | case4 rest b hrest hp =>
      refine .cut ?_
      match rest, hrest with
      | [], _ => simp
      | [_], _ => simp
      | x :: y :: r, hrest => exact absurd rfl (hrest x y r)
    | case5 c rest b hp hc ih => exact .plain hc (ih fun r hr => h r (List.mem_cons_of_mem _ hr))
  · intro h
    induction h with
    | nil => intro r hr; cases hr
    | @plain c s hc _ ih =>
      rw [readings_plain c s b hc]
      intro r hr
      rcases List.mem_cons.mp hr with rfl | hr
      · split <;> trivial
      · exact ih r hr
    | @escape x y s hx hy _ ih =>
      rw [readings_escape]
      intro r hr
      rcases List.mem_cons.mp hr with rfl | hr
      · exact ⟨hx, hy, decodedByte_hex hx hy⟩
      · exact ih r hr
    | cut hs =>
      rw [readings_cut b hs]
      intro r hr
      cases hr

/-- `UrlDecode` reads the string from left to right. What it replaces are escapes with two
hexadecimal digits, and the byte is their value, exactly if every `%` is followed by two such digits
or stands too near to the end. -/
theorem urlDecode_escapes (s : Bytes) (b : Bool) :
    urlDecode s b = (readings s b).map Reading.byte ∧
      (∃ rest, s = (readings s b).flatMap Reading.text ++ rest ∧
        (rest = [] ∨ ∃ t, rest = 37 :: t ∧ t.length < 2)) ∧
      ((∀ r ∈ readings s b, r.Real r.byte) ↔ WellEscaped s) :=
  ⟨urlDecode_readings s b, readings_text s b, real_iff_wellEscaped s b⟩

/-- `%G0` is taken for the byte 0. -/
theorem urlDecode_letter : urlDecode (ascii "%G0") false = [0] ∧
    ¬∀ r ∈ readings (ascii "%G0") false, r.Real r.byte := by
  refine ⟨by decide, fun h => ?_⟩
  cases (h (.escape 71 48) (by decide)).1

end Uitl
end MuduoServer
