import Mathlib.Data.List.AList
import Mathlib.Data.UInt

/-!
# C++ strings as byte lists

A `std::string` is the finite list of its bytes; embedded NULs are ordinary
bytes until a string is handed to a C function. The operations below are the
ones the server calls, in the C locale: a call the library answers with an
exception or leaves undefined returns the corresponding `Fault`.
-/
namespace StdString

abbrev Bytes := List UInt8

/-- The bytes of an ASCII literal of the source. -/
def ascii (s : String) : Bytes := s.toList.map (fun c => c.toNat.toUInt8)

/-- What stops a call before it returns: an exception, a failed `assert`, or a
read outside a string or container. -/
inductive Fault where
  | invalidArgument | outOfRange | lengthError | badAlloc | emptyBack | assertion
  deriving DecidableEq, Repr

/-- The faults that are exceptions. -/
def Fault.thrown : Fault → Bool
  | .invalidArgument | .outOfRange | .lengthError | .badAlloc => true
  | .emptyBack | .assertion => false

def isSpace (c : UInt8) : Bool := c == 32 || (9 ≤ c && c ≤ 13)
def isDigit (c : UInt8) : Bool := 48 ≤ c && c ≤ 57
def isUpper (c : UInt8) : Bool := 65 ≤ c && c ≤ 90
def isLower (c : UInt8) : Bool := 97 ≤ c && c ≤ 122
def isAlnum (c : UInt8) : Bool := isDigit c || isUpper c || isLower c
def toUpper (c : UInt8) : UInt8 := if isLower c then c - 32 else c
def toLower (c : UInt8) : UInt8 := if isUpper c then c + 32 else c

/-- First position of `sub`, counted from the front of `s`. -/
def findFrom (sub : Bytes) : Bytes → Option Nat
  | [] => if sub = [] then some 0 else none
  | c :: cs => if sub <+: c :: cs then some 0 else (findFrom sub cs).map (· + 1)

/-- `s.find(sub, offset)`; `none` is `npos`. -/
def find (s sub : Bytes) (offset : Nat) : Option Nat :=
  (findFrom sub (s.drop offset)).map (· + offset)

theorem find_le (s sub : Bytes) (pos : Nat) (h : find s sub 0 = some pos) :
    pos + sub.length ≤ s.length := by
  simp only [find, List.drop_zero, Nat.add_zero, Option.map_id_fun', id_eq] at h
  induction s generalizing pos with
  | nil =>
    simp only [findFrom] at h
    split at h
    · rename_i hs; cases h; simp [hs]
    · cases h
  | cons c cs ih =>
    simp only [findFrom] at h
    split at h
    · rename_i hp; cases h; simpa using hp.length_le
    · cases hf : findFrom sub cs with
      | none => simp [hf] at h
      | some i =>
        have := ih i hf
        simp only [hf, Option.map_some, Option.some.injEq] at h
        simp only [List.length_cons]
        omega

/-- `s.substr(pos, len)`, which throws when `pos` is past the end. -/
def substr (s : Bytes) (pos len : Nat) : Except Fault Bytes :=
  if pos ≤ s.length then .ok ((s.drop pos).take len) else .error .outOfRange

/-- `s.substr(pos)`. -/
def substrFrom (s : Bytes) (pos : Nat) : Except Fault Bytes := substr s pos s.length

/-- `s.back()`, undefined on the empty string. -/
def back (s : Bytes) : Except Fault UInt8 :=
  match s.getLast? with
  | some c => .ok c
  | none => .error .emptyBack

/-- What a C function sees of `s.c_str()`: the bytes before the first NUL. -/
def cStr (s : Bytes) : Bytes := s.takeWhile (· ≠ 0)

/-- `std::to_string` of an unsigned value. -/
def numeral (n : Nat) : Bytes := (Nat.toDigits 10 n).map (fun c => c.toNat.toUInt8)

/-- Value of a run of decimal digits. -/
def decimal (ds : Bytes) : Nat := ds.foldl (fun v d => 10 * v + (d.toNat - 48)) 0

def longMin : Int := -2 ^ 63
def longMax : Int := 2 ^ 63 - 1

/-- `std::stol(s)`: leading blanks, an optional sign, the longest run of digits;
whatever follows is ignored. -/
def stol (s : Bytes) : Except Fault Int :=
  let body := s.dropWhile isSpace
  let negative := body.head? = some 45
  let digits := (if negative ∨ body.head? = some 43 then body.tail else body).takeWhile isDigit
  if digits = [] then .error .invalidArgument
  else
    let value : Int := if negative then -(decimal digits : Int) else decimal digits
    if longMin ≤ value ∧ value ≤ longMax then .ok value else .error .outOfRange

theorem stol_thrown {s : Bytes} {f : Fault} (h : stol s = .error f) : f.thrown = true := by
  unfold stol at h
  extract_lets body negative digits value at h
  by_cases hnone : digits = []
  · rw [if_pos hnone] at h
    cases h
    rfl
  · rw [if_neg hnone] at h
    by_cases hfits : longMin ≤ value ∧ value ≤ longMax
    · rw [if_pos hfits] at h
      cases h
    · rw [if_neg hfits] at h
      cases h
      rfl

/-- Conversion of a signed value to `size_t`. -/
def toSizeT (n : Int) : Nat := (n % 2 ^ 64).toNat

/-- `std::unordered_map<std::string, std::string>`: keys are unique. The order of
`entries` is one the container may use, and no result may depend on it. -/
abbrev StrMap := AList (fun _ : Bytes => Bytes)

/-- `map.insert(make_pair(key, val))`, which keeps the value of a present key. -/
def insertNew (m : StrMap) (key val : Bytes) : StrMap := if key ∈ m then m else m.insert key val

end StdString
