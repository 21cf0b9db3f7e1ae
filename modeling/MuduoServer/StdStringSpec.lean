import Mathlib.Data.FinEnum
import Mathlib.Data.List.TakeWhile
import MuduoServer.Cuts
import MuduoServer.StdString

/-!
# Facts about the string library

Where `find` stops, what `std::stol` makes of digits, that it undoes
`std::to_string`, and what a map holds after a list of insertions.
-/
namespace StdString

open Cuts (FirstAt firstAt_cons firstAt_of_not_mem not_infix_of_not_mem)

/-- A needle is found where it stands first. -/
theorem findFrom_firstAt {sub l rest : Bytes} (h : FirstAt sub l rest) :
    findFrom sub (l ++ (sub ++ rest)) = some l.length := by
  induction l with
  | nil =>
    have hp : sub <+: sub ++ rest := List.prefix_append sub rest
    rw [List.nil_append]
    cases he : sub ++ rest with
    | nil => rw [findFrom, if_pos (List.append_eq_nil_iff.mp he).1, List.length_nil]
    | cons c cs => rw [findFrom, if_pos (he ▸ hp), List.length_nil]
  | cons d l ih =>
    obtain ⟨hhead, htail⟩ := firstAt_cons.mp h
    rw [List.cons_append, findFrom, if_neg hhead, ih htail, Option.map_some, List.length_cons]

theorem findFrom_eq_none {sub s : Bytes} (h : ¬sub <:+: s) : findFrom sub s = none := by
  induction s with
  | nil =>
    have hsub : sub ≠ [] := fun hsub => h (hsub ▸ List.nil_infix)
    rw [findFrom, if_neg hsub]
  | cons d s ih =>
    have hhead : ¬sub <+: d :: s := fun hp => h hp.isInfix
    rw [findFrom, if_neg hhead, ih fun hin => h (List.infix_cons hin), Option.map_none]

theorem find_firstAt {s sub l rest : Bytes} {offset : Nat} (hs : s.drop offset = l ++ (sub ++ rest))
    (h : FirstAt sub l rest) : find s sub offset = some (offset + l.length) := by
  rw [find, hs, findFrom_firstAt h, Option.map_some, Nat.add_comm]

theorem find_absent {s sub : Bytes} {offset : Nat} (h : ¬sub <:+: s.drop offset) :
    find s sub offset = none := by
  rw [find, findFrom_eq_none h, Option.map_none]

/-- A needle whose first byte does not occur earlier is found where it stands. -/
theorem find_eq (s : Bytes) (c : UInt8) (sub : Bytes) (offset : Nat) (l rest : Bytes)
    (hs : s.drop offset = l ++ (c :: sub ++ rest)) (hl : c ∉ l) :
    find s (c :: sub) offset = some (offset + l.length) :=
  find_firstAt hs (firstAt_of_not_mem hl)

theorem find_eq_none (s : Bytes) (c : UInt8) (sub : Bytes) (offset : Nat) (hs : c ∉ s.drop offset) :
    find s (c :: sub) offset = none :=
  find_absent (not_infix_of_not_mem hs)

/-- A search for one byte succeeds when the byte occurs. -/
theorem find_byte (s : Bytes) (c : UInt8) : find s [c] 0 = none ↔ c ∉ s := by
  constructor
  · intro h hmem
    obtain ⟨l, rest, hs, hl⟩ := List.eq_append_cons_of_mem hmem
    rw [find_eq s c [] 0 l rest (by simpa using hs) hl] at h
    cases h
  · intro h
    exact find_eq_none s c [] 0 (by simpa using h)

theorem substr_eq {s l rest : Bytes} (hs : s = l ++ rest) : substr s 0 l.length = .ok l := by
  simp [substr, hs]

theorem substrFrom_eq {s l rest : Bytes} (pos : Nat) (hs : s = l ++ rest) (hpos : pos = l.length) :
    substrFrom s pos = .ok rest := by
  subst hs hpos
  rw [substrFrom, substr, if_pos (by simp), List.drop_left, List.take_of_length_le (by simp)]

/-! ## Numbers -/

theorem isDigit_class : ∀ d : UInt8, isDigit d → isSpace d = false ∧ d ≠ 45 ∧ d ≠ 43 := by
  decide +kernel

theorem stol_digits {val : Bytes} (hne : val ≠ []) (hd : ∀ d ∈ val, isDigit d)
    (hle : (decimal val : Int) ≤ longMax) : stol val = .ok (decimal val) := by
  obtain ⟨d, ds, rfl⟩ := List.exists_cons_of_ne_nil hne
  obtain ⟨hspace, hminus, hplus⟩ := isDigit_class d (hd d List.mem_cons_self)
  have hdrop : (d :: ds).dropWhile isSpace = d :: ds :=
    List.dropWhile_cons_of_neg (by simp [hspace])
  have htake : (d :: ds).takeWhile isDigit = d :: ds := List.takeWhile_eq_self_iff.mpr hd
  have hmin : longMin ≤ (decimal (d :: ds) : Int) := by simp only [longMin]; omega
  simp [stol, hdrop, hminus, hplus, htake, hmin, hle]

theorem digitByte (c : Char) (h : c.isDigit) :
    isDigit c.toNat.toUInt8 ∧ c.toNat.toUInt8.toNat - 48 = c.toNat - '0'.toNat := by
  obtain ⟨hlo, hhi⟩ : 48 ≤ c.toNat ∧ c.toNat ≤ 57 := by
    simpa [Char.isDigit, UInt32.le_iff_toNat_le] using h
  have hsmall : c.toNat.toUInt8.toNat = c.toNat := by simp; omega
  refine ⟨?_, by rw [hsmall]; rfl⟩
  simp only [isDigit, Bool.and_eq_true, decide_eq_true_eq, UInt8.le_iff_toNat_le, hsmall]
  exact ⟨hlo, hhi⟩

theorem numeral_ne_nil (n : Nat) : numeral n ≠ [] := by
  simp [numeral, Nat.toDigits_ne_nil]

theorem numeral_isDigit (n : Nat) : ∀ d ∈ numeral n, isDigit d := by
  intro d hd
  obtain ⟨c, hc, rfl⟩ := List.mem_map.mp hd
  exact (digitByte c (Nat.isDigit_of_mem_toDigits (by decide) (by decide) hc)).1

theorem decimal_numeral (n : Nat) : decimal (numeral n) = n := by
  have hfold : ∀ (cs : List Char) (v : Nat), (∀ c ∈ cs, c.isDigit) →
      (cs.map (fun c => c.toNat.toUInt8)).foldl (fun v d => 10 * v + (d.toNat - 48)) v =
        Nat.ofDigitChars 10 cs v := by
    intro cs
    induction cs with
    | nil => simp
    | cons c cs ih =>
      intro v h
      rw [List.map_cons, List.foldl_cons, Nat.ofDigitChars_cons,
        (digitByte c (h c List.mem_cons_self)).2]
      exact ih _ (fun d hd => h d (List.mem_cons_of_mem _ hd))
  have hdig : ∀ c ∈ Nat.toDigits 10 n, c.isDigit :=
    fun c hc => Nat.isDigit_of_mem_toDigits (by decide) (by decide) hc
  rw [decimal, numeral, hfold _ _ hdig, Nat.ofDigitChars_ten_toDigits]

/-- `std::stol` undoes `std::to_string`, and the conversion to `size_t` keeps the value. -/
theorem stol_numeral {n : Nat} (h : (n : Int) ≤ longMax) :
    (stol (numeral n)).map toSizeT = .ok n := by
  rw [stol_digits (numeral_ne_nil n) (numeral_isDigit n) (by rwa [decimal_numeral]),
    decimal_numeral]
  simp only [longMax] at h
  simp only [Except.map, toSizeT, Except.ok.injEq]
  omega

/-! ## Maps -/

/-- Insert the pairs of `kvs` one after the other. -/
def insertAll (m : StrMap) (kvs : List (Bytes × Bytes)) : StrMap :=
  kvs.foldl (fun m kv => insertNew m kv.1 kv.2) m

theorem insertAll_cons (m : StrMap) (kv : Bytes × Bytes) (kvs : List (Bytes × Bytes)) :
    insertAll m (kv :: kvs) = insertAll (insertNew m kv.1 kv.2) kvs := rfl

/-- A walk over a map meets its pairs, in whatever order. -/
theorem mem_of_perm_entries {m : StrMap} {l : List (Bytes × Bytes)}
    (h : l.Perm (m.entries.map fun e => (e.1, e.2))) (key val : Bytes) :
    (key, val) ∈ l ↔ m.lookup key = some val := by
  rw [h.mem_iff, List.mem_map]
  constructor
  · rintro ⟨e, he, heq⟩
    cases heq
    exact AList.mem_lookup_iff.mpr he
  · intro hval
    exact ⟨⟨key, val⟩, AList.mem_lookup_iff.mp hval, rfl⟩

/-- A value that is present stays, whatever is inserted. -/
theorem lookup_insertNew_or (m : StrMap) (key val key' : Bytes) :
    (insertNew m key val).lookup key' =
    (m.lookup key').or (if key' = key then some val else none) := by
  unfold insertNew
  by_cases hkey : key' = key
  · subst hkey
    rw [if_pos rfl]
    split
    · rename_i hmem
      obtain ⟨v, hv⟩ := Option.isSome_iff_exists.mp (AList.lookup_isSome.mpr hmem)
      rw [hv]
      rfl
    · rename_i hnot
      rw [AList.lookup_insert, AList.lookup_eq_none.mpr hnot]
      rfl
  · rw [if_neg hkey, Option.or_none]
    split
    · rfl
    · exact AList.lookup_insert_ne hkey

theorem lookup_insertNew (m : StrMap) (key val key' : Bytes) (h : key ∉ m) :
    (insertNew m key val).lookup key' = if key' = key then some val else m.lookup key' := by
  rw [lookup_insertNew_or]
  by_cases hkey : key' = key
  · rw [if_pos hkey, if_pos hkey, hkey, AList.lookup_eq_none.mpr h, Option.none_or]
  · rw [if_neg hkey, if_neg hkey, Option.or_none]

/-- Pairs with distinct new keys are all in the map, and nothing else is new. -/
theorem lookup_insertAll (m : StrMap) (kvs : List (Bytes × Bytes)) (hd : (kvs.map Prod.fst).Nodup)
    (hm : ∀ kv ∈ kvs, kv.1 ∉ m) (key val : Bytes) :
    (insertAll m kvs).lookup key = some val ↔ (key, val) ∈ kvs ∨ m.lookup key = some val := by
  induction kvs generalizing m with
  | nil => simp [insertAll]
  | cons kv kvs ih =>
    obtain ⟨k, v⟩ := kv
    obtain ⟨hk, hd⟩ := List.nodup_cons.mp hd
    have hkm : k ∉ m := hm (k, v) List.mem_cons_self
    have hnew : ∀ kv ∈ kvs, kv.1 ∉ insertNew m k v := by
      intro kv hkv
      have hne : kv.1 ≠ k := fun he => hk (List.mem_map.mpr ⟨kv, hkv, he⟩)
      rw [insertNew, if_neg hkm, AList.mem_insert]
      rintro (he | hmem)
      · exact hne he
      · exact hm kv (List.mem_cons_of_mem _ hkv) hmem
    rw [insertAll_cons, ih _ hd hnew, lookup_insertNew m k v key hkm, List.mem_cons, Prod.mk.injEq]
    by_cases he : key = k
    · subst he
      have hnot : (key, val) ∉ kvs := fun h => hk (List.mem_map.mpr ⟨_, h, rfl⟩)
      have hnone : m.lookup key = none := AList.lookup_eq_none.mpr hkm
      simp [hnot, hnone, eq_comm]
    · simp [he]

end StdString
