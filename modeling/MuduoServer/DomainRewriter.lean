import MuduoServer.Rewrite
import MuduoServer.StdStringSpec

/-!
# The domain rewriter

The program of `Clear.cc` replaces the old domains in the text files of a site, one `replace_all`
after the other over the whole text. A simultaneous sweep replaces what stood in the file, and
nothing that a rule has inserted.
-/
namespace MuduoServer

open StdString Rewrite
open Cuts (first_or_none sweep_first sweep_none)

namespace DomainRewriter

/-- The loop of `replace_all`; an iteration moves `lastPos` past at least one byte. -/
def replaceLoop (input from_ to_ : Bytes) : Nat → Nat → Bytes → Except Fault Bytes
  | 0, _, result => .ok result
  | fuel + 1, lastPos, result =>
    match find input from_ lastPos with
    | some pos => do
      let piece ← substr input lastPos (pos - lastPos)
      replaceLoop input from_ to_ fuel (pos + from_.length) (result ++ piece ++ to_)
    | none => do
      let piece ← substr input lastPos (input.length - lastPos)
      return result ++ piece

def replaceAll (input from_ to_ : Bytes) : Except Fault Bytes :=
  if from_ = [] then .ok input else replaceLoop input from_ to_ (input.length + 1) 0 []

/-- The new content of a file. `old` is the first and `new` the second of a pair. -/
def replaceContent (replacements : List (Rule UInt8)) (content : Bytes) : Except Fault Bytes :=
  replacements.foldlM (fun newContent pair => replaceAll newContent pair.old pair.new) content

structure Options where
  newDomain : Bytes
  backup : Bool

/-- Whether an argument is taken for the new domain. -/
def isDomain (arg : Bytes) : Bool :=
  find arg (ascii "http://") 0 = some 0 || find arg (ascii "https://") 0 = some 0 ||
    find arg (ascii "//") 0 = some 0

def parseOption (options : Options) (arg : Bytes) : Options :=
  if arg = ascii "--backup" then { options with backup := true }
  else if isDomain arg then { options with newDomain := arg }
  else options

/-- The arguments of `main` behind the directory. -/
def parseOptions (args : List Bytes) : Options := args.foldl parseOption ⟨[], false⟩

def replacements (newDomain : Bytes) : List (Rule UInt8) :=
  [⟨ascii "https://www.ymgal.games", newDomain⟩,
    ⟨ascii "http://www.ymgal.games", newDomain⟩,
    ⟨ascii "https://ymgal.games", newDomain⟩,
    ⟨ascii "http://ymgal.games", newDomain⟩,
    ⟨ascii "https://cdn.ymgal.games", if newDomain = [] then [] else newDomain ++ ascii "/cdn"⟩]

/-- What `main` makes of the content of a file. -/
def rewrite (args : List Bytes) (content : Bytes) : Except Fault Bytes :=
  replaceContent (replacements (parseOptions args).newDomain) content

/-! ## `replace_all` is a sweep -/

theorem findFrom_zero {sub s : Bytes} (hs : findFrom sub s = some 0) : sub <+: s := by
  rcases first_or_none sub s with hno | ⟨g, rest, rfl, hfirst⟩
  · rw [findFrom_eq_none hno] at hs
    cases hs
  · rw [findFrom_firstAt hfirst, Option.some.injEq, List.length_eq_zero_iff] at hs
    rw [hs, List.nil_append]
    exact List.prefix_append _ _

/-- The first place of a pattern is where the sweep replaces it first. -/
theorem sweep_findFrom {q : Rule UInt8} (hq : q.old ≠ []) (s : Bytes) :
    sweep [q] s = match findFrom q.old s with
      | some pos => s.take pos ++ (q.new ++ sweep [q] (s.drop (pos + q.old.length)))
      | none => s := by
  rcases first_or_none q.old s with hno | ⟨g, rest, rfl, hfirst⟩
  · rw [findFrom_eq_none hno]
    exact sweep_none hno
  · rw [findFrom_firstAt hfirst, sweep_first hq hfirst]
    simp only [List.take_left, ← List.drop_drop, List.drop_left]

theorem replaceLoop_eq (input : Bytes) {q : Rule UInt8} (hq : q.old ≠ []) (fuel lastPos : Nat)
    (result : Bytes) (hpos : lastPos ≤ input.length) (hfuel : input.length < fuel + lastPos) :
    replaceLoop input q.old q.new fuel lastPos result =
      .ok (result ++ sweep [q] (input.drop lastPos)) := by
  induction fuel generalizing lastPos result with
  | zero => omega
  | succ fuel ih =>
    rw [replaceLoop, sweep_findFrom hq, find]
    cases hf : findFrom q.old (input.drop lastPos) with
    | none =>
      have hall : (input.drop lastPos).take (input.length - lastPos) = input.drop lastPos :=
        List.take_of_length_le (by rw [List.length_drop])
      simp [substr, hpos, hall, pure, Except.pure, bind, Except.bind]
    | some pos =>
      have hle := find_le (input.drop lastPos) q.old pos (by simp [find, hf])
      rw [List.length_drop] at hle
      have hold := List.length_pos_iff.mpr hq
      have hnext : lastPos + (pos + q.old.length) = pos + lastPos + q.old.length := by omega
      simp only [Option.map_some, substr, hpos, if_true, bind, Except.bind]
      rw [ih _ _ (by omega) (by omega)]
      simp [hnext]

theorem replaceAll_eq (input : Bytes) {q : Rule UInt8} (hq : q.old ≠ []) :
    replaceAll input q.old q.new = .ok (sweep [q] input) := by
  rw [replaceAll, if_neg hq, replaceLoop_eq input hq _ 0 [] (Nat.zero_le _) (by omega)]
  rfl

/-- The replacements of a file are a chain, without an exception. -/
theorem replaceContent_eq {rules : List (Rule UInt8)} (hrules : ∀ q ∈ rules, q.old ≠ [])
    (content : Bytes) :
    replaceContent rules content = .ok (chain rules content) := by
  induction rules generalizing content with
  | nil => rfl
  | cons q rules ih =>
    rw [replaceContent, List.foldlM_cons, replaceAll_eq content (hrules q List.mem_cons_self)]
    exact ih (fun r hr => hrules r (List.mem_cons_of_mem q hr)) _

/-! ## The old domains -/

def oldDomains : List Bytes := (replacements []).map Rule.old

theorem map_old (newDomain : Bytes) : (replacements newDomain).map Rule.old = oldDomains := rfl

theorem oldDomains_spec : oldDomains.Nodup ∧ ∀ a ∈ oldDomains, a.head? = some 104 ∧ 104 ∉ a.tail ∧
    ∀ b ∈ oldDomains, a <+: b → a = b := by
  decide

theorem replacements_nodup (newDomain : Bytes) : (replacements newDomain).Nodup :=
  List.Nodup.of_map Rule.old (map_old newDomain ▸ oldDomains_spec.1)

theorem old_mem {newDomain : Bytes} {q : Rule UInt8} (hq : q ∈ replacements newDomain) :
    q.old ∈ oldDomains :=
  map_old newDomain ▸ List.mem_map_of_mem hq

/-- Every old domain begins with the one `h` in it. -/
theorem replacements_apart (newDomain : Bytes) : Apart 104 (replacements newDomain) where
  starts q hq := by
    obtain ⟨hhead, htail, -⟩ := oldDomains_spec.2 q.old (old_mem hq)
    refine ⟨q.old.tail, ?_, htail⟩
    rw [List.eq_cons_of_mem_head? hhead]
    rfl
  prefixFree r hr q hq hp := by
    have hnd : ((replacements newDomain).map Rule.old).Nodup :=
      map_old newDomain ▸ oldDomains_spec.1
    exact List.inj_on_of_nodup_map hnd hr hq
      ((oldDomains_spec.2 r.old (old_mem hr)).2.2 q.old (old_mem hq) hp)

theorem rewrite_eq (args : List Bytes) (content : Bytes) :
    rewrite args content = .ok (chain (replacements (parseOptions args).newDomain) content) :=
  replaceContent_eq (fun _ hq => (replacements_apart _).old_ne_nil hq) content

/-! ## The new domain -/

/-- A new domain is empty or has two slashes. -/
def Accepted (newDomain : Bytes) : Prop := newDomain = [] ∨ 2 ≤ newDomain.count 47

theorem isDomain_slashes {arg : Bytes} (harg : isDomain arg) : 2 ≤ arg.count 47 := by
  simp only [isDomain, Bool.or_eq_true, decide_eq_true_eq] at harg
  have hcount : ∀ lead : Bytes, 2 ≤ lead.count 47 → find arg lead 0 = some 0 →
      2 ≤ arg.count 47 := by
    intro lead hlead hfind
    have hp : lead <+: arg := findFrom_zero (by simpa [find] using hfind)
    exact hlead.trans (hp.sublist.count_le 47)
  rcases harg with (hfind | hfind) | hfind
  · exact hcount _ (by decide) hfind
  · exact hcount _ (by decide) hfind
  · exact hcount _ (by decide) hfind

theorem parseOption_accepted {options : Options} (ho : Accepted options.newDomain) (arg : Bytes) :
    Accepted (parseOption options arg).newDomain := by
  unfold parseOption
  split
  · exact ho
  · split
    · exact .inr (isDomain_slashes ‹_›)
    · exact ho

theorem parseOptions_accepted (args : List Bytes) : Accepted (parseOptions args).newDomain := by
  have hfold : ∀ options : Options, Accepted options.newDomain →
      Accepted (args.foldl parseOption options).newDomain := by
    induction args with
    | nil => exact fun _ ho => ho
    | cons arg args ih => exact fun _ ho => ih _ (parseOption_accepted ho arg)
  exact hfold _ (.inl rfl)

/-! ## The stages of a run that ends at the sweep -/

/-- What the rule at a place of the list has gained. -/
def gain (newDomain content : Bytes) (n : Nat) : Nat :=
  (replacements newDomain)[n]?.elim 0 fun q => gained ((replacements newDomain).take n) q content

section

variable {newDomain content : Bytes}

theorem gain_stage {front : List (Rule UInt8)} {q : Rule UInt8}
    (hp : front ++ [q] <+: replacements newDomain) :
    gain newDomain content front.length = 0 ↔
      occurrences q (chain front content) = occurrences q content := by
  obtain ⟨hfront, hq⟩ := stage_index hp
  have hin : front ⊆ replacements newDomain := fun _ hr => hp.subset (List.mem_append_left _ hr)
  have hnew := (not_mem_of_nodup_concat ((replacements_nodup newDomain).sublist hp.sublist)).2
  rw [gain, hq, ← hfront]
  exact gained_eq_zero (replacements_apart newDomain) hin (hp.subset (by simp)) hnew

/-- Letters of a kind that the gained occurrences took away, and what they brought. -/
theorem gain_balance
    (he : chain (replacements newDomain) content = sweep (replacements newDomain) content)
    (p : UInt8 → Bool) :
    gain newDomain content 1 * (ascii "http://www.ymgal.games").countP p +
      (gain newDomain content 2 * (ascii "https://ymgal.games").countP p +
      (gain newDomain content 3 * (ascii "http://ymgal.games").countP p +
      gain newDomain content 4 * (ascii "https://cdn.ymgal.games").countP p)) =
    gain newDomain content 1 * newDomain.countP p + (gain newDomain content 2 * newDomain.countP p +
      (gain newDomain content 3 * newDomain.countP p +
      gain newDomain content 4 *
        (if newDomain = [] then [] else newDomain ++ ascii "/cdn").countP p)) := by
  have hall := gains_balance (replacements_apart newDomain) (List.Subset.refl _)
    (replacements_nodup newDomain) he p
  simpa [replacements, weigh, gain] using hall

/-- What the slashes, dots, letters `s` and lengths of the old domains leave possible. -/
theorem gains_lone {a b c d slashes dots ess len : Nat} (hs : 2 ≤ slashes)
    (hslash : a * 2 + (b * 2 + (c * 2 + d * 2)) = a * slashes + (b * slashes + (c * slashes + d * (slashes + 1))))
    (hdot : a * 2 + (b * 1 + (c * 1 + d * 2)) = a * dots + (b * dots + (c * dots + d * dots)))
    (hess : a * 1 + (b * 2 + (c * 1 + d * 2)) = a * ess + (b * ess + (c * ess + d * ess)))
    (hlen : a * 22 + (b * 19 + (c * 18 + d * 23)) = a * len + (b * len + (c * len + d * (len + 4)))) :
    d = 0 ∧ (b = 0 ∧ c = 0 ∧ (a = 0 ∨ len = 22) ∨ a = 0 ∧ c = 0 ∧ (b = 0 ∨ len = 19) ∨
      a = 0 ∧ b = 0 ∧ (c = 0 ∨ len = 18)) := by
  have hd : d = 0 := by
    have ha := Nat.mul_le_mul_left a hs
    have hb := Nat.mul_le_mul_left b hs
    have hc := Nat.mul_le_mul_left c hs
    have hd := Nat.mul_le_mul_left d (Nat.add_le_add_right hs 1)
    omega
  subst hd
  have hkeep : ∀ x y : Nat, x * y = x * len → x = 0 ∨ len = y := by
    intro x y hxy
    rcases Nat.eq_zero_or_pos x with hx | hx
    · exact .inl hx
    · exact .inr (Nat.eq_of_mul_eq_mul_left hx hxy).symm
  refine ⟨rfl, ?_⟩
  have hdots : a = 0 ∨ b = 0 ∧ c = 0 := by
    rcases dots with _ | _ | dots
    · omega
    · omega
    · simp only [Nat.mul_add] at hdot
      omega
  rcases hdots with rfl | ⟨rfl, rfl⟩
  · have hess : b = 0 ∨ c = 0 := by
      rcases ess with _ | _ | ess
      · omega
      · omega
      · simp only [Nat.mul_add] at hess
        omega
    rcases hess with rfl | rfl
    · exact .inr (.inr ⟨rfl, rfl, hkeep c 18 (by simpa using hlen)⟩)
    · exact .inr (.inl ⟨rfl, rfl, hkeep b 19 (by simpa using hlen)⟩)
  · exact .inl ⟨rfl, rfl, hkeep a 22 (by simpa using hlen)⟩

/-- No two stages have gained, and one that has keeps the length. -/
theorem gain_alone (hnew : Accepted newDomain)
    (he : chain (replacements newDomain) content = sweep (replacements newDomain) content) :
    ∃ k, (∀ n, n ≠ k → gain newDomain content n = 0) ∧
      (gain newDomain content k = 0 ∨ ∀ q, (replacements newDomain)[k]? = some q →
        q.old.length = q.new.length) := by
  have hothers : ∀ k, (1 ≠ k → gain newDomain content 1 = 0) →
      (2 ≠ k → gain newDomain content 2 = 0) →
      (3 ≠ k → gain newDomain content 3 = 0) → (4 ≠ k → gain newDomain content 4 = 0) →
      ∀ n, n ≠ k → gain newDomain content n = 0 := by
    rintro k hone htwo hthree hfour (_ | _ | _ | _ | _ | n) hn
    · exact gained_nil _ _
    · exact hone hn
    · exact htwo hn
    · exact hthree hn
    · exact hfour hn
    · simp [gain, replacements]
  rcases hnew with rfl | hs
  · -- the old domains take away letters and nothing brings one
    have hlen : gain [] content 1 * 22 +
        (gain [] content 2 * 19 + (gain [] content 3 * 18 + gain [] content 4 * 23)) =
        gain [] content 1 * 0 + (gain [] content 2 * 0 + (gain [] content 3 * 0 + gain [] content 4 * 0)) :=
      gain_balance he (fun _ => true)
    refine ⟨0, hothers 0 (fun _ => ?_) (fun _ => ?_) (fun _ => ?_) (fun _ => ?_),
      .inl (gained_nil _ _)⟩ <;> omega
  · have hne : newDomain ≠ [] := by
      rintro rfl
      simp at hs
    have hbalance := gain_balance he
    simp only [if_neg hne, List.countP_append] at hbalance
    obtain ⟨hfour, hthree⟩ :=
      gains_lone hs (hbalance (· == 47)) (hbalance (· == 46)) (hbalance (· == 115))
      (hbalance (fun _ => true))
    rw [List.countP_true] at hthree
    rcases hthree with ⟨htwo, hthree, hone⟩ | ⟨hone, hthree, htwo⟩ | ⟨hone, htwo, hthree⟩
    · refine ⟨1, hothers 1 (fun hn => absurd rfl hn) (fun _ => htwo) (fun _ => hthree) (fun _ => hfour),
        hone.imp_right ?_⟩
      rintro hlen q ⟨⟩
      exact hlen.symm
    · refine ⟨2, hothers 2 (fun _ => hone) (fun hn => absurd rfl hn) (fun _ => hthree) (fun _ => hfour),
        htwo.imp_right ?_⟩
      rintro hlen q ⟨⟩
      exact hlen.symm
    · refine ⟨3, hothers 3 (fun _ => hone) (fun _ => htwo) (fun hn => absurd rfl hn) (fun _ => hfour),
        hthree.imp_right ?_⟩
      rintro hlen q ⟨⟩
      exact hlen.symm

end

/-- The run of the program ends at the simultaneous sweep exactly when no rule finds what
was not there. -/
theorem chain_eq_sweep_iff {newDomain content : Bytes} (hnew : Accepted newDomain) :
    chain (replacements newDomain) content = sweep (replacements newDomain) content ↔
      Fresh (replacements newDomain) content := by
  have hsub := List.Subset.refl (replacements newDomain)
  have hapart := replacements_apart newDomain
  have hnd := replacements_nodup newDomain
  refine ⟨fun he => ?_, chain_eq_sweep hapart hsub hnd⟩
  obtain ⟨k, hothers, hk⟩ := gain_alone hnew he
  refine fresh_of_chain_eq hapart hsub hnd (fun front q hp => ?_)
    (fun front q hp hmore r s hr => ?_) he
  · by_cases hz : gain newDomain content front.length = 0
    · exact .inl ((gain_stage hp).mp hz)
    · have hfront : front.length = k := by_contra fun hn => hz (hothers _ hn)
      exact .inr (hk.resolve_left (hfront ▸ hz) q (hfront ▸ (stage_index hp).2))
  · -- the stage that gains is the one at `k`, and `r` stands before it
    have hfront : front.length = k := by_contra fun hn => hmore ((gain_stage hp).mp (hothers _ hn))
    have hlt := hr.length_le
    rw [List.length_append, List.length_singleton] at hlt
    exact (gain_stage (hr.trans ((List.prefix_append _ _).trans hp))).mp (hothers _ (by omega))

/-- The program rewrites each original occurrence once exactly when no old domain turns up that
was not there. -/
theorem rewrite_once (args : List Bytes) (content : Bytes) :
    rewrite args content = .ok (sweep (replacements (parseOptions args).newDomain) content) ↔
      Fresh (replacements (parseOptions args).newDomain) content := by
  rw [rewrite_eq, Except.ok.injEq]
  exact chain_eq_sweep_iff (parseOptions_accepted args)

/-- Without a new domain what stood around a deleted one can join to another. -/
example : rewrite [] (ascii "https://http://www.ymgal.gamesymgal.games/a") = .ok (ascii "/a") := by
  decide

/-- A site that moves to a port of its bare domain gets the port twice. -/
theorem rewrite_again :
    rewrite [ascii "https://ymgal.games:8443"] (ascii "https://www.ymgal.games/a") =
        .ok (ascii "https://ymgal.games:8443:8443/a") ∧
      rewrite [ascii "https://ymgal.games:8443"] (ascii "https://www.ymgal.games/a") ≠
        .ok (sweep (replacements (parseOptions [ascii "https://ymgal.games:8443"]).newDomain)
          (ascii "https://www.ymgal.games/a")) := by
  decide

end DomainRewriter
end MuduoServer
