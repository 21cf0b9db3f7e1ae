import MuduoServer.HttpResume

/-!
# Well-formed request lines

The ordered match of the request-line expression on a line of the intended
shape: the lazy target stops at the first `?` it may stop at, and the query
takes everything up to the blank.
-/
namespace MuduoServer

open StdString EcmaRegex Uitl

def methods : List Bytes := [ascii "GET", ascii "POST", ascii "HEAD", ascii "DELETE", ascii "PUT"]

def versions : List Bytes := [ascii "HTTP/1.0", ascii "HTTP/1.1"]

def lineEnds : List Bytes := [[], [10], [13, 10]]

/-- The text of an optional query and the group it leaves. -/
def queryText : Option Bytes → Bytes
  | none => []
  | some q => 63 :: q

def queryGroup : Option Bytes → List (Nat × Bytes)
  | none => []
  | some q => [(3, q)]

theorem toLower_toUpper : ∀ c : UInt8, toLower (toUpper c) = toLower c := by
  decide +kernel

theorem map_toLower_of_toUpper {w l : Bytes} (h : w.map toUpper = l) :
    w.map toLower = l.map toLower := by
  rw [← h, List.map_map]
  exact List.map_congr_left fun c _ => (toLower_toUpper c).symm

section Stages

variable {γ : Type} (k : Match UInt8 → Option γ) (y : γ)

/-- A literal matches its text in any case, in one way. -/
theorem first_icase {s : String} {w : Bytes} (rest : Bytes)
    (h : w.map toLower = (ascii s).map toLower) :
    first (icase s) (w ++ rest) k = k ⟨w, [], rest⟩ := by
  unfold icase
  generalize ascii s = l at h
  induction l generalizing w k with
  | nil =>
    obtain rfl : w = [] := by simpa using h
    simp [Regex.word]
  | cons c l ih =>
    obtain ⟨d, w, rfl, hd, hw⟩ := List.map_eq_cons_iff.mp h
    rw [List.map_cons, Regex.word, first_seq, List.cons_append, first_char_cons,
      if_pos (by simpa using hd)]
    exact ih _ hw

theorem first_icase_none {s : String} {t : Bytes} (h : ¬(ascii s).map toLower <+: t.map toLower) :
    first (icase s) t k = none := by
  unfold icase
  generalize ascii s = l at h
  induction l generalizing t k with
  | nil => simp at h
  | cons c l ih =>
    rw [List.map_cons, Regex.word, first_seq]
    cases t with
    | nil => rfl
    | cons d t =>
      rw [first_char_cons]
      split
      · rename_i hd
        refine ih _ fun hl => h ?_
        rw [List.map_cons, List.map_cons, List.cons_prefix_cons]
        exact ⟨(beq_iff_eq.mp hd).symm, hl⟩
      · rfl

theorem first_method {m : Bytes} (rest : Bytes) (hm : m.map toUpper ∈ methods)
    (hk : k ⟨m, [], rest⟩ = some y) :
    first (.alt (icase "GET") (.alt (icase "POST") (.alt (icase "HEAD")
      (.alt (icase "DELETE") (icase "PUT"))))) (m ++ rest) k = some y := by
  have hother : ∀ s : String, ¬(ascii s).map toLower <+: m.map toLower ++ rest.map toLower →
      first (icase s) (m ++ rest) k = none :=
        fun s h => first_icase_none k (by rwa [List.map_append])
  have hown : ∀ s : String, m.map toUpper = ascii s → first (icase s) (m ++ rest) k = some y :=
    fun s h =>
    (first_icase k rest (map_toLower_of_toUpper h)).trans hk
  simp only [methods, List.mem_cons, List.not_mem_nil, or_false] at hm
  -- the methods before it in the expression start with other letters
  rcases hm with h | h | h | h | h <;> have hl := map_toLower_of_toUpper h
  · simp [hown _ h]
  · have hget := hother "GET" (by rw [hl]; simp [ascii, toLower, isUpper])
    simp [hget, hown _ h]
  · have hget := hother "GET" (by rw [hl]; simp [ascii, toLower, isUpper])
    have hpost := hother "POST" (by rw [hl]; simp [ascii, toLower, isUpper])
    simp [hget, hpost, hown _ h]
  · have hget := hother "GET" (by rw [hl]; simp [ascii, toLower, isUpper])
    have hpost := hother "POST" (by rw [hl]; simp [ascii, toLower, isUpper])
    have hhead := hother "HEAD" (by rw [hl]; simp [ascii, toLower, isUpper])
    simp [hget, hpost, hhead, hown _ h]
  · have hget := hother "GET" (by rw [hl]; simp [ascii, toLower, isUpper])
    have hpost := hother "POST" (by rw [hl]; simp [ascii, toLower, isUpper])
    have hhead := hother "HEAD" (by rw [hl]; simp [ascii, toLower, isUpper])
    have hdelete := hother "DELETE" (by rw [hl]; simp [ascii, toLower, isUpper])
    simp [hget, hpost, hhead, hdelete, hown _ h]

/-- A run of blanks before a byte that is none. -/
theorem first_blanks {ws : Bytes} (tail : Bytes) (hne : ws ≠ []) (hws : ∀ c ∈ ws, isSpace c)
    (htail : ∀ c ∈ tail.head?, isSpace c = false) (hk : k ⟨ws, [], tail⟩ = some y) :
    first (.plus true (.char isSpace)) (ws ++ tail) k = some y := by
  obtain ⟨c, ws, rfl⟩ := List.exists_cons_of_ne_nil hne
  have hc : isSpace c := hws c List.mem_cons_self
  simp only [first_plus, List.cons_append, first_char_cons, hc, if_true]
  apply first_greedy_run
  · exact fun d hd => hws d (List.mem_cons_of_mem _ hd)
  · exact htail
  · exact hk

/-- A version is the literal `HTTP/1.` and one of two digits. -/
theorem version_split {v : Bytes} (hv : v.map toUpper ∈ versions) :
    ∃ w d, v = w ++ [d] ∧ w.map toLower = (ascii "HTTP/1.").map toLower ∧ (d = 48 ∨ d = 49) := by
  have hdigit : ∀ d : UInt8, toUpper d = 48 ∨ toUpper d = 49 → d = 48 ∨ d = 49 := by decide +kernel
  have hcut : ∃ e, v.map toUpper = ascii "HTTP/1." ++ [e] ∧ (e = 48 ∨ e = 49) := by
    simp only [versions, List.mem_cons, List.not_mem_nil, or_false] at hv
    rcases hv with h | h
    · exact ⟨48, h, .inl rfl⟩
    · exact ⟨49, h, .inr rfl⟩
  obtain ⟨e, he, he'⟩ := hcut
  obtain ⟨w, t, rfl, hw, ht⟩ := List.map_eq_append_iff.mp he
  obtain ⟨d, rest, rfl, hd, hrest⟩ := List.map_eq_cons_iff.mp ht
  obtain rfl : rest = [] := by simpa using hrest
  exact ⟨w, d, rfl, map_toLower_of_toUpper hw, hdigit d (hd ▸ he')⟩

theorem first_version {v eol : Bytes} (hv : v.map toUpper ∈ versions) (heol : eol ∈ lineEnds)
    (hk : k ⟨v ++ eol, [(4, v)], []⟩ = some y) :
    first (.seq (.group 4 (.seq (icase "HTTP/1.") (.char (fun c => c == 48 || c == 49))))
      (.opt (.alt (.char (· == 10)) (.seq (.char (· == 13)) (.char (· == 10)))))) (v ++ eol) k =
      some y := by
  obtain ⟨w, d, rfl, hw, hd⟩ := version_split hv
  have hd : (d == 48 || d == 49) = true := by simpa using hd
  simp only [lineEnds, List.mem_cons, List.not_mem_nil, or_false] at heol
  rw [first_seq, first_group, first_seq, List.append_assoc, first_icase _ _ hw,
    List.singleton_append, first_char_cons,
    if_pos hd]
  rcases heol with rfl | rfl | rfl <;>
    · simp [Match.andThen, Match.close] at hk ⊢
      simp [hk]

/-- Inside the target the rest of the expression cannot start. -/
theorem first_insideTarget (r t : Regex UInt8) (c : UInt8) (s : Bytes) (hc : nonSpace c)
    (hq : c ≠ 63) :
    first (.seq (.opt (.seq (.char (· == 63)) r)) (.seq (.plus true (.char isSpace)) t))
    (c :: s) k =
      none := by
  have hspace : isSpace c = false := by simpa [nonSpace] using hc
  simp [hspace, hq]

/-- The optional query up to the blank. -/
theorem first_query (q : Option Bytes) (tail : Bytes) (hq : ∀ c ∈ q.getD [], nonSpace c)
    (htail : ∃ c cs, tail = c :: cs ∧ isSpace c)
    (hk : k ⟨queryText q, queryGroup q, tail⟩ = some y) :
    first (.opt (.seq (.char (· == 63)) (.group 3 (.star true (.char nonSpace)))))
    (queryText q ++ tail) k =
      some y := by
  obtain ⟨c, cs, rfl, hc⟩ := htail
  cases q with
  | none =>
    have h63 : c ≠ 63 := by rintro rfl; revert hc; decide
    simp only [queryText, queryGroup] at hk
    simp [queryText, h63, hk]
  | some q =>
    have hrun : first (.star true (.char nonSpace)) (q ++ c :: cs)
        (fun m => k ⟨63 :: m.text, m.groups ++ [(3, m.text)], m.rest⟩) = some y := by
      apply first_greedy_run
      · exact hq
      · intro d hd
        cases hd
        simp [nonSpace, hc]
      · exact hk
    simp only [first_opt, first_seq, queryText, List.cons_append, first_char_cons, beq_self_eq_true,
      if_true, first_group, Match.close, Match.andThen, List.nil_append]
    simp [hrun]

end Stages

theorem regexMatch_requestLine {m ws p ws' v eol : Bytes} (q : Option Bytes)
    (hm : m.map toUpper ∈ methods) (hws : ws ≠ [] ∧ ∀ c ∈ ws, isSpace c)
    (hp : p ≠ [] ∧ ∀ c ∈ p, nonSpace c) (hp63 : 63 ∉ p.tail) (hq : ∀ c ∈ q.getD [], nonSpace c)
    (hws' : ws' ≠ [] ∧ ∀ c ∈ ws', isSpace c) (hv : v.map toUpper ∈ versions)
    (heol : eol ∈ lineEnds) :
    regexMatch requestLine (m ++ (ws ++ (p ++ (queryText q ++ (ws' ++ (v ++ eol)))))) =
      some ([(1, m), (2, p)] ++ queryGroup q ++ [(4, v)]) := by
  have hvhead : ∀ c ∈ (v ++ eol).head?, isSpace c = false := by
    obtain ⟨w, d, rfl, hw, -⟩ := version_split hv
    obtain ⟨c, w, rfl, hc, -⟩ := List.map_eq_cons_iff.mp hw
    have hspace : ∀ c : UInt8, toLower c = 104 → isSpace c = false := by decide +kernel
    intro d hd
    cases hd
    exact hspace _ hc
  obtain ⟨c, p, rfl⟩ := List.exists_cons_of_ne_nil hp.1
  obtain ⟨b, bs, rfl⟩ := List.exists_cons_of_ne_nil hws'.1
  have hc : nonSpace c := hp.2 c List.mem_cons_self
  have hb : isSpace b := hws'.2 b List.mem_cons_self
  rw [regexMatch, requestLine, first_seq, first_group]
  apply first_method _ _ _ hm
  rw [first_seq]
  apply first_blanks _ _ _ hws.1 hws.2
  · simpa [nonSpace] using hc
  rw [first_seq, first_group, first_plus]
  simp only [Match.close, List.cons_append, first_char_cons, hc, if_true]
  apply first_lazy_run
  · exact fun d hd => hp.2 d (List.mem_cons_of_mem _ hd)
  · -- before the end of the target neither a query nor a blank can follow
    rintro u w hu hw
    obtain ⟨d, w, rfl⟩ := List.exists_cons_of_ne_nil hw
    have hd : d ∈ p := by simp [hu]
    apply first_insideTarget
    · exact hp.2 d (List.mem_cons_of_mem _ hd)
    · rintro rfl
      exact hp63 hd
  · rw [first_seq]
    apply first_query _ _ _ _ hq ⟨b, _, rfl, hb⟩
    rw [first_seq, ← List.cons_append]
    apply first_blanks _ _ _ (by simp) hws'.2 hvhead
    apply first_version _ _ hv heol
    simp [atEnd, Match.andThen]

/-- The query loop splits a piece at its first `=`. -/
theorem HttpContent.parseQuery_cons (c : HttpContent) {key : Bytes} (value : Bytes)
    (hkey : 61 ∉ key) (v : List Bytes) :
    c.parseQuery ((key ++ 61 :: value) :: v) =
      { c with request := c.request.setParams (urlDecode key true) (urlDecode value true) }.parseQuery v := by
  have hfind : find (key ++ 61 :: value) (ascii "=") 0 = some (0 + key.length) :=
    find_eq _ 61 [] 0 key value rfl hkey
  have hbefore : substr (key ++ 61 :: value) 0 key.length = .ok key := substr_eq rfl
  have hbehind : substrFrom (key ++ 61 :: value) (key.length + 1) = .ok value :=
    substrFrom_eq (l := key ++ [61]) _ (by simp) (by simp)
  rw [parseQuery, hfind]
  simp only [Nat.zero_add, hbefore, hbehind]

/-- `ParseHttpLine` up to its query loop. -/
theorem HttpContent.parseHttpLine_eq (c : HttpContent) {m ws p ws' v eol : Bytes} (q : Option Bytes)
    (hm : m.map toUpper ∈ methods) (hws : ws ≠ [] ∧ ∀ c ∈ ws, isSpace c)
    (hp : p ≠ [] ∧ ∀ c ∈ p, nonSpace c) (hp63 : 63 ∉ p.tail) (hq : ∀ c ∈ q.getD [], nonSpace c)
    (hws' : ws' ≠ [] ∧ ∀ c ∈ ws', isSpace c) (hv : v.map toUpper ∈ versions)
    (heol : eol ∈ lineEnds) :
    c.parseHttpLine (m ++ (ws ++ (p ++ (queryText q ++ (ws' ++ (v ++ eol)))))) =
      { c with request := { c.request with
          version := v, method := m.map toUpper, path := urlDecode p false } }.parseQuery
        (pieces 38 (q.getD [])) := by
  have hsub : ∀ groups, groups = [(1, m), (2, p)] ++ queryGroup q ++ [(4, v)] →
      sub groups 1 = m ∧ sub groups 2 = p ∧ sub groups 3 = q.getD [] ∧ sub groups 4 = v := by
    rintro _ rfl
    cases q <;> exact ⟨rfl, rfl, rfl, rfl⟩
  obtain ⟨h1, h2, h3, h4⟩ := hsub _ rfl
  have hsplit : split (q.getD []) (ascii "&") [] = .ok (pieces 38 (q.getD []), _) :=
    split_single (q.getD []) 38 []
  rw [parseHttpLine, regexMatch_requestLine q hm hws hp hp63 hq hws' hv heol]
  simp only [h1, h2, h3, h4, hsplit]

end MuduoServer
