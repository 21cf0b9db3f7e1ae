import MuduoServer.RequestLine

/-!
# The grammar of request lines

The expression of `ParseHttpLine` matches the lines of one shape, and each of them in one way: the
path ends at the first `?` behind its first byte, and the query is the rest of the target.
-/
namespace MuduoServer

open StdString EcmaRegex Uitl

/-- A line in six parts. -/
structure LineParts where
  method : Bytes
  blanks : Bytes
  target : Bytes
  blanks' : Bytes
  version : Bytes
  eol : Bytes

namespace LineParts

def text (l : LineParts) : Bytes :=
  l.method ++ l.blanks ++ l.target ++ l.blanks' ++ l.version ++ l.eol

/-- The parts of a request line. -/
structure Ok (l : LineParts) : Prop where
  method : l.method.map toUpper ∈ methods
  blanks : l.blanks ≠ [] ∧ ∀ c ∈ l.blanks, isSpace c
  target : l.target ≠ [] ∧ ∀ c ∈ l.target, nonSpace c
  blanks' : l.blanks' ≠ [] ∧ ∀ c ∈ l.blanks', isSpace c
  version : l.version.map toUpper ∈ versions
  eol : l.eol ∈ lineEnds

/-- The target before its first `?` at index 1 or later. -/
def path (l : LineParts) : Bytes := l.target.take 1 ++ (l.target.drop 1).takeWhile (· ≠ 63)

/-- What follows that `?`, if there is one. -/
def query? (l : LineParts) : Option Bytes :=
  match (l.target.drop 1).dropWhile (· ≠ 63) with
  | [] => none
  | _ :: q => some q

def query (l : LineParts) : Bytes := l.query?.getD []

/-- The pieces that `ParseHttpLine` takes for parameters. -/
def pieces (l : LineParts) : List Bytes := Uitl.pieces 38 l.query

theorem path_query (l : LineParts) : l.path ++ queryText l.query? = l.target := by
  have hsplit := List.takeWhile_append_dropWhile (p := (· ≠ (63 : UInt8))) (l := l.target.drop 1)
  have hquery : queryText l.query? = (l.target.drop 1).dropWhile (· ≠ 63) := by
    unfold query?
    cases hd : (l.target.drop 1).dropWhile (· ≠ 63) with
    | nil => rfl
    | cons c q =>
      have hc : c = 63 := by
        have hne : (l.target.drop 1).dropWhile (· ≠ 63) ≠ [] := hd ▸ List.cons_ne_nil c q
        have hhead := List.head_dropWhile_not (p := (· ≠ (63 : UInt8))) (w := hne)
        simp only [hd, List.head_cons] at hhead
        simpa using hhead
      rw [hc]
      rfl
  rw [path, hquery, List.append_assoc, hsplit, List.take_append_drop]

theorem mark_notMem_path (l : LineParts) (h : l.target ≠ []) : l.path ≠ [] ∧ 63 ∉ l.path.tail := by
  obtain ⟨c, s, hs⟩ := List.exists_cons_of_ne_nil h
  simp only [path, hs, List.take_succ_cons, List.take_zero, List.drop_succ_cons, List.drop_zero,
    List.singleton_append,
    List.tail_cons]
  refine ⟨List.cons_ne_nil _ _, fun hmem => ?_⟩
  simpa using List.mem_takeWhile_imp hmem

end LineParts

/-- What a piece of the query says: the decoded texts before and behind its first `=`. -/
def parameter (e : Bytes) : Bytes × Bytes :=
  (urlDecode (e.takeWhile (· ≠ 61)) true, urlDecode ((e.dropWhile (· ≠ 61)).drop 1) true)

namespace HttpContent

theorem parseQuery_pieces (c : HttpContent) (v : List Bytes) (h : ∀ e ∈ v, 61 ∈ e) :
    c.parseQuery v =
      ({ c with request := { c.request with
        params := insertAll c.request.params (v.map parameter) } }, .ok true) := by
  induction v generalizing c with
  | nil => rfl
  | cons e v ih =>
    obtain ⟨l, rest, he, hl⟩ := List.eq_append_cons_of_mem (h e List.mem_cons_self)
    have hl' : ∀ d ∈ l, d ≠ 61 := fun d hd hd' => hl (hd' ▸ hd)
    have hparam : parameter e = (urlDecode l true, urlDecode rest true) := by
      have htake : e.takeWhile (· ≠ 61) = l := by
        rw [he, List.takeWhile_append_of_pos (by simpa using hl')]
        simp
      have hdrop : e.dropWhile (· ≠ 61) = 61 :: rest := by
        rw [he, List.dropWhile_append_of_pos (by simpa using hl')]
        simp
      rw [parameter, htake, hdrop]
      rfl
    rw [List.map_cons, hparam, insertAll_cons, he, parseQuery_cons c rest hl,
      ih _ fun e he => h e (List.mem_cons_of_mem _ he)]
    rfl

end HttpContent

/-- The first pair with a key counts, if the key is not there before. -/
theorem lookup_insertAll_or (m : StrMap) (kvs : List (Bytes × Bytes)) (key : Bytes) :
    (insertAll m kvs).lookup key = (m.lookup key).or (kvs.lookup key) := by
  induction kvs generalizing m with
  | nil => simp [insertAll]
  | cons kv kvs ih =>
    rw [insertAll_cons, ih, lookup_insertNew_or, Option.or_assoc, List.lookup_cons]
    by_cases hk : key = kv.1
    · simp [hk]
    · simp [hk, beq_eq_false_iff_ne.mpr hk]

/-! ## What the expression matches -/

theorem toUpper_toLower : ∀ c : UInt8, toUpper (toLower c) = toUpper c := by
  decide +kernel

/-- A literal under `icase` matches its text in any case only. -/
theorem lang_icase {s : String} {w : Bytes} (h : Lang (icase s) w) :
    w.map toUpper = (ascii s).map toUpper := by
  have hmap : ∀ l w : Bytes, List.Forall₂ (fun p c => p c = true)
      (l.map fun c d => toLower d == toLower c) w →
      w.map toLower = l.map toLower := by
    intro l w hl
    clear h
    induction l generalizing w with
    | nil => cases hl; rfl
    | cons c l ih =>
      obtain ⟨d, w, hd, hw, rfl⟩ := List.forall₂_cons_left_iff.mp hl
      rw [List.map_cons, List.map_cons, ih w hw, beq_iff_eq.mp hd]
  have hlower := hmap _ w (lang_word h)
  have hupper : ∀ l : Bytes, (l.map toLower).map toUpper = l.map toUpper := fun l => by
    rw [List.map_map]
    exact List.map_congr_left fun c _ => toUpper_toLower c
  rw [← hupper, hlower, hupper]

theorem lang_method {w : Bytes}
    (h : Lang (.alt (icase "GET") (.alt (icase "POST")
      (.alt (icase "HEAD") (.alt (icase "DELETE") (icase "PUT"))))) w) : w.map toUpper ∈
      methods := by
  rcases h with h | h | h | h | h <;> rw [lang_icase h] <;> decide

theorem lang_version {w : Bytes}
    (h : Lang (.seq (icase "HTTP/1.") (.char (fun c => c == 48 || c == 49))) w) :
    w.map toUpper ∈ versions := by
  obtain ⟨u, v, rfl, hu, d, hd, rfl⟩ := h
  rw [List.map_append, lang_icase hu]
  rcases (by simpa using hd : d = 48 ∨ d = 49) with rfl | rfl <;> decide

theorem lang_eol {w : Bytes}
    (h : Lang (.opt (.alt (.char (· == 10)) (.seq (.char (· == 13)) (.char (· == 10))))) w) :
    w ∈ lineEnds := by
  rcases h with (⟨c, hc, rfl⟩ | ⟨u, v, rfl, ⟨c, hc, rfl⟩, d, hd, rfl⟩) | h
  · rw [beq_iff_eq.mp hc]
    decide
  · rw [beq_iff_eq.mp hc, beq_iff_eq.mp hd]
    decide
  · have h : w = [] := h
    rw [h]
    decide

/-- What matches has the six parts. -/
theorem lineParts_of_lang {line : Bytes} (h : Lang requestLine line) :
    ∃ l : LineParts, l.Ok ∧ line = l.text := by
  obtain ⟨m, _, rfl, hm, ws, _, rfl, hws, p, _, rfl, hp, q, _, rfl, hq, ws', _, rfl, hws', v, eol,
      rfl, hv, heol⟩ := h
  have htarget : ∀ c ∈ q, nonSpace c := by
    rcases hq with ⟨u, w, rfl, ⟨c, hc, rfl⟩, hw⟩ | hq
    · rw [beq_iff_eq.mp hc]
      have hall : ∀ c ∈ w, nonSpace c := @lang_star_char _ true _ _ hw
      exact List.forall_mem_cons.mpr ⟨by decide, hall⟩
    · have hq : q = [] := hq
      simp [hq]
  obtain ⟨hp, hp'⟩ := lang_plus_char hp
  refine ⟨⟨m, ws, p ++ q, ws', v, eol⟩, ⟨lang_method hm, lang_plus_char hws, ⟨by simp [hp], fun c hc => ?_⟩,
    lang_plus_char hws', lang_version hv, lang_eol heol⟩, by simp [LineParts.text]⟩
  exact (List.mem_append.mp hc).elim (hp' c) (htarget c)

namespace LineParts

/-- The groups of a request line. -/
theorem regexMatch_text (l : LineParts) (h : l.Ok) :
    regexMatch requestLine l.text =
    some ([(1, l.method), (2, l.path)] ++ queryGroup l.query? ++ [(4, l.version)]) := by
  obtain ⟨hne, hmark⟩ := l.mark_notMem_path h.target.1
  have hplain : ∀ c ∈ l.path ++ queryText l.query?, nonSpace c := l.path_query ▸ h.target.2
  have hpath : ∀ c ∈ l.path, nonSpace c := fun c hc => hplain c (List.mem_append_left _ hc)
  have hquery : ∀ c ∈ l.query?.getD [], nonSpace c := by
    intro c hc
    cases hq : l.query? with
    | none => simp [hq] at hc
    | some q =>
      rw [hq] at hc hplain
      exact hplain c (List.mem_append_right _ (List.mem_cons_of_mem _ hc))
  have htext : l.text = l.method ++
      (l.blanks ++ (l.path ++ (queryText l.query? ++ (l.blanks' ++ (l.version ++ l.eol))))) := by
    rw [text, ← l.path_query]
    simp only [List.append_assoc]
  rw [htext]
  exact regexMatch_requestLine l.query? h.method h.blanks
    ⟨hne, hpath⟩ hmark hquery h.blanks' h.version h.eol

theorem sub_text (l : LineParts) {sm : List (Nat × Bytes)}
    (hsm : sm = [(1, l.method), (2, l.path)] ++ queryGroup l.query? ++ [(4, l.version)]) :
    sub sm 1 = l.method ∧ sub sm 2 = l.path ∧ sub sm 3 = l.query ∧ sub sm 4 = l.version := by
  subst hsm
  unfold query
  cases l.query? <;> exact ⟨rfl, rfl, rfl, rfl⟩

end LineParts

namespace HttpContent

theorem requestLineOk_iff (line : Bytes) :
    RequestLineOk line ↔ ∃ l : LineParts, l.Ok ∧ line = l.text ∧ ∀ e ∈ l.pieces, 61 ∈ e := by
  constructor
  · rintro ⟨sm, hsm, hall⟩
    obtain ⟨l, hl, rfl⟩ :=
      lineParts_of_lang (lang_of_regexMatch (Option.isSome_iff_exists.mpr ⟨sm, hsm⟩))
    rw [l.regexMatch_text hl] at hsm
    have h3 := (l.sub_text (Option.some.inj hsm).symm).2.2.1
    rw [h3] at hall
    exact ⟨l, hl, rfl, hall⟩
  · rintro ⟨l, hl, rfl, hall⟩
    refine ⟨_, l.regexMatch_text hl, ?_⟩
    rw [(l.sub_text rfl).2.2.1]
    exact hall

/-- What the parser makes of the parts. -/
theorem parseHttpLine_text (c : HttpContent)
    (l : LineParts) (h : l.Ok) (hall : ∀ e ∈ l.pieces, 61 ∈ e) :
    c.parseHttpLine l.text =
      ({ c with request := { c.request with
          version := l.version, method := l.method.map toUpper, path := urlDecode l.path false,
          params := insertAll c.request.params (l.pieces.map parameter) } }, .ok true) := by
  obtain ⟨h1, h2, h3, h4⟩ := l.sub_text rfl
  have hsplit : split l.query (ascii "&") [] = .ok (l.pieces, _) := split_single l.query 38 []
  rw [parseHttpLine, l.regexMatch_text h]
  simp only [h1, h2, h3, h4, hsplit]
  rw [parseQuery_pieces _ _ hall]

/-- `ParseHttpLine` accepts the lines of this grammar whose query pieces all have a `=`, and
fails on all others without an exception. It reads the method in upper case, the version, the
decoded path, and for each key the value of its first piece, unless the request had a parameter
of this key before. -/
theorem parseHttpLine_grammar (c : HttpContent) (line : Bytes) :
    ((c.parseHttpLine line).2 = .ok true ↔ ∃ l : LineParts, l.Ok ∧ line = l.text ∧
      ∀ e ∈ l.pieces, 61 ∈ e) ∧
      ((c.parseHttpLine line).2 ≠ .ok true → (c.parseHttpLine line).2 = .ok false) ∧
      ∀ l : LineParts, l.Ok → line = l.text → (∀ e ∈ l.pieces, 61 ∈ e) →
        (c.parseHttpLine line).1.request.method = l.method.map toUpper ∧
        (c.parseHttpLine line).1.request.version = l.version ∧
        (c.parseHttpLine line).1.request.path = urlDecode l.path false ∧
        ∀ key, (c.parseHttpLine line).1.request.params.lookup key =
          (c.request.params.lookup key).or ((l.pieces.map parameter).lookup key) := by
  have hcases := parseHttpLine_cases c line
  rw [requestLineOk_iff] at hcases
  refine ⟨?_, ?_, ?_⟩
  · rcases hcases with ⟨c', hp, -, -, hok⟩ | ⟨c', hp, -, -, hnot⟩
    · simp only [hp, hok]
    · simp only [hp, hnot, Except.ok.injEq, Bool.false_eq_true]
  · rcases hcases with ⟨c', hp, -⟩ | ⟨c', hp, -⟩ <;> rw [hp]
    · exact fun h => absurd rfl h
    · exact fun _ => rfl
  · rintro l hl rfl hall
    rw [parseHttpLine_text c l hl hall]
    exact ⟨rfl, rfl, rfl, fun key => lookup_insertAll_or _ _ key⟩

end HttpContent
end MuduoServer
