import MuduoServer.HttpServer
import MuduoServer.PathDepth
import MuduoServer.UitlSpec

/-!
# Which file is opened

`VaildPath` counts the levels of the request path, while the file system walks
the text `FileHandler` opens: the base directory, the request path, and what a
NUL byte leaves of them. The two readings differ in three ways, and the
condition below says when none of them leads out of the base directory.

`IsFileHandler` and `FileHandler` look for the final slash in different strings; they
name the same file unless the request path is empty.
-/
namespace MuduoServer

open StdString Uitl PathDepth

/-- How the file system reads one component. -/
def move (component : Bytes) : Move :=
  if component = [] ∨ component = dot then .stay else if component = dotdot then .up else .enter

/-- The moves of a path below a directory. -/
def moves (path : Bytes) : List Move := (path.splitOn slash).map move

namespace HttpServer

variable (srv : HttpServer)

/-- The file `FileHandler` opens, as the C library sees its name. -/
def openedFile (req : HttpRequest) : Except Fault Bytes := (srv.openedPath req).map cStr

/-- The opened file is the base directory, a slash at the junction, and components
that never lead above the base directory. -/
def Confined (basedir : Bytes) (opened : Except Fault Bytes) : Prop :=
  ∃ rest, opened = .ok (basedir ++ rest) ∧
    (basedir.getLast? = some slash ∨ rest.head? = some slash) ∧
    StaysBelow (moves rest)

/-- If the request is answered from a file, the file lies in the base directory. -/
def ServesConfined (req : HttpRequest) : Prop :=
  srv.isFileHandler req = .ok true → Confined srv.basedir (srv.openedFile req)

/-- The base directory has no NUL byte, the path is not empty and a slash joins
them; and up to its first NUL byte, without its `.` components, the path passes
the level count of `VaildPath`. -/
def PathOk (req : HttpRequest) : Prop :=
  0 ∉ srv.basedir ∧ req.path ≠ [] ∧
    (srv.basedir.getLast? = some slash ∨ req.path.head? = some slash) ∧
    levels 0 ((pieces slash (cStr req.path)).filter (· ≠ dot))

end HttpServer

/-! ## Two ways to count -/

/-- Without empty and `.` components the level count is the walk. -/
theorem levels_eq_walk (d : Nat) (v : List Bytes) (hv : ∀ e ∈ v, e ≠ [] ∧ e ≠ dot) :
    levels d v = (walk d (v.map move)).isSome := by
  induction v generalizing d with
  | nil => simp [levels]
  | cons e v ih =>
    obtain ⟨hne, hdot⟩ := hv e List.mem_cons_self
    have hv' : ∀ e ∈ v, e ≠ [] ∧ e ≠ dot := fun e he => hv e (List.mem_cons_of_mem _ he)
    by_cases hup : e = dotdot
    · subst hup
      cases d with
      | zero => simp [levels, move, hne, hdot]
      | succ d =>
        have hpred : ((d + 1 : Nat) : Int) - 1 = (d : Nat) := by omega
        simp only [levels, if_true, hpred, ih d hv']
        simp [move, hne, hdot]
    · have hsucc : ((d : Nat) : Int) + 1 = ((d + 1 : Nat) : Int) := by omega
      simp only [levels, if_neg hup, hsucc, ih (d + 1) hv']
      simp [move, hne, hdot, hup]

theorem levels_iff_staysBelow (path : Bytes) :
    levels 0 ((pieces slash path).filter (· ≠ dot)) ↔ StaysBelow (moves path) := by
  have hclean : ∀ e ∈ (pieces slash path).filter (· ≠ dot), e ≠ [] ∧ e ≠ dot := by
    intro e he
    obtain ⟨hp, hd⟩ := List.mem_filter.mp he
    exact ⟨pieces_ne_nil slash path e hp, by simpa using hd⟩
  have hmoves : (moves path).filter (· ≠ .stay) =
      ((pieces slash path).filter (· ≠ dot)).map move := by
    rw [moves, pieces, List.filter_filter, List.filter_map]
    congr 1
    apply List.filter_congr
    intro e _
    by_cases hne : e = []
    · simp [move, hne]
    · by_cases hdot : e = dot
      · simp [move, hdot]
      · by_cases hup : e = dotdot <;> simp [move, hne, hdot, hup, Bool.and_comm]
  have hwalk := levels_eq_walk 0 _ hclean
  rw [← hmoves, walk_filter_stay] at hwalk
  rw [StaysBelow, ← hwalk]
  rfl

/-- The level count is never below the depth, since `.` raises it as well. -/
theorem walk_of_levels (d e : Nat) (hle : e ≤ d) (v : List Bytes) (h : levels d v = false) :
    walk e (v.map move) = none := by
  induction v generalizing d e with
  | nil => cases h
  | cons c v ih =>
    by_cases hup : c = dotdot
    · subst hup
      rw [List.map_cons, show move dotdot = .up by decide]
      cases e with
      | zero => rfl
      | succ e =>
        obtain ⟨d, rfl⟩ := Nat.exists_eq_succ_of_ne_zero (show d ≠ 0 by omega)
        have hpred : ((d + 1 : Nat) : Int) - 1 = (d : Nat) := by omega
        have hnext : levels d v = false := by
          simpa [levels, hpred, show ¬(d : Int) < 0 by omega] using h
        exact ih d e (by omega) hnext
    · have hnext : levels (d + 1 : Nat) v = false := by simpa [levels, hup] using h
      rw [List.map_cons]
      by_cases hstay : c = [] ∨ c = dot
      · rw [move, if_pos hstay, walk_stay]
        exact ih (d + 1) e (by omega) hnext
      · rw [move, if_neg hstay, if_neg hup, walk_enter]
        exact ih (d + 1) (e + 1) (by omega) hnext

/-- Empty components do not move. -/
theorem walk_pieces (d : Nat) (path : Bytes) :
    walk d ((pieces slash path).map move) = walk d (moves path) := by
  have hmoves : ((pieces slash path).map move).filter (· ≠ .stay) =
      (moves path).filter (· ≠ .stay) := by
    rw [moves, pieces, List.filter_map, List.filter_map, List.filter_filter]
    congr 1
    refine List.filter_congr fun e _ => ?_
    by_cases he : e = [] <;> simp [move, he]
  rw [← walk_filter_stay, hmoves, walk_filter_stay]

/-- `VaildPath` rejects a path only if some prefix of it, read component by component, leads above
the directory it starts from. -/
theorem vaildPath_rejects (path : Bytes) (h : vaildPath path = .ok false) :
    ∃ k, height ((moves path).take k) < 0 := by
  have hlevels : levels 0 (pieces slash path) = false :=
    Except.ok.inj ((vaildPath_eq path).symm.trans h)
  have hwalk := walk_of_levels 0 0 (Nat.le_refl 0) (pieces slash path) hlevels
  rw [walk_pieces, walk_eq_none_iff] at hwalk
  simpa using hwalk

theorem vaildPath_rejects_example : ∃ k, height ((moves (ascii "/a/../../b")).take k) < 0 :=
  vaildPath_rejects _ (by rfl)

/-! ## What the C library sees -/

theorem cStr_append {s : Bytes} (t : Bytes) (h : 0 ∉ s) : cStr (s ++ t) = s ++ cStr t := by
  apply List.takeWhile_append_of_pos
  intro c hc
  exact decide_eq_true (fun he => h (he ▸ hc))

theorem cStr_append_of_mem {s : Bytes} (t : Bytes) (h : 0 ∈ s) : cStr (s ++ t) = cStr s := by
  obtain ⟨l, r, rfl, hl⟩ := List.eq_append_cons_of_mem h
  have hcut : ∀ u : Bytes, cStr (l ++ 0 :: u) = l := by
    intro u
    rw [cStr_append _ hl]
    simp [cStr]
  rw [List.append_assoc, List.cons_append, hcut, hcut]

theorem cStr_length_lt {s : Bytes} (h : 0 ∈ s) : (cStr s).length < s.length := by
  obtain ⟨l, r, rfl, hl⟩ := List.eq_append_cons_of_mem h
  rw [cStr_append _ hl]
  simp [cStr]

theorem cStr_of_not_mem {s : Bytes} (h : 0 ∉ s) : cStr s = s := by
  have := cStr_append [] h
  simpa [cStr] using this

/-- The request path as opened, with the index file behind a final slash. -/
def openedRest (path : Bytes) : Bytes :=
  cStr (HttpServer.indexPath path (path.getLast? = some slash))

theorem moves_index (path : Bytes) :
    StaysBelow (moves (path ++ slash :: ascii "index.html")) ↔
    StaysBelow (moves (path ++ [slash])) := by
  have hlast : (ascii "index.html").splitOn slash = [ascii "index.html"] :=
    List.splitOn_eq_singleton (by decide +kernel)
  have hnil : ([] : Bytes).splitOn slash = [[]] := List.splitOn_nil slash
  have henter : move (ascii "index.html") ≠ .up := by decide +kernel
  have hstay : move [] ≠ .up := by decide
  rw [moves, moves, List.splitOn_append_cons_self, List.splitOn_append_cons_self, hlast, hnil,
    List.map_append, List.map_append]
  exact (staysBelow_concat _ henter).trans (staysBelow_concat _ hstay).symm

/-- The index file changes nothing about confinement. -/
theorem openedRest_spec (path : Bytes) (hne : path ≠ []) :
    ((openedRest path).head? = some slash ↔ path.head? = some slash) ∧
    (StaysBelow (moves (openedRest path)) ↔ StaysBelow (moves (cStr path))) := by
  have hhead : ∀ t : Bytes, (cStr (path ++ t)).head? = some slash ↔ path.head? = some slash := by
    obtain ⟨c, cs, rfl⟩ := List.exists_cons_of_ne_nil hne
    intro t
    by_cases hc : c = 0
    · subst hc; simp [cStr, slash]
    · simp [cStr, hc]
  by_cases hlast : path.getLast? = some slash
  · have hrest : openedRest path = cStr (path ++ ascii "index.html") := by
      simp [openedRest, HttpServer.indexPath, hlast]
    rw [hrest]
    refine ⟨hhead _, ?_⟩
    by_cases h0 : 0 ∈ path
    · rw [cStr_append_of_mem _ h0]
    · obtain ⟨init, rfl⟩ := List.getLast?_eq_some_iff.mp hlast
      have hidx : cStr (ascii "index.html") = ascii "index.html" := by decide +kernel
      rw [cStr_append _ h0, hidx, cStr_of_not_mem h0, List.append_assoc]
      exact moves_index init
  · have hrest : openedRest path = cStr path := by
      simp [openedRest, HttpServer.indexPath, hlast]
    have := hhead []
    rw [List.append_nil] at this
    rw [hrest]
    exact ⟨this, Iff.rfl⟩

namespace HttpServer

variable (srv : HttpServer)

theorem openedFile_nil {req : HttpRequest} (h : req.path = []) :
    srv.openedFile req = .error .emptyBack := by
  simp [openedFile, openedPath, back, h, Bind.bind, Except.bind, Except.map]

theorem openedFile_eq {req : HttpRequest} (h : req.path ≠ []) :
    srv.openedFile req = .ok (cStr (srv.basedir ++ indexPath req.path (req.path.getLast? = some slash))) := by
  obtain ⟨init, last, hp⟩ := (List.eq_nil_or_concat' req.path).resolve_left h
  have hidx : ∀ p : Bool, indexPath (srv.basedir ++ req.path) p = srv.basedir ++
      indexPath req.path p := by
    intro p
    cases p <;> simp [indexPath]
  simp only [openedFile, openedPath, hidx]
  simp [back, hp, Bind.bind, Except.bind, Pure.pure, Except.pure, Except.map]

/-- Where the opened file lies depends on the base directory and the path alone. -/
theorem confined_iff_pathOk (req : HttpRequest) :
    Confined srv.basedir (srv.openedFile req) ↔ srv.PathOk req := by
  by_cases hne : req.path = []
  · simp [Confined, PathOk, srv.openedFile_nil hne, hne]
  obtain ⟨hhead, hmoves⟩ := openedRest_spec req.path hne
  rw [srv.openedFile_eq hne]
  by_cases h0 : 0 ∈ srv.basedir
  · -- the name ends inside the base directory
    constructor
    · rintro ⟨rest, he, _⟩
      have hlen := congrArg List.length (Except.ok.inj he)
      have hshort := cStr_length_lt h0
      rw [cStr_append_of_mem _ h0, List.length_append] at hlen
      omega
    · rintro ⟨hno, _⟩
      exact absurd h0 hno
  · rw [cStr_append _ h0]
    constructor
    · rintro ⟨rest, he, hjoin, hbelow⟩
      obtain rfl : openedRest req.path = rest := List.append_cancel_left (Except.ok.inj he)
      rw [hhead] at hjoin
      rw [hmoves, ← levels_iff_staysBelow] at hbelow
      exact ⟨h0, hne, hjoin, hbelow⟩
    · rintro ⟨_, _, hjoin, hbelow⟩
      rw [levels_iff_staysBelow, ← hmoves] at hbelow
      rw [← hhead] at hjoin
      exact ⟨openedRest req.path, rfl, hjoin, hbelow⟩

/-- A file is served from inside the base directory exactly for the paths that
the level count still passes once `.` components and the text behind a NUL byte
are left out, with a slash at the junction. -/
theorem static_files_confined_iff (req : HttpRequest) :
    srv.ServesConfined req ↔ (srv.isFileHandler req = .ok true → srv.PathOk req) :=
  imp_congr_right fun _ => srv.confined_iff_pathOk req

/-- A server whose file system holds every file. -/
def openServer : HttpServer :=
  ofFiles (ascii "/srv/www")
    ⟨fun _ => true, fun _ => true, fun _ => some (.sized (ascii "secret") true), nofun⟩

/-- `VaildPath` counts the `.` of `/./../passwd` as a level. -/
theorem static_files_escape :
    ¬openServer.ServesConfined { HttpRequest.fresh with method := ascii "GET", path := ascii "/./../passwd" } := by
  intro h
  have haccept : openServer.isFileHandler
      { HttpRequest.fresh with method := ascii "GET", path := ascii "/./../passwd" } =
        .ok true := by
    decide +kernel
  obtain ⟨rest, he, _, hbelow⟩ := h haccept
  have hopened : openServer.openedFile
      { HttpRequest.fresh with method := ascii "GET", path := ascii "/./../passwd" } =
      .ok (openServer.basedir ++ ascii "/./../passwd") := by
    decide +kernel
  obtain rfl : ascii "/./../passwd" = rest :=
    List.append_cancel_left (Except.ok.inj (hopened.symm.trans he))
  revert hbelow
  decide +kernel

/-! ## The file that was checked -/

/-- The path whose regularity `IsFileHandler` tests. -/
def testedPath (req : HttpRequest) : Except Fault Bytes := do
  let last ← back (srv.basedir ++ req.path)
  return indexPath (srv.basedir ++ req.path) (last = slash)

/-- What an accepted request has passed. -/
theorem isFileHandler_accepts {req : HttpRequest} (h : srv.isFileHandler req = .ok true) :
    srv.basedir ≠ [] ∧ (req.method = ascii "GET" ∨ req.method = ascii "HEAD") ∧
      ∃ path, srv.testedPath req = .ok path ∧ isRegular srv.fs path = true := by
  unfold isFileHandler at h
  split at h
  · cases h
  · rename_i hbase
    split at h
    · cases h
    · rename_i hmethod
      cases hv : vaildPath req.path with
      | error f => rw [hv] at h; cases h
      | ok valid =>
        cases valid with
        | false => rw [hv] at h; cases h
        | true =>
          simp only [hv, Bind.bind, Except.bind, Bool.not_true, Bool.false_eq_true, if_false] at h
          refine ⟨by simpa using hbase, by simpa [or_iff_not_imp_left] using hmethod, ?_⟩
          cases hb : back (srv.basedir ++ req.path) with
          | error f => rw [hb] at h; cases h
          | ok last =>
            rw [hb] at h
            refine ⟨_, ?_, Except.ok.inj h⟩
            rw [testedPath, hb]
            rfl

/-- An accepted request is answered from the file that was tested, and no string is read
past its ends. -/
def ServesChecked (req : HttpRequest) : Prop :=
  srv.isFileHandler req = .ok true →
    ∃ path, srv.testedPath req = .ok path ∧ isRegular srv.fs path = true ∧
      srv.openedPath req = .ok path

/-- The request path is not empty, or an empty one is turned down: there is no base directory, the
method is neither `GET` nor `HEAD`, or the base directory or its index is no regular file. -/
def HasPath (req : HttpRequest) : Prop :=
  req.path ≠ [] ∨ srv.basedir = [] ∨ ¬(req.method = ascii "GET" ∨ req.method = ascii "HEAD") ∨
    isRegular srv.fs (indexPath srv.basedir (srv.basedir.getLast? = some slash)) = false

/-- The request path ends as the whole path does. -/
theorem openedPath_eq_testedPath {req : HttpRequest} (h : req.path ≠ []) :
    srv.openedPath req = srv.testedPath req := by
  obtain ⟨init, last, hp⟩ := (List.eq_nil_or_concat' req.path).resolve_left h
  simp [openedPath, testedPath, back, hp]

theorem openedPath_nil {req : HttpRequest} (h : req.path = []) :
    srv.openedPath req = .error .emptyBack := by
  simp [openedPath, back, h, Bind.bind, Except.bind]

theorem testedPath_nil {req : HttpRequest} (h : req.path = []) (hbase : srv.basedir ≠ []) :
    srv.testedPath req = .ok (indexPath srv.basedir (srv.basedir.getLast? = some slash)) := by
  obtain ⟨init, last, hb⟩ := (List.eq_nil_or_concat' srv.basedir).resolve_left hbase
  simp [testedPath, h, hb, back, Bind.bind, Except.bind, Pure.pure, Except.pure]

theorem isFileHandler_nil {req : HttpRequest} (h : req.path = []) (hbase : srv.basedir ≠ [])
    (hmethod : req.method = ascii "GET" ∨ req.method = ascii "HEAD") :
    srv.isFileHandler req =
    .ok (isRegular srv.fs (indexPath srv.basedir (srv.basedir.getLast? = some slash))) := by
  obtain ⟨init, last, hb⟩ := (List.eq_nil_or_concat' srv.basedir).resolve_left hbase
  have hvalid : vaildPath [] = .ok true := by decide +kernel
  have hmethod' : (req.method = ascii "GET" || req.method = ascii "HEAD") = true := by
    simpa using hmethod
  simp [isFileHandler, h, hb, hvalid, hmethod', back, Bind.bind, Except.bind,
    Pure.pure, Except.pure]

/-- The file checked is the file served, except that an empty request path has no last character. -/
theorem serves_checked_iff (req : HttpRequest) : srv.ServesChecked req ↔ srv.HasPath req := by
  constructor
  · intro h
    by_contra hno
    obtain ⟨hpath, hno⟩ := not_or.mp hno
    obtain ⟨hbase, hno⟩ := not_or.mp hno
    obtain ⟨hmethod, hregular⟩ := not_or.mp hno
    have hpath := not_not.mp hpath
    obtain ⟨path, -, -, hopened⟩ := h (by
      rw [srv.isFileHandler_nil hpath hbase (not_not.mp hmethod),
        Bool.eq_true_of_not_eq_false hregular])
    rw [srv.openedPath_nil hpath] at hopened
    cases hopened
  · intro h haccept
    obtain ⟨hbase, hmethod, path, htested, hregular⟩ := srv.isFileHandler_accepts haccept
    have hpath : req.path ≠ [] := by
      intro hnil
      have htest := Except.ok.inj ((srv.testedPath_nil hnil hbase).symm.trans htested)
      rcases h with hne | hno | hno | hno
      · exact hne hnil
      · exact hbase hno
      · exact hno hmethod
      · rw [htest, hregular] at hno
        cases hno
    exact ⟨path, htested, hregular, (srv.openedPath_eq_testedPath hpath).trans htested⟩

/-! ## When no response is built -/

theorem isFileHandler_ok (req : HttpRequest) : ∃ isFile, srv.isFileHandler req = .ok isFile := by
  unfold isFileHandler
  split
  · exact ⟨false, rfl⟩
  · rename_i hbase
    split
    · exact ⟨false, rfl⟩
    · rw [vaildPath_eq]
      cases levels 0 (pieces slash req.path) with
      | false => exact ⟨false, rfl⟩
      | true =>
        obtain ⟨init, last, hback⟩ :=
          (List.eq_nil_or_concat' (srv.basedir ++ req.path)).resolve_left (by simp_all)
        refine ⟨isRegular srv.fs (indexPath (init ++ [last]) (last = slash)), ?_⟩
        simp [hback, back, Bind.bind, Except.bind, Pure.pure, Except.pure]

/-- A request is routed, but for a file request with an empty path: a file that was
tested is read. -/
theorem route_error {req : HttpRequest} {res : HttpResponse} {f : Fault}
    (h : srv.route req res = .error f) :
    f = .emptyBack ∧ ¬srv.HasPath req := by
  unfold route at h
  obtain ⟨isFile, hfile⟩ := srv.isFileHandler_ok req
  rw [hfile] at h
  simp only [Bind.bind, Except.bind, Pure.pure, Except.pure] at h
  cases isFile with
  | false =>
    simp only [Bool.false_eq_true, if_false] at h
    repeat' split at h
    all_goals cases h
  | true =>
    obtain ⟨hbase, hmethod, path, htested, hregular⟩ := srv.isFileHandler_accepts hfile
    simp only [if_true, fileHandler] at h
    by_cases hpath : req.path = []
    · rw [srv.openedPath_nil hpath] at h
      cases h
      refine ⟨rfl, ?_⟩
      have hindex := Except.ok.inj ((srv.isFileHandler_nil hpath hbase hmethod).symm.trans hfile)
      rintro (hne | hno | hno | hno)
      · exact hne hpath
      · exact hbase hno
      · exact hno hmethod
      · exact absurd (hindex.symm.trans hno) (by simp)
    · obtain ⟨r, hread⟩ := readFile_regular hregular res.body
      rw [srv.openedPath_eq_testedPath hpath, htested] at h
      simp only [Bind.bind, Except.bind, hread] at h
      split at h
      · rename_i hsplit
        split at hsplit
        · cases hsplit
        · cases hsplit
      · cases h

theorem answer_error {req : HttpRequest} {status : Int} {f : Fault}
    (h : srv.answer req status = .error f) :
    f = .emptyBack ∧ ¬srv.HasPath req := by
  unfold answer at h
  cases hroute : srv.route req (HttpResponse.ofStatus status) with
  | error f' =>
    rw [hroute] at h
    cases h
    exact srv.route_error hroute
  | ok r =>
    rw [hroute] at h
    cases h

/-- The parser decodes the request path `%` to the empty string. -/
def emptyPath : HttpRequest :=
  (HttpContent.fresh.recvHttpRequest (Buffer.ofBytes (ascii "GET % HTTP/1.1\r\n\r\n"))).content.request

/-- A server whose base directory ends with a slash. -/
def slashServer : HttpServer := { openServer with basedir := ascii "/srv/www/" }

/-- `FileHandler` reads the last character of an empty path. -/
theorem serves_checked_empty_path : ¬slashServer.ServesChecked emptyPath := by
  intro h
  obtain ⟨path, -, -, hopened⟩ := h (by decide +kernel)
  rw [slashServer.openedPath_nil (by decide +kernel)] at hopened
  cases hopened

end HttpServer
end MuduoServer
