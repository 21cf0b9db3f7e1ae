import MuduoServer.Framing
import MuduoServer.RequestVersion
import MuduoServer.ResponseHeaders

/-!
# Responses survive the wire

A reader that knows nothing of the server takes a status line, the header lines up to the
empty one and as many bytes of body as `Content-Length` says. From what
`WriteResponse` writes, one response behind the other, it recovers each response.
-/
namespace MuduoServer

open StdString Uitl Framing HttpServer

/-! ## The reader -/

/-- A response as it is read. -/
structure ReceivedResponse where
  status : Int
  headers : List (Bytes × Bytes)
  body : Bytes

namespace ReceivedResponse

def readNat (ds : Bytes) : Option Nat :=
  if !ds.isEmpty && ds.all isDigit then some (decimal ds) else none

def readInt : Bytes → Option Int
  | 45 :: ds => (readNat ds).map fun n : Nat => -(n : Int)
  | ds => (readNat ds).map Int.ofNat

/-- The second word of a status line. -/
def statusOf (line : Bytes) : Option Int :=
  readInt ((line.dropWhile (· ≠ 32)).tail.takeWhile (· ≠ 32))

/-- The name before the first colon, and the value behind the blank. -/
def headerOf (line : Bytes) : Option (Bytes × Bytes) :=
  match line.dropWhile (· ≠ 58) with
  | 58 :: 32 :: val => some (line.takeWhile (· ≠ 58), val)
  | _ => none

/-- A line without its CRLF. -/
def line : Reader UInt8 Bytes := upTo 13 newline

def headerLines : Reader UInt8 (List (Bytes × Bytes)) :=
  (block line List.isEmpty).convert (·.mapM headerOf)

/-- As many bytes as the headers announce. -/
def bodyOf (headers : List (Bytes × Bytes)) : Reader UInt8 Bytes :=
  fun s => ((headers.lookup (ascii "Content-Length")).bind readNat).bind fun len => exactly len s

def read : Reader UInt8 ReceivedResponse :=
  (line.convert statusOf).andThen fun status =>
    headerLines.andThen fun headers =>
      (bodyOf headers).convert fun body => some ⟨status, headers, body⟩

end ReceivedResponse

/-! ## What is written -/

/-- A request and the response a handler gives to it, before `WriteResponse` completes it. -/
structure Exchange where
  req : HttpRequest
  res : HttpResponse
  /-- As in every request that is answered, by `HttpLoop.answered_version`. -/
  version_clean : req.VersionClean
  name_clean : ∀ key val, res.headers.lookup key = some val → 58 ∉ key ∧ 13 ∉ key ∧ newline ∉ key
  value_clean : ∀ key val, res.headers.lookup key = some val → 13 ∉ val ∧ newline ∉ val
  redirect_clean : 13 ∉ res.redirect ∧ newline ∉ res.redirect
  contentLength : ∀ val, res.headers.lookup (ascii "Content-Length") = some val →
    ReceivedResponse.readNat val = some res.body.length

/-- What has been read is the response with its headers completed. -/
structure Recovers (x : Exchange) (r : ReceivedResponse) : Prop where
  status : r.status = x.res.status
  headers : ∀ key val, (key, val) ∈ r.headers ↔
    (x.res.headers.lookup key).or (addedHeader x.req x.res key) = some val
  headers_nodup : (r.headers.map Prod.fst).Nodup
  body : r.body = x.res.body

namespace ReceivedResponse

theorem readNat_numeral (n : Nat) : readNat (numeral n) = some n := by
  have hne : (numeral n).isEmpty = false := by simpa using numeral_ne_nil n
  have hdigits : (numeral n).all isDigit = true := List.all_eq_true.mpr (numeral_isDigit n)
  rw [readNat, hne, hdigits, decimal_numeral]
  rfl

theorem readInt_intNumeral (n : Int) : readInt (intNumeral n) = some n := by
  unfold intNumeral
  split
  · rename_i hneg
    rw [readInt, readNat_numeral, Option.map_some]
    exact congrArg some (Int.ofNat_natAbs_of_nonpos (Int.le_of_lt hneg) ▸ Int.neg_neg n)
  · rename_i hpos
    have hminus : ∀ ds, numeral n.natAbs ≠ 45 :: ds := by
      intro ds he
      have hdigit := numeral_isDigit n.natAbs 45 (he ▸ List.mem_cons_self)
      revert hdigit
      decide
    rw [readInt, readNat_numeral, Option.map_some]
    · exact congrArg some (Int.natAbs_of_nonneg (Int.not_lt.mp hpos))
    · exact hminus

theorem reads_line {text : Bytes} (h : 13 ∉ text) : Reads line (text ++ crlf) text :=
  reads_upTo newline h

/-! ## The status line -/

theorem statuDesc_clean (code : Int) : 13 ∉ statuDesc code := by
  have htable : ∀ e ∈ statuTable, 13 ∉ ascii e.2 := by decide +kernel
  unfold statuDesc
  split
  · rename_i desc hdesc
    obtain ⟨l, l', he, -⟩ := List.lookup_eq_some_iff.mp hdesc
    exact htable (code, desc) (he ▸ List.mem_append_right _ List.mem_cons_self)
  · decide

theorem intNumeral_clean (n : Int) : ∀ c ∈ intNumeral n, c ≠ 32 ∧ c ≠ 13 := by
  have hdigit : ∀ c ∈ numeral n.natAbs, c ≠ 32 ∧ c ≠ 13 := by
    intro c hc
    have hd := numeral_isDigit n.natAbs c hc
    constructor <;> rintro rfl <;> revert hd <;> decide
  unfold intNumeral
  split
  · exact List.forall_mem_cons.mpr ⟨by decide, hdigit⟩
  · exact hdigit

theorem takeWhile_append_cons {p : UInt8 → Bool} {l : Bytes} (c : UInt8) (rest : Bytes)
    (hl : ∀ d ∈ l, p d) (hc : p c = false) :
    (l ++ c :: rest).takeWhile p = l ∧ (l ++ c :: rest).dropWhile p = c :: rest := by
  rw [List.takeWhile_append_of_pos hl, List.dropWhile_append_of_pos hl]
  simp [hc]

def statusLine (req : HttpRequest) (res : HttpResponse) : Bytes :=
  req.version ++ ascii " " ++ intNumeral res.status ++ ascii " " ++ statuDesc res.status

theorem statusOf_statusLine (req : HttpRequest) (res : HttpResponse) (h : 32 ∉ req.version) :
    statusOf (statusLine req res) = some res.status := by
  have hversion : ∀ d ∈ req.version, decide (d ≠ 32) := by
    intro d hd
    exact decide_eq_true (fun he => h (he ▸ hd))
  have hnumeral : ∀ d ∈ intNumeral res.status, decide (d ≠ 32) :=
    fun d hd => decide_eq_true (intNumeral_clean res.status d hd).1
  have htext : statusLine req res = req.version ++ 32 ::
      (intNumeral res.status ++ 32 :: statuDesc res.status) := by
    simp [statusLine, ascii]
  rw [statusOf, htext, (takeWhile_append_cons 32 _ hversion (by decide)).2, List.tail_cons,
    (takeWhile_append_cons 32 _ hnumeral (by decide)).1, readInt_intNumeral]

theorem reads_statusLine (req : HttpRequest) (res : HttpResponse) (h : req.VersionClean) :
    Reads (line.convert statusOf) (statusLine req res ++ crlf) res.status := by
  refine (reads_line ?_).convert (statusOf_statusLine req res h.1)
  have hblank : (13 : UInt8) ∉ ascii " " := by decide
  have hnumeral : 13 ∉ intNumeral res.status :=
    fun hin => (intNumeral_clean res.status 13 hin).2 rfl
  simp only [statusLine, List.mem_append, not_or]
  exact ⟨⟨⟨⟨h.2, hblank⟩, hnumeral⟩, hblank⟩, statuDesc_clean res.status⟩

/-! ## The header lines -/

def fieldLine (it : Bytes × Bytes) : Bytes := it.1 ++ ascii ": " ++ it.2

theorem headerOf_fieldLine {it : Bytes × Bytes} (h : 58 ∉ it.1) :
    headerOf (fieldLine it) = some it := by
  have hname : ∀ d ∈ it.1, decide (d ≠ 58) := by
    intro d hd
    exact decide_eq_true (fun he => h (he ▸ hd))
  have htext : fieldLine it = it.1 ++ 58 :: 32 :: it.2 := by simp [fieldLine, ascii]
  obtain ⟨htake, hdrop⟩ :=
    takeWhile_append_cons (p := fun d => decide (d ≠ 58)) 58 (32 :: it.2) hname (by decide)
  rw [headerOf, htext, hdrop, htake]
  rfl

theorem addedHeader_clean {req : HttpRequest} {res : HttpResponse} {key val : Bytes}
    (h : addedHeader req res key = some val) (hredirect : 13 ∉ res.redirect) :
    58 ∉ key ∧ 13 ∉ key ∧ 13 ∉ val := by
  have hnumeral : 13 ∉ numeral res.body.length := by
    intro hin
    have hdigit := numeral_isDigit res.body.length 13 hin
    revert hdigit
    decide
  have hconn : 13 ∉ if req.isCose then ascii "close" else ascii "keep-alive" := by split <;> decide
  unfold addedHeader at h
  split at h
  · rename_i hkey
    cases h
    exact ⟨hkey ▸ by decide, hkey ▸ by decide, hconn⟩
  split at h
  · rename_i hkey
    cases h
    exact ⟨hkey ▸ by decide, hkey ▸ by decide, hnumeral⟩
  split at h
  · rename_i hkey
    split at h
    · cases h
    · cases h
      exact ⟨hkey ▸ by decide, hkey ▸ by decide, by decide⟩
  split at h
  · rename_i hkey
    split at h
    · cases h
      exact ⟨hkey ▸ by decide, hkey ▸ by decide, hredirect⟩
    · cases h
  · cases h

theorem mapM_headerOf (its : List (Bytes × Bytes)) (h : ∀ it ∈ its, 58 ∉ it.1) :
    (its.map fieldLine).mapM headerOf = some its := by
  induction its with
  | nil => rfl
  | cons it its ih =>
    rw [List.map_cons, List.mapM_cons, headerOf_fieldLine (h it List.mem_cons_self),
      ih (fun it' hit => h it' (List.mem_cons_of_mem _ hit))]
    rfl

theorem reads_headerLines (its : List (Bytes × Bytes))
    (h : ∀ it ∈ its, 58 ∉ it.1 ∧ 13 ∉ it.1 ∧ 13 ∉ it.2) :
    Reads headerLines (its.flatMap (fun it => it.1 ++ ascii ": " ++ it.2 ++ crlf) ++ crlf) its := by
  have hblock : Reads (block line List.isEmpty)
      (its.flatMap (fun it => it.1 ++ ascii ": " ++ it.2 ++ crlf) ++ crlf) (its.map fieldLine) := by
    have hempty : Reads line crlf [] := reads_line List.not_mem_nil
    refine reads_block its (fun it hit => ⟨reads_line ?_, ?_⟩)
      (fun it _ => by simp [crlf, ascii]) hempty rfl
      (by decide)
    · obtain ⟨-, hname, hval⟩ := h it hit
      have hsep : (13 : UInt8) ∉ ascii ": " := by decide
      simp only [List.mem_append, not_or]
      exact ⟨⟨hname, hsep⟩, hval⟩
    · simp [fieldLine, ascii]
  exact hblock.convert (mapM_headerOf its fun it hit => (h it hit).1)

/-! ## The body -/

theorem lookup_of_mem {its : List (Bytes × Bytes)} (hnodup : (its.map Prod.fst).Nodup)
    {key val : Bytes} (h : (key, val) ∈ its) : its.lookup key = some val := by
  induction its with
  | nil => exact absurd h List.not_mem_nil
  | cons it its ih =>
    obtain ⟨hnew, hnodup⟩ := List.nodup_cons.mp hnodup
    rcases List.mem_cons.mp h with rfl | h
    · exact List.lookup_cons_self
    · have hne : (key == it.1) = false := by
        rw [beq_eq_false_iff_ne]
        rintro rfl
        exact hnew (List.mem_map.mpr ⟨_, h, rfl⟩)
      rw [List.lookup_cons, hne]
      exact ih hnodup h

theorem reads_body {its : List (Bytes × Bytes)} {val : Bytes} (body : Bytes)
    (hlookup : its.lookup (ascii "Content-Length") = some val)
    (hval : readNat val = some body.length) :
    Reads (bodyOf its) body body := by
  intro rest
  rw [bodyOf, hlookup, Option.bind_some, hval, Option.bind_some]
  exact reads_exactly body rest

end ReceivedResponse

/-! ## Responses -/

namespace Exchange

open ReceivedResponse

variable (srv : HttpServer) (x : Exchange)

/-- What `WriteResponse` hands to `Send`. -/
def text : Bytes := (srv.writeResponse x.req x.res).2

def received : ReceivedResponse :=
  ⟨x.res.status, srv.walk (completeHeaders x.req x.res).headers, x.res.body⟩

/-- No header that is written breaks its line, nor does its name end early. -/
theorem header_clean {key val : Bytes}
    (h : (completeHeaders x.req x.res).headers.lookup key = some val) :
    58 ∉ key ∧ 13 ∉ key ∧ 13 ∉ val := by
  rw [lookup_completeHeaders] at h
  rcases Option.or_eq_some_iff.mp h with hset | ⟨-, hadded⟩
  · exact ⟨(x.name_clean key val hset).1, (x.name_clean key val hset).2.1,
      (x.value_clean key val hset).1⟩
  · exact addedHeader_clean hadded x.redirect_clean.1

/-- `Content-Length` is set, by the handler or after it, and says how long the body is. -/
theorem contentLength_written : ∃ val,
    (completeHeaders x.req x.res).headers.lookup (ascii "Content-Length") = some val ∧
      readNat val = some x.res.body.length := by
  rw [lookup_completeHeaders]
  cases hset : x.res.headers.lookup (ascii "Content-Length") with
  | none =>
    have hlen : ascii "Content-Length" ≠ ascii "Connection" := by decide
    refine ⟨numeral x.res.body.length, ?_, readNat_numeral _⟩
    rw [Option.none_or, addedHeader, if_neg hlen, if_pos rfl]
  | some val => exact ⟨val, rfl, x.contentLength val hset⟩

theorem reads_text : Reads read (x.text srv) (x.received srv) := by
  obtain ⟨hstatus, hbody⟩ := completeHeaders_kept x.req x.res
  obtain ⟨val, hlookup, hval⟩ := x.contentLength_written
  have hmem := (srv.mem_walk (completeHeaders x.req x.res).headers _ _).mpr hlookup
  have htext : x.text srv = (statusLine x.req (completeHeaders x.req x.res) ++ crlf) ++
      (((srv.walk (completeHeaders x.req x.res).headers).flatMap
        (fun it => it.1 ++ ascii ": " ++ it.2 ++ crlf) ++ crlf) ++ x.res.body) := by
    simp [text, writeResponse, responseText, statusLine, hbody]
  rw [htext]
  refine (reads_statusLine x.req _ x.version_clean).andThen ((reads_headerLines _ ?_).andThen
    ((reads_body x.res.body (lookup_of_mem (srv.walk_nodup _) hmem) hval).convert ?_))
  · intro it hit
    exact x.header_clean ((srv.mem_walk _ it.1 it.2).mp hit)
  · rw [hstatus]
    rfl

theorem text_ne_nil : x.text srv ≠ [] := by
  simp [text, writeResponse, responseText, ascii]

theorem recovers_received : Recovers x (x.received srv) where
  status := rfl
  headers key val := by
    rw [← lookup_completeHeaders]
    exact srv.mem_walk _ key val
  headers_nodup := srv.walk_nodup _
  body := rfl

end Exchange

/-- From the responses written one behind the other a reader recovers, with nothing left over,
every status, header map and body, whatever the bodies contain and in whatever order the
headers are walked. -/
theorem responses_round_trip (srv : HttpServer) (xs : List Exchange) :
    ∃ rs, all ReceivedResponse.read (xs.flatMap (fun x => (srv.writeResponse x.req x.res).2)) =
    some rs ∧
      List.Forall₂ Recovers xs rs := by
  refine ⟨xs.map (Exchange.received srv), ?_, ?_⟩
  · exact all_flatMap xs (fun x _ => x.reads_text srv) (fun x _ => x.text_ne_nil srv)
  · exact List.forall₂_map_right_iff.mpr (List.forall₂_same.mpr fun x _ => x.recovers_received srv)

/-- A response to a fresh request with the only header `Content-Length`, which the handler has set
to the length. -/
def Exchange.sized (status : Int) (body : Bytes) : Exchange where
  req := HttpRequest.fresh
  res :=
    { (HttpResponse.ofStatus status).setHeader (ascii "Content-Length") (numeral body.length) with body := body }
  version_clean := HttpRequest.versionClean_fresh
  name_clean key val hval := by
    rw [HttpResponse.lookup_setHeader] at hval
    by_cases hkey : key = ascii "Content-Length"
    · rw [hkey]
      decide
    · simp [HttpResponse.ofStatus, hkey] at hval
  value_clean key val hval := by
    rw [HttpResponse.lookup_setHeader] at hval
    by_cases hkey : key = ascii "Content-Length"
    · simp only [HttpResponse.ofStatus, hkey, AList.lookup_empty, Option.none_or, if_true,
        Option.some.injEq] at hval
      have hdigits := fun c hc => numeral_isDigit body.length c (hval ▸ hc)
      exact ⟨fun h => absurd (hdigits 13 h) (by decide),
        fun h => absurd (hdigits newline h) (by decide)⟩
    · simp [HttpResponse.ofStatus, hkey] at hval
  redirect_clean := ⟨nofun, nofun⟩
  contentLength val hval := by
    simp only [HttpResponse.lookup_setHeader, HttpResponse.ofStatus, AList.lookup_empty,
      Option.none_or, if_true,
      Option.some.injEq] at hval
    rw [← hval, ReceivedResponse.readNat_numeral]

/-- A response without headers of its own. -/
def Exchange.bare (status : Int) (body : Bytes) : Exchange where
  req := HttpRequest.fresh
  res := { HttpResponse.ofStatus status with body := body }
  version_clean := HttpRequest.versionClean_fresh
  name_clean _ _ hval := by simp [HttpResponse.ofStatus] at hval
  value_clean _ _ hval := by simp [HttpResponse.ofStatus] at hval
  redirect_clean := ⟨nofun, nofun⟩
  contentLength _ hval := by simp [HttpResponse.ofStatus] at hval

/-- A body that looks like the end of the headers, and one whose length the handler has set. -/
theorem responses_round_trip_pair :
    let srv := ofFiles [] ⟨fun _ => false, fun _ => false, fun _ => none, nofun⟩
    let xs := [Exchange.bare 404 (crlf ++ crlf), Exchange.sized 200 (ascii "ok")]
    (∃ rs, all ReceivedResponse.read (xs.flatMap (fun x => (srv.writeResponse x.req x.res).2)) = some rs ∧
      List.Forall₂ Recovers xs rs) ∧
    (all ReceivedResponse.read (xs.flatMap (fun x => (srv.writeResponse x.req x.res).2))).map
      (·.map fun r => (r.status, r.body)) = some [(404, crlf ++ crlf), (200, ascii "ok")] :=
  ⟨responses_round_trip _ _, by decide +kernel⟩

end MuduoServer
