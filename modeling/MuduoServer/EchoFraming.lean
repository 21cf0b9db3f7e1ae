import MuduoServer.EchoSegments
import MuduoServer.ResponseHeaders

/-!
# How the demo server frames its responses

`HandleRequest` leaves through a redirection, an error page or a file, and each exit sets its own
headers. `SerializeResponse` adds none, so the redirection goes out with neither a length nor its
target.
-/
namespace MuduoServer

open StdString Uitl

namespace EchoServer

variable (srv : EchoServer)

/-- The path behind the treatment of the root. -/
def rootPath (path : Bytes) : Bytes :=
  if path.isEmpty || path = ascii "/" then ascii "/index.html" else path

/-- The path passes the check and names a directory without the slash, and no file answers
in its place. -/
structure NamesDirectory (path : Bytes) : Prop where
  vaild : vaildPath path = .ok true
  noSlash : (rootPath path).getLast? ≠ some slash
  directory : isDirectory srv.fs (srv.rootDir ++ rootPath path) = true
  notRegular : isRegular srv.fs (srv.rootDir ++ rootPath path) = false
  noPage : 46 ∈ rootPath path ∨
    isRegular srv.fs (srv.rootDir ++ rootPath path ++ ascii ".html") = false

/-- `HandleRequest` looks at the path. -/
def Looks (req : HttpRequest) : Prop := req.method = ascii "GET" ∨ req.method = ascii "HEAD"

/-- The request with `GET` for `HEAD`. -/
def asGet (req : HttpRequest) : HttpRequest :=
  if req.method = ascii "HEAD" then { req with method := ascii "GET" } else req

/-- The response that is sent. -/
def sent (req : HttpRequest) : Except Fault HttpResponse := do
  let resp ← srv.handleRequest req (HttpResponse.ofStatus 200)
  return resp.setHeader (ascii "Connection")
    (if clientKeep req then ascii "keep-alive" else ascii "close")

/-- The length is that of the body, for `HEAD` that of the body of the same `GET`, and a redirection
names its target. -/
structure Delimited (req : HttpRequest) (resp : HttpResponse) : Prop where
  length : ∃ whole, srv.sent (asGet req) = .ok whole ∧
    (ascii "Content-Length", numeral whole.body.length) ∈ srv.walk resp.headers
  location : resp.isRedirect = true → (ascii "Location", resp.redirect) ∈ srv.walk resp.headers

theorem rootPath_ne_nil (path : Bytes) : rootPath path ≠ [] := by
  unfold rootPath
  split
  · decide
  · rename_i hnot
    rintro rfl
    exact hnot rfl

/-- `HandleRequest` behind its check of the method. -/
theorem handleRequest_looks {path : Bytes} {vaild : Bool} {last : UInt8}
    (hvaild : vaildPath path = .ok vaild) (hlast : back (rootPath path) = .ok last)
    {req : HttpRequest} (hreq : Looks req) (hpath : req.path = path) (resp : HttpResponse) :
    srv.handleRequest req resp =
      if vaild = false then .ok (buildErrorResponse { resp with status := 403 })
      else
        let named := srv.namedFile (rootPath path) last
        if named.2 = false ∧ isDirectory srv.fs named.1 = true ∧ last ≠ slash then
          .ok (resp.setRedirect (rootPath path ++ ascii "/") 302)
        else
          let file :=
            if last = slash then (named.1 ++ ascii "index.html",
              isRegular srv.fs (named.1 ++ ascii "index.html")) else named
          if file.2 = false then .ok (buildErrorResponse { resp with status := 404 })
          else srv.sendFile req resp file.1 := by
  have hmethod : (decide (req.method = ascii "GET") || decide (req.method = ascii "HEAD")) =
      true := by
    simpa [Looks] using hreq
  unfold handleRequest
  simp only [hmethod, hpath, hvaild, Bind.bind, Except.bind, Pure.pure, Except.pure]
  rw [show (if (path.isEmpty || path = ascii "/") = true then ascii "/index.html" else path) =
    rootPath path from rfl, hlast]
  simp only [Bool.not_true, Bool.false_eq_true, if_false, Bool.and_eq_true, Bool.not_eq_true',
    decide_eq_true_eq, and_assoc]

/-- No file answers in place of a directory. -/
theorem namedFile_none {path : Bytes} {last : UInt8} (hlast : back path = .ok last) :
    ((srv.namedFile path last).2 = false ∧ isDirectory srv.fs (srv.namedFile path last).1 = true ∧
      last ≠ slash) ↔
      path.getLast? ≠ some slash ∧ isDirectory srv.fs (srv.rootDir ++ path) = true ∧
        isRegular srv.fs (srv.rootDir ++ path) = false ∧
        (46 ∈ path ∨ isRegular srv.fs (srv.rootDir ++ path ++ ascii ".html") = false) := by
  have hget : path.getLast? = some last := by
    unfold back at hlast
    split at hlast
    · rename_i hc
      rw [hc, Except.ok.inj hlast]
    · cases hlast
  have hdot : find path dot 0 = none ↔ 46 ∉ path := find_byte path 46
  rw [namedFile, hget]
  by_cases hregular : isRegular srv.fs (srv.rootDir ++ path) = true
  · simp [hregular]
  · by_cases hpage : find path dot 0 = none ∧ last ≠ slash ∧
      isRegular srv.fs (srv.rootDir ++ path ++ ascii ".html") = true
    · rw [if_neg hregular, if_pos hpage]
      refine iff_of_false (fun h => Bool.noConfusion h.1) ?_
      rintro ⟨-, -, -, hdotted | hno⟩
      · exact hdot.mp hpage.1 hdotted
      · rw [hno] at hpage
        exact Bool.noConfusion hpage.2.2
    · rw [if_neg hregular, if_neg hpage]
      have hnoPage : last ≠ slash →
          (46 ∈ path ∨ isRegular srv.fs (srv.rootDir ++ path ++ ascii ".html") = false) := by
        intro hslash
        by_contra hboth
        obtain ⟨hdotted, hno⟩ := not_or.mp hboth
        exact hpage ⟨hdot.mpr hdotted, hslash, Bool.eq_true_of_not_eq_false hno⟩
      rw [ne_eq (some last), Option.some.injEq]
      constructor
      · rintro ⟨-, hdir, hslash⟩
        exact ⟨hslash, hdir, Bool.eq_false_of_not_eq_true hregular, hnoPage hslash⟩
      · rintro ⟨hslash, hdir, -, -⟩
        exact ⟨rfl, hdir, hslash⟩

/-- The exits of `HandleRequest` for a path. A file is the one exit that looks at the method. -/
theorem handleRequest_exits (path : Bytes) :
    (srv.NamesDirectory path ∧ ∀ req resp, Looks req → req.path = path →
      srv.handleRequest req resp = .ok (resp.setRedirect (rootPath path ++ ascii "/") 302)) ∨
    ¬srv.NamesDirectory path ∧
      ((∃ status, ∀ req resp, Looks req → req.path = path →
        srv.handleRequest req resp = .ok (buildErrorResponse { resp with status := status })) ∨
      ∃ fullPath, ∀ req resp, Looks req → req.path = path →
        srv.handleRequest req resp = srv.sendFile req resp fullPath) := by
  obtain ⟨last, hlast⟩ := back_ok (rootPath_ne_nil path)
  have hsplit := vaildPath_eq path
  generalize levels 0 (pieces slash path) = vaild at hsplit
  have hlooks := fun req resp (hreq : Looks req) (hpath : req.path = path) =>
    srv.handleRequest_looks hsplit hlast hreq hpath resp
  have hdir := srv.namedFile_none hlast
  dsimp only at hlooks
  cases vaild with
  | false =>
    refine .inr ⟨fun hnames => ?_, .inl ⟨403, hlooks⟩⟩
    rw [hnames.vaild] at hsplit
    cases hsplit
  | true =>
    generalize srv.namedFile (rootPath path) last = named at hlooks hdir
    generalize (if last = slash then _ else named : Bytes × Bool) = file at hlooks
    by_cases hnamed : named.2 = false ∧ isDirectory srv.fs named.1 = true ∧ last ≠ slash
    · obtain ⟨hslash, hd, hregular, hpage⟩ := hdir.mp hnamed
      refine .inl ⟨⟨hsplit, hslash, hd, hregular, hpage⟩, fun req resp hreq hpath => ?_⟩
      rw [hlooks req resp hreq hpath, if_neg (by decide), if_pos hnamed]
    · refine .inr ⟨fun h => hnamed (hdir.mpr ⟨h.noSlash, h.directory, h.notRegular, h.noPage⟩), ?_⟩
      by_cases hfile : file.2 = false
      · refine .inl ⟨404, fun req resp hreq hpath => ?_⟩
        rw [hlooks req resp hreq hpath, if_neg (by decide), if_neg hnamed, if_pos hfile]
      · refine .inr ⟨file.1, fun req resp hreq hpath => ?_⟩
        rw [hlooks req resp hreq hpath, if_neg (by decide), if_neg hnamed, if_neg hfile]

theorem mem_walk (m : StrMap) (key val : Bytes) :
    (key, val) ∈ srv.walk m ↔ m.lookup key = some val :=
  mem_of_perm_entries (srv.walk_perm m) key val

theorem sent_eq {req : HttpRequest} {resp : HttpResponse}
    (h : srv.handleRequest req (HttpResponse.ofStatus 200) = .ok resp) :
    srv.sent req =
      .ok (resp.setHeader (ascii "Connection")
        (if clientKeep req then ascii "keep-alive" else ascii "close")) := by
  rw [sent, h]
  rfl

theorem response_sent {req : HttpRequest} {resp : HttpResponse} (h : srv.sent req = .ok resp) :
    srv.response req = .ok (srv.serializeResponse resp) := by
  unfold sent at h
  unfold response
  cases hresp : srv.handleRequest req (HttpResponse.ofStatus 200) with
  | error f =>
    rw [hresp] at h
    cases h
  | ok resp' =>
    rw [hresp] at h
    cases h
    rfl

/-- The `Connection` header is no `Content-Length`. -/
theorem lookup_connection (resp : HttpResponse) (val : Bytes) :
    (resp.setHeader (ascii "Connection") val).headers.lookup (ascii "Content-Length") =
      resp.headers.lookup (ascii "Content-Length") := by
  rw [HttpResponse.lookup_setHeader, if_neg (by decide), Option.or_none]

/-- An error page comes with its length. -/
theorem lookup_buildErrorResponse {resp : HttpResponse}
    (h : ascii "Content-Length" ∉ resp.headers) :
    (buildErrorResponse resp).headers.lookup (ascii "Content-Length") =
      some (numeral (buildErrorResponse resp).body.length) := by
  have hnone : resp.headers.lookup (ascii "Content-Length") = none := AList.lookup_eq_none.mpr h
  unfold buildErrorResponse
  rw [HttpResponse.lookup_setHeader, HttpResponse.lookup_setHeader, hnone,
    if_neg (by decide), if_pos rfl]
  rfl

/-- A file comes with its length, whether it is sent or not, and is no redirection. -/
theorem sendFile_framed {req whole : HttpRequest} {resp sent full : HttpResponse} {fullPath : Bytes}
    (hget : whole.method = ascii "GET") (h : ascii "Content-Length" ∉ resp.headers)
    (hsent : srv.sendFile req resp fullPath = .ok sent)
    (hfull : srv.sendFile whole resp fullPath = .ok full) :
    sent.headers.lookup (ascii "Content-Length") = some (numeral full.body.length) ∧
      sent.isRedirect = resp.isRedirect := by
  have hnone : resp.headers.lookup (ascii "Content-Length") = none := AList.lookup_eq_none.mpr h
  unfold sendFile at hsent hfull
  cases hread : readFile srv.fs fullPath [] with
  | error f =>
    rw [hread] at hsent
    cases hsent
  | ok r =>
    obtain ⟨ret, content⟩ := r
    rw [hread] at hsent hfull
    cases ret with
    | false =>
      cases hsent
      cases hfull
      exact ⟨lookup_buildErrorResponse h, rfl⟩
    | true =>
      cases hsent
      cases hfull
      refine ⟨?_, rfl⟩
      rw [HttpResponse.lookup_setHeader, HttpResponse.lookup_setHeader, hnone, if_neg (by decide),
        if_pos rfl, hget]
      rfl

/-- A response that is none of a redirection needs its length only. -/
theorem delimited_of_length {req : HttpRequest} {resp whole : HttpResponse}
    (hwhole : srv.handleRequest (asGet req) (HttpResponse.ofStatus 200) = .ok whole)
    (hlength : resp.headers.lookup (ascii "Content-Length") = some (numeral whole.body.length))
    (hredirect : resp.isRedirect = false) (val : Bytes) :
    srv.Delimited req (resp.setHeader (ascii "Connection") val) := by
  refine ⟨⟨_, srv.sent_eq hwhole, ?_⟩, fun h => ?_⟩
  · rw [mem_walk, lookup_connection]
    exact hlength
  · exact absurd (hredirect.symm.trans h) Bool.false_ne_true

/-- A root with one directory, `d`. -/
def oneDirectory : EchoServer :=
  { emptySite with
    rootDir := ascii "r"
    fs := { FileSystem.empty with directory := fun path => path = ascii "r/d" } }

/-- A request for the directory `d` without its slash. -/
def forDirectory : HttpRequest :=
  { HttpRequest.fresh with method := ascii "GET", path := ascii "/d" }

end EchoServer
end MuduoServer
