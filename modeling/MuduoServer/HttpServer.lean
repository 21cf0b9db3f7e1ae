import MuduoServer.HttpContent

/-!
# The HTTP server

`Http_Server` answers a request from a file below its base directory or from the
first route whose pattern matches the path. `OnMessage` runs the parser over the
connection buffer and writes one response for each request. What lies outside
the server enters as fields: the file system, the route patterns and handlers,
and the order in which the header map is walked.
-/
namespace MuduoServer

open StdString Uitl

/-- A file opened for reading. -/
inductive FileRead where
  /-- `tellg` names a length that a string can have: what the string holds after `read`, and whether
  that succeeds. -/
  | sized (content : Bytes) (good : Bool)
  /-- `tellg` names a length that no string can have, as it does for a directory. -/
  | tooLong

/-- The file system as C functions see it, by NUL-terminated path. -/
structure FileSystem where
  regular : Bytes → Bool
  directory : Bytes → Bool
  openRead : Bytes → Option FileRead
  /-- A regular file is no longer than a string can be. -/
  regular_sized : ∀ path, regular path = true → openRead path ≠ some .tooLong

/-- A file system without files. -/
def FileSystem.empty : FileSystem where
  regular _ := false
  directory _ := false
  openRead _ := none
  regular_sized _ h := absurd h Bool.false_ne_true

/-- `ReadFile`: the result and the buffer it leaves, unless the buffer's `resize` throws. -/
def Uitl.readFile (fs : FileSystem) (filename buffer : Bytes) : Except Fault (Bool × Bytes) :=
  match fs.openRead (cStr filename) with
  | none => .ok (false, buffer)
  | some .tooLong => .error .lengthError
  | some (.sized content good) => if content.length = 0 then .ok (true, []) else .ok (good, content)

def Uitl.isRegular (fs : FileSystem) (filename : Bytes) : Bool := fs.regular (cStr filename)

/-- `ReadFile` throws only where its buffer would be longer than a string can be. -/
theorem Uitl.readFile_error {fs : FileSystem} {filename buffer : Bytes} {f : Fault}
    (h : readFile fs filename buffer = .error f) : f = .lengthError := by
  unfold readFile at h
  split at h
  · cases h
  · cases h
    rfl
  · split at h
    · cases h
    · cases h

theorem Uitl.readFile_regular {fs : FileSystem} {filename : Bytes}
    (h : isRegular fs filename = true) (buffer : Bytes) :
    ∃ r, readFile fs filename buffer = .ok r := by
  have hsized := fs.regular_sized (cStr filename) h
  unfold readFile
  cases hopen : fs.openRead (cStr filename) with
  | none => exact ⟨_, rfl⟩
  | some f =>
    cases f with
    | sized content good =>
      dsimp only
      split
      · exact ⟨_, rfl⟩
      · exact ⟨_, rfl⟩
    | tooLong => exact absurd hopen hsized

def Uitl.isDirectory (fs : FileSystem) (filename : Bytes) : Bool := fs.directory (cStr filename)

/-- `std::regex_match` of one route pattern: the sub-matches of a match. -/
abbrev Pattern := Bytes → Option (List Bytes)

abbrev Handler := HttpRequest → HttpResponse → HttpResponse

structure HttpServer where
  getRoute : List (Pattern × Handler)
  postRoute : List (Pattern × Handler)
  putRoute : List (Pattern × Handler)
  deleteRoute : List (Pattern × Handler)
  basedir : Bytes
  fs : FileSystem
  /-- The order in which the map of response headers is walked. -/
  walk : StrMap → List (Bytes × Bytes)
  walk_perm : ∀ m, (walk m).Perm (m.entries.map fun e => (e.1, e.2))

namespace HttpServer

/-- A server without routes. -/
def ofFiles (basedir : Bytes) (fs : FileSystem) : HttpServer where
  getRoute := []
  postRoute := []
  putRoute := []
  deleteRoute := []
  basedir := basedir
  fs := fs
  walk m := m.entries.map fun e => (e.1, e.2)
  walk_perm _ := .refl _

variable (srv : HttpServer)

def eerrHander (res : HttpResponse) : Except Fault HttpResponse := do
  let (_, buffer) ← readFile srv.fs (srv.basedir ++ ascii "/404.html") []
  return res.setbody buffer (ascii "text/html")

theorem eerrHander_error {res : HttpResponse} {f : Fault} (h : srv.eerrHander res = .error f) :
    f = .lengthError := by
  unfold eerrHander at h
  cases hread : readFile srv.fs (srv.basedir ++ ascii "/404.html") [] with
  | error f' =>
    rw [hread] at h
    cases h
    exact readFile_error hread
  | ok r =>
    rw [hread] at h
    cases h

theorem eerrHander_eq {res res' : HttpResponse} (h : srv.eerrHander res = .ok res') :
    ∃ ret buffer, readFile srv.fs (srv.basedir ++ ascii "/404.html") [] = .ok (ret, buffer) ∧
      res' = res.setbody buffer (ascii "text/html") := by
  unfold eerrHander at h
  cases hread : readFile srv.fs (srv.basedir ++ ascii "/404.html") [] with
  | error f =>
    rw [hread] at h
    cases h
  | ok r =>
    rw [hread] at h
    cases h
    exact ⟨r.1, r.2, rfl, rfl⟩

/-- `std::to_string` of an `int`. -/
def intNumeral (n : Int) : Bytes := if n < 0 then 45 :: numeral n.natAbs else numeral n.natAbs

def crlf : Bytes := ascii "\r\n"

/-- The response with the headers `WriteResponse` adds. -/
def completeHeaders (req : HttpRequest) (res : HttpResponse) : HttpResponse :=
  let res :=
    if req.isCose then res.setHeader (ascii "Connection") (ascii "close")
    else res.setHeader (ascii "Connection") (ascii "keep-alive")
  let res :=
    if !res.hasHeader (ascii "Content-Length") then
      res.setHeader (ascii "Content-Length") (numeral res.body.length)
    else res
  let res :=
    if !res.body.isEmpty && !res.hasHeader (ascii "Content-Type") then
      res.setHeader (ascii "Content-Type") (ascii "application/octet-stream")
    else res
  if res.isRedirect then res.setHeader (ascii "Location") res.redirect else res

/-- The bytes `WriteResponse` hands to `Send`. -/
def responseText (req : HttpRequest) (res : HttpResponse) : Bytes :=
  req.version ++ ascii " " ++ intNumeral res.status ++ ascii " " ++ statuDesc res.status ++ crlf ++
    (srv.walk res.headers).flatMap (fun it => it.1 ++ ascii ": " ++ it.2 ++ crlf) ++
      crlf ++ res.body

/-- The changed response and the payload. -/
def writeResponse (req : HttpRequest) (res : HttpResponse) : HttpResponse × Bytes :=
  (completeHeaders req res, srv.responseText req (completeHeaders req res))

/-- The path `IsFileHandler` and `FileHandler` append the request path to. -/
def indexPath (path : Bytes) (directory : Bool) : Bytes :=
  if directory then path ++ ascii "index.html" else path

def isFileHandler (req : HttpRequest) : Except Fault Bool :=
  if srv.basedir.isEmpty then .ok false
  else if !(req.method = ascii "GET" || req.method = ascii "HEAD") then .ok false
  else do
    if !(← vaildPath req.path) then return false
    let backPath := srv.basedir ++ req.path
    let last ← back backPath
    return isRegular srv.fs (indexPath backPath (last = slash))

/-- The path `FileHandler` opens, as the C library sees it. -/
def openedPath (req : HttpRequest) : Except Fault Bytes := do
  let last ← back req.path
  return indexPath (srv.basedir ++ req.path) (last = slash)

def fileHandler (req : HttpRequest) (res : HttpResponse) : Except Fault HttpResponse := do
  let backPath ← srv.openedPath req
  let (ret, body) ← readFile srv.fs backPath res.body
  if ret = false then return { res with body := body, status := 404 }
  else return { res with body := body }.setHeader (ascii "Content-Type") (exMime backPath)

/-- A file response is the file with its type, or what could be read of it as a 404. -/
theorem fileHandler_eq {req : HttpRequest} {res res' : HttpResponse}
    (h : srv.fileHandler req res = .ok res') :
    ∃ path ret body, srv.openedPath req = .ok path ∧
    readFile srv.fs path res.body = .ok (ret, body) ∧
      (ret = false ∧ res' = { res with body := body, status := 404 } ∨
        ret = true ∧ res' = { res with body := body }.setHeader (ascii "Content-Type")
          (exMime path)) := by
  unfold fileHandler at h
  cases hpath : srv.openedPath req with
  | error f =>
    rw [hpath] at h
    cases h
  | ok path =>
    rw [hpath] at h
    simp only [Bind.bind, Except.bind, Pure.pure, Except.pure] at h
    cases hread : readFile srv.fs path res.body with
    | error f =>
      rw [hread] at h
      cases h
    | ok r =>
      obtain ⟨ret, body⟩ := r
      rw [hread] at h
      dsimp only at h
      cases ret with
      | false =>
        cases h
        exact ⟨path, false, body, rfl, hread, .inl ⟨rfl, rfl⟩⟩
      | true =>
        cases h
        exact ⟨path, true, body, rfl, hread, .inr ⟨rfl, rfl⟩⟩

/-- A pattern that fails leaves an empty match behind. -/
def dispather (req : HttpRequest) (res : HttpResponse) :
    List (Pattern × Handler) → HttpRequest × HttpResponse
  | [] => (req, { res with status := 404 })
  | (re, func) :: handlers =>
    match re req.path with
    | none => dispather { req with matched := [] } res handlers
    | some matched => ({ req with matched := matched }, func { req with matched := matched } res)

/-- The request with its matches, and the response before it is written. -/
def route (req : HttpRequest) (res : HttpResponse) : Except Fault (HttpRequest × HttpResponse) := do
  if ← srv.isFileHandler req then
    let res ← srv.fileHandler req res
    return (req, res)
  if req.method = ascii "GET" || req.method = ascii "HEAD"
    then return dispather req res srv.getRoute
  else if req.method = ascii "POST" then return dispather req res srv.postRoute
  else if req.method = ascii "PUT" then return dispather req res srv.putRoute
  else if req.method = ascii "DELETE" then return dispather req res srv.deleteRoute
  else return (req, { res with status := 405 })

/-- What answers a request: a file, the routes of its method, or nothing. -/
theorem route_cases {req req' : HttpRequest} {res res' : HttpResponse}
    (h : srv.route req res = .ok (req', res')) :
    req' = req ∧ srv.fileHandler req res = .ok res' ∨
    (∃ handlers ∈ [srv.getRoute, srv.postRoute, srv.putRoute, srv.deleteRoute],
      dispather req res handlers = (req', res')) ∨
    req' = req ∧ res' = { res with status := 405 } := by
  unfold route at h
  cases hf : srv.isFileHandler req with
  | error f => rw [hf] at h; cases h
  | ok isFile =>
    rw [hf] at h
    simp only [Bind.bind, Except.bind, Pure.pure, Except.pure] at h
    cases isFile with
    | true =>
      simp only [if_true] at h
      cases hb : srv.fileHandler req res with
      | error f => rw [hb] at h; cases h
      | ok r =>
        rw [hb] at h
        cases h
        exact .inl ⟨rfl, rfl⟩
    | false =>
      simp only [Bool.false_eq_true, if_false] at h
      split at h
      · exact .inr (.inl ⟨srv.getRoute, by simp, Except.ok.inj h⟩)
      · split at h
        · exact .inr (.inl ⟨srv.postRoute, by simp, Except.ok.inj h⟩)
        · split at h
          · exact .inr (.inl ⟨srv.putRoute, by simp, Except.ok.inj h⟩)
          · split at h
            · exact .inr (.inl ⟨srv.deleteRoute, by simp, Except.ok.inj h⟩)
            · cases h
              exact .inr (.inr ⟨rfl, rfl⟩)

/-- A `HEAD` response loses its body before it is written. -/
def headResponse (req : HttpRequest) (res : HttpResponse) : HttpResponse :=
  if req.method = ascii "HEAD" then
    let res := { res with body := [] }
    if res.hasHeader (ascii "Content-Length")
      then res.setHeader (ascii "Content-Length") (ascii "0")
    else res
  else res

/-- The response of a finished request, written. -/
def answer (req : HttpRequest) (status : Int) : Except Fault (HttpResponse × Bytes) := do
  let (req, res) ← srv.route req (HttpResponse.ofStatus status)
  return srv.writeResponse req (headResponse req res)

/-- What `OnMessage` does that can be seen from outside. -/
inductive Event where
  | route (req : HttpRequest)
  | send (payload : Bytes)
  | shutdown
  /-- An error status or an exception. -/
  | error
  deriving DecidableEq

/-- The state `OnMessage` leaves. A fault is an exception on its way to the event
loop; `finished` is false if the fuel did not reach. -/
structure Outcome where
  content : HttpContent
  buffer : Buffer
  events : List Event
  fault : Option Fault
  finished : Bool

def Outcome.after (events : List Event) (o : Outcome) : Outcome :=
  { o with events := events ++ o.events }

/-- The loop of `OnMessage`. `Shutdown` is its last action wherever it occurs, and
runs `OnMessage` again when bytes are left. -/
def onMessage : Nat → HttpContent → Buffer → Outcome
  | 0, context, buffer => ⟨context, buffer, [], none, false⟩
  | fuel + 1, context, buffer =>
    if buffer.currentEnableReadSpaceSize = 0 then ⟨context, buffer, [], none, true⟩
    else
      match context.recvHttpRequest buffer with
      | ⟨context, buffer, .error f⟩ => ⟨context, buffer, [.error], some f, true⟩
      | ⟨context, buffer, .ok _⟩ =>
        let req := context.request
        if 400 ≤ context.resqStatu then
          match srv.eerrHander (HttpResponse.ofStatus context.resqStatu) with
          | .error f => ⟨context, buffer, [.error], some f, true⟩
          | .ok res =>
            let payload := (srv.writeResponse req res).2
            match buffer.moveReadPosition buffer.currentEnableReadSpaceSize with
            | none => ⟨context.reset, buffer, [.error, .send payload], some .assertion, true⟩
            | some buffer =>
              (onMessage fuel context.reset buffer).after [.error, .send payload, .shutdown]
        else if context.recvStatu ≠ .recvHttpOver then ⟨context, buffer, [], none, true⟩
        else
          match srv.answer req context.resqStatu with
          | .error f => ⟨context, buffer, [.route req, .error], some f, true⟩
          | .ok (res, payload) =>
            let sent : List Event := [.route req, .send payload]
            if res.isCose then (onMessage fuel context.reset buffer).after (sent ++ [.shutdown])
            else (onMessage fuel context.reset buffer).after sent

/-- Append each segment to the input buffer and run `OnMessage`; an exception ends the run. -/
def deliver : HttpContent → Buffer → List Bytes → List Event
  | _, _, [] => []
  | context, buffer, seg :: segs =>
    match buffer.writeAndAdd seg with
    | none => [.error]
    | some buffer =>
      let o := srv.onMessage (context.loopFuel buffer) context buffer
      match o.fault with
      | some _ => o.events
      | none => o.events ++ deliver o.content o.buffer segs

end HttpServer
end MuduoServer
