import MuduoServer.HttpServer
import MuduoServer.UitlSpec

/-!
# The demo HTTP server

`HttpServer` of `echoserver.cc` serves files and keeps its parser in the context of the connection.
The context is an `Any`: it stores a value with its type and gives it back only under that very
type. What is stored is a pointer, and what is asked for is the object, so that every call begins
with a new parser.
-/
namespace MuduoServer

open StdString Uitl

/-- `Any`: nothing, or a value with its type. -/
structure Any {τ : Type} (Val : τ → Type) where
  content : Option (Sigma Val)

namespace Any

variable {τ : Type} {Val : τ → Type}

def empty : Any Val := ⟨none⟩

def ofVal {t : τ} (val : Val t) : Any Val := ⟨some ⟨t, val⟩⟩

def get [DecidableEq τ] (a : Any Val) (t : τ) : Option (Val t) :=
  match a.content with
  | none => none
  | some ⟨t', val⟩ => if h : t' = t then some (h ▸ val) else none

variable [DecidableEq τ]

@[simp] theorem get_empty (t : τ) : (empty : Any Val).get t = none := rfl

@[simp] theorem get_ofVal {t : τ} (val : Val t) : (ofVal val).get t = some val := dif_pos rfl

theorem get_ofVal_ne {t t' : τ} (val : Val t') (h : t' ≠ t) : (ofVal val).get t = none := dif_neg h

end Any

structure ConnContext where
  parser : HttpContent
  keepAlive : Bool

/-- The types of what is put into a connection's context. -/
inductive Stored where
  | connContext
  | connContextPtr
  | nullptr
  deriving DecidableEq

/-- A pointer is the number of the object that `new` made. -/
def Stored.Val : Stored → Type
  | .connContext => ConnContext
  | .connContextPtr => Nat
  | .nullptr => Unit

/-- What `OnMessage` works on: the context and the input buffer of the connection, and the objects
made by `new`, of which those deleted are gone. -/
structure Session where
  context : Any Stored.Val
  heap : List (Option ConnContext)
  buffer : Buffer

/-- What `ctx` points to: the value inside the `Any`, or an object made by `new`. -/
inductive CtxPtr where
  | inside
  | made (addr : Nat)

namespace Session

def start : Session := ⟨.empty, [], Buffer.empty⟩

/-- `Get<ConnContext>`, and a new object where it returns null. -/
def findContext (s : Session) : CtxPtr × Session :=
  match s.context.get .connContext with
  | some _ => (.inside, s)
  | none =>
    (.made s.heap.length,
      { s with heap := s.heap ++
        [some ⟨HttpContent.fresh, true⟩], context := .ofVal (t := .connContextPtr) s.heap.length })

def load (s : Session) : CtxPtr → Option ConnContext
  | .inside => s.context.get .connContext
  | .made addr => s.heap[addr]?.join

def store (s : Session) (ctx : ConnContext) : CtxPtr → Session
  | .inside => { s with context := .ofVal (t := .connContext) ctx }
  | .made addr => { s with heap := s.heap.set addr (some ctx) }

/-- `delete ctx`, which only an object made by `new` survives. -/
def delete (s : Session) : CtxPtr → Option Session
  | .inside => none
  | .made addr => some { s with heap := s.heap.set addr none }

end Session

structure EchoServer where
  rootDir : Bytes
  fs : FileSystem
  /-- The order in which the map of response headers is walked. -/
  walk : StrMap → List (Bytes × Bytes)
  walk_perm : ∀ m, (walk m).Perm (m.entries.map fun e => (e.1, e.2))

namespace EchoServer

def buildErrorResponse (resp : HttpResponse) : HttpResponse :=
  let body := ascii "<html><head><title>Error</title></head><body>" ++ ascii "<h1>" ++
    HttpServer.intNumeral resp.status ++
    ascii " " ++ statuDesc resp.status ++ ascii "</h1>" ++ ascii "</body></html>"
  let resp := resp.setHeader (ascii "Content-Type") (ascii "text/html")
  let resp := resp.setHeader (ascii "Content-Length") (numeral body.length)
  { resp with body := body }

/-- Whether the connection is kept after the request. -/
def clientKeep (req : HttpRequest) : Bool :=
  if req.version = ascii "HTTP/1.1" then req.getHeader (ascii "Connection") ≠ ascii "close"
  else req.getHeader (ascii "Connection") = ascii "keep-alive"

variable (srv : EchoServer)

/-- The file, where `path` itself or `path` with `.html` is one. -/
def namedFile (path : Bytes) (last : UInt8) : Bytes × Bool :=
  let fullPath := srv.rootDir ++ path
  if isRegular srv.fs fullPath then (fullPath, true)
  else if find path dot 0 = none ∧ last ≠ slash ∧ isRegular srv.fs (fullPath ++ ascii ".html") then
    (fullPath ++ ascii ".html", true)
  else (fullPath, false)

def sendFile (req : HttpRequest) (resp : HttpResponse) (fullPath : Bytes) :
    Except Fault HttpResponse := do
  let (ret, content) ← readFile srv.fs fullPath []
  if !ret then return buildErrorResponse { resp with status := 500 }
  else
    let resp := { resp with status := 200 }.setHeader (ascii "Content-Type") (exMime fullPath)
    let resp := resp.setHeader (ascii "Content-Length") (numeral content.length)
    return { resp with body := if req.method = ascii "GET" then content else [] }

def handleRequest (req : HttpRequest) (resp : HttpResponse) : Except Fault HttpResponse := do
  if !(req.method = ascii "GET" || req.method = ascii "HEAD") then return buildErrorResponse { resp with status := 405 }
  if !(← vaildPath req.path) then return buildErrorResponse { resp with status := 403 }
  let path := if req.path.isEmpty || req.path = ascii "/" then ascii "/index.html" else req.path
  let last ← back path
  let (fullPath, isFile) := srv.namedFile path last
  if !isFile && isDirectory srv.fs fullPath && last ≠ slash
    then return resp.setRedirect (path ++ ascii "/") 302
  let (fullPath, isFile) :=
    if last = slash then (fullPath ++ ascii "index.html",
      isRegular srv.fs (fullPath ++ ascii "index.html"))
    else (fullPath, isFile)
  if !isFile then return buildErrorResponse { resp with status := 404 }
  srv.sendFile req resp fullPath

def serializeResponse (resp : HttpResponse) : Bytes :=
  ascii "HTTP/1.1 " ++ HttpServer.intNumeral resp.status ++ ascii " " ++ statuDesc resp.status ++
    HttpServer.crlf ++
    (srv.walk resp.headers).flatMap (fun it => it.1 ++ ascii ": " ++ it.2 ++ HttpServer.crlf) ++
      HttpServer.crlf ++ resp.body

/-- The response to a finished request, as it is sent. -/
def response (req : HttpRequest) : Except Fault Bytes := do
  let resp ← srv.handleRequest req (HttpResponse.ofStatus 200)
  let value := if clientKeep req then ascii "keep-alive" else ascii "close"
  return srv.serializeResponse (resp.setHeader (ascii "Connection") value)

def errorResponse (status : Int) : Bytes :=
  srv.serializeResponse (buildErrorResponse (HttpResponse.ofStatus status))

inductive Event where
  | send (payload : Bytes)
  | shutdown
  deriving DecidableEq

/-- The session that is left. A fault is an exception on its way to the event loop; `finished` is
false if the fuel did not reach. -/
structure Outcome where
  session : Session
  events : List Event
  fault : Option Fault
  finished : Bool

/-- What follows the `Shutdown` that ended with `o`: `ctx` is deleted and the context
set to null. -/
def Outcome.dropContext (o : Outcome) (ctx : CtxPtr) : Outcome :=
  match o.fault with
  | some _ => o
  | none =>
    match o.session.delete ctx with
    | none => { o with fault := some .assertion }
    | some s => { o with session := { s with context := .ofVal (t := .nullptr) () } }

def Outcome.after (events : List Event) (o : Outcome) : Outcome :=
  { o with events := events ++ o.events }

/-- `OnMessage`. A `Shutdown` runs it again at once when bytes are left. -/
def onMessage : Nat → Session → Outcome
  | 0, s => ⟨s, [], none, false⟩
  | fuel + 1, s =>
    let (ctx, s) := s.findContext
    let shutdown : Session → List Event → Outcome := fun s events =>
      let o := if s.buffer.currentEnableReadSpaceSize > 0 then onMessage fuel s
        else ⟨s, [], none, true⟩
      (o.dropContext ctx).after (events ++ [.shutdown])
    match s.load ctx with
    | none => ⟨s, [], some .assertion, true⟩
    | some c =>
      match c.parser.recvHttpRequest s.buffer with
      | ⟨parser, buffer, .error f⟩ =>
        ⟨{ s.store { c with parser := parser } ctx with buffer := buffer }, [], some f, true⟩
      | ⟨parser, buffer, .ok _⟩ =>
        let s := { s.store { c with parser := parser } ctx with buffer := buffer }
        if parser.resqStatu ≠ 200 then shutdown s [.send (srv.errorResponse parser.resqStatu)]
        else if parser.recvStatu = .recvHttpOver then
          match srv.response parser.request with
          | .error f => ⟨s, [], some f, true⟩
          | .ok payload =>
            let keep := clientKeep parser.request
            let s := s.store ⟨HttpContent.fresh, keep⟩ ctx
            if keep then ⟨s, [.send payload], none, true⟩ else shutdown s [.send payload]
        else ⟨s, [], none, true⟩

/-- Append each segment to the input buffer and run `OnMessage`; an exception ends the run. A call
that is run again has taken at least a byte, or it never ends. -/
def deliver : Session → List Bytes → Outcome
  | s, [] => ⟨s, [], none, true⟩
  | s, seg :: segs =>
    match s.buffer.writeAndAdd seg with
    | none => ⟨s, [], some .assertion, true⟩
    | some buffer =>
      let o := srv.onMessage (buffer.currentEnableReadSpaceSize + 1) { s with buffer := buffer }
      if o.finished = false ∨ o.fault ≠ none then o else (deliver o.session segs).after o.events

end EchoServer
end MuduoServer
