import MuduoServer.Buffer
import MuduoServer.EcmaRegex
import MuduoServer.HttpMessage

/-!
# The request parser

`HttpContent` reads one request from the connection buffer in three stages that
`RecvHttpRequest` runs through one falling-through switch. A call returns the
parser and the buffer as they stand, also when an exception leaves it early.
-/
namespace MuduoServer

open StdString EcmaRegex Uitl

inductive HttpRecvStatu where
  | recvHttpErr | recvHttpLine | recvHttpHead | recvHttpBody | recvHttpOver
  deriving DecidableEq, Repr

def maxLine : Nat := 8192

structure HttpContent where
  resqStatu : Int
  recvStatu : HttpRecvStatu
  request : HttpRequest
  deriving DecidableEq

/-- What a stage leaves behind, and what it returned or threw. -/
structure Call where
  content : HttpContent
  buffer : Buffer
  ret : Except Fault Bool

/-- The next case of the switch, reached unless an exception is on its way. -/
def Call.fallThrough (r : Call) (stage : HttpContent → Buffer → Call) : Call :=
  match r.ret with
  | .ok _ => stage r.content r.buffer
  | .error _ => r

def nonSpace (c : UInt8) : Bool := !isSpace c

/-- Literal text under `std::regex::icase`. -/
def icase (s : String) : Regex UInt8 := .word ((ascii s).map (fun c d => toLower d == toLower c))

/-- `(GET|POST|HEAD|DELETE|PUT)\s+(\S+?)(?:\?(\S*))?\s+(HTTP/1\.[01])(?:\n|\r\n)?` -/
def requestLine : Regex UInt8 :=
  .seq (.group 1 (.alt (icase "GET") (.alt (icase "POST") (.alt (icase "HEAD")
    (.alt (icase "DELETE") (icase "PUT"))))))
  (.seq (.plus true (.char isSpace))
  (.seq (.group 2 (.plus false (.char nonSpace)))
  (.seq (.opt (.seq (.char (· == 63)) (.group 3 (.star true (.char nonSpace)))))
  (.seq (.plus true (.char isSpace))
  (.seq (.group 4 (.seq (icase "HTTP/1.") (.char (fun c => c == 48 || c == 49))))
  (.opt (.alt (.char (· == 10)) (.seq (.char (· == 13)) (.char (· == 10))))))))))

namespace HttpContent

def fresh : HttpContent := ⟨200, .recvHttpLine, HttpRequest.fresh⟩

def reset (c : HttpContent) : HttpContent := ⟨200, .recvHttpLine, c.request.reSet⟩

def fail (c : HttpContent) (code : Int) : HttpContent :=
  { c with resqStatu := code, recvStatu := .recvHttpErr }

/-- The loop over the `&`-pieces of the query string. -/
def parseQuery (c : HttpContent) : List Bytes → HttpContent × Except Fault Bool
  | [] => (c, .ok true)
  | e :: v =>
    match find e (ascii "=") 0 with
    | none => (c.fail 400, .ok false)
    | some pos =>
      match substr e 0 pos, substrFrom e (pos + 1) with
      | .ok key, .ok value =>
        parseQuery { c with request := c.request.setParams (urlDecode key true) (urlDecode value true) } v
      | .error f, _ => (c, .error f)
      | _, .error f => (c, .error f)

/-- Only the parameters change. -/
theorem parseQuery_request (c : HttpContent) (v : List Bytes) :
    ∃ params, (c.parseQuery v).1.request = { c.request with params := params } := by
  induction v generalizing c with
  | nil => exact ⟨_, rfl⟩
  | cons e v ih =>
    unfold parseQuery
    split
    · exact ⟨_, rfl⟩
    · split
      · exact ih _
      · exact ⟨_, rfl⟩
      · exact ⟨_, rfl⟩

def parseHttpLine (c : HttpContent) (line : Bytes) : HttpContent × Except Fault Bool :=
  match regexMatch requestLine line with
  | none => (c.fail 400, .ok false)
  | some sm =>
    let c := { c with request := { c.request with
      version := sub sm 4
      method := (sub sm 1).map toUpper
      path := urlDecode (sub sm 2) false } }
    match split (sub sm 3) (ascii "&") [] with
    | .ok (v, _) => c.parseQuery v
    | .error f => (c, .error f)

def recvHttpLine (c : HttpContent) (buffer : Buffer) : Call :=
  if c.recvStatu ≠ .recvHttpLine then ⟨c, buffer, .ok false⟩
  else
    match buffer.getLineAndAdd with
    | none => ⟨c, buffer, .error .assertion⟩
    | some (line, buffer) =>
      if line.length = 0 then
        if buffer.currentEnableReadSpaceSize > maxLine then ⟨c.fail 414, buffer, .ok false⟩
        else ⟨c, buffer, .ok true⟩
      else if line.length > maxLine then ⟨c.fail 414, buffer, .ok false⟩
      else
        match c.parseHttpLine line with
        | (c, .ok ret) => ⟨{ c with recvStatu := .recvHttpHead }, buffer, .ok ret⟩
        | (c, .error f) => ⟨c, buffer, .error f⟩

/-- `if (line.back() == c) line.pop_back();` -/
def popBackIf (line : Bytes) (c : UInt8) : Except Fault Bytes := do
  let last ← back line
  return if last = c then line.dropLast else line

def parseHttpHead (c : HttpContent) (line : Bytes) : HttpContent × Except Fault Bool :=
  match popBackIf line newline >>= fun line => popBackIf line 13 with
  | .error f => (c, .error f)
  | .ok line =>
    match find line (ascii ": ") 0 with
    | none => (c.fail 400, .ok false)
    | some pos =>
      match substr line 0 pos, substrFrom line (pos + 2) with
      | .ok key, .ok value => ({ c with request := c.request.setHeader key value }, .ok true)
      | .error f, _ => (c, .error f)
      | _, .error f => (c, .error f)

def blankLine (line : Bytes) : Bool := line = [newline] || line = [13, newline]

/-- The loop over the header lines. Each iteration that goes on has taken a line
from the buffer, so `fuel` need not exceed the bytes readable at its start. -/
def recvHttpHeadLoop : Nat → HttpContent → Buffer → Call
  | 0, c, buffer => ⟨c, buffer, .ok true⟩
  | fuel + 1, c, buffer =>
    match buffer.getLineAndAdd with
    | none => ⟨c, buffer, .error .assertion⟩
    | some (line, buffer) =>
      if line.length = 0 then
        if buffer.currentEnableReadSpaceSize > maxLine then ⟨c.fail 414, buffer, .ok false⟩
        else ⟨c, buffer, .ok true⟩
      else if line.length > maxLine then ⟨c.fail 414, buffer, .ok false⟩
      else if blankLine line then ⟨{ c with recvStatu := .recvHttpBody }, buffer, .ok true⟩
      else
        match c.parseHttpHead line with
        | (c, .ok true) => recvHttpHeadLoop fuel c buffer
        | (c, ret) => ⟨c, buffer, ret⟩

def recvHttpHead (c : HttpContent) (buffer : Buffer) : Call :=
  if c.recvStatu ≠ .recvHttpHead then ⟨c, buffer, .ok false⟩
  else recvHttpHeadLoop (buffer.currentEnableReadSpaceSize + 1) c buffer

/-- `size_t` subtraction. -/
def sizeSub (a b : Nat) : Nat := (a + (2 ^ 64 - b % 2 ^ 64)) % 2 ^ 64

/-- Append `len` unread bytes to the body and move the read position past them. -/
def takeBody (c : HttpContent) (buffer : Buffer) (len : Nat) (recvStatu : HttpRecvStatu) : Call :=
  let request := { c.request with body := c.request.body ++ buffer.unread.take len }
  match buffer.moveReadPosition len with
  | some buffer => ⟨{ c with request := request, recvStatu := recvStatu }, buffer, .ok true⟩
  | none => ⟨{ c with request := request }, buffer, .error .assertion⟩

def recvHttpBody (c : HttpContent) (buffer : Buffer) : Call :=
  if c.recvStatu ≠ .recvHttpBody then ⟨c, buffer, .ok false⟩
  else
    match c.request.bodySize with
    | .error f => ⟨c, buffer, .error f⟩
    | .ok contentlength =>
      if contentlength = 0 then ⟨{ c with recvStatu := .recvHttpOver }, buffer, .ok true⟩
      else
        let realSize := sizeSub contentlength c.request.body.length
        if realSize ≤ buffer.currentEnableReadSpaceSize
          then c.takeBody buffer realSize .recvHttpOver
        else c.takeBody buffer buffer.currentEnableReadSpaceSize .recvHttpBody

def recvHttpRequest (c : HttpContent) (buffer : Buffer) : Call :=
  match c.recvStatu with
  | .recvHttpLine => ((c.recvHttpLine buffer).fallThrough recvHttpHead).fallThrough recvHttpBody
  | .recvHttpHead => (c.recvHttpHead buffer).fallThrough recvHttpBody
  | .recvHttpBody => c.recvHttpBody buffer
  | .recvHttpErr => ⟨c, buffer, .ok true⟩
  | .recvHttpOver => ⟨c, buffer, .ok true⟩

/-- Enough iterations for a loop around `RecvHttpRequest`: each uses up a byte,
except perhaps a first one that does not start at a request line. -/
def loopFuel (c : HttpContent) (buffer : Buffer) : Nat :=
  buffer.currentEnableReadSpaceSize + if c.recvStatu = .recvHttpLine then 1 else 2

end HttpContent
end MuduoServer
