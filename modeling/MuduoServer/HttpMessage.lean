import MuduoServer.Uitl

/-!
# Requests and responses

The two message records with their header maps. Setting a header never replaces
one that is present, and header names are compared byte by byte.
-/
namespace MuduoServer

open StdString

structure HttpRequest where
  method : Bytes
  path : Bytes
  version : Bytes
  body : Bytes
  /-- Sub-matches of the route pattern the path matched last. -/
  matched : List Bytes
  headers : StrMap
  params : StrMap
  deriving DecidableEq

namespace HttpRequest

/-- A constructed request, and what `ReSet` leaves. -/
def fresh : HttpRequest := ⟨[], [], ascii "HTTP/1.1", [], [], ∅, ∅⟩

def reSet (_ : HttpRequest) : HttpRequest := fresh

def setHeader (r : HttpRequest) (key val : Bytes) : HttpRequest :=
  { r with headers := insertNew r.headers key val }

def hasHeader (r : HttpRequest) (key : Bytes) : Bool := key ∈ r.headers

def getHeader (r : HttpRequest) (key : Bytes) : Bytes := (r.headers.lookup key).getD []

def setParams (r : HttpRequest) (key val : Bytes) : HttpRequest :=
  { r with params := insertNew r.params key val }

/-- The declared body length: `std::stol` of the header, converted to `size_t`. -/
def bodySize (r : HttpRequest) : Except Fault Nat :=
  if r.hasHeader (ascii "Content-Length") then
    (stol (r.getHeader (ascii "Content-Length"))).map toSizeT
  else .ok 0

def isCose (r : HttpRequest) : Bool :=
  !(r.hasHeader (ascii "Connection") && r.getHeader (ascii "Connection") = ascii "keep-alive")

end HttpRequest

structure HttpResponse where
  status : Int
  body : Bytes
  isRedirect : Bool
  redirect : Bytes
  headers : StrMap
  deriving DecidableEq

namespace HttpResponse

def ofStatus (status : Int) : HttpResponse := ⟨status, [], false, [], ∅⟩

def setHeader (r : HttpResponse) (key val : Bytes) : HttpResponse :=
  { r with headers := insertNew r.headers key val }

def hasHeader (r : HttpResponse) (key : Bytes) : Bool := key ∈ r.headers

def getHeader (r : HttpResponse) (key : Bytes) : Bytes := (r.headers.lookup key).getD []

def setbody (r : HttpResponse) (text type : Bytes) : HttpResponse :=
  { r.setHeader (ascii "Content-Type") type with body := text }

def setRedirect (r : HttpResponse) (url : Bytes) (statu : Int) : HttpResponse :=
  { r with status := statu, isRedirect := true, redirect := url }

def isCose (r : HttpResponse) : Bool :=
  !(r.hasHeader (ascii "Connection") && r.getHeader (ascii "Connection") = ascii "keep-alive")

end HttpResponse
end MuduoServer
