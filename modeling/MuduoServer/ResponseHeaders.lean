import MuduoServer.HttpServer
import MuduoServer.StdStringSpec

/-!
# Response headers

Headers are inserted only where they are absent, so `WriteResponse` completes what the handler
has set: the header map it writes is the handler's, and below it the added one.
-/
namespace MuduoServer

open StdString

namespace HttpResponse

variable (r : HttpResponse)

/-- Setting a header changes nothing else. -/
theorem setHeader_kept (key val : Bytes) (p : Bool) :
    (if p then r.setHeader key val else r) =
    { r with headers := (if p then r.setHeader key val else r).headers } := by
  cases p <;> rfl

theorem lookup_setHeader (key val key' : Bytes) :
    (r.setHeader key val).headers.lookup key' = (r.headers.lookup key').or
    (if key' = key then some val else none) :=
  lookup_insertNew_or r.headers key val key'

theorem hasHeader_eq (key : Bytes) : r.hasHeader key = (r.headers.lookup key).isSome := by
  rw [hasHeader, Bool.eq_iff_iff, decide_eq_true_iff, AList.lookup_isSome]

/-- A header that is set only where it is absent may as well be set. -/
theorem setHeader_of_absent (key val : Bytes) (p : Bool) :
    (if p && !r.hasHeader key then r.setHeader key val else r) = if p
    then r.setHeader key val else r := by
  cases p with
  | false => rfl
  | true =>
    rw [Bool.true_and, if_pos rfl]
    split
    · rfl
    · rename_i hhas
      have hmem : key ∈ r.headers := by simpa [hasHeader] using hhas
      rw [setHeader, insertNew, if_pos hmem]

theorem lookup_setHeader_if (key val key' : Bytes) (p : Bool) :
    (if p then r.setHeader key val else r).headers.lookup key' =
      (r.headers.lookup key').or (if key' = key ∧ p then some val else none) := by
  cases p with
  | false => simp
  | true => simp [lookup_setHeader]

theorem isCose_eq_false_iff :
    r.isCose = false ↔ r.headers.lookup (ascii "Connection") = some (ascii "keep-alive") := by
  rw [isCose, hasHeader_eq, getHeader]
  cases r.headers.lookup (ascii "Connection") with
  | none => simp
  | some val => simp

theorem setHeader_absent {r : HttpResponse} {key key' : Bytes} (val : Bytes) (hkey : key ≠ key')
    (h : key' ∉ r.headers) :
    key' ∉ (r.setHeader key val).headers := by
  rw [← AList.lookup_eq_none, lookup_setHeader, AList.lookup_eq_none.mpr h, if_neg hkey.symm]
  rfl

theorem setHeader_noConnection {r : HttpResponse} (key val : Bytes)
    (hkey : key ≠ ascii "Connection") (h : ascii "Connection" ∉ r.headers) :
    ascii "Connection" ∉ (r.setHeader key val).headers :=
  setHeader_absent val hkey h

end HttpResponse

namespace HttpServer

variable (srv : HttpServer)

theorem mem_walk (m : StrMap) (key val : Bytes) :
    (key, val) ∈ srv.walk m ↔ m.lookup key = some val :=
  mem_of_perm_entries (srv.walk_perm m) key val

/-- No header is written twice. -/
theorem walk_nodup (m : StrMap) : ((srv.walk m).map Prod.fst).Nodup := by
  rw [((srv.walk_perm m).map Prod.fst).nodup_iff, List.map_map]
  exact m.nodupKeys

/-- The headers `WriteResponse` adds where they are absent. -/
def addedHeader (req : HttpRequest) (res : HttpResponse) (key : Bytes) : Option Bytes :=
  if key = ascii "Connection" then some (if req.isCose then ascii "close" else ascii "keep-alive")
  else if key = ascii "Content-Length" then some (numeral res.body.length)
  else if key = ascii "Content-Type" then if res.body.isEmpty then none
    else some (ascii "application/octet-stream")
  else if key = ascii "Location" then if res.isRedirect then some res.redirect else none
  else none

theorem completeHeaders_eq (req : HttpRequest) (res : HttpResponse) :
    completeHeaders req res =
      let res :=
  res.setHeader (ascii "Connection") (if req.isCose then ascii "close" else ascii "keep-alive")
      let res := res.setHeader (ascii "Content-Length") (numeral res.body.length)
      let res :=
        if !res.body.isEmpty then res.setHeader (ascii "Content-Type")
          (ascii "application/octet-stream") else res
      if res.isRedirect then res.setHeader (ascii "Location") res.redirect else res := by
  have hlen : ∀ r : HttpResponse,
      (if !r.hasHeader (ascii "Content-Length") then
        r.setHeader (ascii "Content-Length") (numeral r.body.length) else r) =
      r.setHeader (ascii "Content-Length") (numeral r.body.length) := by
    intro r
    simpa using r.setHeader_of_absent (ascii "Content-Length") (numeral r.body.length) true
  have hconn : (if req.isCose then res.setHeader (ascii "Connection") (ascii "close")
      else res.setHeader (ascii "Connection") (ascii "keep-alive")) =
      res.setHeader (ascii "Connection")
        (if req.isCose then ascii "close" else ascii "keep-alive") := by
    split <;> rfl
  unfold completeHeaders
  simp only [hconn, hlen, HttpResponse.setHeader_of_absent]

theorem completeHeaders_kept (req : HttpRequest) (res : HttpResponse) :
    (completeHeaders req res).status = res.status ∧ (completeHeaders req res).body = res.body := by
  rw [completeHeaders_eq]
  dsimp only
  rw [HttpResponse.setHeader_kept, HttpResponse.setHeader_kept]
  exact ⟨rfl, rfl⟩

/-- The written header map: what the handler has set comes first. -/
theorem lookup_completeHeaders (req : HttpRequest) (res : HttpResponse) (key : Bytes) :
    (completeHeaders req res).headers.lookup key = (res.headers.lookup key).or
    (addedHeader req res key) := by
  have hadded : ((if key = ascii "Connection" then
        some (if req.isCose then ascii "close" else ascii "keep-alive") else none).or
      ((if key = ascii "Content-Length" then some (numeral res.body.length) else none).or
        ((if key = ascii "Content-Type" ∧ (!res.body.isEmpty) = true then
            some (ascii "application/octet-stream") else none).or
          (if key = ascii "Location" ∧ res.isRedirect = true then some res.redirect else none)))) =
      addedHeader req res key := by
    unfold addedHeader
    by_cases hconn : key = ascii "Connection"
    · rw [if_pos hconn, if_pos hconn]
      rfl
    rw [if_neg hconn, if_neg hconn, Option.none_or]
    by_cases hlen : key = ascii "Content-Length"
    · rw [if_pos hlen, if_pos hlen]
      rfl
    rw [if_neg hlen, if_neg hlen, Option.none_or]
    by_cases htype : key = ascii "Content-Type"
    · have hloc : key ≠ ascii "Location" := htype ▸ by decide
      have hnone : ¬(key = ascii "Location" ∧ res.isRedirect = true) := fun h => hloc h.1
      rw [if_neg hnone, Option.or_none, if_pos htype]
      cases res.body.isEmpty with
      | false => exact if_pos ⟨htype, rfl⟩
      | true => exact if_neg (fun h => Bool.noConfusion h.2)
    · rw [if_neg htype, if_neg (fun h => htype h.1), Option.none_or, ite_and]
  rw [← hadded, completeHeaders_eq]
  dsimp only
  rw [HttpResponse.lookup_setHeader_if, HttpResponse.lookup_setHeader_if,
    HttpResponse.lookup_setHeader,
    HttpResponse.lookup_setHeader, Option.or_assoc, Option.or_assoc, Option.or_assoc]
  rw [HttpResponse.setHeader_kept]
  rfl

/-- A response in which no handler has set `Connection` closes if its request does. -/
theorem completeHeaders_isCose (req : HttpRequest) (res : HttpResponse)
    (hres : ascii "Connection" ∉ res.headers) : (completeHeaders req res).isCose = req.isCose := by
  have hlookup := lookup_completeHeaders req res (ascii "Connection")
  rw [AList.lookup_eq_none.mpr hres, Option.none_or, addedHeader, if_pos rfl] at hlookup
  rw [Bool.eq_iff_iff, ← not_iff_not, Bool.not_eq_true, Bool.not_eq_true,
    HttpResponse.isCose_eq_false_iff, hlookup]
  have hclose : ascii "close" ≠ ascii "keep-alive" := by decide
  cases req.isCose <;> simp [hclose]

end HttpServer
end MuduoServer
