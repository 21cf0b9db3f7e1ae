import MuduoServer.AfterClose
import MuduoServer.HttpResume
import MuduoServer.ResponseHeaders

/-!
# Responses to `HEAD`

`OnMessage` clears the body of a `HEAD` response and means to set its `Content-Length` to 0, but
`SetHeader` keeps a value that is present. An error response goes out before any of this.
-/
namespace MuduoServer

open StdString Uitl HttpServer Transition

namespace HttpServer

/-- The handler that answers a path, with the sub-matches of its pattern. -/
def firstMatch (path : Bytes) (handlers : List (Pattern × Handler)) :
    Option (List Bytes × Handler) :=
  handlers.findSome? fun entry => (entry.1 path).map fun matched => (matched, entry.2)

theorem dispather_response (req : HttpRequest) (res : HttpResponse)
    (handlers : List (Pattern × Handler)) :
    (dispather req res handlers).2 =
      (firstMatch req.path handlers).elim { res with status := 404 }
        fun found => found.2 { req with matched := found.1 } res := by
  induction handlers generalizing req with
  | nil => rfl
  | cons entry handlers ih =>
    unfold dispather firstMatch
    rw [List.findSome?_cons]
    cases entry.1 req.path with
    | none => exact ih _
    | some matched => rfl

/-- The response sets no length, or the length 0. -/
def ZeroLength (res : HttpResponse) : Prop :=
  ∀ val ∈ res.headers.lookup (ascii "Content-Length"), val = ascii "0"

theorem zeroLength_of_absent {res : HttpResponse} (h : ascii "Content-Length" ∉ res.headers) :
    ZeroLength res := by
  intro val hval
  rw [AList.lookup_eq_none.mpr h] at hval
  cases hval

variable (srv : HttpServer)

/-- The written response has no body, and says so. -/
def EmptyFramed (res : HttpResponse) : Prop :=
  res.body = [] ∧ (ascii "Content-Length", ascii "0") ∈ srv.walk res.headers

instance (res : HttpResponse) : Decidable (srv.EmptyFramed res) :=
  inferInstanceAs (Decidable (_ ∧ _))

/-- The body of the response to an error. -/
def errorPage : Except Fault Bytes :=
  (readFile srv.fs (srv.basedir ++ ascii "/404.html") []).map Prod.snd

/-- A file answers the request, or what answers it sets no `Content-Length` but 0; an error
has no page. -/
def HeadOk (req : HttpRequest) (isError : Bool) : Prop :=
  if isError then srv.errorPage = .ok []
  else
    srv.isFileHandler req = .ok true ∨
      ∀ matched func, firstMatch req.path srv.getRoute = some (matched, func) →
        ZeroLength (func { req with matched := matched } (HttpResponse.ofStatus 200))

theorem emptyFramed_completeHeaders (req : HttpRequest) (res : HttpResponse) :
    srv.EmptyFramed (completeHeaders req res) ↔ res.body = [] ∧ ZeroLength res := by
  have hadded : addedHeader req res (ascii "Content-Length") = some (numeral res.body.length) := rfl
  rw [EmptyFramed, mem_walk, lookup_completeHeaders, (completeHeaders_kept req res).2, hadded]
  refine and_congr_right fun hbody => ?_
  have hzero : numeral res.body.length = ascii "0" := by rw [hbody]; decide
  rw [ZeroLength, hzero]
  cases res.headers.lookup (ascii "Content-Length") with
  | none => simp
  | some val => simp

/-- `SetHeader` leaves the length that is there. -/
theorem headResponse_zeroLength {req : HttpRequest} (hreq : req.method = ascii "HEAD")
    (res : HttpResponse) :
    (headResponse req res).body = [] ∧ (ZeroLength (headResponse req res) ↔ ZeroLength res) := by
  unfold headResponse
  rw [if_pos hreq]
  dsimp only
  split
  · rename_i hhas
    refine ⟨rfl, ?_⟩
    have hmem : ascii "Content-Length" ∈ res.headers := of_decide_eq_true hhas
    rw [HttpResponse.setHeader, insertNew, if_pos hmem]
    rfl
  · exact ⟨rfl, Iff.rfl⟩

/-- A response from a file has at most one header, its type. -/
theorem fileHandler_zeroLength {req : HttpRequest} {status : Int} {res : HttpResponse}
    (h : srv.fileHandler req (HttpResponse.ofStatus status) = .ok res) : ZeroLength res := by
  apply zeroLength_of_absent
  have hfresh : ascii "Content-Length" ∉ (HttpResponse.ofStatus status).headers :=
    AList.notMem_empty _
  obtain ⟨path, ret, body, -, -, ⟨-, rfl⟩ | ⟨-, rfl⟩⟩ := srv.fileHandler_eq h
  · exact hfresh
  · exact HttpResponse.setHeader_absent _ (by decide) hfresh

theorem route_head {req req' : HttpRequest} {status : Int} {res : HttpResponse}
    (hreq : req.method = ascii "HEAD")
    (h : srv.route req (HttpResponse.ofStatus status) = .ok (req', res)) :
    ZeroLength res ↔ srv.isFileHandler req = .ok true ∨
      ∀ matched func, firstMatch req.path srv.getRoute = some (matched, func) →
        ZeroLength (func { req with matched := matched } (HttpResponse.ofStatus status)) := by
  unfold route at h
  cases hfile : srv.isFileHandler req with
  | error f => rw [hfile] at h; cases h
  | ok isFile =>
    rw [hfile] at h
    simp only [Bind.bind, Except.bind, Pure.pure, Except.pure] at h
    cases isFile with
    | true =>
      refine iff_of_true ?_ (.inl rfl)
      simp only [if_true] at h
      cases hres : srv.fileHandler req (HttpResponse.ofStatus status) with
      | error f => rw [hres] at h; cases h
      | ok r =>
        rw [hres] at h
        cases h
        exact srv.fileHandler_zeroLength hres
    | false =>
      simp only [Bool.false_eq_true, if_false, hreq, decide_true, Bool.or_true, if_true,
        Except.ok.injEq] at h
      have hres := dispather_response req (HttpResponse.ofStatus status) srv.getRoute
      rw [h] at hres
      dsimp only at hres
      rw [hres]
      cases firstMatch req.path srv.getRoute with
      | none => simpa using zeroLength_of_absent (AList.notMem_empty _)
      | some found =>
        obtain ⟨matched, func⟩ := found
        simp

theorem answer_head {req : HttpRequest} {status : Int} {r : HttpResponse × Bytes}
    (hreq : req.method = ascii "HEAD") (h : srv.answer req status = .ok r) :
    srv.EmptyFramed r.1 ↔ srv.isFileHandler req = .ok true ∨
      ∀ matched func, firstMatch req.path srv.getRoute = some (matched, func) →
        ZeroLength (func { req with matched := matched } (HttpResponse.ofStatus status)) := by
  unfold answer at h
  cases hroute : srv.route req (HttpResponse.ofStatus status) with
  | error f => rw [hroute] at h; cases h
  | ok q =>
    obtain ⟨req', res⟩ := q
    have hhead := srv.route_head hreq hroute
    obtain ⟨m, rfl⟩ := srv.route_request hroute
    rw [hroute] at h
    cases h
    have hmethod : ({ req with matched := m } : HttpRequest).method = ascii "HEAD" := hreq
    obtain ⟨hbody, hzero⟩ := headResponse_zeroLength hmethod res
    rw [← hhead, ← hzero]
    exact (srv.emptyFramed_completeHeaders _ _).trans (and_iff_right hbody)

/-- The response to an error carries the page, whatever the method is. -/
theorem errorPage_framed (req : HttpRequest) {status : Int} {res : HttpResponse}
    (h : srv.eerrHander (HttpResponse.ofStatus status) = .ok res) :
    srv.EmptyFramed (completeHeaders req res) ↔ srv.errorPage = .ok [] := by
  have hfresh : ascii "Content-Length" ∉ (HttpResponse.ofStatus status).headers :=
    AList.notMem_empty _
  obtain ⟨ret, buffer, hread, rfl⟩ := srv.eerrHander_eq h
  rw [emptyFramed_completeHeaders, errorPage, hread, Except.map, Except.ok.injEq]
  exact and_iff_left (zeroLength_of_absent (HttpResponse.setHeader_absent _ (by decide) hfresh))

/-- What frames the response of a turn. -/
def Reply.HeadFramed (r : Reply) : Prop :=
  r.req.method = ascii "HEAD" → r.payload = srv.responseText r.req r.res ∧
    (srv.EmptyFramed r.res ↔ srv.HeadOk r.req r.isError)

theorem turn_headFramed {context : HttpContent} (hstatus : context.resqStatu = 200)
    (buffer : Buffer) :
    (srv.turn context buffer).Leaves (fun context => context.resqStatu = 200)
    (Reply.HeadFramed srv) := by
  unfold turn
  split
  · trivial
  · split
    · trivial
    · rename_i context' buffer' ret hcall
      dsimp only
      split
      · split
        · trivial
        · rename_i res hpage
          split
          · trivial
          · refine ⟨rfl, fun _ => ⟨rfl, ?_⟩⟩
            rw [HeadOk, if_pos rfl]
            exact srv.errorPage_framed _ hpage
      · rename_i hok
        have hsame : context'.resqStatu = 200 :=
          hstatus ▸ HttpContent.call_resqStatu hcall (Int.not_le.mp hok)
        split
        · exact hsame
        · split
          · trivial
          · rename_i res payload hanswer
            rw [hsame] at hanswer
            refine ⟨rfl, fun hhead => ⟨srv.answer_payload hanswer, ?_⟩⟩
            rw [HeadOk, if_neg Bool.false_ne_true]
            exact srv.answer_head hhead hanswer

end HttpServer

namespace HttpLoop

/-- The response to a `HEAD` request, over all runs, has an empty body and the length 0 if and only
if it is a file, or its handler sets no other length; for an error status, if and only if there is
no error page. -/
theorem head_framing (srv : HttpServer) (acts : List Act) (s : HttpLoop)
    (h : exec (step srv) start acts = some s) (c : Nat) (r : Reply) (hanswer : .answer c r ∈ s.log)
    (hhead : r.req.method = ascii "HEAD") :
    r.payload = srv.responseText r.req r.res ∧
    (srv.EmptyFramed r.res ↔ srv.HeadOk r.req r.isError) := by
  have hfresh : HttpContent.fresh.resqStatu = 200 := rfl
  have hanswers := (leaves_exec (P := fun context => context.resqStatu = 200) hfresh
    (fun _ buffer hstatus => srv.turn_headFramed hstatus buffer) h).2
  exact hanswers c r hanswer hhead

/-- A `HEAD` request for the root. -/
def head : List Act := receive (ascii "HEAD / HTTP/1.1\r\n\r\n") ++ [.onMessage]

theorem head_framing_bare :
    ∃ s r, exec (step bareFiles) start head = some s ∧ .answer 1 r ∈ s.log ∧
    r.req.method = ascii "HEAD" ∧
      r.payload = bareFiles.responseText r.req r.res ∧
      (bareFiles.EmptyFramed r.res ↔ bareFiles.HeadOk r.req r.isError) := by
  have hrun : ((exec (step bareFiles) start head).map fun s =>
      (s.log[2]?.bind (Entry.reply 1)).any fun r => decide (r.req.method = ascii "HEAD")) =
        some true := by
    decide +kernel
  obtain ⟨s, hs, hlog⟩ := Option.map_eq_some_iff.mp hrun
  obtain ⟨r, hr, hmethod⟩ := (Option.any_eq_true _ _).mp hlog
  have hhead : r.req.method = ascii "HEAD" := of_decide_eq_true hmethod
  have hanswer : .answer 1 r ∈ s.log := List.mem_of_mem_drop (drop_of_reply hr ▸ List.mem_cons_self)
  exact ⟨s, r, hs, hanswer, hhead, head_framing bareFiles head s hs 1 r hanswer hhead⟩

/-- The root, answered by a handler that sets the length of the body it produces. -/
def sizedRoute : HttpServer :=
  { bareFiles with
    getRoute := [(fun path => if path = ascii "/" then some [path] else none, fun _ res =>
      (res.setbody (ascii "hello") (ascii "text/plain")).setHeader (ascii "Content-Length")
        (ascii "5"))] }

/-- The response announces five bytes and has none. -/
theorem head_announces_body :
    ∃ s r, exec (step sizedRoute) start head = some s ∧ .answer 1 r ∈ s.log ∧
    r.req.method = ascii "HEAD" ∧
      r.res.body = [] ∧ (ascii "Content-Length", ascii "5") ∈ sizedRoute.walk r.res.headers ∧
      ¬sizedRoute.EmptyFramed r.res := by
  have hrun : ((exec (step sizedRoute) start head).map fun s =>
      (s.log[2]?.bind (Entry.reply 1)).any fun r =>
        decide (r.req.method = ascii "HEAD" ∧ r.res.body = [] ∧
          (ascii "Content-Length", ascii "5") ∈ sizedRoute.walk r.res.headers ∧
          ¬sizedRoute.EmptyFramed r.res)) = some true := by
    decide +kernel
  obtain ⟨s, hs, hlog⟩ := Option.map_eq_some_iff.mp hrun
  obtain ⟨r, hr, hbad⟩ := (Option.any_eq_true _ _).mp hlog
  have hanswer : .answer 1 r ∈ s.log := List.mem_of_mem_drop (drop_of_reply hr ▸ List.mem_cons_self)
  exact ⟨s, r, hs, hanswer, of_decide_eq_true hbad⟩

end HttpLoop
end MuduoServer
