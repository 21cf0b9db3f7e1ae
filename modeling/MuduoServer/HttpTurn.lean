import MuduoServer.HttpServer

/-!
# One turn of the message loop

An iteration of `OnMessage` finds nothing to read, waits for more bytes, writes one
response or fails. Written as data, a turn can be taken by itself: `onMessage`
is turn after turn, and so is the server on an event loop.
-/
namespace MuduoServer

open StdString

namespace HttpServer

/-- One response as it is written, and whether `OnMessage` calls `Shutdown` after it. -/
structure Reply where
  /-- The request as far as it has been parsed. -/
  req : HttpRequest
  res : HttpResponse
  payload : Bytes
  /-- The response to an error status. -/
  isError : Bool
  shutdown : Bool
  deriving DecidableEq

inductive Turn where
  /-- The buffer is empty. -/
  | idle
  /-- The bytes do not finish a request. -/
  | wait (context : HttpContent) (buffer : Buffer)
  | reply (reply : Reply) (context : HttpContent) (buffer : Buffer)
  /-- An exception, after these events. -/
  | fault (context : HttpContent) (buffer : Buffer) (events : List Event) (f : Fault)

def Reply.events (r : Reply) : List Event :=
  (if r.isError then .error else .route r.req) :: .send r.payload :: if r.shutdown
    then [.shutdown] else []

variable (srv : HttpServer)

def turn (context : HttpContent) (buffer : Buffer) : Turn :=
  if buffer.currentEnableReadSpaceSize = 0 then .idle
  else
    match context.recvHttpRequest buffer with
    | ⟨context, buffer, .error f⟩ => .fault context buffer [.error] f
    | ⟨context, buffer, .ok _⟩ =>
      let req := context.request
      if 400 ≤ context.resqStatu then
        match srv.eerrHander (HttpResponse.ofStatus context.resqStatu) with
        | .error f => .fault context buffer [.error] f
        | .ok res =>
          let (res, payload) := srv.writeResponse req res
          match buffer.moveReadPosition buffer.currentEnableReadSpaceSize with
          | none => .fault context.reset buffer [.error, .send payload] .assertion
          | some buffer => .reply ⟨req, res, payload, true, true⟩ context.reset buffer
      else if context.recvStatu ≠ .recvHttpOver then .wait context buffer
      else
        match srv.answer req context.resqStatu with
        | .error f => .fault context buffer [.route req, .error] f
        | .ok (res, payload) => .reply ⟨req, res, payload, false, res.isCose⟩ context.reset buffer

/-- What is left to do after a turn. -/
def afterTurn (fuel : Nat) (context : HttpContent) (buffer : Buffer) : Turn → Outcome
  | .idle => ⟨context, buffer, [], none, true⟩
  | .wait context buffer => ⟨context, buffer, [], none, true⟩
  | .reply r context buffer => (srv.onMessage fuel context buffer).after r.events
  | .fault context buffer events f => ⟨context, buffer, events, some f, true⟩

/-- The loop takes one turn and goes on from there. -/
theorem onMessage_turn (fuel : Nat) (context : HttpContent) (buffer : Buffer) :
    srv.onMessage (fuel + 1) context buffer = srv.afterTurn fuel context buffer
    (srv.turn context buffer) := by
  rw [onMessage, turn]
  by_cases hempty : buffer.currentEnableReadSpaceSize = 0
  · rw [if_pos hempty, if_pos hempty]
    rfl
  · rw [if_neg hempty, if_neg hempty]
    obtain ⟨context', buffer', ret⟩ := context.recvHttpRequest buffer
    cases ret with
    | error f => rfl
    | ok ret =>
      dsimp only
      by_cases herr : 400 ≤ context'.resqStatu
      · rw [if_pos herr, if_pos herr]
        cases srv.eerrHander (HttpResponse.ofStatus context'.resqStatu) with
        | error f => rfl
        | ok res => cases buffer'.moveReadPosition buffer'.currentEnableReadSpaceSize <;> rfl
      · rw [if_neg herr, if_neg herr]
        by_cases hover : context'.recvStatu ≠ .recvHttpOver
        · rw [if_pos hover, if_pos hover]
          rfl
        · rw [if_neg hover, if_neg hover]
          cases srv.answer context'.request context'.resqStatu with
          | error f => rfl
          | ok r =>
            obtain ⟨res, payload⟩ := r
            dsimp only
            split
            · rename_i hclose
              simp [afterTurn, Reply.events, hclose]
            · rename_i hkeep
              simp [afterTurn, Reply.events, hkeep]

/-- A route leaves its sub-matches in the request and nothing else. -/
theorem dispather_request (req : HttpRequest) (res : HttpResponse)
    (handlers : List (Pattern × Handler)) :
    ∃ m, (dispather req res handlers).1 = { req with matched := m } := by
  induction handlers generalizing req with
  | nil => exact ⟨req.matched, rfl⟩
  | cons entry handlers ih =>
    unfold dispather
    cases entry.1 req.path with
    | none => exact ih _
    | some matched => exact ⟨matched, rfl⟩

theorem route_request {req req' : HttpRequest} {res res' : HttpResponse}
    (h : srv.route req res = .ok (req', res')) : ∃ m, req' = { req with matched := m } := by
  rcases srv.route_cases h with ⟨rfl, -⟩ | ⟨handlers, -, hd⟩ | ⟨rfl, -⟩
  · exact ⟨req'.matched, rfl⟩
  · obtain ⟨m, hm⟩ := dispather_request req res handlers
    exact ⟨m, by rw [← hm, hd]⟩
  · exact ⟨req'.matched, rfl⟩

/-- The payload is the text of the response. -/
theorem answer_payload {req : HttpRequest} {status : Int} {r : HttpResponse × Bytes}
    (h : srv.answer req status = .ok r) : r.2 = srv.responseText req r.1 := by
  unfold answer at h
  cases hr : srv.route req (HttpResponse.ofStatus status) with
  | error f => rw [hr] at h; cases h
  | ok q =>
    obtain ⟨req', res'⟩ := q
    obtain ⟨m, rfl⟩ := srv.route_request hr
    rw [hr] at h
    cases h
    rfl

/-- A response is that to an error, which drops what is left in the buffer, or that to a request. -/
theorem turn_reply {context context' : HttpContent} {buffer buffer' : Buffer} {r : Reply}
    (h : srv.turn context buffer = .reply r context' buffer') :
    r.payload = srv.responseText r.req r.res ∧
      (r.isError = true ∧ r.shutdown = true ∧ buffer'.unread = [] ∧
        (∃ status res, srv.eerrHander (HttpResponse.ofStatus status) = .ok res ∧
          r.res = completeHeaders r.req res) ∨
      r.isError = false ∧ r.shutdown = r.res.isCose) := by
  unfold turn at h
  by_cases hempty : buffer.currentEnableReadSpaceSize = 0
  · rw [if_pos hempty] at h
    cases h
  · rw [if_neg hempty] at h
    cases hcall : context.recvHttpRequest buffer with
    | mk context₁ buffer₁ ret =>
      rw [hcall] at h
      cases ret with
      | error f => cases h
      | ok ret =>
        dsimp only at h
        split at h
        · cases hpage : srv.eerrHander (HttpResponse.ofStatus context₁.resqStatu) with
          | error f =>
            rw [hpage] at h
            cases h
          | ok res =>
            obtain ⟨b, hmove, hrest⟩ :=
              buffer₁.moveReadPosition_eq buffer₁.currentEnableReadSpaceSize (by simp)
            rw [hpage, hmove] at h
            cases h
            refine ⟨rfl, .inl ⟨rfl, rfl, ?_, _, res, hpage, rfl⟩⟩
            rw [hrest, ← Buffer.length_unread, List.drop_length]
        · split at h
          · cases h
          · cases ha : srv.answer context₁.request context₁.resqStatu with
            | error f =>
              rw [ha] at h
              cases h
            | ok r =>
              have hpayload := srv.answer_payload ha
              rw [ha] at h
              cases h
              exact ⟨hpayload, .inr ⟨rfl, rfl⟩⟩

end HttpServer
end MuduoServer
