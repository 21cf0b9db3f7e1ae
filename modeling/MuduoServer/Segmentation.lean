import MuduoServer.ResponseHeaders
import MuduoServer.RecvLoop

/-!
# The server does not see segments

What `OnMessage` does for a stream are the replies to the requests the stream
completes. For a keep-alive stream it is the trace of the stream, a function of
these requests and of whether the stream ends in an error.
Any two ways of cutting the stream feed the same requests to it.
-/
namespace MuduoServer

open StdString Uitl HttpContent

namespace HttpServer

variable (srv : HttpServer)

/-- No handler sets a `Connection` header. -/
def KeepsConnection : Prop :=
  ∀ entry ∈ srv.getRoute ++ srv.postRoute ++ srv.putRoute ++ srv.deleteRoute,
    ∀ req res, ascii "Connection" ∉ res.headers → ascii "Connection" ∉ (entry.2 req res).headers

/-- Events for the requests `os`, up to the first whose answer throws, and the
error at the end of a stream that fails. -/
def trace : List HttpRequest → Bool → List Event
  | [], failed => if failed then [.error] else []
  | o :: os, failed =>
    match srv.answer o 200 with
    | .error _ => [.route o, .error]
    | .ok (_, payload) => .route o :: .send payload :: trace os failed

theorem trace_append (os os' : List HttpRequest) (failed : Bool) :
    (Event.error ∉ srv.trace os false → srv.trace (os ++ os') failed =
      srv.trace os false ++ srv.trace os' failed) ∧
    (Event.error ∈ srv.trace os false → srv.trace (os ++ os') failed = srv.trace os false) := by
  induction os with
  | nil => simp [trace]
  | cons o os ih =>
    simp only [List.cons_append, trace]
    cases srv.answer o 200 with
    | error f => simp
    | ok r =>
      simp only [List.mem_cons, reduceCtorEq, false_or, List.cons_append, List.cons.injEq, true_and]
      exact ih

/-- In a trace an error is the last event. -/
theorem trace_error (os : List HttpRequest) (failed : Bool)
    (h : Event.error ∈ srv.trace os failed) :
    ∃ evs, Event.error ∉ evs ∧ srv.trace os failed = evs ++ [.error] := by
  induction os with
  | nil =>
    cases failed with
    | false => simp [trace] at h
    | true => exact ⟨[], by simp, rfl⟩
  | cons o os ih =>
    simp only [trace] at h ⊢
    cases ha : srv.answer o 200 with
    | error f => exact ⟨[.route o], by simp, rfl⟩
    | ok r =>
      simp only [ha, List.mem_cons, reduceCtorEq, false_or] at h
      obtain ⟨evs, hno, he⟩ := ih h
      exact ⟨.route o :: .send r.2 :: evs, by simpa using hno, by rw [he]; rfl⟩

theorem error_mem_trace (os : List HttpRequest) : Event.error ∈ srv.trace os true := by
  induction os with
  | nil => simp [trace]
  | cons o os ih =>
    simp only [trace]
    cases srv.answer o 200 with
    | error f => simp
    | ok r => simp [ih]

/-! ## A keep-alive answer keeps the connection -/

theorem dispather_keeps {req : HttpRequest} {res : HttpResponse}
    {handlers : List (Pattern × Handler)}
    (hh : ∀ entry ∈ handlers, ∀ req res, ascii "Connection" ∉ res.headers →
      ascii "Connection" ∉ (entry.2 req res).headers) (hres : ascii "Connection" ∉ res.headers) :
    (dispather req res handlers).1.isCose = req.isCose ∧
      ascii "Connection" ∉ (dispather req res handlers).2.headers := by
  induction handlers generalizing req with
  | nil => exact ⟨rfl, hres⟩
  | cons entry handlers ih =>
    obtain ⟨re, func⟩ := entry
    unfold dispather
    cases re req.path with
    | none => exact ih (fun e he => hh e (List.mem_cons_of_mem _ he))
    | some matched => exact ⟨rfl, hh _ List.mem_cons_self _ _ hres⟩

theorem fileHandler_keeps {req : HttpRequest} {res res' : HttpResponse}
    (h : srv.fileHandler req res = .ok res') (hres : ascii "Connection" ∉ res.headers) :
    ascii "Connection" ∉ res'.headers := by
  obtain ⟨path, ret, body, -, -, ⟨-, rfl⟩ | ⟨-, rfl⟩⟩ := srv.fileHandler_eq h
  · exact hres
  · exact HttpResponse.setHeader_noConnection _ _ (by decide) hres

theorem route_keeps (hh : srv.KeepsConnection) {req req' : HttpRequest} {res res' : HttpResponse}
    (h : srv.route req res = .ok (req', res')) (hres : ascii "Connection" ∉ res.headers) :
    req'.isCose = req.isCose ∧ ascii "Connection" ∉ res'.headers := by
  rcases srv.route_cases h with ⟨rfl, hfile⟩ | ⟨handlers, hin, hd⟩ | ⟨rfl, rfl⟩
  · exact ⟨rfl, srv.fileHandler_keeps hfile hres⟩
  · have hroute : ∀ e ∈ handlers, e ∈ srv.getRoute ++ srv.postRoute ++ srv.putRoute ++
        srv.deleteRoute := by
      simp only [List.mem_cons, List.not_mem_nil, or_false] at hin
      rcases hin with rfl | rfl | rfl | rfl <;> simp +contextual
    have hk : (dispather req res handlers).1.isCose = req.isCose ∧
        ascii "Connection" ∉ (dispather req res handlers).2.headers :=
      dispather_keeps (fun e he => hh e (hroute e he)) hres
    rw [hd] at hk
    exact hk
  · exact ⟨rfl, hres⟩

/-- The answer to a keep-alive request keeps the connection. -/
theorem answer_keeps (hh : srv.KeepsConnection) {req : HttpRequest} {status : Int}
    {r : HttpResponse × Bytes} (h : srv.answer req status = .ok r) (hreq : req.isCose = false) :
    r.1.isCose = false := by
  unfold answer at h
  cases hr : srv.route req (HttpResponse.ofStatus status) with
  | error f => rw [hr] at h; cases h
  | ok q =>
    obtain ⟨req', res'⟩ := q
    obtain ⟨hc, hno⟩ := srv.route_keeps hh hr (AList.notMem_empty _)
    rw [hr] at h
    cases h
    refine (completeHeaders_isCose _ _ ?_).trans (hc.trans hreq)
    unfold headResponse
    split
    · dsimp only
      split
      · exact HttpResponse.setHeader_noConnection _ _ (by decide) hno
      · exact hno
    · exact hno

/-! ## Replies -/

/-- What `OnMessage` does for the requests `os`, up to the first whose answer throws. -/
def replies : List HttpRequest → List Event
  | [] => []
  | o :: os =>
    match srv.answer o 200 with
    | .error _ => [.route o, .error]
    | .ok (res, payload) =>
      .route o :: .send payload :: ((if res.isCose then [.shutdown] else []) ++ replies os)

theorem replies_error {o : HttpRequest} {f : Fault} (h : srv.answer o 200 = .error f)
    (os : List HttpRequest) :
    srv.replies (o :: os) = [.route o, .error] := by
  rw [replies, h]

theorem replies_ok {o : HttpRequest} {res : HttpResponse} {payload : Bytes}
    (h : srv.answer o 200 = .ok (res, payload)) (os : List HttpRequest) :
    srv.replies (o :: os) = [.route o, .send payload] ++ (if res.isCose then [.shutdown] else []) ++
    srv.replies os := by
  rw [replies, h]
  rfl

theorem error_mem_replies {o : HttpRequest} {res : HttpResponse} {payload : Bytes}
    (h : srv.answer o 200 = .ok (res, payload)) (os : List HttpRequest) :
    Event.error ∈ srv.replies (o :: os) ↔ Event.error ∈ srv.replies os := by
  rw [srv.replies_ok h]
  cases res.isCose <;> simp

theorem replies_append (os os' : List HttpRequest) :
    srv.replies (os ++ os') = if Event.error ∈ srv.replies os then srv.replies os
    else srv.replies os ++ srv.replies os' := by
  induction os with
  | nil => exact (if_neg List.not_mem_nil).symm
  | cons o os ih =>
    rw [List.cons_append]
    cases ha : srv.answer o 200 with
    | error f =>
      rw [srv.replies_error ha, srv.replies_error ha, if_pos (by simp)]
    | ok r =>
      obtain ⟨res, payload⟩ := r
      have hmem := srv.error_mem_replies ha os
      rw [srv.replies_ok ha, ih]
      by_cases herr : Event.error ∈ srv.replies os
      · rw [if_pos herr, if_pos (hmem.mpr herr), srv.replies_ok ha]
      · rw [if_neg herr, if_neg (mt hmem.mp herr), srv.replies_ok ha,
          List.append_assoc _ _ (srv.replies os')]

/-- The events of a stream that completes the requests `os` and, if it `failed`, ends
in an error. -/
def Answers (os : List HttpRequest) (failed : Bool) (evs : List Event) : Prop :=
  if failed = true ∧ Event.error ∉ srv.replies os then ∃ tail, evs = srv.replies os ++ .error ::
    tail else evs = srv.replies os

/-- A run of `OnMessage` on bytes that complete the requests `os` and leave the parser in `e`. -/
structure Replied (o : Outcome) (os : List HttpRequest) (e : Option (HttpContent × Bytes)) :
    Prop where
  events : srv.Answers os e.isNone o.events
  throws : Event.error ∈ srv.replies os → o.fault.isSome
  resumes : ∀ e', e = some e' → Event.error ∉ srv.replies os →
    o.fault = none ∧ o.content.resqStatu = 200 ∧ e' = (o.content, o.buffer.unread)

variable {srv} in
/-- What is answered first comes first. -/
theorem Answers.append {os os' : List HttpRequest} {failed : Bool} {evs : List Event}
    (h : srv.Answers os' failed evs) (hsplit : srv.replies (os ++ os') = srv.replies os ++
      srv.replies os') (herr : Event.error ∉ srv.replies os) :
    srv.Answers (os ++ os') failed (srv.replies os ++ evs) := by
  have hmem : Event.error ∈ srv.replies (os ++ os') ↔ Event.error ∈ srv.replies os' := by
    rw [hsplit, List.mem_append]
    exact or_iff_right herr
  unfold Answers at h ⊢
  simp only [hmem]
  rw [hsplit]
  split at h
  · rename_i hfailed
    rw [if_pos hfailed]
    obtain ⟨tail, rfl⟩ := h
    exact ⟨tail, (List.append_assoc _ _ _).symm⟩
  · rename_i hfailed
    rw [if_neg hfailed, h]

variable {srv} in
theorem Replied.cons {o : Outcome} {os : List HttpRequest} {e : Option (HttpContent × Bytes)}
    (h : srv.Replied o os e) {req : HttpRequest} {res : HttpResponse} {payload : Bytes}
    (ha : srv.answer req 200 = .ok (res, payload)) {sent : List Event}
    (hsent : sent = [.route req, .send payload] ++ if res.isCose then [.shutdown] else []) :
    srv.Replied (o.after sent) (req :: os) e := by
  have hmem := srv.error_mem_replies ha os
  have hone : srv.replies [req] = sent := by rw [srv.replies_ok ha, hsent]; exact List.append_nil _
  have hno : Event.error ∉ srv.replies [req] := by
    rw [srv.error_mem_replies ha]
    exact List.not_mem_nil
  refine ⟨?_, fun herr => h.throws (hmem.mp herr),
    fun e' he herr => h.resumes e' he (mt hmem.mpr herr)⟩
  have happend := h.events.append ((srv.replies_append [req] os).trans (if_neg hno)) hno
  rw [hone] at happend
  exact happend

/-! ## Runs -/

/-- What a run of `OnMessage` does beyond the trace comes after an error. -/
structure Follows (o : Outcome) (os : List HttpRequest) (e : Option (HttpContent × Bytes)) :
    Prop where
  events : ∃ tail, o.events = srv.trace os e.isNone ++ tail ∧
    (Event.error ∉ srv.trace os e.isNone → tail = [])
  resumes : Event.error ∉ srv.trace os e.isNone →
    o.fault = none ∧ o.content.resqStatu = 200 ∧ e = some (o.content, o.buffer.unread)

theorem onMessage_empty (c : HttpContent) {b : Buffer} (hb : b.unread = []) (fuel : Nat) :
    srv.onMessage (fuel + 1) c b = ⟨c, b, [], none, true⟩ := by
  have hz : b.currentEnableReadSpaceSize = 0 := by rw [← Buffer.length_unread, hb]; rfl
  rw [onMessage, if_pos hz]

theorem onMessage_drained {c : HttpContent} {u : Bytes} {os : List HttpRequest}
    {e : Option (HttpContent × Bytes)} (h : Resumable.Drains httpParser c u os e) (b : Buffer)
    (hb : b.unread = u) (fuel : Nat) (hfuel : c.loopFuel b ≤ fuel) :
    (srv.onMessage fuel c b).finished = true := by
  obtain ⟨fuel, rfl⟩ := loopFuel_pos hfuel
  induction h generalizing b fuel with
  | idle c => rw [srv.onMessage_empty c hb]
  | more hu hs =>
    subst hb
    obtain ⟨b', ret, hcall, hlow, ho, rfl⟩ := call_more hs
    simp only [onMessage, unread_ne_nil hu, if_false, hcall, Int.not_le.mpr hlow, ne_eq, ho,
      not_false_eq_true, if_true]
  | @failed c u hu hs =>
    subst hb
    simp only [onMessage, unread_ne_nil hu, if_false]
    rcases call_failed hs with ⟨c', b', f, hcall⟩ | ⟨c', b', ret, hcall, hbad⟩
    · rw [hcall]
    · -- the emptied buffer costs one more iteration
      obtain ⟨fuel, rfl⟩ : ∃ n, fuel = n + 1 := by
        have hpos := Nat.pos_of_ne_zero (unread_ne_nil hu)
        refine ⟨fuel - 1, ?_⟩
        unfold loopFuel at hfuel
        split at hfuel <;> omega
      obtain ⟨b'', hmove, hempty⟩ := b'.moveReadPosition_eq b'.currentEnableReadSpaceSize (by simp)
      have hnil : b''.unread = [] := by rw [hempty, ← Buffer.length_unread, List.drop_length]
      cases hpage : srv.eerrHander (HttpResponse.ofStatus c'.resqStatu) with
      | error f => simp only [hcall, hbad, if_true, hpage]
      | ok res =>
        simp only [hcall, hbad, if_true, hpage, hmove, Outcome.after, srv.onMessage_empty _ hnil]
  | @done c u o r os e hu hs hd ih =>
    subst hb
    obtain ⟨c', b', ret, hcall, hlow, ho, hreq, hrest, hfuel'⟩ := call_done hs
    have hless : fresh.loopFuel b' ≤ fuel := by omega
    obtain ⟨fuel, rfl⟩ := loopFuel_pos hless
    have htail := ih b' hrest fuel hless
    rw [onMessage]
    simp only [unread_ne_nil hu, if_false, hcall, Int.not_le.mpr hlow, ne_eq, ho,
      not_true_eq_false, hreq]
    cases srv.answer o c'.resqStatu with
    | error f => rfl
    | ok res =>
      dsimp only
      split <;> exact htail

/-- The fuel reaches the end of the loop, whatever the parser state and the buffer. -/
theorem onMessage_finished (c : HttpContent) (b : Buffer) :
    (srv.onMessage (c.loopFuel b) c b).finished = true := by
  obtain ⟨os, e, h⟩ := drains_total c b.unread
  exact srv.onMessage_drained h b rfl _ (Nat.le_refl _)

theorem onMessage_replied {c : HttpContent} {u : Bytes} {os : List HttpRequest}
    {e : Option (HttpContent × Bytes)} (h : Resumable.Drains httpParser c u os e) (b : Buffer)
    (hb : b.unread = u) (hst : c.resqStatu = 200) (fuel : Nat) (hfuel : c.loopFuel b ≤ fuel) :
    srv.Replied (srv.onMessage fuel c b) os e := by
  obtain ⟨fuel, rfl⟩ := loopFuel_pos hfuel
  induction h generalizing b fuel with
  | idle c =>
    rw [srv.onMessage_empty c hb]
    exact ⟨rfl, fun herr => absurd herr List.not_mem_nil,
      fun _ he _ => ⟨rfl, hst, by rw [hb]; exact (Option.some.inj he).symm⟩⟩
  | more hu hs =>
    subst hb
    obtain ⟨b', ret, hcall, hlow, ho, rfl⟩ := call_more hs
    have hsame := call_resqStatu hcall hlow
    simp only [onMessage, unread_ne_nil hu, if_false, hcall, Int.not_le.mpr hlow, ne_eq, ho,
      not_false_eq_true, if_true]
    exact ⟨rfl, fun herr => absurd herr List.not_mem_nil,
      fun _ he _ => ⟨rfl, hsame.trans hst, (Option.some.inj he).symm⟩⟩
  | failed hu hs =>
    subst hb
    have hstop : ∀ o : Outcome, (∃ tail, o.events = .error :: tail) → srv.Replied o [] none :=
      fun o htail => ⟨by simpa [Answers, replies] using htail, fun herr => absurd herr List.not_mem_nil, nofun⟩
    simp only [onMessage, unread_ne_nil hu, if_false]
    rcases call_failed hs with ⟨c', b', f, hcall⟩ | ⟨c', b', ret, hcall, hbad⟩
    · rw [hcall]
      exact hstop _ ⟨[], rfl⟩
    · simp only [hcall, hbad, if_true]
      cases srv.eerrHander (HttpResponse.ofStatus c'.resqStatu) with
      | error f => exact hstop _ ⟨_, rfl⟩
      | ok res =>
        cases b'.moveReadPosition b'.currentEnableReadSpaceSize with
        | none => exact hstop _ ⟨_, rfl⟩
        | some b'' => exact hstop _ ⟨_, rfl⟩
  | @done c u o r os e hu hs hd ih =>
    subst hb
    obtain ⟨c', b', ret, hcall, hlow, ho, hreq, hrest, hfuel'⟩ := call_done hs
    have hsame := (call_resqStatu hcall hlow).trans hst
    simp only [onMessage, unread_ne_nil hu, if_false, hcall, ne_eq, ho,
      not_true_eq_false, hreq, hsame]
    cases ha : srv.answer o 200 with
    | error f =>
      have herror := srv.replies_error ha os
      have hmem : Event.error ∈ srv.replies (o :: os) := by simp [herror]
      refine ⟨?_, fun _ => rfl, fun _ _ hno => absurd hmem hno⟩
      rw [Answers, if_neg (by simp [hmem])]
      exact herror.symm
    | ok res =>
      obtain ⟨res, payload⟩ := res
      have hless : fresh.loopFuel b' ≤ fuel := by omega
      obtain ⟨fuel, rfl⟩ := loopFuel_pos hless
      have hreplied := ih b' hrest rfl fuel hless
      have hnot : ¬(400 : Int) ≤ 200 := by decide
      rw [if_neg hnot]
      dsimp only
      cases hclose : res.isCose with
      | true =>
        rw [if_pos rfl]
        exact hreplied.cons ha (by rw [hclose]; rfl)
      | false =>
        rw [if_neg Bool.false_ne_true]
        exact hreplied.cons ha (by rw [hclose]; rfl)

/-- As long as every response keeps the connection, the replies are the trace. -/
theorem replies_eq_trace (hh : srv.KeepsConnection) {os : List HttpRequest}
    (hk : ∀ o ∈ os, o.isCose = false) :
    srv.replies os = srv.trace os false := by
  induction os with
  | nil => rfl
  | cons o os ih =>
    simp only [replies, trace]
    cases ha : srv.answer o 200 with
    | error f => rfl
    | ok r =>
      have hopen : r.1.isCose = false := srv.answer_keeps hh ha (hk o List.mem_cons_self)
      simp only [hopen, Bool.false_eq_true, if_false, List.nil_append,
        ih fun o ho => hk o (List.mem_cons_of_mem _ ho)]

theorem Answers.trace (hh : srv.KeepsConnection) {os : List HttpRequest}
    (hk : ∀ o ∈ os, o.isCose = false) {failed : Bool} {evs : List Event}
    (h : srv.Answers os failed evs) :
    ∃ tail, evs = srv.trace os failed ++ tail ∧
    (Event.error ∉ srv.trace os failed → tail = []) := by
  obtain ⟨hsplit, hstop⟩ := srv.trace_append os [] failed
  rw [List.append_nil] at hsplit hstop
  rw [Answers, srv.replies_eq_trace hh hk] at h
  by_cases herr : Event.error ∈ srv.trace os false
  · rw [if_neg fun hfailed => hfailed.2 herr] at h
    exact ⟨[], by rw [hstop herr, h, List.append_nil], fun _ => rfl⟩
  · rw [hsplit herr]
    cases failed with
    | false =>
      rw [if_neg fun hfailed => Bool.false_ne_true hfailed.1] at h
      exact ⟨[], by rw [h, HttpServer.trace]; simp, fun _ => rfl⟩
    | true =>
      rw [if_pos ⟨rfl, herr⟩] at h
      obtain ⟨tail, rfl⟩ := h
      exact ⟨tail, by simp [HttpServer.trace], fun hno => absurd (by simp [HttpServer.trace]) hno⟩

theorem onMessage_follows (hh : srv.KeepsConnection) {c : HttpContent} {u : Bytes}
    {os : List HttpRequest} {e : Option (HttpContent × Bytes)}
    (h : Resumable.Drains httpParser c u os e) (hk : ∀ o ∈ os, o.isCose = false) (b : Buffer)
    (hb : b.unread = u) (hst : c.resqStatu = 200) (fuel : Nat) (hfuel : c.loopFuel b ≤ fuel) :
    srv.Follows (srv.onMessage fuel c b) os e := by
  have hreplied := srv.onMessage_replied h b hb hst fuel hfuel
  refine ⟨hreplied.events.trace srv hh hk, fun hno => ?_⟩
  cases e with
  | none => exact absurd (srv.error_mem_trace os) hno
  | some e =>
    rw [Option.isNone_some, ← srv.replies_eq_trace hh hk] at hno
    obtain ⟨hfault, hst', he⟩ := hreplied.resumes e rfl hno
    exact ⟨hfault, hst', congrArg some he⟩

/-- The server answers the requests that the bare loop around the parser reads. -/
theorem onMessage_recvLoop (hh : srv.KeepsConnection) (c : HttpContent) (b : Buffer)
    (hst : c.resqStatu = 200) (hk : ∀ o ∈ (recvLoop (c.loopFuel b) c b).requests,
      o.isCose = false) :
    let received := recvLoop (c.loopFuel b) c b
    ∃ tail, (srv.onMessage (c.loopFuel b) c b).events =
      srv.trace received.requests received.failed ++ tail ∧
      (Event.error ∉ srv.trace received.requests received.failed → tail = []) := by
  intro received
  obtain ⟨os, e, h⟩ := drains_total c b.unread
  obtain ⟨hreq, hfail, -⟩ := recvLoop_drains h b rfl _ (Nat.le_refl _)
  have hfollow := srv.onMessage_follows hh h (hreq ▸ hk) b rfl hst _ (Nat.le_refl _)
  simp only [received, hreq, hfail]
  exact hfollow.events

theorem deliver_cons {c : HttpContent} {b b' : Buffer} {seg : Bytes} (segs : List Bytes)
    (hw : b.writeAndAdd seg = some b') :
    ∃ later, srv.deliver c b (seg :: segs) = (srv.onMessage (c.loopFuel b') c b').events ++
    later := by
  simp only [deliver, hw]
  cases (srv.onMessage (c.loopFuel b') c b').fault with
  | some f => exact ⟨[], (List.append_nil _).symm⟩
  | none => exact ⟨_, rfl⟩

/-- Segments that complete the requests `os` are answered as `os` are. -/
theorem deliver_answers {c : HttpContent} {r : Bytes} {segs : List Bytes} {os : List HttpRequest}
    {e : Option (HttpContent × Bytes)} (h : Resumable.Feeds httpParser c r segs os e) (b : Buffer)
    (hb : b.unread = r) (hst : c.resqStatu = 200) :
    srv.Answers os e.isNone (srv.deliver c b segs) := by
  induction h generalizing b with
  | nil s r => rfl
  | @cons s r seg segs s' r' os os' e hd hf ih =>
    obtain ⟨b', hw, hu⟩ := b.writeAndAdd_eq seg
    have hreplied :=
      srv.onMessage_replied hd b' (by rw [hu, hb]) hst (s.loopFuel b') (Nat.le_refl _)
    have hevents := hreplied.events
    rw [Answers, Option.isNone_some, if_neg fun hfailed => Bool.false_ne_true hfailed.1] at hevents
    by_cases herr : Event.error ∈ srv.replies os
    · -- the run ends with the answer that throws
      obtain ⟨f, hthrown⟩ := Option.isSome_iff_exists.mp (hreplied.throws herr)
      have hsplit : srv.replies (os ++ os') = srv.replies os :=
        (srv.replies_append os os').trans (if_pos herr)
      rw [Answers, hsplit, if_neg fun hfailed => hfailed.2 herr]
      simp only [deliver, hw, hthrown]
      exact hevents
    · obtain ⟨hfault, hst', hend⟩ := hreplied.resumes _ rfl herr
      obtain ⟨rfl, rfl⟩ := Prod.mk.inj hend
      have hsplit : srv.replies (os ++ os') = srv.replies os ++ srv.replies os' :=
        (srv.replies_append os os').trans (if_neg herr)
      have hrest := ih _ rfl hst'
      simp only [deliver, hw, hfault, hevents]
      exact hrest.append hsplit herr
  | @stop s r seg segs os hd =>
    obtain ⟨b', hw, hu⟩ := b.writeAndAdd_eq seg
    have hreplied :=
      srv.onMessage_replied hd b' (by rw [hu, hb]) hst (s.loopFuel b') (Nat.le_refl _)
    have hevents := hreplied.events
    by_cases herr : Event.error ∈ srv.replies os
    · obtain ⟨f, hthrown⟩ := Option.isSome_iff_exists.mp (hreplied.throws herr)
      simp only [deliver, hw, hthrown]
      exact hevents
    · obtain ⟨later, hlater⟩ := srv.deliver_cons segs hw
      rw [Answers, if_pos ⟨rfl, herr⟩] at hevents ⊢
      obtain ⟨tail, htail⟩ := hevents
      exact ⟨tail ++ later, by rw [hlater, htail]; simp⟩

/-- Delivery in segments: the trace of the requests they feed, and more only after an error. -/
theorem deliver_trace (hh : srv.KeepsConnection) {c : HttpContent} {r : Bytes} {segs : List Bytes}
    {os : List HttpRequest} {e : Option (HttpContent × Bytes)}
    (h : Resumable.Feeds httpParser c r segs os e) (hk : ∀ o ∈ os, o.isCose = false) (b : Buffer)
    (hb : b.unread = r) (hst : c.resqStatu = 200) :
    ∃ tail, srv.deliver c b segs = srv.trace os e.isNone ++ tail ∧
      (Event.error ∉ srv.trace os e.isNone → tail = []) :=
  (srv.deliver_answers h b hb hst).trace srv hh hk

/-- The events before the first error. -/
def untilError (evs : List Event) : List Event := evs.takeWhile (· ≠ .error)

theorem untilError_trace (os : List HttpRequest) (failed : Bool) (tail : List Event)
    (h : Event.error ∉ srv.trace os failed → tail = []) :
    untilError (srv.trace os failed ++ tail) = untilError (srv.trace os failed) ∧
    (Event.error ∈ srv.trace os failed ++ tail ↔ Event.error ∈ srv.trace os failed) := by
  by_cases herr : Event.error ∈ srv.trace os failed
  · obtain ⟨evs, hno, he⟩ := srv.trace_error os failed herr
    have hall : ∀ ev ∈ evs, decide (ev ≠ Event.error) = true := by
      intro ev hev
      exact decide_eq_true (fun h => hno (h ▸ hev))
    refine ⟨?_, by simp [herr]⟩
    rw [he, List.append_assoc, untilError, untilError, List.takeWhile_append_of_pos hall,
      List.takeWhile_append_of_pos hall]
    rfl
  · simp [h herr]

theorem feeds_total (c : HttpContent) (r : Bytes) (segs : List Bytes) :
    ∃ os e, Resumable.Feeds httpParser c r segs os e := by
  induction segs generalizing c r with
  | nil => exact ⟨[], _, .nil c r⟩
  | cons seg segs ih =>
    obtain ⟨os, e, hd⟩ := drains_total c (r ++ seg)
    cases e with
    | none => exact ⟨os, none, .stop hd⟩
    | some st =>
      obtain ⟨os', e', hf⟩ := ih st.1 st.2
      exact ⟨os ++ os', e', .cons hd hf⟩

/-- Requests routed and answered one after the other; only the answer of the last may be missing. -/
def OneResponseEach (evs : List Event) : Prop :=
  ∃ (pairs : List (HttpRequest × Bytes)) (last : Option HttpRequest),
    evs = pairs.flatMap (fun p => [.route p.1, .send p.2]) ++ (last.map Event.route).toList ∧
    (∀ p ∈ pairs, ∃ res, srv.answer p.1 200 = .ok (res, p.2)) ∧
    ∀ o ∈ last, ∃ f, srv.answer o 200 = .error f

theorem untilError_oneResponseEach (os : List HttpRequest) (failed : Bool) :
    srv.OneResponseEach (untilError (srv.trace os failed)) := by
  induction os with
  | nil =>
    refine ⟨[], none, ?_, by simp, by simp⟩
    cases failed <;> simp [trace, untilError]
  | cons o os ih =>
    simp only [trace]
    cases ha : srv.answer o 200 with
    | error f => exact ⟨[], some o, by simp [untilError], by simp, by simp [ha]⟩
    | ok r =>
      obtain ⟨pairs, last, he, hp, hl⟩ := ih
      refine ⟨(o, r.2) :: pairs, last, ?_, ?_, hl⟩
      · simpa [untilError] using he
      · intro p hmem
        rcases List.mem_cons.mp hmem with rfl | hmem
        · exact ⟨r.1, ha⟩
        · exact hp p hmem

/-- A stream of keep-alive requests is answered the same however it is cut into
segments, and one cut meets an error exactly when the whole does. -/
theorem segmentation_independence (hh : srv.KeepsConnection) (stream : Bytes)
    (hk : ∀ o ∈ requestsOf stream, o.isCose = false) (segs : List Bytes)
    (hcut : segs.flatten = stream) :
    let cut := srv.deliver HttpContent.fresh Buffer.empty segs
    let whole := srv.deliver HttpContent.fresh Buffer.empty [stream]
    untilError cut = untilError whole ∧ (Event.error ∈ cut ↔ Event.error ∈ whole) ∧
      srv.OneResponseEach (untilError whole) := by
  intro cut whole
  obtain ⟨os, e, hwhole⟩ := feeds_total HttpContent.fresh [] [stream]
  obtain ⟨os', e', hparts⟩ := feeds_total HttpContent.fresh [] segs
  obtain ⟨rfl, rfl⟩ := Resumable.Feeds.segmentation httpParser_lawful hwhole hparts (by simp [hcut])
  have hdrain := hwhole.drains httpParser_lawful (.inl rfl)
  simp only [List.flatten_cons, List.flatten_nil, List.append_nil, List.nil_append] at hdrain
  rw [requestsOf_drains hdrain] at hk
  obtain ⟨tail, hw, htail⟩ := srv.deliver_trace hh hwhole hk Buffer.empty (by simp) rfl
  obtain ⟨tail', hc, htail'⟩ := srv.deliver_trace hh hparts hk Buffer.empty (by simp) rfl
  obtain ⟨h1, h2⟩ := srv.untilError_trace os e.isNone tail htail
  obtain ⟨h1', h2'⟩ := srv.untilError_trace os e.isNone tail' htail'
  simp only [cut, whole, hw, hc]
  exact ⟨h1'.trans h1.symm, h2'.trans h2.symm, h1 ▸ srv.untilError_oneResponseEach os e.isNone⟩

/-- A server without routes or files. -/
def bareServer : HttpServer := ofFiles [] FileSystem.empty

theorem segmentation_independence_bare :
    let stream := ascii "GET / HTTP/1.1\r\nConnection: keep-alive\r\n\r\nGET"
    let cut := bareServer.deliver HttpContent.fresh Buffer.empty [stream.take 20, stream.drop 20]
    let whole := bareServer.deliver HttpContent.fresh Buffer.empty [stream]
    untilError cut = untilError whole ∧ (Event.error ∈ cut ↔ Event.error ∈ whole) ∧
      bareServer.OneResponseEach (untilError whole) :=
  segmentation_independence bareServer (by simp [KeepsConnection, bareServer, ofFiles]) _
    (by decide +kernel) _
    (by decide +kernel)

end HttpServer
end MuduoServer
