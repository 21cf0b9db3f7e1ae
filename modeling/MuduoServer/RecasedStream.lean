import MuduoServer.HeaderCase
import MuduoServer.HttpTurn
import MuduoServer.Segmentation

/-!
# Streams with recased header names

Two streams of requests that differ in the case of header names only are cut into requests at the
same places, and the server answers both alike.
-/
namespace MuduoServer

open StdString HttpContent

namespace RequestText

/-- `r'` may stand for `r` wherever the case of names is of no account. -/
def Stands (r r' : RequestText) : Prop := r.Recased r' ∧ r.SpellsAlike r'

/-- The loop on the first `n` bytes of two streams: it stops in the same place of both. -/
theorem drains_recased {rs rs' : List RequestText} (hwell : ∀ r ∈ rs, r.WellFormed)
    (hcase : List.Forall₂ Stands rs rs') (n : Nat) :
    ∃ os os' c c' t t', Resumable.Drains httpParser fresh ((stream rs).take n) os (some (c, t)) ∧
      Resumable.Drains httpParser fresh ((stream rs').take n) os' (some (c', t')) ∧
      List.Forall₂ Alike os os' ∧ t.length = t'.length := by
  induction hcase generalizing n with
  | nil =>
    rw [stream, List.map_nil, List.flatten_nil, List.take_nil]
    exact ⟨[], [], fresh, fresh, [], [], .idle fresh, .idle fresh, .nil, rfl⟩
  | @cons r r' rs rs' hstands _ ih =>
    obtain ⟨hrecased, hspell⟩ := hstands
    have hr := hwell r List.mem_cons_self
    have hr' := hrecased.wellFormed hr hspell
    have hlen := hrecased.length hr
    have hstream : stream (r :: rs) = r.text ++ stream rs := rfl
    have hstream' : stream (r' :: rs') = r'.text ++ stream rs' := rfl
    rw [hstream, hstream']
    by_cases hzero : n = 0
    · rw [hzero, List.take_zero, List.take_zero]
      exact ⟨[], [], fresh, fresh, [], [], .idle fresh, .idle fresh, .nil, rfl⟩
    by_cases hshort : n < r.text.length
    · -- the bytes end within this request
      obtain ⟨c, t, hstep, ht⟩ := step_textPrefix hr.toReadable hshort
      obtain ⟨c', t', hstep', ht'⟩ := step_textPrefix hr'.toReadable (hlen ▸ hshort)
      have hne : ∀ text : Bytes, n < text.length → text.take n ≠ [] := by
        intro text hlt hnil
        have := congrArg List.length hnil
        rw [List.length_take, List.length_nil] at this
        omega
      rw [List.take_append_of_le_length (Nat.le_of_lt hshort),
        List.take_append_of_le_length (hlen ▸ Nat.le_of_lt hshort)]
      refine ⟨[], [], c, c', t, t', .more (hne _ hshort) hstep,
        .more (hne _ (hlen ▸ hshort)) hstep', .nil, ?_⟩
      rw [ht, ht', hrecased.lineLengths hr]
    · obtain ⟨os, os', c, c', t, t', hd, hd', halike, ht⟩ :=
        ih (fun r hr => hwell r (List.mem_cons_of_mem _ hr)) (n - r.text.length)
      have htake : (r.text ++ stream rs).take n = r.text ++
          (stream rs).take (n - r.text.length) := by
        rw [List.take_append, List.take_of_length_le (Nat.not_lt.mp hshort)]
      have htake' : (r'.text ++ stream rs').take n = r'.text ++
          (stream rs').take (n - r.text.length) := by
        rw [List.take_append, hlen, List.take_of_length_le (hlen ▸ Nat.not_lt.mp hshort)]
      rw [htake, htake']
      exact ⟨r.parsed :: os, r'.parsed :: os', c, c', t, t',
        .done (hr.append_ne_nil _) (step_text hr.toReadable _) hd,
        .done (hr'.append_ne_nil _) (step_text hr'.toReadable _) hd',
          .cons (hrecased.alike hr hspell) halike, ht⟩

end RequestText

namespace HttpServer

variable (srv : HttpServer)

/-- No handler tells the case of header names apart. -/
def IgnoresNames : Prop :=
  ∀ entry ∈ srv.getRoute ++ srv.postRoute ++ srv.putRoute ++ srv.deleteRoute,
    ∀ req req' res, SameButNames req req' → entry.2 req res = entry.2 req' res

/-- The same event, but for the names of a request. -/
def SameEvent : Event → Event → Prop
  | .route req, .route req' => SameButNames req req'
  | ev, ev' => ev = ev'

/-! ## One answer -/

theorem dispather_headers {handlers : List (Pattern × Handler)}
    (hh : ∀ entry ∈ handlers, ∀ req req' res, SameButNames req req' →
      entry.2 req res = entry.2 req' res) {req : HttpRequest}
    {headers : StrMap} (h : SameButNames req { req with headers := headers }) (res : HttpResponse) :
    dispather { req with headers := headers } res handlers =
      ({ (dispather req res handlers).1 with headers := headers },
        (dispather req res handlers).2) := by
  induction handlers generalizing req with
  | nil => rfl
  | cons entry handlers ih =>
    obtain ⟨re, func⟩ := entry
    have hmatched : ∀ m, SameButNames { req with matched := m }
        { req with matched := m, headers := headers } :=
      fun m => ⟨rfl, h.headers⟩
    unfold dispather
    dsimp only
    cases re req.path with
    | none => exact ih (fun e he => hh e (List.mem_cons_of_mem _ he)) (hmatched [])
    | some matched =>
      exact congrArg (Prod.mk _) (hh _ List.mem_cons_self _ _ res (hmatched matched)).symm

theorem route_headers (hh : srv.IgnoresNames) {req : HttpRequest} {headers : StrMap}
    (h : SameButNames req { req with headers := headers }) (res : HttpResponse) :
    srv.route { req with headers := headers } res =
      (srv.route req res).map fun p => ({ p.1 with headers := headers }, p.2) := by
  have hroute : ∀ handlers ∈ [srv.getRoute, srv.postRoute, srv.putRoute, srv.deleteRoute],
      dispather { req with headers := headers } res handlers =
        ({ (dispather req res handlers).1 with headers := headers },
          (dispather req res handlers).2) := by
    intro handlers hin
    refine dispather_headers (fun e he => hh e ?_) h res
    simp only [List.mem_cons, List.not_mem_nil, or_false] at hin
    rcases hin with rfl | rfl | rfl | rfl <;> simp [he]
  have hfile : srv.isFileHandler { req with headers := headers } = srv.isFileHandler req := rfl
  have hopen : srv.fileHandler { req with headers := headers } res = srv.fileHandler req res := rfl
  unfold route
  rw [hfile, hopen]
  cases srv.isFileHandler req with
  | error f => rfl
  | ok isFile =>
    simp only [Bind.bind, Except.bind, Pure.pure, Except.pure]
    cases isFile with
    | true =>
      simp only [if_true]
      cases srv.fileHandler req res <;> rfl
    | false =>
      simp only [Bool.false_eq_true, if_false]
      rw [hroute srv.getRoute (by simp), hroute srv.postRoute (by simp),
        hroute srv.putRoute (by simp),
        hroute srv.deleteRoute (by simp)]
      split
      · rfl
      · split
        · rfl
        · split
          · rfl
          · split <;> rfl

theorem answer_alike (hh : srv.IgnoresNames) {req req' : HttpRequest} (h : Alike req req')
    (status : Int) :
    srv.answer req' status = srv.answer req status := by
  obtain ⟨hsame, hknown⟩ := h
  have hothers := hsame.others
  generalize req'.headers = headers at hothers
  subst hothers
  have hroute := srv.route_headers hh hsame (HttpResponse.ofStatus status)
  unfold answer
  cases hr : srv.route req (HttpResponse.ofStatus status) with
  | error f =>
    rw [hr] at hroute
    rw [hroute]
    rfl
  | ok p =>
    obtain ⟨req', res'⟩ := p
    obtain ⟨m, rfl⟩ := srv.route_request hr
    rw [hr] at hroute
    have hclose : HttpRequest.isCose { req with matched := m } =
        HttpRequest.isCose { req with matched := m, headers := headers } :=
      Alike.isCose ⟨⟨rfl, hsame.headers⟩, hknown⟩
    rw [hroute]
    simp only [Except.map, Bind.bind, Except.bind, Pure.pure, Except.pure, writeResponse,
      completeHeaders, hclose]
    rfl

/-! ## Runs -/

theorem deliver_drained {segs : List Bytes} {u : Bytes} {os : List HttpRequest}
    {e : HttpContent × Bytes} (hcut : segs.flatten = u)
    (h : Resumable.Drains httpParser fresh u os (some e)) :
    srv.deliver fresh Buffer.empty segs = srv.replies os := by
  obtain ⟨os', e', hf⟩ := feeds_total fresh [] segs
  have hd := hf.drains httpParser_lawful (.inl rfl)
  rw [List.nil_append, hcut] at hd
  obtain ⟨rfl, rfl⟩ := h.det hd
  have hanswers := srv.deliver_answers hf Buffer.empty (by simp) rfl
  rw [Answers, Option.isNone_some, if_neg (by simp)] at hanswers
  exact hanswers

theorem replies_alike (hh : srv.IgnoresNames) {os os' : List HttpRequest}
    (h : List.Forall₂ Alike os os') :
    List.Forall₂ SameEvent (srv.replies os) (srv.replies os') := by
  induction h with
  | nil => exact .nil
  | @cons o o' os os' halike _ ih =>
    have hroute : SameEvent (.route o) (.route o') := halike.toSameButNames
    have hanswer := srv.answer_alike hh halike 200
    cases ha : srv.answer o 200 with
    | error f =>
      rw [srv.replies_error ha, srv.replies_error (hanswer.trans ha)]
      exact .cons hroute (.cons rfl .nil)
    | ok r =>
      obtain ⟨res, payload⟩ := r
      rw [srv.replies_ok ha, srv.replies_ok (hanswer.trans ha)]
      refine .cons hroute (.cons rfl ?_)
      cases res.isCose with
      | true => exact .cons rfl ih
      | false => exact ih

/-! ## The streams -/

/-- What the parser's loop makes of a stream. -/
def readStream (u : Bytes) : Received :=
  recvLoop (fresh.loopFuel (Buffer.ofBytes u)) fresh (Buffer.ofBytes u)

/-- Requests and header names in another case, where `Content-Length` and `Connection` stay as they
are and no other spelling becomes one of them: wherever the two streams break off, the same requests
are complete, the same bytes are left and the connection is kept after the same requests; and the
server does the same however the streams are cut. -/
theorem header_case (rs rs' : List RequestText) (hwell : ∀ r ∈ rs, r.WellFormed)
    (hcase : List.Forall₂ (fun r r' => r.Recased r' ∧ r.SpellsAlike r') rs rs') :
    requestsOf (RequestText.stream rs) = rs.map RequestText.parsed ∧ ∀ n,
      let u := (RequestText.stream rs).take n
      let u' := (RequestText.stream rs').take n
      List.Forall₂ (fun o o' => SameButNames o o' ∧ o.isCose = o'.isCose) (readStream u).requests
        (readStream u').requests ∧
      (readStream u).buffer.unread.length = (readStream u').buffer.unread.length ∧
      (readStream u).failed = false ∧ (readStream u').failed = false ∧
      (srv.IgnoresNames → ∀ segs segs' : List Bytes, segs.flatten = u → segs'.flatten = u' →
        List.Forall₂ SameEvent (srv.deliver fresh Buffer.empty segs)
          (srv.deliver fresh Buffer.empty segs')) := by
  refine ⟨requestsOf_drains (RequestText.drains_stream fun r hr => (hwell r hr).toReadable), ?_⟩
  intro n u u'
  obtain ⟨os, os', c, c', t, t', hd, hd', halike, ht⟩ := RequestText.drains_recased hwell hcase n
  obtain ⟨hreq, hfail, hend⟩ :=
    recvLoop_drains hd (Buffer.ofBytes u) (by simp [u]) _ (Nat.le_refl _)
  obtain ⟨hreq', hfail', hend'⟩ :=
    recvLoop_drains hd' (Buffer.ofBytes u') (by simp [u']) _ (Nat.le_refl _)
  refine ⟨?_, ?_, hfail, hfail', fun hh segs segs' hcut hcut' => ?_⟩
  · rw [readStream, readStream, hreq, hreq']
    exact halike.imp fun o o' h => ⟨h.toSameButNames, h.isCose⟩
  · rw [readStream, readStream, (hend c t rfl).2, (hend' c' t' rfl).2, ht]
  · rw [srv.deliver_drained hcut hd, srv.deliver_drained hcut' hd']
    exact srv.replies_alike hh halike

/-- A request with a body, and one name of it in lower case. -/
def hosted : RequestText :=
  ⟨ascii "POST /a HTTP/1.1\r\n", [ascii "Host: x\r\n", ascii "Content-Length: 2\r\n"],
    ascii "\r\n", ascii "ab"⟩

def hostedLower : RequestText :=
  { hosted with headers := [ascii "host: x\r\n", ascii "Content-Length: 2\r\n"] }

theorem recased_hostedLower : hosted.Recased hostedLower where
  line := rfl
  headers := .cons ⟨ascii "Host", ascii "host", ascii "x", ascii ": x\r\n", by decide +kernel⟩
    (.cons ⟨ascii "Content-Length", ascii "Content-Length", ascii "2", ascii ": 2\r\n", by decide +kernel⟩ .nil)
  blank := rfl
  body := rfl

theorem header_case_hosted :
    requestsOf (RequestText.stream [hosted, hosted]) = [hosted.parsed, hosted.parsed] ∧
    List.Forall₂ SameEvent (bareServer.deliver fresh Buffer.empty [RequestText.stream [hosted, hosted]])
      (bareServer.deliver fresh Buffer.empty [hostedLower.text, hosted.text]) := by
  have hwell : ∀ r ∈ [hosted, hosted], r.WellFormed := by
    have h : hosted.WellFormed := by decide +kernel
    simp [h]
  have hspell : hosted.SpellsAlike hostedLower :=
    .cons (by decide +kernel) (.cons (by decide +kernel) .nil)
  have hself : hosted.Recased hosted :=
    ⟨rfl, .cons ⟨ascii "Host", ascii "Host", ascii "x", ascii ": x\r\n", by decide +kernel⟩
    (.cons ⟨ascii "Content-Length", ascii "Content-Length", ascii "2", ascii ": 2\r\n",
      by decide +kernel⟩ .nil), rfl, rfl⟩
  have hcase : List.Forall₂ (fun r r' => RequestText.Recased r r' ∧ r.SpellsAlike r')
      [hosted, hosted] [hostedLower, hosted] :=
    .cons ⟨recased_hostedLower, hspell⟩
      (.cons ⟨hself, .cons (fun _ _ => Iff.rfl) (.cons (fun _ _ => Iff.rfl) .nil)⟩ .nil)
  obtain ⟨hrequests, hall⟩ :=
    bareServer.header_case [hosted, hosted] [hostedLower, hosted] hwell hcase
  obtain ⟨-, -, -, -, hevents⟩ := hall 200
  exact ⟨hrequests, hevents (by simp [IgnoresNames, bareServer, ofFiles]) _ _
    (by decide +kernel) (by decide +kernel)⟩

/-- A request to keep the connection whose body reads as another request. -/
def smuggled : RequestText :=
  ⟨ascii "POST /a HTTP/1.1\r\n",
    [ascii "Content-Length: 19\r\n", ascii "Connection: keep-alive\r\n"], ascii "\r\n",
    ascii "GET /b HTTP/1.1\r\n\r\n"⟩

def smuggledLower : RequestText :=
  { smuggled with headers := [ascii "content-length: 19\r\n", ascii "connection: keep-alive\r\n"] }

/-- With the names in lower case there is no body, its bytes are a second request, and neither keeps
the connection. -/
theorem header_case_smuggled : smuggled.WellFormed ∧ smuggled.Recased smuggledLower ∧
    (requestsOf smuggled.text).map (fun o => (o.path, o.body, o.isCose)) =
    [(ascii "/a", ascii "GET /b HTTP/1.1\r\n\r\n", false)] ∧
    (requestsOf smuggledLower.text).map (fun o => (o.path, o.body, o.isCose)) =
      [(ascii "/a", [], true), (ascii "/b", [], true)] := by
  refine ⟨by decide +kernel, ⟨rfl, ?_, rfl, rfl⟩, by decide +kernel, by decide +kernel⟩
  refine .cons ⟨ascii "Content-Length", ascii "content-length", ascii "19", ascii ": 19\r\n",
    by decide +kernel⟩ ?_
  exact .cons ⟨ascii "Connection", ascii "connection", ascii "keep-alive", ascii ": keep-alive\r\n",
    by decide +kernel⟩ .nil

end HttpServer
end MuduoServer
