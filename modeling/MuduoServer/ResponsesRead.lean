import MuduoServer.HeadResponse
import MuduoServer.HttpService
import MuduoServer.ResponseStream

/-!
# What clients read

Whatever bytes a client sends, none of them reaches its responses in a place where it
would end a line or a body early. So the bytes that leave a connection read as
the responses that were written on it, with nothing between them and nothing left over.
-/
namespace MuduoServer

open StdString Uitl Framing HttpServer Transition

namespace HttpResponse

/-- No header and no redirection breaks its line. -/
structure Clean (r : HttpResponse) : Prop where
  name : ∀ key val, r.headers.lookup key = some val → 58 ∉ key ∧ 13 ∉ key ∧ newline ∉ key
  value : ∀ key val, r.headers.lookup key = some val → 13 ∉ val ∧ newline ∉ val
  redirect : 13 ∉ r.redirect ∧ newline ∉ r.redirect

/-- A length that is set is that of the body. -/
def Sized (r : HttpResponse) : Prop :=
  ∀ val, r.headers.lookup (ascii "Content-Length") = some val →
    ReceivedResponse.readNat val = some r.body.length

variable {r : HttpResponse}

theorem clean_ofStatus (status : Int) : (ofStatus status).Clean where
  name _ _ h := by cases h
  value _ _ h := by cases h
  redirect := ⟨by simp [ofStatus], by simp [ofStatus]⟩

theorem Clean.congr {r' : HttpResponse} (h : r.Clean) (hheaders : r'.headers = r.headers)
    (hredirect : r'.redirect = r.redirect) : r'.Clean where
  name := hheaders ▸ h.name
  value := hheaders ▸ h.value
  redirect := hredirect ▸ h.redirect

theorem Clean.setHeader {key val : Bytes} (h : r.Clean) (hkey : 58 ∉ key ∧ 13 ∉ key ∧ newline ∉ key)
    (hval : 13 ∉ val ∧ newline ∉ val) : (r.setHeader key val).Clean := by
  have hset : ∀ key' val', (r.setHeader key val).headers.lookup key' = some val' →
      r.headers.lookup key' = some val' ∨ key' = key ∧ val' = val := by
    intro key' val' hlookup
    rw [lookup_setHeader] at hlookup
    obtain hold | ⟨-, hnew⟩ := Option.or_eq_some_iff.mp hlookup
    · exact .inl hold
    · obtain ⟨hk, hv⟩ := Option.ite_none_right_eq_some.mp hnew
      exact .inr ⟨hk, (Option.some.inj hv).symm⟩
  constructor
  · intro key' val' hlookup
    obtain hold | ⟨rfl, -⟩ := hset key' val' hlookup
    · exact h.name key' val' hold
    · exact hkey
  · intro key' val' hlookup
    obtain hold | ⟨-, rfl⟩ := hset key' val' hlookup
    · exact h.value key' val' hold
    · exact hval
  · exact h.redirect

theorem sized_of_absent (h : ascii "Content-Length" ∉ r.headers) : r.Sized := by
  intro val hval
  rw [AList.lookup_eq_none.mpr h] at hval
  cases hval

theorem sized_of_zeroLength (h : ZeroLength r) (hbody : r.body = []) : r.Sized := by
  intro val hval
  rw [h val hval, hbody]
  decide

end HttpResponse

theorem Uitl.exMime_clean (filename : Bytes) :
    13 ∉ exMime filename ∧ newline ∉ exMime filename := by
  have hdefault : 13 ∉ ascii "application/octet-stream" ∧
      newline ∉ ascii "application/octet-stream" := by decide
  have htable : ∀ e ∈ mimeTable, 13 ∉ ascii e.2 ∧ newline ∉ ascii e.2 := by decide +kernel
  unfold exMime
  dsimp only
  split
  · exact hdefault
  · split
    · rename_i hfind
      exact htable _ (List.mem_of_find?_eq_some hfind)
    · exact hdefault

namespace HttpServer

/-- What the handlers owe the wire. -/
structure WellBehaved (srv : HttpServer) : Prop where
  clean : ∀ entry ∈ srv.getRoute ++ srv.postRoute ++ srv.putRoute ++ srv.deleteRoute, ∀ req status,
    (entry.2 req (HttpResponse.ofStatus status)).Clean ∧
      (entry.2 req (HttpResponse.ofStatus status)).Sized
  /-- A `HEAD` response loses its body, but not its length. -/
  head : ∀ entry ∈ srv.getRoute, ∀ req status, req.method = ascii "HEAD" →
    ZeroLength (entry.2 req (HttpResponse.ofStatus status))

/-- Files alone owe nothing. -/
theorem wellBehaved_ofFiles (basedir : Bytes) (fs : FileSystem) :
    (ofFiles basedir fs).WellBehaved where
  clean _ h := by simp [ofFiles] at h
  head _ h := by simp [ofFiles] at h

variable {srv : HttpServer} {req req' : HttpRequest} {res : HttpResponse} {status : Int}

/-! ## Responses -/

theorem fileHandler_clean (h : srv.fileHandler req (HttpResponse.ofStatus status) = .ok res) :
    res.Clean ∧ ascii "Content-Length" ∉ res.headers := by
  have hbare := HttpResponse.clean_ofStatus status
  have habsent : ascii "Content-Length" ∉ (HttpResponse.ofStatus status).headers :=
    AList.notMem_empty _
  obtain ⟨path, ret, body, -, -, ⟨-, rfl⟩ | ⟨-, rfl⟩⟩ := srv.fileHandler_eq h
  · exact ⟨hbare.congr rfl rfl, habsent⟩
  · have hbody : HttpResponse.Clean { HttpResponse.ofStatus status with body := body } :=
      hbare.congr rfl rfl
    exact ⟨hbody.setHeader (by decide) (exMime_clean path),
      HttpResponse.setHeader_absent _ (by decide) habsent⟩

theorem firstMatch_mem {path : Bytes} {handlers : List (Pattern × Handler)}
    {found : List Bytes × Handler} (h : firstMatch path handlers = some found) :
    ∃ entry ∈ handlers, entry.2 = found.2 := by
  obtain ⟨entry, he, hmatch⟩ := List.exists_of_findSome?_eq_some h
  obtain ⟨m, -, rfl⟩ := Option.map_eq_some_iff.mp hmatch
  exact ⟨entry, he, rfl⟩

/-- A response as it is before `HEAD` is seen to. -/
theorem route_clean (hh : srv.WellBehaved)
    (h : srv.route req (HttpResponse.ofStatus status) = .ok (req', res)) :
    res.Clean ∧ res.Sized := by
  have hbare := HttpResponse.clean_ofStatus status
  have habsent : ascii "Content-Length" ∉ (HttpResponse.ofStatus status).headers :=
    AList.notMem_empty _
  obtain ⟨-, hfile⟩ | ⟨handlers, hin, hd⟩ | ⟨-, rfl⟩ := srv.route_cases h
  · obtain ⟨hclean, hlength⟩ := fileHandler_clean hfile
    exact ⟨hclean, HttpResponse.sized_of_absent hlength⟩
  · have hres : res = (dispather req (HttpResponse.ofStatus status) handlers).2 :=
      (congrArg Prod.snd hd).symm
    rw [dispather_response] at hres
    cases hfirst : firstMatch req.path handlers with
    | none =>
      rw [hfirst] at hres
      exact hres ▸ ⟨hbare.congr rfl rfl, HttpResponse.sized_of_absent habsent⟩
    | some found =>
      obtain ⟨entry, he, hfunc⟩ := firstMatch_mem hfirst
      rw [hfirst, Option.elim_some, ← hfunc] at hres
      rw [hres]
      refine hh.clean entry ?_ _ _
      simp only [List.mem_cons, List.not_mem_nil, or_false] at hin
      simp only [List.mem_append]
      obtain rfl | rfl | rfl | rfl := hin
      · exact .inl (.inl (.inl he))
      · exact .inl (.inl (.inr he))
      · exact .inl (.inr he)
      · exact .inr he
  · exact ⟨hbare.congr rfl rfl, HttpResponse.sized_of_absent habsent⟩

theorem route_zeroLength (hh : srv.WellBehaved) (hreq : req.method = ascii "HEAD")
    (h : srv.route req (HttpResponse.ofStatus status) = .ok (req', res)) : ZeroLength res := by
  rw [srv.route_head hreq h]
  right
  intro matched func hfirst
  obtain ⟨entry, he, rfl⟩ := firstMatch_mem hfirst
  exact hh.head entry he _ _ hreq

theorem headResponse_clean (hclean : res.Clean) (hsized : res.Sized)
    (hzero : req.method = ascii "HEAD" → ZeroLength res) :
    (headResponse req res).Clean ∧ (headResponse req res).Sized := by
  by_cases hreq : req.method = ascii "HEAD"
  · obtain ⟨hbody, hlength⟩ := headResponse_zeroLength hreq res
    refine ⟨?_, HttpResponse.sized_of_zeroLength (hlength.mpr (hzero hreq)) hbody⟩
    have hempty : HttpResponse.Clean { res with body := [] } := hclean.congr rfl rfl
    rw [headResponse, if_pos hreq]
    dsimp only
    split
    · exact hempty.setHeader (by decide) (by decide)
    · exact hempty
  · rw [headResponse, if_neg hreq]
    exact ⟨hclean, hsized⟩

/-! ## Replies -/

/-- The reply is a response that was completed and written. -/
def Reply.Written (srv : HttpServer) (r : Reply) : Prop :=
  ∃ x : Exchange, x.text srv = r.payload ∧ completeHeaders x.req x.res = r.res

/-- What a reader makes of a reply. -/
def Reply.received (srv : HttpServer) (r : Reply) : ReceivedResponse :=
  ⟨r.res.status, srv.walk r.res.headers, r.res.body⟩

theorem written_of_clean (hreq : req.VersionClean) (hclean : res.Clean) (hsized : res.Sized)
    (q : HttpRequest) (isError shutdown : Bool) :
    Reply.Written srv ⟨q, (srv.writeResponse req res).1, (srv.writeResponse req res).2,
      isError, shutdown⟩ :=
  ⟨⟨req, res, hreq, hclean.name, hclean.value, hclean.redirect, hsized⟩, rfl, rfl⟩

theorem answer_written (hh : srv.WellBehaved) (hreq : req.VersionClean) {r : HttpResponse × Bytes}
    (h : srv.answer req status = .ok r) (q : HttpRequest) (isError shutdown : Bool) :
    Reply.Written srv ⟨q, r.1, r.2, isError, shutdown⟩ := by
  unfold answer at h
  cases hr : srv.route req (HttpResponse.ofStatus status) with
  | error f => rw [hr] at h; cases h
  | ok p =>
    obtain ⟨req', res⟩ := p
    obtain ⟨m, rfl⟩ := srv.route_request hr
    obtain ⟨hclean, hsized⟩ := route_clean hh hr
    have hzero : req.method = ascii "HEAD" → ZeroLength res :=
      fun hmethod => route_zeroLength hh hmethod hr
    obtain ⟨hclean, hsized⟩ : (headResponse { req with matched := m } res).Clean ∧
        (headResponse { req with matched := m } res).Sized := headResponse_clean hclean hsized hzero
    rw [hr] at h
    cases h
    exact written_of_clean hreq hclean hsized q isError shutdown

theorem eerrHander_clean {srv : HttpServer} {status : Int} {res : HttpResponse}
    (h : srv.eerrHander (HttpResponse.ofStatus status) = .ok res) : res.Clean ∧ res.Sized := by
  obtain ⟨ret, buffer, -, rfl⟩ := srv.eerrHander_eq h
  have hbare := HttpResponse.clean_ofStatus status
  have htype : ((HttpResponse.ofStatus status).setHeader (ascii "Content-Type") (ascii "text/html")).Clean :=
    hbare.setHeader (by decide) (by decide)
  refine ⟨htype.congr rfl rfl, HttpResponse.sized_of_absent ?_⟩
  exact HttpResponse.setHeader_absent _ (by decide) (AList.notMem_empty _)

/-- Whatever the turn finds in the buffer, a reply is a response that was written. -/
theorem turn_written (hh : srv.WellBehaved) {context : HttpContent}
    (h : context.request.VersionClean) (buffer : Buffer) :
    (srv.turn context buffer).Leaves (fun context => context.request.VersionClean)
    (Reply.Written srv) := by
  have hcall := context.recvHttpRequest_version h buffer
  unfold turn
  split
  · trivial
  · split
    · trivial
    · rename_i c' buffer' ret hr
      rw [hr] at hcall
      dsimp only at hcall ⊢
      split
      · split
        · trivial
        · rename_i res hpage
          obtain ⟨hclean, hsized⟩ := eerrHander_clean hpage
          split
          · trivial
          · exact ⟨HttpRequest.versionClean_fresh, written_of_clean hcall hclean hsized _ _ _⟩
      · split
        · exact hcall
        · split
          · trivial
          · rename_i r payload ha
            exact ⟨HttpRequest.versionClean_fresh, answer_written hh hcall ha _ _ _⟩

theorem Reply.Written.reads {r : Reply} (h : r.Written srv) :
    Reads ReceivedResponse.read r.payload (r.received srv) ∧ r.payload ≠ [] := by
  obtain ⟨x, htext, hres⟩ := h
  obtain ⟨hstatus, hbody⟩ := completeHeaders_kept x.req x.res
  have hreceived : x.received srv = r.received srv := by
    rw [Reply.received, ← hres, hstatus, hbody]
    rfl
  rw [← htext, ← hreceived]
  exact ⟨x.reads_text srv, x.text_ne_nil srv⟩

end HttpServer

/-- The reply that a turn is. -/
def HttpServer.Turn.replied : Turn → Option Reply
  | .reply r _ _ => some r
  | .idle | .wait _ _ | .fault _ _ _ _ => none

namespace HttpLoop

/-- The responses written on connection `c`. -/
def replies (c : Nat) (s : HttpLoop) : List Reply := s.log.filterMap (Entry.reply c)

/-- Nothing but the server sends on connection `c`. -/
def OnlyServer (c : Nat) (s : HttpLoop) : Act → Prop
  | .loop a => isSend (s.loop.event c a) = false
  | .onMessage | .ret => True

instance (c : Nat) (s : HttpLoop) : DecidablePred (OnlyServer c s)
  | .loop a => inferInstanceAs (Decidable (isSend (s.loop.event c a) = false))
  | .onMessage | .ret => isTrue trivial

/-- The connection has not been released. -/
def Up (c : Nat) (s : HttpLoop) (_ : Act) : Prop := (s.loop.view c).status ≠ .disconnected

instance (c : Nat) (s : HttpLoop) : DecidablePred (Up c s) :=
  fun _ => inferInstanceAs (Decidable ((s.loop.view c).status ≠ .disconnected))

variable {srv : HttpServer} {s s' : HttpLoop} {c d : Nat} {conn : Connection}
    {running : List Running} {w : Wire}
  {acc : List Reply}

/-- What has left the connection and what waits to leave are the responses in `acc`, of
those written. -/
structure Emits (c : Nat) (s : HttpLoop) (w : Wire) (acc : List Reply) : Prop where
  kept : acc.Sublist (replies c s)
  bytes : w.sent ++ (s.loop.view c).output = acc.flatMap Reply.payload

/-- The replies a turn adds to those of connection `c`. -/
theorem replies_entries (c d : Nat) (t : Turn) :
    (t.entries d).filterMap (Entry.reply c) = if d = c then t.replied.toList else [] := by
  cases t with
  | reply r context buffer =>
    have hparse : Entry.reply c (.parse d) = none := rfl
    have hroute : Entry.reply c (.route d r.req) = none := rfl
    have hclose : Entry.reply c (.close d) = none := rfl
    have hrest : ((if r.shutdown then [Entry.close d] else []).filterMap (Entry.reply c)) = [] := by
      split
      · rw [List.filterMap_cons_none hclose, List.filterMap_nil]
      · rfl
    have hfront : ((if r.isError then [] else [Entry.route d r.req]).filterMap (Entry.reply c)) =
        [] := by
      split
      · rfl
      · rw [List.filterMap_cons_none hroute, List.filterMap_nil]
    have hanswer : Entry.reply c (.answer d r) = if d = c then some r else none := rfl
    rw [Turn.entries, Reply.entries, List.cons_append, List.filterMap_cons_none hparse,
      List.filterMap_append, hfront,
      List.filterMap_cons, hrest, hanswer]
    by_cases hd : d = c
    · simp [hd, Turn.replied]
    · simp [hd]
  | _ => simp [Turn.entries, Turn.replied, Entry.reply]

theorem replies_turn {t : Turn} (hc : s.loop.conns d = some conn)
    (h : s.takeTurn d conn running t = some s') :
    replies c s' = replies c s ++ (t.entries d).filterMap (Entry.reply c) := by
  rw [replies, (takeTurn_spec hc h).2, List.filterMap_append]
  rfl

/-- A turn changes the output of its connection by its reply, unless that has been released. -/
theorem output_turn {t : Turn} (hc : s.loop.conns c = some conn)
    (h : s.takeTurn c conn running t = some s') :
    (s'.loop.view c).output = (s.loop.view c).output ++
      if (s.loop.view c).status = .disconnected then []
      else ((t.entries c).filterMap (Entry.reply c)).flatMap Reply.payload := by
  rw [replies_entries, if_pos rfl]
  cases t with
  | idle =>
    obtain ⟨loop, hloop, h⟩ := Option.bind_eq_some_iff.mp h
    cases h
    have hview : loop.view c = s.loop.view c := Loop.view_step hloop c
    simp [hview, Turn.replied]
  | wait context buffer =>
    obtain ⟨loop, hloop, h⟩ := Option.bind_eq_some_iff.mp h
    cases h
    have hview : loop.view c = { s.loop.view c with input := buffer.unread } :=
      (Loop.view_step hloop c).trans (view_store hc context buffer).1
    simp [hview, Turn.replied]
  | reply r context buffer =>
    obtain ⟨payload, loop, hpayload, hloop, hrest⟩ := takeTurn_reply h
    have hsent : (loop.view c).output = (s.loop.view c).output ++
        if (s.loop.view c).status = .disconnected then [] else r.payload := by
      rw [Loop.view_step hloop c, (view_store hc context buffer).1]
      simp only [Loop.event, Loop.executes, Option.elim_some, Loop.taskEvent, if_true, hpayload,
        Loop.View.step]
      split
      · rw [List.append_nil]
      · rfl
    have hlast : (s'.loop.view c).output = (loop.view c).output := by
      obtain ⟨-, rfl⟩ | ⟨-, loop', hloop', rfl⟩ := hrest
      · rfl
      · rw [loop_goOn, Loop.view_step hloop' c]
        simp only [Loop.event, Loop.executes, Option.elim_some, Loop.taskEvent, if_true,
          Loop.View.step]
    rw [hlast, hsent, Turn.replied, Option.toList_some, List.flatMap_singleton]
  | fault context buffer events f => cases h

theorem emits_step {a : Act} (h : Emits c s w acc) (ha : OnlyServer c s a)
    (hstep : step srv s a = some s') :
    ∃ acc', Emits c s' (w.note c s a) acc' ∧
    (Up c s a → acc = replies c s → acc' = replies c s') := by
  obtain ⟨b, loop, rfl, -, hloop, rfl⟩ | ⟨running, loop, rfl, -, hloop, rfl⟩ |
      ⟨d, running, conn, rfl, hr, hc, hturn⟩ :=
    step_cases hstep
  · have hreplies : replies c (s.goOn loop) = replies c s := by rw [replies, log_goOn, replies]
    refine ⟨acc, ⟨hreplies ▸ h.kept, ?_⟩, fun _ hall => hreplies ▸ hall⟩
    rw [loop_goOn, Loop.view_step hloop]
    exact sent_event h.bytes ha
  · have hview : loop.view c = s.loop.view c := Loop.view_step hloop c
    exact ⟨acc, ⟨h.kept, hview ▸ h.bytes⟩, fun _ hall => hall⟩
  · have hreplies := replies_turn (c := c) hc hturn
    by_cases hd : d = c
    · subst hd
      have houtput := output_turn hc hturn
      by_cases hdown : (s.loop.view d).status = .disconnected
      · rw [if_pos hdown, List.append_nil] at houtput
        refine ⟨acc, ⟨?_, houtput ▸ h.bytes⟩, fun hup => absurd hdown hup⟩
        rw [hreplies]
        exact h.kept.trans (List.sublist_append_left _ _)
      · rw [if_neg hdown] at houtput
        refine ⟨acc ++ _, ⟨hreplies ▸ h.kept.append (List.Sublist.refl _), ?_⟩,
          fun _ hall => by rw [hreplies, hall]⟩
        rw [houtput, Wire.note, ← List.append_assoc, h.bytes, List.flatMap_append]
    · have hsame : replies c s' = replies c s := by
        rw [hreplies, replies_entries, if_neg hd, List.append_nil]
      exact ⟨acc, ⟨hsame ▸ h.kept, (takeTurn_other hd hc hr hturn).1 ▸ h.bytes⟩,
        fun _ hall => hsame ▸ hall⟩

theorem emits_exec {acts : List Act} (h : exec (step srv) start acts = some s)
    (honly : Along (step srv) (OnlyServer c) start acts) :
    ∃ acc, Emits c s (wire srv c acts) acc ∧
    (Along (step srv) (Up c) start acts → acc = replies c s) := by
  refine exec_history (fun acts s => Along (step srv) (OnlyServer c) start acts →
    ∃ acc, Emits c s (wire srv c acts) acc ∧
    (Along (step srv) (Up c) start acts → acc = replies c s)) ?_ ?_ h honly
  · exact fun _ => ⟨[], ⟨List.Sublist.refl _, rfl⟩, fun _ => rfl⟩
  · intro acts s a s' hs ih hstep honly
    obtain ⟨hbefore, hlast⟩ := (along_append start acts [a]).mp honly
    obtain ⟨acc, hemits, hall⟩ := ih hbefore
    obtain ⟨acc', hemits', hall'⟩ := emits_step hemits (hlast s hs).1 hstep
    refine ⟨acc', ?_, fun hup => ?_⟩
    · rw [wire, recorded_concat hs hstep]
      exact hemits'
    · obtain ⟨hup, hupLast⟩ := (along_append start acts [a]).mp hup
      exact hall' (hupLast s hs).1 (hall hup)

/-- Whatever bytes arrive on a connection and whatever happens around it, what has been sent on it
and what waits to be sent read, to the last byte, as responses that the server has written on it, in
order; none of them is missing while the connection has not been released. -/
theorem responses_read (srv : HttpServer) (hh : srv.WellBehaved) (c : Nat) (acts : List Act)
    (s : HttpLoop) (h : exec (step srv) start acts = some s)
    (honly : Along (step srv) (OnlyServer c) start acts) :
    ∃ acc : List Reply, acc.Sublist (replies c s) ∧
    (Along (step srv) (Up c) start acts → acc = replies c s) ∧
      all ReceivedResponse.read ((wire srv c acts).sent ++ (s.loop.view c).output) =
      some (acc.map (Reply.received srv)) := by
  obtain ⟨acc, hemits, hall⟩ := emits_exec h honly
  refine ⟨acc, hemits.kept, hall, ?_⟩
  have hwritten : ∀ r ∈ acc, r.Written srv := by
    intro r hr
    obtain ⟨e, he, hreply⟩ := List.mem_filterMap.mp (hemits.kept.subset hr)
    rw [Entry.eq_answer hreply] at he
    exact (leaves_exec HttpRequest.versionClean_fresh
      (fun _ buffer hclean => turn_written hh hclean buffer) h).2 c r he
  rw [hemits.bytes]
  exact all_flatMap acc (fun r hr => (hwritten r hr).reads.1) (fun r hr => (hwritten r hr).reads.2)

/-- A path with the end of a line in it, and then no request. -/
def splitting : List Act :=
  receive (ascii "GET /%0d%0a HTTP/1.1\r\nConnection: keep-alive\r\n\r\nx\r\n") ++
    [.onMessage, .onMessage, .loop .next, .ret]

theorem responses_read_splitting : ∃ s, exec (step bareFiles) start splitting = some s ∧
    (all ReceivedResponse.read ((wire bareFiles 1 splitting).sent ++ (s.loop.view 1).output)).map
      (·.map ReceivedResponse.status) = some [404, 400] := by
  have hrun : ((exec (step bareFiles) start splitting).map fun s => (replies 1 s).map
      fun r => r.res.status) =
      some [404, 400] := by decide +kernel
  obtain ⟨s, hs, hstatus⟩ := Option.map_eq_some_iff.mp hrun
  obtain ⟨acc, -, hall, hread⟩ :=
    responses_read bareFiles (wellBehaved_ofFiles _ _) 1 splitting s hs (by decide +kernel)
  refine ⟨s, hs, ?_⟩
  rw [hread, hall (by decide +kernel), Option.map_some, List.map_map]
  exact congrArg some hstatus

end HttpLoop
end MuduoServer
