import MuduoServer.HttpLoop

/-!
# After a close

Once `OnMessage` has called `Shutdown` the connection still reads, and `ShutDownInLoop`
itself runs `OnMessage` on what is left in the input buffer. So nothing more is
parsed or answered only as long as no byte is left and none arrives.
-/
namespace MuduoServer

open StdString HttpServer Transition

/-- What an event adds to the input buffer. -/
def Loop.Event.arrived : Loop.Event → Bytes
  | .received bytes => bytes
  | _ => []

/-- What is behind a request after whose response `OnMessage` calls `Shutdown`. -/
def HttpServer.Turn.leftover : Turn → Bytes
  | .reply r _ buffer => if r.shutdown then buffer.unread else []
  | _ => []

namespace HttpLoop

/-- What the next turn leaves in the buffer of connection `c` when it shuts it down. -/
def leftover (srv : HttpServer) (c : Nat) (s : HttpLoop) : Bytes :=
  match s.running, s.loop.conns c with
  | .onMessage d :: _, some conn =>
    if d = c then (srv.turn (s.contexts c) conn.inbuffer).leftover else []
  | _, _ => []

/-- Nothing is left behind a request that closes the connection, and nothing arrives after it. -/
def NothingLeft (srv : HttpServer) (c : Nat) (s : HttpLoop) : Act → Prop
  | .onMessage => leftover srv c s = []
  | .loop a => .close c ∈ s.log → (s.loop.event c a).arrived = []
  | .ret => True

instance (srv : HttpServer) (c : Nat) (s : HttpLoop) (a : Act) :
    Decidable (NothingLeft srv c s a) := by
  cases a <;> unfold NothingLeft <;> infer_instance

/-- Nothing is done for connection `c` after it is closed. -/
def Quiet (c : Nat) (log : List Entry) : Prop :=
  ∀ before after, log = before ++ .close c :: after → ∀ e ∈ after, e.conn ≠ c

theorem Quiet.append {c : Nat} {log new : List Entry} (hlog : Quiet c log)
    (hafter : .close c ∈ log → ∀ e ∈ new, e.conn ≠ c) (hnew : Quiet c new) :
    Quiet c (log ++ new) := by
  intro before after he e hin
  rcases split_append he with ⟨mid, hmid⟩ | ⟨mid, hmid, rfl⟩
  · exact hnew mid after hmid e hin
  · rcases List.mem_append.mp hin with hin | hin
    · exact hlog before mid hmid e hin
    · exact hafter (hmid ▸ List.mem_append_right _ List.mem_cons_self) e hin

theorem conn_entries {d : Nat} {t : Turn} {e : Entry} (h : e ∈ t.entries d) : e.conn = d := by
  cases t with
  | idle => cases h
  | wait context buffer =>
    rw [List.mem_singleton.mp h]
    rfl
  | fault context buffer events f =>
    rw [List.mem_singleton.mp h]
    rfl
  | reply r context buffer =>
    simp only [Turn.entries, Reply.entries, List.cons_append, List.mem_cons, List.mem_append] at h
    rcases h with rfl | h | rfl | h
    · rfl
    · split at h
      · cases h
      · rw [List.mem_singleton.mp h]
        rfl
    · rfl
    · split at h
      · rw [List.mem_singleton.mp h]
        rfl
      · cases h

/-- A turn that shuts the connection down does so last, and only after a response. -/
theorem entries_close (c d : Nat) (t : Turn) :
    .close c ∉ t.entries d ∨
      ∃ front r context buffer, t.entries d = front ++ [.close d] ∧ .close c ∉ front ∧
        t = .reply r context buffer ∧ r.shutdown = true := by
  cases t with
  | idle => exact .inl List.not_mem_nil
  | wait context buffer => exact .inl (by simp [Turn.entries])
  | fault context buffer events f => exact .inl (by simp [Turn.entries])
  | reply r context buffer =>
    have hroute : Entry.close c ∉ if r.isError then [] else [Entry.route d r.req] := by
      split <;> simp
    cases hshut : r.shutdown with
    | false => exact .inl (by simp [Turn.entries, Reply.entries, hshut, hroute])
    | true =>
      refine .inr ⟨.parse d :: (if r.isError then [] else [.route d r.req]) ++ [.answer d r], r,
        context, buffer,
        ?_, by simp [hroute], rfl, hshut⟩
      simp [Turn.entries, Reply.entries, hshut]

theorem quiet_entries (c d : Nat) (t : Turn) : Quiet c (t.entries d) := by
  have hnone : ∀ {log : List Entry}, .close c ∉ log → Quiet c log := by
    intro log hno before after he
    exact absurd (he ▸ List.mem_append_right _ List.mem_cons_self) hno
  rcases entries_close c d t with hno | ⟨front, r, context, buffer, he, hno, -⟩
  · exact hnone hno
  · rw [he]
    refine (hnone hno).append (fun hin => absurd hin hno) ?_
    intro before after he
    cases before with
    | nil =>
      obtain ⟨-, rfl⟩ := List.cons.inj he
      exact fun _ hin => absurd hin List.not_mem_nil
    | cons x before => simp at he

/-- What holds in every state: nothing was done after the close, and nothing is there to be done. -/
structure Closed (c : Nat) (s : HttpLoop) : Prop where
  quiet : Quiet c s.log
  input : .close c ∈ s.log → (s.loop.view c).input = []

variable {srv : HttpServer} {c : Nat} {s s' : HttpLoop}

/-- Without bytes that arrive the input stays empty. -/
theorem input_loop {t t' : Loop} {a : Loop.Act} (hinput : (t.view c).input = [])
    (harrived : (t.event c a).arrived = []) (hstep : t.step a = some t') :
    (t'.view c).input = [] := by
  rw [Loop.view_step hstep]
  cases he : t.event c a with
  | received bytes =>
    rw [he] at harrived
    simp only [Loop.Event.arrived] at harrived
    simp [Loop.View.step, hinput, harrived]
  | consumed len => simp [Loop.View.step, hinput]
  | _ => exact (input_step _ (fun _ h => by cases h) (fun _ h => by cases h)).trans hinput

theorem Closed.turn (h : Closed c s) {d : Nat} {running : List Running}
    {conn : Connection} {t : Turn} (hc : s.loop.conns d = some conn)
    (ht : t = srv.turn (s.contexts d) conn.inbuffer) (hleft : d = c → t.leftover = [])
    (hstep : s.takeTurn d conn running t = some s') : Closed c s' := by
  obtain ⟨hinput, hlog⟩ := takeTurn_spec hc hstep
  by_cases hd : d = c
  · subst hd
    by_cases hclosed : Entry.close d ∈ s.log
    · -- the input is empty, so the turn does nothing
      have hempty : conn.inbuffer.unread = [] := (view_inbuffer hc).symm.trans (h.input hclosed)
      have hidle : t = .idle := by
        rw [ht, HttpServer.turn, if_pos ((Loop.unread_eq_nil _).mp hempty)]
      rw [hidle] at hinput hlog
      refine ⟨?_, fun _ => ?_⟩
      · rw [hlog]
        exact h.quiet.append (fun _ _ hin => absurd hin List.not_mem_nil) (quiet_entries d d .idle)
      · rw [hinput, if_pos rfl]
        exact hempty
    · refine ⟨?_, fun hnow => ?_⟩
      · rw [hlog]
        exact h.quiet.append (fun hin => absurd hin hclosed) (quiet_entries d d t)
      · rw [hlog] at hnow
        have hnew := (List.mem_append.mp hnow).resolve_left hclosed
        rcases entries_close d d t with hno | ⟨front, r, context, buffer, -, -, rfl, hshut⟩
        · exact absurd hnew hno
        · have hrest := hleft rfl
          simp only [Turn.leftover, hshut, if_true] at hrest
          rw [hinput, if_pos rfl]
          exact hrest
  · refine ⟨?_, fun hnow => ?_⟩
    · rw [hlog]
      exact h.quiet.append (fun _ e hin => conn_entries hin ▸ hd) (quiet_entries c d t)
    · rw [hinput, if_neg (Ne.symm hd)]
      rw [hlog] at hnow
      rcases List.mem_append.mp hnow with hold | hnew
      · exact h.input hold
      · exact absurd (conn_entries hnew).symm hd

theorem closed_step {a : Act} (h : Closed c s) (ha : NothingLeft srv c s a)
    (hstep : step srv s a = some s') :
    Closed c s' := by
  rcases step_cases hstep with ⟨b, loop, rfl, -, hloop, rfl⟩ | ⟨running, loop, rfl, -, hloop, rfl⟩ |
    ⟨d, running, conn, rfl, hrunning, hc, hturn⟩
  · refine ⟨by rw [log_goOn]; exact h.quiet, fun hclosed => ?_⟩
    rw [log_goOn] at hclosed
    rw [loop_goOn]
    exact input_loop (h.input hclosed) (ha hclosed) hloop
  · exact ⟨h.quiet, fun hclosed => (input_ret hloop c).trans (h.input hclosed)⟩
  · refine h.turn hc rfl (fun hd => ?_) hturn
    subst hd
    simpa only [NothingLeft, leftover, hrunning, hc, if_true] using ha

/-- In a run in which nothing is left behind the request that closes a connection and nothing
arrives after it, the server does nothing more for the connection once `OnMessage` has called
`Shutdown`: it parses, routes and answers no later request. -/
theorem nothing_after_close (srv : HttpServer) (c : Nat) (acts : List Act) (s : HttpLoop)
    (hacts : Along (step srv) (NothingLeft srv c) start acts)
    (h : exec (step srv) start acts = some s) :
    ∀ before after, s.log = before ++ .close c :: after → ∀ e ∈ after, e.conn ≠ c := by
  have hstart : Closed c start :=
    ⟨fun before after he => by simp [start] at he, fun hin => absurd hin List.not_mem_nil⟩
  exact (exec_invariant (Closed c) (fun _ _ _ hI ha hstep => closed_step hI ha hstep) hstart hacts h).quiet

/-- `Http_Server` sets two callbacks. -/
def httpCallbacks : Callback → Option Nat
  | .connect | .message => some 1
  | _ => none

/-- Connection 1 on descriptor 7 receives `bytes`. -/
def receive (bytes : Bytes) : List Act :=
  [.loop (.newConnection 1 7 httpCallbacks), .loop (.post (.establishedInLoop 1)),
    .loop (.pollReturn []),
    .loop .swap, .loop .runTask, .ret, .loop .batchDone, .loop (.pollReturn [(7, epollIn)]),
      .loop .handle,
    .loop (.recv ⟨bytes.length, 0⟩ bytes)]

def bareFiles : HttpServer := ofFiles [] FileSystem.empty

/-- A request that closes the connection, up to its release. -/
def single : List Act :=
  receive (ascii "GET / HTTP/1.1\r\n\r\n") ++
    [.onMessage, .loop .next, .ret, .loop .next, .loop .swap, .loop .batchDone]

theorem nothing_after_close_single :
    ∃ s, exec (step bareFiles) start single = some s ∧ .close 1 ∈ s.log ∧
      ∀ before after, s.log = before ++ .close 1 :: after → ∀ e ∈ after, e.conn ≠ 1 := by
  have hrun : ((exec (step bareFiles) start single).map fun s => decide (.close 1 ∈ s.log)) =
      some true := by
    decide +kernel
  obtain ⟨s, hs, hclose⟩ := Option.map_eq_some_iff.mp hrun
  exact ⟨s, hs, of_decide_eq_true hclose, nothing_after_close bareFiles 1 single s (by decide +kernel) hs⟩

/-- Two requests in one segment; the first one closes the connection. -/
def pipelined : List Act :=
  receive (ascii "GET / HTTP/1.1\r\n\r\nGET / HTTP/1.1\r\n\r\n") ++ [.onMessage, .onMessage]

/-- The second request is parsed, routed and answered after the close. -/
theorem answered_after_close :
    ∃ s before after req reply, exec (step bareFiles) start pipelined = some s ∧
      s.log = before ++ .close 1 :: .parse 1 :: .route 1 req :: .answer 1 reply :: after := by
  have hrun : ((exec (step bareFiles) start pipelined).map fun s =>
      decide (s.log[3]? = some (.close 1) ∧ s.log[4]? = some (.parse 1) ∧
        (s.log[5]?.bind (Entry.routed 1)).isSome ∧ (s.log[6]?.bind (Entry.reply 1)).isSome)) =
          some true := by
    decide +kernel
  obtain ⟨s, hs, hlog⟩ := Option.map_eq_some_iff.mp hrun
  obtain ⟨hclose, hparse, hroute, hanswer⟩ := of_decide_eq_true hlog
  obtain ⟨req, hroute⟩ := Option.isSome_iff_exists.mp hroute
  obtain ⟨e, he, hreq⟩ := Option.bind_eq_some_iff.mp hroute
  obtain ⟨r, hanswer⟩ := Option.isSome_iff_exists.mp hanswer
  refine ⟨s, s.log.take 3, s.log.drop 7, req, r, hs, ?_⟩
  rw [← Entry.eq_route hreq, ← drop_of_reply hanswer, ← drop_of_getElem? he,
    ← drop_of_getElem? hparse,
    ← drop_of_getElem? hclose, List.take_append_drop]

end HttpLoop
end MuduoServer
