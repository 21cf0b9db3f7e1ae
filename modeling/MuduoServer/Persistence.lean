import MuduoServer.AfterClose
import MuduoServer.ResponseHeaders

/-!
# Announced persistence

The `Connection` header comes from the request, the decision to close from the response on the
normal path and from the error on the other. They agree except where an error ends a
request that has asked to keep the connection.
-/
namespace MuduoServer

open StdString HttpServer Transition

namespace HttpServer

variable (srv : HttpServer)

/-- The written headers hold `Connection: keep-alive`. -/
def AnnouncesKeepAlive (res : HttpResponse) : Prop :=
  (ascii "Connection", ascii "keep-alive") ∈ srv.walk res.headers

instance (res : HttpResponse) : Decidable (srv.AnnouncesKeepAlive res) :=
  inferInstanceAs (Decidable (_ ∈ _))

/-- An error response to a request whose headers, as far as they are parsed, ask to keep
the connection. -/
def Reply.Spoilt (r : Reply) : Prop := r.isError = true ∧ r.req.isCose = false

theorem announcesKeepAlive_iff (res : HttpResponse) :
    srv.AnnouncesKeepAlive res ↔ res.isCose = false := by
  rw [AnnouncesKeepAlive, mem_walk, HttpResponse.isCose_eq_false_iff]

/-- The page for an error leaves the `Connection` header to the request. -/
theorem errorPage_isCose (req : HttpRequest) {status : Int} {res : HttpResponse}
    (h : srv.eerrHander (HttpResponse.ofStatus status) = .ok res) :
    (completeHeaders req res).isCose = req.isCose := by
  obtain ⟨ret, buffer, -, rfl⟩ := srv.eerrHander_eq h
  exact completeHeaders_isCose _ _
    (HttpResponse.setHeader_noConnection _ _ (by decide) (AList.notMem_empty _))

theorem turn_persistence {context context' : HttpContent} {buffer buffer' : Buffer} {r : Reply}
    (h : srv.turn context buffer = .reply r context' buffer') :
    (srv.AnnouncesKeepAlive r.res ↔ r.shutdown = false) ↔ ¬r.Spoilt := by
  rw [announcesKeepAlive_iff, Reply.Spoilt]
  obtain ⟨-, ⟨herror, hshut, -, status, res, hpage, hres⟩ | ⟨hok, hshut⟩⟩ := srv.turn_reply h
  · rw [hres, srv.errorPage_isCose r.req hpage, herror, hshut]
    simp
  · rw [hok, hshut]
    simp

end HttpServer

namespace HttpLoop

/-- Each response of the log comes from a turn, and the close that belongs to it is behind it. -/
def Answered (srv : HttpServer) (log : List Entry) : Prop :=
  ∀ before after c r, log = before ++ .answer c r :: after →
    (after.head? = some (.close c) ↔ r.shutdown = true) ∧
      ∃ context buffer context' buffer', srv.turn context buffer = .reply r context' buffer'

variable {srv : HttpServer}

theorem Answered.append {log new : List Entry} (hlog : Answered srv log) (hnew : Answered srv new)
    (hhead : ∀ c, new.head? ≠ some (.close c)) : Answered srv (log ++ new) := by
  intro before after c r he
  rcases split_append he with ⟨mid, hmid⟩ | ⟨mid, hmid, rfl⟩
  · exact hnew mid after c r hmid
  · obtain ⟨hclose, hturn⟩ := hlog before mid c r hmid
    refine ⟨?_, hturn⟩
    cases mid with
    | nil =>
      rw [← hclose]
      exact iff_of_false (hhead c) (by simp)
    | cons y mid => exact hclose

theorem answered_of_notAnswer {log : List Entry} (h : ∀ c r, Entry.answer c r ∉ log) :
    Answered srv log := by
  intro before after c r he
  exact absurd (he ▸ List.mem_append_right _ List.mem_cons_self) (h c r)

theorem head_entries (c d : Nat) (t : Turn) : (t.entries d).head? ≠ some (.close c) := by
  cases t <;> simp [Turn.entries, Reply.entries]

theorem answered_entries {context : HttpContent} {buffer : Buffer} (d : Nat) :
    Answered srv ((srv.turn context buffer).entries d) := by
  cases ht : srv.turn context buffer with
  | idle => exact answered_of_notAnswer (by simp [Turn.entries])
  | wait context' buffer' => exact answered_of_notAnswer (by simp [Turn.entries])
  | fault context' buffer' events f => exact answered_of_notAnswer (by simp [Turn.entries])
  | reply r context' buffer' =>
    have hfront : Answered srv (.parse d :: if r.isError then [] else [.route d r.req]) :=
      answered_of_notAnswer (by intro c r'; split <;> simp)
    refine hfront.append ?_ (by simp)
    intro before after c r' he
    cases before with
    | nil =>
      obtain ⟨he, rfl⟩ := List.cons.inj he
      cases he
      exact ⟨by split <;> simp_all, _, _, _, _, ht⟩
    | cons x before =>
      have hin : Entry.answer c r' ∈ if r.shutdown then [Entry.close d] else [] :=
        (List.cons.inj he).2 ▸ List.mem_append_right _ List.mem_cons_self
      split at hin <;> simp at hin

theorem answered_step {s s' : HttpLoop} {a : Act} (h : Answered srv s.log)
    (hstep : step srv s a = some s') :
    Answered srv s'.log := by
  rcases step_cases hstep with ⟨b, loop, -, -, -, rfl⟩ | ⟨running, loop, -, -, -, rfl⟩ |
    ⟨d, running, conn, -, -, hc, hturn⟩
  · rwa [log_goOn]
  · exact h
  · rw [(takeTurn_spec hc hturn).2]
    exact h.append (answered_entries d) (fun c => head_entries c d _)

/-- A response, whatever the stream, the routes and the handlers are, announces with its
`Connection` header whether `OnMessage` calls `Shutdown` right after it if and only if it is not an
error response to a request that asks to keep the connection. -/
theorem announced_persistence (srv : HttpServer) (acts : List Act) (s : HttpLoop)
    (h : exec (step srv) start acts = some s) (before after : List Entry) (c : Nat) (r : Reply)
    (hlog : s.log = before ++ .answer c r :: after) :
    r.payload = srv.responseText r.req r.res ∧
      ((srv.AnnouncesKeepAlive r.res ↔ after.head? ≠ some (.close c)) ↔ ¬r.Spoilt) := by
  have hstart : Answered srv start.log := answered_of_notAnswer (fun _ _ => List.not_mem_nil)
  obtain ⟨hclose, context, buffer, context', buffer', hturn⟩ :=
    exec_preserves (fun s : HttpLoop => Answered srv s.log)
      (fun _ _ _ hI hstep => answered_step hI hstep)
      hstart h before after c r hlog
  refine ⟨(srv.turn_reply hturn).1, ?_⟩
  rw [ne_eq, hclose, Bool.not_eq_true]
  exact srv.turn_persistence hturn

theorem announced_persistence_single :
    ∃ s before after r, exec (step bareFiles) start single = some s ∧
    s.log = before ++ .answer 1 r :: after ∧
      r.payload = bareFiles.responseText r.req r.res ∧
      ((bareFiles.AnnouncesKeepAlive r.res ↔ after.head? ≠ some (.close 1)) ↔ ¬r.Spoilt) := by
  have hrun : ((exec (step bareFiles) start single).map fun s =>
      (s.log[2]?.bind (Entry.reply 1)).isSome) = some true := by
    decide +kernel
  obtain ⟨s, hs, hlog⟩ := Option.map_eq_some_iff.mp hrun
  obtain ⟨r, hr⟩ := Option.isSome_iff_exists.mp hlog
  have hsplit : s.log = s.log.take 2 ++ .answer 1 r :: s.log.drop 3 := by
    rw [← drop_of_reply hr, List.take_append_drop]
  exact ⟨s, _, _, r, hs, hsplit, announced_persistence bareFiles single s hs _ _ 1 r hsplit⟩

/-- A request that asks to keep the connection, with a header line that is none. -/
def spoilt : List Act :=
  receive (ascii "GET / HTTP/1.1\r\nConnection: keep-alive\r\nHost\r\n") ++ [.onMessage]

/-- The response announces that the connection is kept, and it is closed. -/
theorem closed_after_keepAlive :
    ∃ s before after r, exec (step bareFiles) start spoilt = some s ∧
      s.log = before ++ .answer 1 r :: .close 1 :: after ∧ bareFiles.AnnouncesKeepAlive r.res := by
  have hrun : ((exec (step bareFiles) start spoilt).map fun s =>
      (s.log[1]?.bind (Entry.reply 1)).any fun r =>
        decide (s.log[2]? = some (.close 1) ∧ bareFiles.AnnouncesKeepAlive r.res)) = some true := by
    decide +kernel
  obtain ⟨s, hs, hlog⟩ := Option.map_eq_some_iff.mp hrun
  obtain ⟨r, hr, hrest⟩ := (Option.any_eq_true _ _).mp hlog
  obtain ⟨hclose, hkeep⟩ := of_decide_eq_true hrest
  refine ⟨s, s.log.take 1, s.log.drop 3, r, hs, ?_, hkeep⟩
  rw [← drop_of_getElem? hclose, ← drop_of_reply hr, List.take_append_drop]

end HttpLoop
end MuduoServer
