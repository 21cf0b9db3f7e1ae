import MuduoServer.OutputStream
import MuduoServer.ParserTrail
import MuduoServer.ProtocolSwitch
import MuduoServer.Reentry
import MuduoServer.RoundTrip
import MuduoServer.UserCode

/-!
# The HTTP server from end to end

A connection of a running `Http_Server` turns the bytes it receives into the bytes
it sends. However the bytes arrive, whatever happens on the other connections in
between and however little `send(2)` takes at a time, what has been sent and what
is still in the output buffer are together the responses to the requests received,
in their order, and when the loop comes to rest no finished request is unanswered.
-/
namespace MuduoServer

open StdString HttpServer HttpContent Transition Resumable

namespace HttpServer

variable (srv : HttpServer) {context c' : HttpContent} {b : Buffer} {rest : Bytes}

theorem turn_more (hne : b.unread ≠ []) (hs : httpParser.step context b.unread = .more c' rest) :
    ∃ b', srv.turn context b = .wait c' b' ∧ b'.unread = rest ∧
    c'.resqStatu = context.resqStatu := by
  obtain ⟨b', ret, hcall, hlow, hover, hrest⟩ := call_more hs
  have hstatus := call_resqStatu hcall hlow
  have hnot : ¬400 ≤ c'.resqStatu := by omega
  have hread : b.currentEnableReadSpaceSize ≠ 0 :=
    fun hzero => hne ((Loop.unread_eq_nil b).mpr hzero)
  refine ⟨b', ?_, hrest, hstatus⟩
  simp only [turn, if_neg hread, hcall, if_neg hnot, if_pos hover]

/-- A finished request is answered, unless answering it throws. -/
theorem turn_done {o : HttpRequest} (hst : context.resqStatu = 200) (hne : b.unread ≠ [])
    (hs : httpParser.step context b.unread = .done o rest) :
    (∃ context' buffer events f, srv.turn context b = .fault context' buffer events f) ∨
      ∃ res payload b', srv.answer o 200 = .ok (res, payload) ∧ b'.unread = rest ∧
        srv.turn context b = .reply ⟨o, res, payload, false, res.isCose⟩ HttpContent.fresh b' := by
  obtain ⟨c', b', ret, hcall, hlow, hover, ho, hrest, -⟩ := call_done hs
  have hstatus : c'.resqStatu = 200 := (call_resqStatu hcall hlow).trans hst
  have hnot : ¬400 ≤ c'.resqStatu := by omega
  have hread : b.currentEnableReadSpaceSize ≠ 0 :=
    fun hzero => hne ((Loop.unread_eq_nil b).mpr hzero)
  cases ha : srv.answer o 200 with
  | error f =>
    refine .inl ⟨c', b', [.route o, .error], f, ?_⟩
    simp only [turn, if_neg hread, hcall, hover, ne_eq, not_true_eq_false, if_false,
      ho, hstatus, ha]
    rfl
  | ok r =>
    refine .inr ⟨r.1, r.2, b', rfl, hrest, ?_⟩
    simp only [turn, if_neg hread, hcall, hover, ne_eq, not_true_eq_false, if_false,
      ho, hstatus, ha]
    rfl

/-- The responses to the requests, one behind the other. -/
def responses (os : List HttpRequest) : Bytes :=
  os.flatMap fun o =>
    match srv.answer o 200 with
    | .error _ => []
    | .ok r => r.2

theorem responses_concat {o : HttpRequest} {r : HttpResponse × Bytes} (h : srv.answer o 200 = .ok r)
    (os : List HttpRequest) : srv.responses (os ++ [o]) = srv.responses os ++ r.2 := by
  simp [responses, h]

end HttpServer

namespace HttpLoop

/-- What went over the wire for a connection. -/
structure Wire where
  received : Bytes
  sent : Bytes
  deriving DecidableEq

def Wire.event (w : Wire) (v : Loop.View) : Loop.Event → Wire
  | .received bytes => { w with received := w.received ++ bytes }
  | .written r => { w with sent := w.sent ++ v.output.take r.ret.toNat }
  | _ => w

def Wire.note (c : Nat) (w : Wire) (s : HttpLoop) : Act → Wire
  | .loop a => w.event (s.loop.view c) (s.loop.event c a)
  | .onMessage | .ret => w

def wire (srv : HttpServer) (c : Nat) : List Act → Wire :=
  recorded (step srv) (Wire.note c) ⟨[], []⟩ start

/-- The requests of connection `c` that have been routed. -/
def answered (c : Nat) (s : HttpLoop) : List HttpRequest := s.log.filterMap (Entry.routed c)

/-- A connection without a message callback. -/
def lacksMessage (c : Nat) : Loop.Act → Bool
  | .newConnection d _ callbacks => d = c && (callbacks .message).isNone
  | _ => false

def isSend : Loop.Event → Bool
  | .send _ => true
  | _ => false

/-- Connection `c` is left to the server: it has a message callback, it is established
before anything of it is parsed, nothing else sends on it, and `OnMessage` runs only until
it is released. -/
def LeftToServer (c : Nat) (s : HttpLoop) : Act → Prop
  | .loop a =>
    lacksMessage c a = false ∧ (s.loop.event c a = .established → .parse c ∉ s.log) ∧
      isSend (s.loop.event c a) = false
  | .onMessage => s.running.head? = some (.onMessage c) → (s.loop.view c).status ≠ .disconnected
  | .ret => True

instance (c : Nat) (s : HttpLoop) : (a : Act) → Decidable (LeftToServer c s a)
  | .loop _ => inferInstanceAs (Decidable (_ ∧ (_ → _) ∧ _))
  | .onMessage => inferInstanceAs (Decidable (_ → _))
  | .ret => inferInstanceAs (Decidable True)

/-- What holds of connection `c` on its way through a stream. -/
structure Serves (srv : HttpServer) (c : Nat) (s : HttpLoop) (w : Wire) : Prop where
  trail : Trail httpParser w.received (answered c s) (s.contexts c) (s.loop.view c).input
  status : (s.contexts c).resqStatu = 200
  sends : w.sent ++ (s.loop.view c).output = srv.responses (answered c s)
  answers : ∀ o ∈ answered c s, ∃ r, srv.answer o 200 = .ok r
  kept : .close c ∉ s.log
  unparsed : .parse c ∉ s.log → s.contexts c = HttpContent.fresh
  message : ∀ conn, s.loop.conns c = some conn → conn.callbacks .message ≠ none
  /-- Bytes that finish a request are seen by an `OnMessage` that has been called. -/
  pending : .onMessage c ∈ s.running ∨ Resting httpParser (s.contexts c) (s.loop.view c).input

variable {srv : HttpServer} {s s' : HttpLoop} {c d : Nat} {conn : Connection}
    {running : List Running} {w : Wire}

/-! ## What a step does beside the bytes -/

/-- The loop has gone on: a frame of user code more or none, and a new context where the connect
callback was called. -/
theorem goOn_cases {K : Invocation → Prop} {loop : Loop} (h : Loop.Opens K s.loop loop) :
    ((s.goOn loop).running = s.running ∧ loop.depth = s.loop.depth ∨
      ∃ r, (s.goOn loop).running = r :: s.running ∧ loop.depth = s.loop.depth + 1) ∧
    ((s.goOn loop).contexts = s.contexts ∨
      ∃ i, K i ∧ i.kind = .connect ∧
      (s.goOn loop).contexts = Function.update s.contexts i.conn HttpContent.fresh) := by
  cases h with
  | nothing h =>
    have hdrop : loop.invoked.drop s.loop.invoked.length = [] := by rw [h.1, List.drop_length]
    have hsame : ¬s.loop.stack.count .user < loop.stack.count .user := by
      have hd := h.2
      simp only [Loop.depth] at hd
      omega
    simp only [goOn, hdrop, if_neg hsame]
    exact ⟨.inl ⟨trivial, h.2⟩, .inl trivial⟩
  | code hinvoked hdepth =>
    have hdrop : loop.invoked.drop s.loop.invoked.length = [] := by rw [hinvoked, List.drop_length]
    have hmore : s.loop.stack.count .user < loop.stack.count .user := by
      simp only [Loop.depth] at hdepth
      omega
    simp only [goOn, hdrop, if_pos hmore]
    exact ⟨.inr ⟨_, rfl, hdepth⟩, .inl trivial⟩
  | callback i hi hinvoked hdepth =>
    have hdrop : loop.invoked.drop s.loop.invoked.length = [i] := by rw [hinvoked, List.drop_left]
    simp only [goOn, hdrop]
    refine ⟨.inr ⟨_, rfl, hdepth⟩, ?_⟩
    by_cases hkind : i.kind = .connect
    · rw [if_pos hkind]
      exact .inr ⟨i, hi, hkind, rfl⟩
    · rw [if_neg hkind]
      exact .inl rfl

/-- Running functions and frames of user code correspond. -/
def Framed (s : HttpLoop) : Prop := s.running.length = s.loop.depth

theorem framed_goOn {K : Invocation → Prop} {loop : Loop} (h : Framed s)
    (hopens : Loop.Opens K s.loop loop) :
    Framed (s.goOn loop) := by
  unfold Framed at h ⊢
  rw [loop_goOn]
  obtain ⟨⟨hr, hd⟩ | ⟨r, hr, hd⟩, -⟩ := goOn_cases hopens
  · rw [hr, hd, h]
  · rw [hr, hd, List.length_cons, h]

theorem depth_ret {t t' : Loop} (h : t.step .ret = some t') : t.depth = t'.depth + 1 := by
  obtain ⟨stack, hs, rfl⟩ := Loop.step_ret h
  simp [Loop.depth, hs]

/-- A call of `Send` opens no user code. -/
theorem depth_send {t t' : Loop} {b : Buffer} (h : t.step (.call (.sendInLoop d b)) = some t') :
    t'.invoked = t.invoked ∧ t'.depth = t.depth := by
  obtain ⟨-, -, hrun⟩ := Loop.step_call h
  obtain ⟨conn, -, hrun⟩ := Option.bind_eq_some_iff.mp hrun
  exact Loop.silent_sendInLoop hrun

/-- A reply is sent, and the connection perhaps shut down. -/
theorem takeTurn_reply {r : Reply} {context : HttpContent} {buffer : Buffer}
    (h : s.takeTurn d conn running (.reply r context buffer) = some s') :
    ∃ payload loop, payload.unread = r.payload ∧
      (s.store d conn context buffer).loop.step (.call (.sendInLoop d payload)) = some loop ∧
      (r.shutdown = false ∧ s' = { s.store d conn context buffer with loop := loop, log := s.log ++ r.entries d } ∨
        r.shutdown = true ∧ ∃ loop', loop.step (.call (.shutDownInLoop d)) = some loop' ∧
          s' = HttpLoop.goOn { s.store d conn context buffer with
            loop := loop, log := s.log ++ r.entries d, running := .other :: running } loop') := by
  obtain ⟨payload, hpayload, h⟩ := Option.bind_eq_some_iff.mp h
  obtain ⟨loop, hloop, h⟩ := Option.bind_eq_some_iff.mp h
  obtain ⟨payload', hwrite, happend⟩ := Buffer.empty.writeAndAdd_eq r.payload
  cases hpayload.symm.trans hwrite
  refine ⟨payload, loop, happend, hloop, ?_⟩
  dsimp only at h
  cases hshut : r.shutdown with
  | false =>
    rw [hshut, if_neg Bool.false_ne_true] at h
    cases h
    exact .inl ⟨rfl, rfl⟩
  | true =>
    rw [hshut, if_pos rfl] at h
    obtain ⟨loop', hloop', h⟩ := Option.bind_eq_some_iff.mp h
    cases h
    exact .inr ⟨rfl, loop', hloop', rfl⟩

theorem framed_takeTurn {t : Turn} (h : Framed s) (hr : s.running = .onMessage d :: running)
    (hstep : s.takeTurn d conn running t = some s') : Framed s' := by
  unfold Framed at h
  rw [hr, List.length_cons] at h
  have hstored : ∀ context buffer, (s.store d conn context buffer).loop.depth = s.loop.depth :=
    fun _ _ => rfl
  cases t with
  | idle =>
    obtain ⟨loop, hloop, hstep⟩ := Option.bind_eq_some_iff.mp hstep
    cases hstep
    have hd := depth_ret hloop
    show running.length = loop.depth
    omega
  | wait context buffer =>
    obtain ⟨loop, hloop, hstep⟩ := Option.bind_eq_some_iff.mp hstep
    cases hstep
    have hd := (hstored context buffer).symm.trans (depth_ret hloop)
    show running.length = loop.depth
    omega
  | reply r context buffer =>
    obtain ⟨payload, loop, -, hloop, ⟨-, rfl⟩ | ⟨-, loop', hloop', rfl⟩⟩ := takeTurn_reply hstep
    · have hd := (depth_send hloop).2.trans (hstored context buffer)
      show s.running.length = loop.depth
      rw [hr, List.length_cons]
      omega
    · have hd := (depth_send hloop).2.trans (hstored context buffer)
      have hopens := Loop.opens_step (a := .call (.shutDownInLoop d)) nofun hloop'
      apply framed_goOn _ hopens
      show (Running.other :: running).length = loop.depth
      rw [List.length_cons]
      omega
  | fault context buffer events f => cases hstep

theorem framed_step {a : Act} (h : Framed s) (hstep : step srv s a = some s') : Framed s' := by
  obtain ⟨b, loop, rfl, hb, hloop, rfl⟩ | ⟨running, loop, rfl, hr, hloop, rfl⟩ |
      ⟨d, running, conn, rfl, hr, -, hturn⟩ :=
    step_cases hstep
  · have hret : b ≠ .ret := by
      rintro rfl
      cases hb
    exact framed_goOn h (Loop.opens_step hret hloop)
  · unfold Framed at h
    rw [hr, List.length_cons, depth_ret hloop] at h
    exact Nat.succ.inj h
  · exact framed_takeTurn h hr hturn

theorem framed_exec {acts : List Act} (h : exec (step srv) start acts = some s) : Framed s := by
  have hstart : Framed start := rfl
  exact exec_preserves Framed (fun _ _ _ => framed_step) hstart h

/-! ## Steps of the loop -/

/-- The event changes the input. -/
def readsInput : Loop.Event → Bool
  | .received _ | .consumed _ => true
  | _ => false

theorem readsInput_task (c : Nat) (task : Task) : readsInput (Loop.taskEvent c task) = false := by
  cases task <;> simp only [Loop.taskEvent] <;> first | rfl | (split <;> rfl)

theorem readsInput_frame (c : Nat) (f : Frame) : readsInput (Loop.frameEvent c f) = false := by
  cases f <;> simp only [Loop.frameEvent] <;> first | rfl | (split <;> rfl)

/-- Bytes arrive by `recv`, and user code takes them. -/
theorem event_input {t : Loop} {a : Loop.Act} (h : readsInput (t.event c a) = true) :
    (∃ r bytes, a = .recv r bytes ∧ t.event c a = .received bytes) ∨ ∃ len, a = .consume c len := by
  cases a with
  | recv r bytes =>
    simp only [Loop.event] at h ⊢
    split at h
    · split at h
      · cases h
      · rename_i hs hpos
        rw [if_pos hs, if_neg hpos]
        exact .inl ⟨r, bytes, rfl, rfl⟩
    · cases h
  | consume d len =>
    simp only [Loop.event] at h
    split at h
    · rename_i hd
      exact .inr ⟨len, by rw [hd]⟩
    · cases h
  | handle =>
    simp only [Loop.event] at h
    split at h
    · split at h <;> cases h
    · cases h
  | runTask =>
    simp only [Loop.event] at h
    cases hx : t.executes .runTask with
    | none => simp [hx, readsInput] at h
    | some task => simp [hx, readsInput_task] at h
  | call task => simp [Loop.event, Loop.executes, readsInput_task] at h
  | next =>
    simp only [Loop.event] at h
    cases hs : t.stack.head? with
    | none => simp [hs, readsInput] at h
    | some f => simp [hs, readsInput_frame] at h
  | send r => simp only [Loop.event] at h; split at h <;> cases h
  | release d => simp only [Loop.event] at h; split at h <;> cases h
  | post task => simp only [Loop.event] at h; split at h <;> cases h
  | _ => cases h

/-- What is sent leaves the output buffer. -/
theorem sent_event {v : Loop.View} {e : Loop.Event} {bytes : Bytes} (h : w.sent ++ v.output = bytes)
    (he : isSend e = false) : (w.event v e).sent ++ (v.step e).output = bytes := by
  have hcons : Loop.Conserved v ⟨bytes, w.sent, none⟩ := h
  have hnext := Loop.conserved_step hcons e
  cases e with
  | send payload => cases he
  | _ => exact hnext

/-- An event that reads nothing. -/
theorem input_quiet {v : Loop.View} {e : Loop.Event} (he : readsInput e = false) :
    (v.step e).input = v.input ∧ (w.event v e).received = w.received := by
  constructor
  · apply input_step
    · rintro bytes rfl
      cases he
    · rintro len rfl
      cases he
  · cases e with
    | received bytes => cases he
    | _ => rfl

/-- The connection keeps a message callback. -/
theorem message_step {loop : Loop} {a : Loop.Act}
    (h : ∀ conn, s.loop.conns c = some conn → conn.callbacks .message ≠ none)
    (hby : byUser a = false) (hlacks : lacksMessage c a = false)
    (hloop : s.loop.step a = some loop) :
    ∀ conn, loop.conns c = some conn → conn.callbacks .message ≠ none := by
  intro conn hc
  obtain ⟨d, x, y, z, rfl⟩ | ⟨d, fd, callbacks, rfl, hnone, -, hothers⟩ | hcalls :=
    Loop.step_calls hloop
  · cases hby
  · by_cases hd : d = c
    · subst hd
      obtain ⟨-, -, rfl⟩ := Loop.step_newConnection hloop
      have hnew : callbacks .message ≠ none :=
        Option.isSome_iff_ne_none.mp (by simpa [lacksMessage] using hlacks)
      simp only [Loop.set, Function.update_self, Option.some.injEq] at hc
      rw [← hc]
      exact hnew
    · rw [hothers c (Ne.symm hd)] at hc
      exact h conn hc
  · have hsame := hcalls.callbacks c
    rw [hc, Option.map_some] at hsame
    obtain ⟨old, hold, hcb⟩ := Option.map_eq_some_iff.mp hsame.symm
    rw [← hcb]
    exact h old hold

@[simp] theorem answered_goOn (s : HttpLoop) (loop : Loop) :
    answered c (s.goOn loop) = answered c s := by
  rw [answered, log_goOn]
  rfl

/-- The context changes only when the connection is established. -/
theorem contexts_loop {loop : Loop} {a : Loop.Act}
    (hfresh : .parse c ∉ s.log → s.contexts c = HttpContent.fresh) (hest : s.loop.event c a =
      .established → .parse c ∉ s.log) (hret : a ≠ .ret) (hloop : s.loop.step a = some loop) :
    (s.goOn loop).contexts c = s.contexts c := by
  obtain ⟨-, he | ⟨i, hi, hkind, he⟩⟩ := goOn_cases (Loop.opens_step hret hloop)
  · rw [he]
  · rw [he]
    by_cases hc : i.conn = c
    · have hestablished := hi hkind
      rw [hc] at hestablished
      rw [hc, Function.update_self, hfresh (hest hestablished)]
    · rw [Function.update_of_ne (Ne.symm hc)]

/-- What runs stays on the stack of functions. -/
theorem running_goOn {K : Invocation → Prop} {loop : Loop}
    (hopens : Loop.Opens K s.loop loop) {r : Running} (h : r ∈ s.running) :
    r ∈ (s.goOn loop).running := by
  obtain ⟨⟨hr, -⟩ | ⟨r', hr, -⟩, -⟩ := goOn_cases hopens
  · rw [hr]
    exact h
  · rw [hr]
    exact List.mem_cons_of_mem r' h

/-- Bytes that arrive are seen by an `OnMessage`. -/
theorem running_received {loop : Loop} {r : SysResult} {bytes : Bytes}
    (hmessage : ∀ conn, s.loop.conns c = some conn → conn.callbacks .message ≠ none)
    (hloop : s.loop.step (.recv r bytes) = some loop)
    (he : s.loop.event c (.recv r bytes) = .received bytes) (hne : (loop.view c).input ≠ []) :
    .onMessage c ∈ (s.goOn loop).running := by
  have hconn : ∃ conn, s.loop.conns c = some conn := by
    obtain ⟨d, stack, conn, hs, hc, -, -⟩ := Loop.step_recv hloop
    by_cases hd : d = c
    · exact ⟨conn, hd ▸ hc⟩
    · simp [Loop.event, hs, hd] at he
  obtain ⟨conn, hc⟩ := hconn
  obtain ⟨f, hf⟩ := Option.ne_none_iff_exists'.mp (hmessage conn hc)
  have hinvoked := Loop.invoked_received hloop he hc hf hne
  have hdrop : loop.invoked.drop s.loop.invoked.length = [⟨c, .message, f⟩] := by
    rw [hinvoked, List.drop_left]
  simp only [goOn, hdrop, if_true]
  exact List.mem_cons_self

/-- A step of the loop itself. -/
theorem Serves.loop (h : Serves srv c s w) {loop : Loop} {a : Loop.Act}
    (ha : LeftToServer c s (.loop a)) (hby : byUser a = false) (hloop : s.loop.step a = some loop) :
    Serves srv c (s.goOn loop) (w.note c s (.loop a)) := by
  obtain ⟨hlacks, hest, hsend⟩ := ha
  have hret : a ≠ .ret := by
    rintro rfl
    cases hby
  have hcontext := contexts_loop h.unparsed hest hret hloop
  have hview := Loop.view_step hloop c
  have hreads : (∃ r bytes, a = .recv r bytes ∧ s.loop.event c a = .received bytes) ∨
      readsInput (s.loop.event c a) = false := by
    cases hin : readsInput (s.loop.event c a) with
    | false => exact .inr rfl
    | true =>
      obtain hrecv | ⟨len, rfl⟩ := event_input hin
      · exact .inl hrecv
      · cases hby
  constructor
  · rw [answered_goOn, hcontext, loop_goOn, hview]
    obtain ⟨r, bytes, -, he⟩ | hquiet := hreads
    · rw [Wire.note, he]
      exact h.trail.arrive bytes
    · obtain ⟨hinput, hreceived⟩ := input_quiet (v := s.loop.view c) (w := w) hquiet
      rw [Wire.note, hinput, hreceived]
      exact h.trail
  · rw [hcontext]
    exact h.status
  · rw [answered_goOn, loop_goOn, hview]
    exact sent_event h.sends hsend
  · rw [answered_goOn]
    exact h.answers
  · rw [log_goOn]
    exact h.kept
  · rw [log_goOn, hcontext]
    exact h.unparsed
  · rw [loop_goOn]
    exact message_step h.message hby hlacks hloop
  · rw [hcontext, loop_goOn]
    obtain ⟨r, bytes, rfl, he⟩ | hquiet := hreads
    · by_cases hne : (loop.view c).input = []
      · exact .inr (.inl hne)
      · exact .inl (running_received h.message hloop he hne)
    · rw [hview, (input_quiet (w := w) hquiet).1]
      exact h.pending.imp_left (running_goOn (Loop.opens_step hret hloop))

/-- Another function returns. -/
theorem Serves.ret (h : Serves srv c s w) {loop : Loop} (hr : s.running = .other :: running)
    (hloop : s.loop.step .ret = some loop) :
    Serves srv c { s with loop := loop, running := running } w := by
  have hview : loop.view c = s.loop.view c := Loop.view_step hloop c
  have hconns : loop.conns = s.loop.conns := by
    obtain ⟨stack, -, rfl⟩ := Loop.step_ret hloop
    rfl
  constructor
  · exact hview ▸ h.trail
  · exact h.status
  · exact hview ▸ h.sends
  · exact h.answers
  · exact h.kept
  · exact h.unparsed
  · exact hconns ▸ h.message
  · rw [hview]
    apply h.pending.imp_left
    intro hin
    rw [hr] at hin
    exact (List.mem_cons.mp hin).resolve_left nofun

/-! ## Turns of `OnMessage` -/

theorem view_store (hc : s.loop.conns d = some conn) (context : HttpContent) (buffer : Buffer) :
    ((s.store d conn context buffer).loop.view d) = { s.loop.view d with input := buffer.unread } ∧
      ∀ c, c ≠ d → (s.store d conn context buffer).loop.view c = s.loop.view c := by
  constructor
  · obtain ⟨hstatus, hwaiting, -, houtput⟩ := Loop.view_conn hc
    simp only [store, Loop.view_set]
    rw [hstatus, hwaiting, houtput]
  · intro c hne
    exact Loop.view_work (Loop.work_set hc { conn with inbuffer := buffer } rfl rfl) (Ne.symm hne)

/-- A functor of one connection is none of another's. -/
theorem call_other {t t' : Loop} {task : Task} (hconn : task.conn = some d) (hne : d ≠ c)
    (h : t.step (.call task) = some t') : t'.view c = t.view c ∧ t'.conns c = t.conns c := by
  obtain ⟨-, hrelease, hrun⟩ := Loop.step_call h
  obtain ⟨rfl, -⟩ | ⟨e, k, rfl, -, -⟩ | ⟨e, he, -, hwork⟩ := Loop.runTask_cases hrun
  · cases hconn
  · cases hrelease
  · cases hconn.symm.trans he
    exact ⟨Loop.view_work hwork hne, hwork.others c (Ne.symm hne)⟩

/-- A turn of another connection. -/
theorem takeTurn_other {t : Turn} (hne : d ≠ c) (hc : s.loop.conns d = some conn)
    (hr : s.running = .onMessage d :: running) (hstep : s.takeTurn d conn running t = some s') :
    s'.loop.view c = s.loop.view c ∧ s'.loop.conns c = s.loop.conns c ∧
    s'.contexts c = s.contexts c ∧
      (.onMessage c ∈ s.running → .onMessage c ∈ s'.running) := by
  have hin : .onMessage c ∈ s.running → .onMessage c ∈ running := by
    intro hin
    rw [hr] at hin
    apply (List.mem_cons.mp hin).resolve_left
    intro he
    exact hne (Running.onMessage.inj he).symm
  have hview : ∀ context buffer, (s.store d conn context buffer).loop.view c = s.loop.view c :=
    fun context buffer => (view_store hc context buffer).2 c (Ne.symm hne)
  have hconns : ∀ context buffer, (s.store d conn context buffer).loop.conns c = s.loop.conns c :=
    fun context buffer => Function.update_of_ne (Ne.symm hne) _ _
  have hcontexts : ∀ context buffer, (s.store d conn context buffer).contexts c = s.contexts c :=
    fun context buffer => Function.update_of_ne (Ne.symm hne) _ _
  have hret : ∀ {t t' : Loop}, t.step .ret = some t' → t'.view c = t.view c ∧
      t'.conns c = t.conns c := by
    intro t t' h
    refine ⟨Loop.view_step h c, ?_⟩
    obtain ⟨stack, -, rfl⟩ := Loop.step_ret h
    rfl
  cases t with
  | idle =>
    obtain ⟨loop, hloop, hstep⟩ := Option.bind_eq_some_iff.mp hstep
    cases hstep
    exact ⟨(hret hloop).1, (hret hloop).2, rfl, hin⟩
  | wait context buffer =>
    obtain ⟨loop, hloop, hstep⟩ := Option.bind_eq_some_iff.mp hstep
    cases hstep
    exact ⟨(hret hloop).1.trans (hview context buffer),
      (hret hloop).2.trans (hconns context buffer),
      hcontexts context buffer, hin⟩
  | reply r context buffer =>
    obtain ⟨payload, loop, -, hloop, ⟨-, rfl⟩ | ⟨-, loop', hloop', rfl⟩⟩ := takeTurn_reply hstep
    · obtain ⟨hv, hk⟩ := call_other (c := c) rfl hne hloop
      exact ⟨hv.trans (hview context buffer), hk.trans (hconns context buffer),
        hcontexts context buffer, fun h => h⟩
    · obtain ⟨hv, hk⟩ := call_other (c := c) rfl hne hloop
      obtain ⟨hv', hk'⟩ := call_other (c := c) rfl hne hloop'
      have hopens := Loop.opens_step (a := .call (.shutDownInLoop d)) nofun hloop'
      refine ⟨?_, ?_, ?_, ?_⟩
      · rw [loop_goOn, hv', hv, hview]
      · rw [loop_goOn, hk', hk, hconns]
      · obtain ⟨-, he | ⟨i, hi, hkind, he⟩⟩ := goOn_cases (s := { s.store d conn context buffer with
            loop := loop, log := s.log ++ r.entries d, running := .other :: running }) hopens
        · rw [he]
          exact hcontexts context buffer
        · have hno := hi hkind
          simp only [Loop.event, Loop.executes, Option.elim_some, Loop.taskEvent] at hno
          split at hno <;> cases hno
      · intro hmem
        exact running_goOn (s := { s.store d conn context buffer with
            loop := loop, log := s.log ++ r.entries d, running := .other :: running }) hopens
          (List.mem_cons_of_mem _ (hin hmem))
  | fault context buffer events f => cases hstep

theorem filterMap_entries (hne : d ≠ c) (t : Turn) :
    (t.entries d).filterMap (Entry.routed c) = [] := by
  rw [List.filterMap_eq_nil_iff]
  intro e he
  cases hrouted : e.routed c with
  | none => rfl
  | some req =>
    rw [Entry.eq_route hrouted] at he
    exact absurd (conn_entries he).symm hne

theorem Serves.other {t : Turn} (h : Serves srv c s w) (hne : d ≠ c)
    (hc : s.loop.conns d = some conn) (hr : s.running = .onMessage d :: running)
    (hstep : s.takeTurn d conn running t = some s') : Serves srv c s' w := by
  obtain ⟨hview, hconns, hcontext, hin⟩ := takeTurn_other hne hc hr hstep
  have hlog := (takeTurn_spec hc hstep).2
  have hanswered : answered c s' = answered c s := by
    rw [answered, hlog, List.filterMap_append, filterMap_entries hne t, List.append_nil]
    rfl
  have hold : ∀ e : Entry, e.conn = c → e ∈ s'.log → e ∈ s.log := by
    intro e he hmem
    rw [hlog] at hmem
    apply (List.mem_append.mp hmem).resolve_right
    intro hnew
    exact hne ((conn_entries hnew).symm.trans he)
  constructor
  · rw [hanswered, hcontext, hview]
    exact h.trail
  · rw [hcontext]
    exact h.status
  · rw [hanswered, hview]
    exact h.sends
  · rw [hanswered]
    exact h.answers
  · exact fun hclose => h.kept (hold _ rfl hclose)
  · intro hno
    rw [hcontext]
    apply h.unparsed
    intro hparse
    apply hno
    rw [hlog]
    exact List.mem_append_left _ hparse
  · rw [hconns]
    exact h.message
  · rw [hcontext, hview]
    exact h.pending.imp_left hin

/-- The buffer is empty, and `OnMessage` returns. -/
theorem Serves.idle (h : Serves srv c s w) (hc : s.loop.conns c = some conn)
    (hempty : conn.inbuffer.unread = []) (hstep : s.takeTurn c conn running .idle = some s') :
    Serves srv c s' w := by
  obtain ⟨loop, hloop, hstep⟩ := Option.bind_eq_some_iff.mp hstep
  cases hstep
  have hview : loop.view c = s.loop.view c := Loop.view_step hloop c
  have hconns : loop.conns = s.loop.conns := by
    obtain ⟨stack, -, rfl⟩ := Loop.step_ret hloop
    rfl
  refine ⟨hview ▸ h.trail, h.status, hview ▸ h.sends, h.answers, h.kept, h.unparsed,
    hconns ▸ h.message, ?_⟩
  right
  left
  rw [hview, view_inbuffer hc, hempty]

/-- The bytes finish no request, and `OnMessage` returns. -/
theorem Serves.wait (h : Serves srv c s w) (hc : s.loop.conns c = some conn) {context : HttpContent}
    {buffer : Buffer} (hu : conn.inbuffer.unread ≠ [])
    (hs : httpParser.step (s.contexts c) conn.inbuffer.unread = .more context buffer.unread)
    (hstatus : context.resqStatu = (s.contexts c).resqStatu)
    (hstep : s.takeTurn c conn running (.wait context buffer) = some s') : Serves srv c s' w := by
  have hlog : s'.log = s.log ++ [.parse c] := (takeTurn_spec hc hstep).2
  obtain ⟨loop, hloop, hstep⟩ := Option.bind_eq_some_iff.mp hstep
  have hs' := Option.some.inj hstep
  have hinput := view_inbuffer hc
  have hview : s'.loop.view c = { s.loop.view c with input := buffer.unread } := by
    rw [← hs']
    exact (Loop.view_step hloop c).trans (view_store hc context buffer).1
  have hconns : s'.loop.conns c = some { conn with inbuffer := buffer } := by
    rw [← hs']
    obtain ⟨stack, -, rfl⟩ := Loop.step_ret hloop
    exact Loop.conns_set s.loop c _
  have hcontext : s'.contexts c = context := by
    rw [← hs']
    exact Function.update_self c context s.contexts
  have hanswered : answered c s' = answered c s := by
    rw [answered, hlog, List.filterMap_append]
    exact List.append_nil _
  have htrail : Trail httpParser w.received (answered c s) context buffer.unread :=
    h.trail.more httpParser_lawful (by rwa [hinput]) (by rwa [hinput])
  have hcall : Drains httpParser (s.contexts c) conn.inbuffer.unread []
      (some (context, buffer.unread)) := .more hu hs
  constructor
  · rw [hanswered, hcontext, hview]
    exact htrail
  · rw [hcontext, hstatus, h.status]
  · rw [hanswered, hview]
    exact h.sends
  · rw [hanswered]
    exact h.answers
  · simp [hlog, h.kept]
  · intro hno
    simp [hlog] at hno
  · intro conn' hc'
    cases hconns.symm.trans hc'
    exact h.message conn hc
  · right
    rw [hcontext, hview]
    exact hcall.resting httpParser_lawful

/-- A request is finished and its response sent. -/
theorem Serves.reply (h : Serves srv c s w) (hc : s.loop.conns c = some conn) {o : HttpRequest}
    {res : HttpResponse} {payload : Bytes} {buffer : Buffer}
    (hr : s.running = .onMessage c :: running) (hu : conn.inbuffer.unread ≠ [])
    (hs : httpParser.step (s.contexts c) conn.inbuffer.unread = .done o buffer.unread)
    (ha : srv.answer o 200 = .ok (res, payload)) (hkeep : res.isCose = false)
    (hup : (s.loop.view c).status ≠ .disconnected)
    (hstep : s.takeTurn c conn running
      (.reply ⟨o, res, payload, false, res.isCose⟩ HttpContent.fresh buffer) = some s') :
    Serves srv c s' w := by
  have hlog : s'.log = s.log ++ [.parse c, .route c o, .answer c ⟨o, res, payload, false, res.isCose⟩] := by
    rw [(takeTurn_spec hc hstep).2, Turn.entries, Reply.entries]
    simp [hkeep]
  obtain ⟨b, loop, hb, hloop, ⟨-, hs'⟩ | ⟨hshut, -⟩⟩ := takeTurn_reply hstep
  · have hinput := view_inbuffer hc
    have hview : s'.loop.view c =
        { s.loop.view c with
          input := buffer.unread
          output := (s.loop.view c).output ++ payload
          waiting := true } := by
      rw [hs']
      show loop.view c = _
      rw [Loop.view_step hloop c, (view_store hc HttpContent.fresh buffer).1]
      simp only [Loop.event, Loop.executes, Option.elim_some, Loop.taskEvent, if_true, hb,
        Loop.View.step, if_neg hup]
    have hcallbacks : ∀ conn', s'.loop.conns c = some conn' → conn'.callbacks = conn.callbacks := by
      intro conn' hc'
      have hcalls : Loop.Calls none (s.store c conn HttpContent.fresh buffer).loop s'.loop := by
        rw [hs']
        exact Loop.calls_runTask (Loop.step_call hloop).2.2
      have hsame := hcalls.callbacks c
      rw [hc', store, Loop.conns_set, Option.map_some, Option.map_some] at hsame
      exact Option.some.inj hsame
    have hanswered : answered c s' = answered c s ++ [o] := by
      rw [answered, hlog, List.filterMap_append]
      simp [answered, List.filterMap_cons, Entry.routed]
    have hcontext : s'.contexts c = HttpContent.fresh := by
      rw [hs']
      exact Function.update_self c HttpContent.fresh s.contexts
    have hrunning : s'.running = s.running := by
      rw [hs']
      rfl
    have htrail : Trail httpParser w.received
        (answered c s ++ [o]) HttpContent.fresh buffer.unread :=
      h.trail.done httpParser_lawful (by rwa [hinput]) (by rwa [hinput])
    constructor
    · rw [hanswered, hcontext, hview]
      exact htrail
    · rw [hcontext]
      rfl
    · rw [hanswered, srv.responses_concat ha, ← h.sends, hview, List.append_assoc]
    · rw [hanswered]
      intro o' hin
      obtain hin | hin := List.mem_append.mp hin
      · exact h.answers o' hin
      · rw [List.mem_singleton.mp hin]
        exact ⟨_, ha⟩
    · simp [hlog, h.kept]
    · intro _
      exact hcontext
    · intro conn' hc'
      rw [hcallbacks conn' hc']
      exact h.message conn hc
    · left
      rw [hrunning, hr]
      exact List.mem_cons_self
  · cases hkeep.symm.trans hshut

/-- The turn of the connection itself, on the way through a keep-alive stream that ends well. -/
theorem Serves.turn (h : Serves srv c s w) (hh : srv.KeepsConnection)
    (hc : s.loop.conns c = some conn) (hr : s.running = .onMessage c :: running)
    (hup : (s.loop.view c).status ≠ .disconnected) {rest : Bytes} {all : List HttpRequest}
    {e : HttpContent × Bytes} (hall : Drains httpParser HttpContent.fresh (w.received ++ rest) all
      (some e)) (hkeep : ∀ o ∈ all, o.isCose = false)
    (hstep : s.takeTurn c conn running (srv.turn (s.contexts c) conn.inbuffer) =
      some s') : Serves srv c s' w := by
  obtain ⟨tail, rfl, hd⟩ := h.trail.within hall (drains_total _ _)
  rw [view_inbuffer hc] at hd
  by_cases hu : conn.inbuffer.unread = []
  · have hturn : srv.turn (s.contexts c) conn.inbuffer = .idle := by
      rw [HttpServer.turn, if_pos ((Loop.unread_eq_nil _).mp hu)]
    exact h.idle hc hu (hturn ▸ hstep)
  · cases hs : httpParser.step (s.contexts c) conn.inbuffer.unread with
    | failed => exact absurd hs (Drains.not_failed httpParser_lawful hd hu)
    | more context left =>
      obtain ⟨buffer, hturn, rfl, hstatus⟩ := srv.turn_more hu hs
      exact h.wait hc hu hs hstatus (hturn ▸ hstep)
    | done o left =>
      obtain ⟨os, rfl⟩ := hd.first httpParser_lawful hs (List.append_ne_nil_of_left_ne_nil hu rest)
      have ho : o.isCose = false := hkeep o (List.mem_append_right _ List.mem_cons_self)
      obtain ⟨_, _, _, _, hturn⟩ | ⟨res, payload, buffer, ha, rfl, hturn⟩ :=
        srv.turn_done h.status hu hs
      · rw [hturn] at hstep
        cases hstep
      · have hres : res.isCose = false := srv.answer_keeps hh ha ho
        exact h.reply hc hr hu hs ha hres hup (hturn ▸ hstep)

/-! ## Runs -/

theorem received_note (c : Nat) (w : Wire) (s : HttpLoop) (a : Act) :
    w.received <+: (w.note c s a).received := by
  cases a with
  | loop a =>
    simp only [Wire.note]
    cases s.loop.event c a with
    | received bytes => exact List.prefix_append _ _
    | _ => exact List.prefix_rfl
  | onMessage => exact List.prefix_rfl
  | ret => exact List.prefix_rfl

theorem serves_start (srv : HttpServer) (c : Nat) : Serves srv c start ⟨[], []⟩ where
  trail := trail_start httpParser
  status := rfl
  sends := rfl
  answers _ ho := absurd ho List.not_mem_nil
  kept h := absurd h List.not_mem_nil
  unparsed _ := rfl
  message := nofun
  pending := .inr (.inl rfl)

theorem serves_step (hh : srv.KeepsConnection) {a : Act} {rest : Bytes} {all : List HttpRequest}
    {e : HttpContent × Bytes} (hall : Drains httpParser HttpContent.fresh (w.received ++ rest) all
      (some e)) (hkeep : ∀ o ∈ all, o.isCose = false)
    (h : Serves srv c s w) (ha : LeftToServer c s a) (hstep : step srv s a = some s') :
    Serves srv c s' (w.note c s a) := by
  obtain ⟨b, loop, rfl, hby, hloop, rfl⟩ | ⟨running, loop, rfl, hr, hloop, rfl⟩ |
      ⟨d, running, conn, rfl, hr, hc, hturn⟩ :=
    step_cases hstep
  · exact h.loop ha hby hloop
  · exact h.ret hr hloop
  · by_cases hd : d = c
    · subst hd
      have hup := ha (by rw [hr]; rfl)
      exact h.turn hh hc hr hup hall hkeep hturn
    · exact h.other hd hc hr hturn

theorem serves_exec (hh : srv.KeepsConnection) {stream : Bytes} {all : List HttpRequest}
    {e : HttpContent × Bytes} (hall : Drains httpParser HttpContent.fresh stream all (some e))
    (hkeep : ∀ o ∈ all, o.isCose = false) {acts : List Act}
    (hacts : Along (step srv) (LeftToServer c) start acts) (h : exec (step srv) start acts = some s)
    (hreceived : (wire srv c acts).received <+: stream) : Serves srv c s (wire srv c acts) := by
  refine recorded_invariant (fun s w => w.received <+: stream → Serves srv c s w) ?_
    (fun _ => serves_start srv c) hacts h
    hreceived
  intro s w a s' hI ha hstep hpre
  have hold := (received_note c w s a).trans hpre
  obtain ⟨rest, hrest⟩ := hold
  exact serves_step hh (hrest ▸ hall) hkeep (hI (hrest ▸ List.prefix_append _ _)) ha hstep

/-- While keep-alive requests arrive that all parse, the connection is served: its requests are
answered in order, what has been sent and what is still to be sent are the responses, it is not
closed, and a loop at rest has answered every request that is complete. -/
theorem stream_served (srv : HttpServer) (hh : srv.KeepsConnection) (c : Nat) {stream : Bytes}
    {all : List HttpRequest} {e : HttpContent × Bytes}
    (hall : Drains httpParser HttpContent.fresh stream all (some e))
    (hkeep : ∀ o ∈ all, o.isCose = false) (acts : List Act) (s : HttpLoop)
    (hacts : Along (step srv) (LeftToServer c) start acts) (h : exec (step srv) start acts = some s)
    (hreceived : (wire srv c acts).received <+: stream) :
    answered c s <+: all ∧
      (wire srv c acts).sent ++ (s.loop.view c).output = srv.responses (answered c s) ∧
      .close c ∉ s.log ∧
      (s.loop.stack = [] → ∃ e', Drains httpParser HttpContent.fresh (wire srv c acts).received
        (answered c s) e') := by
  have hserves := serves_exec hh hall hkeep hacts h hreceived
  obtain ⟨rest, rfl⟩ := hreceived
  obtain ⟨tail, rfl, -⟩ := hserves.trail.within hall (drains_total _ _)
  refine ⟨List.prefix_append _ _, hserves.sends, hserves.kept,
    fun hidle => ⟨_, hserves.trail.rest ?_⟩⟩
  have hrunning : s.running = [] := by
    have hframed := framed_exec h
    unfold Framed at hframed
    rw [Loop.depth_idle hidle] at hframed
    exact List.eq_nil_of_length_eq_zero hframed
  apply hserves.pending.resolve_left
  rw [hrunning]
  exact List.not_mem_nil

end HttpLoop

theorem ClientRequest.received_isCose (r : ClientRequest) : r.received.isCose = false := by
  have hconn := (r.carries_received.headers _ _).mpr r.keepAlive
  have hmem : ascii "Connection" ∈ r.received.headers := by
    rw [← AList.lookup_isSome, hconn]
    rfl
  simp [HttpRequest.isCose, HttpRequest.hasHeader, HttpRequest.getHeader, hmem, hconn]

namespace HttpLoop

/-- A client writes keep-alive requests, and some first part of them has arrived on connection `c`,
cut into segments in whatever way and with whatever else the loop does in between. The requests
answered are the first ones, what has been sent and what is still in the output buffer are together
the responses to them, and a loop at rest has answered every request that has arrived. -/
theorem clients_served (srv : HttpServer) (hh : srv.KeepsConnection) (c : Nat)
    (rs : List ClientRequest) (acts : List Act) (s : HttpLoop)
    (hacts : Along (step srv) (LeftToServer c) start acts) (h : exec (step srv) start acts = some s)
    (hreceived : (wire srv c acts).received <+: rs.flatMap ClientRequest.serialise) :
    ∃ n ≤ rs.length, answered c s = (rs.take n).map ClientRequest.received ∧
      (wire srv c acts).sent ++ (s.loop.view c).output =
      srv.responses ((rs.take n).map ClientRequest.received) ∧
      .close c ∉ s.log ∧
      (s.loop.stack = [] → ∀ m ≤ rs.length,
        (rs.take m).flatMap ClientRequest.serialise <+: (wire srv c acts).received → m ≤ n) := by
  have hkeep : ∀ o ∈ rs.map ClientRequest.received, o.isCose = false := by
    intro o ho
    obtain ⟨r, -, rfl⟩ := List.mem_map.mp ho
    exact r.received_isCose
  obtain ⟨hpre, hbytes, hkept, hrest⟩ :=
    stream_served srv hh c (drains_serialise rs) hkeep acts s hacts h hreceived
  have hanswered : answered c s = (rs.take (answered c s).length).map ClientRequest.received := by
    rw [List.map_take]
    exact List.prefix_iff_eq_take.mp hpre
  have hlength : (answered c s).length ≤ rs.length := by
    have hle := hpre.length_le
    rwa [List.length_map] at hle
  refine ⟨(answered c s).length, hlength, hanswered, hanswered ▸ hbytes, hkept,
    fun hidle m hm harrived => ?_⟩
  obtain ⟨later, hlater⟩ := harrived
  obtain ⟨e, hdrain⟩ := hrest hidle
  obtain ⟨os, e', hd⟩ := drains_total HttpContent.fresh later
  have hall := (drains_serialise (rs.take m)).append httpParser_lawful hd
  rw [hlater] at hall
  have hsame := congrArg List.length (hdrain.det hall).1
  rw [List.length_append, List.length_map, List.length_take] at hsame
  omega

/-- A request and the beginning of another one arrive. -/
def helloAndMore : List Act :=
  receive (helloRequest.serialise ++ helloRequest.serialise.take 20) ++
    [.onMessage, .onMessage, .loop .next]

theorem clients_served_hello :
    ∃ s, exec (step bareFiles) start helloAndMore = some s ∧
      ∃ n ≤ 2, answered 1 s = ([helloRequest, helloRequest].take n).map ClientRequest.received ∧
      1 ≤ n := by
  have hrun : ((exec (step bareFiles) start helloAndMore).map fun s => s.loop.stack) = some [] := by
    decide +kernel
  obtain ⟨s, hs, hidle⟩ := Option.map_eq_some_iff.mp hrun
  have hreceived : (wire bareFiles 1 helloAndMore).received = helloRequest.serialise ++
      helloRequest.serialise.take 20 := by
    decide +kernel
  obtain ⟨n, hn, hanswered, -, -, hrest⟩ :=
    clients_served bareFiles (by simp [KeepsConnection, bareFiles, ofFiles]) 1
    [helloRequest, helloRequest] helloAndMore s (by decide +kernel) hs (by
      rw [hreceived]
      simp only [List.flatMap_cons, List.flatMap_nil, List.append_nil]
      exact List.prefix_append_right_inj _ |>.mpr (List.take_prefix _ _))
  refine ⟨s, hs, n, hn, hanswered, hrest hidle 1 (by decide) ?_⟩
  rw [hreceived]
  simp

end HttpLoop
end MuduoServer
