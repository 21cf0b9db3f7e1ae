import MuduoServer.HttpContentRuns
import MuduoServer.HttpService
import MuduoServer.NeverAborts
import MuduoServer.StaticFiles

/-!
# The HTTP server is user code of the loop

A turn of `OnMessage` takes the parser's bytes from the input buffer, passes a response to `Send`,
perhaps calls `Shutdown`, and returns. So a run of the server is a run of the loop in which user
code does this and keeps the contract that user code has there. What holds of every run of the loop
holds of the server. It can stop in a turn only, and there for two reasons: an exception is thrown,
or `FileHandler` asks an empty path for its last byte.
-/
namespace MuduoServer

open StdString Transition

/-! ## What a turn reads -/

namespace Buffer

/-- `b'` is `b` with some of the oldest bytes read. -/
def Pops (b b' : Buffer) : Prop := ∃ len, b.moveReadPosition len = some b'

/-- How many bytes have been read. -/
def popped (b b' : Buffer) : Nat := b'.readIndex - b.readIndex

variable {b b' b'' : Buffer} {len : Nat}

theorem moveReadPosition_some (h : b.moveReadPosition len = some b') :
    len ≤ b.currentEnableReadSpaceSize ∧ b'.storage = b.storage ∧ b'.writeIndex = b.writeIndex ∧
      b'.readIndex = b.readIndex + len := by
  unfold moveReadPosition at h
  split at h
  · rename_i hlen
    cases h
    exact ⟨hlen, rfl, rfl, rfl⟩
  · cases h

theorem pops_refl (b : Buffer) : b.Pops b := ⟨0, dif_pos (Nat.zero_le _)⟩

theorem Pops.trans (h : b.Pops b') (h' : b'.Pops b'') : b.Pops b'' := by
  obtain ⟨len, hlen⟩ := h
  obtain ⟨len', hlen'⟩ := h'
  obtain ⟨hle, hstorage, hwrite, hread⟩ := moveReadPosition_some hlen
  obtain ⟨hle', hstorage', hwrite', hread'⟩ := moveReadPosition_some hlen'
  have hroom : len + len' ≤ b.currentEnableReadSpaceSize := by
    simp only [currentEnableReadSpaceSize] at hle hle' ⊢
    omega
  refine ⟨len + len', ?_⟩
  obtain ⟨storage'', readIndex'', writeIndex'', hread_le, hwrite_le⟩ := b''
  obtain rfl : storage'' = b.storage := hstorage'.trans hstorage
  obtain rfl : writeIndex'' = b.writeIndex := hwrite'.trans hwrite
  obtain rfl : readIndex'' = b.readIndex + (len + len') := by
    rw [show readIndex'' = b'.readIndex + len' from hread', hread, Nat.add_assoc]
  exact dif_pos hroom

theorem Pops.eq (h : b.Pops b') : b.moveReadPosition (b.popped b') = some b' := by
  obtain ⟨len, hlen⟩ := h
  have hread := (moveReadPosition_some hlen).2.2.2
  have hpopped : b.popped b' = len := by
    unfold popped
    omega
  rw [hpopped]
  exact hlen

theorem getLineAndAdd_pops {line : Bytes} (h : b.getLineAndAdd = some (line, b')) : b.Pops b' := by
  obtain ⟨ret, -, h⟩ := Option.bind_eq_some_iff.mp h
  obtain ⟨moved, hmove, h⟩ := Option.bind_eq_some_iff.mp h
  cases h
  exact ⟨_, hmove⟩

end Buffer

namespace HttpContent

variable (c : HttpContent) (b : Buffer)

theorem recvHttpLine_pops : b.Pops (c.recvHttpLine b).buffer := by
  unfold recvHttpLine
  split
  · exact b.pops_refl
  · cases hline : b.getLineAndAdd with
    | none => exact b.pops_refl
    | some taken =>
      obtain ⟨line, b'⟩ := taken
      have hpops := Buffer.getLineAndAdd_pops hline
      dsimp only
      split
      · split <;> exact hpops
      · split
        · exact hpops
        · cases c.parseHttpLine line with
          | mk c' ret => cases ret <;> exact hpops

theorem recvHttpHeadLoop_pops (fuel : Nat) : b.Pops (recvHttpHeadLoop fuel c b).buffer := by
  induction fuel generalizing c b with
  | zero => exact b.pops_refl
  | succ fuel ih =>
    unfold recvHttpHeadLoop
    cases hline : b.getLineAndAdd with
    | none => exact b.pops_refl
    | some taken =>
      obtain ⟨line, b'⟩ := taken
      have hpops := Buffer.getLineAndAdd_pops hline
      dsimp only
      split
      · split <;> exact hpops
      · split
        · exact hpops
        · split
          · exact hpops
          · split
            · exact hpops.trans (ih _ b')
            · exact hpops

theorem recvHttpHead_pops : b.Pops (c.recvHttpHead b).buffer := by
  unfold recvHttpHead
  split
  · exact b.pops_refl
  · exact c.recvHttpHeadLoop_pops b _

theorem takeBody_pops (len : Nat) (recvStatu : HttpRecvStatu) :
    b.Pops (c.takeBody b len recvStatu).buffer := by
  unfold takeBody
  cases hmove : b.moveReadPosition len with
  | none => exact b.pops_refl
  | some b' => exact ⟨len, hmove⟩

theorem recvHttpBody_pops : b.Pops (c.recvHttpBody b).buffer := by
  unfold recvHttpBody
  split
  · exact b.pops_refl
  · cases c.request.bodySize with
    | error f => exact b.pops_refl
    | ok contentlength =>
      dsimp only
      split
      · exact b.pops_refl
      · split <;> exact c.takeBody_pops b _ _

theorem fallThrough_pops {r : Call} {stage : HttpContent → Buffer → Call} (h : b.Pops r.buffer)
    (hstage : ∀ c (b : Buffer), b.Pops (stage c b).buffer) :
    b.Pops (r.fallThrough stage).buffer := by
  unfold Call.fallThrough
  split
  · exact h.trans (hstage _ _)
  · exact h

theorem recvHttpRequest_pops : b.Pops (c.recvHttpRequest b).buffer := by
  unfold recvHttpRequest
  cases c.recvStatu with
  | recvHttpLine =>
    apply fallThrough_pops b _ recvHttpBody_pops
    exact fallThrough_pops b (c.recvHttpLine_pops b) recvHttpHead_pops
  | recvHttpHead => exact fallThrough_pops b (c.recvHttpHead_pops b) recvHttpBody_pops
  | recvHttpBody => exact c.recvHttpBody_pops b
  | recvHttpErr => exact b.pops_refl
  | recvHttpOver => exact b.pops_refl

end HttpContent

namespace HttpServer

/-- A turn only reads from the buffer. -/
theorem turn_pops (srv : HttpServer) (context : HttpContent) (b : Buffer) :
    b.Pops ((srv.turn context b).rest b) := by
  unfold turn
  split
  · exact b.pops_refl
  · have hpops := context.recvHttpRequest_pops b
    generalize context.recvHttpRequest b = call at hpops
    obtain ⟨context', b', ret⟩ := call
    cases ret with
    | error f => exact hpops
    | ok ret =>
      dsimp only at hpops ⊢
      split
      · cases srv.eerrHander (HttpResponse.ofStatus context'.resqStatu) with
        | error f => exact hpops
        | ok res =>
          cases hmove : b'.moveReadPosition b'.currentEnableReadSpaceSize with
          | none => exact hpops
          | some b'' =>
            have hrest : b'.Pops b'' := ⟨_, hmove⟩
            exact hpops.trans hrest
      · split
        · exact hpops
        · cases srv.answer context'.request context'.resqStatu with
          | error f => exact hpops
          | ok r => exact hpops

/-- What `Send` is passed. -/
def Reply.sent (r : Reply) : Buffer := (Buffer.empty.writeAndAdd r.payload).getD Buffer.empty

/-- What a turn does on the loop. -/
def Turn.acts (c : Nat) (buffer : Buffer) : Turn → List Loop.Act
  | .idle => [.ret]
  | .wait _ buffer' => [.consume c (buffer.popped buffer'), .ret]
  | .reply r _ buffer' =>
    .consume c (buffer.popped buffer') :: .call (.sendInLoop c r.sent) ::
      if r.shutdown then [.call (.shutDownInLoop c)] else []
  | .fault _ _ _ _ => []

/-- The turn does not come to its end. -/
def Turn.Stops : Turn → Prop
  | .fault _ _ _ _ => True
  | .idle | .wait _ _ | .reply _ _ _ => False

instance : DecidablePred Turn.Stops
  | .fault _ _ _ _ => isTrue trivial
  | .idle | .wait _ _ | .reply _ _ _ => isFalse id

/-- An exception is thrown. -/
def Turn.Throws : Turn → Prop
  | .fault _ _ _ f => f.thrown = true
  | .idle | .wait _ _ | .reply _ _ _ => False

/-- `FileHandler` asks for the last byte of an empty path, which `IsFileHandler` has let through. -/
def Turn.ReadsEmptyPath (srv : HttpServer) : Turn → Prop
  | .fault context _ _ f => f = .emptyBack ∧ ¬srv.HasPath context.request
  | .idle | .wait _ _ | .reply _ _ _ => False

/-- A turn that stops throws or reads past an empty path. None of its assertions fails. -/
theorem turn_stops {srv : HttpServer} {context : HttpContent} {b : Buffer}
    (h : (srv.turn context b).Stops) :
    (srv.turn context b).Throws ∨ (srv.turn context b).ReadsEmptyPath srv := by
  unfold turn at h ⊢
  by_cases hempty : b.currentEnableReadSpaceSize = 0
  · rw [if_pos hempty] at h
    cases h
  · rw [if_neg hempty] at h ⊢
    cases hcall : context.recvHttpRequest b with
    | mk context' b' ret =>
      rw [hcall] at h
      cases ret with
      | error f =>
        have hread := HttpContent.recvHttpRequest_read context b
        rw [hcall] at hread
        exact .inl (HttpContent.readRequest_fault (congrArg Read.fault hread).symm)
      | ok ret =>
        dsimp only at h ⊢
        by_cases herr : 400 ≤ context'.resqStatu
        · rw [if_pos herr] at h ⊢
          cases hpage : srv.eerrHander (HttpResponse.ofStatus context'.resqStatu) with
          | error f =>
            obtain rfl := srv.eerrHander_error hpage
            exact .inl rfl
          | ok res =>
            rw [hpage] at h
            obtain ⟨b'', hmove⟩ : ∃ b'',
                b'.moveReadPosition b'.currentEnableReadSpaceSize = some b'' :=
              ⟨_, dif_pos (Nat.le_refl _)⟩
            simp only [hmove] at h
            cases h
        · rw [if_neg herr] at h ⊢
          by_cases hover : context'.recvStatu ≠ .recvHttpOver
          · rw [if_pos hover] at h
            cases h
          · rw [if_neg hover] at h ⊢
            cases hanswer : srv.answer context'.request context'.resqStatu with
            | error f => exact .inr (srv.answer_error hanswer)
            | ok r =>
              rw [hanswer] at h
              cases h

end HttpServer

namespace Loop

variable {s s' : Loop}

/-- A task that runs is about a connection that is there. -/
theorem live_runTask {task : Task} (h : s.runTask task = some s') : ∀ c ∈ task.conn, s.Live c := by
  have hbind : ∀ {c : Nat} {k : Connection → Option Loop}, (s.conns c).bind k = some s' →
      s.Live c := by
    intro c k hk
    obtain ⟨conn, hc, -⟩ := Option.bind_eq_some_iff.mp hk
    exact Option.isSome_iff_exists.mpr ⟨conn, hc⟩
  intro c hc
  cases task with
  | user => cases hc
  | _ =>
    cases hc
    exact hbind h

/-- User code that can go on keeps the contract, but for the delays that it sets. -/
theorem regular_user {a : Act} (ha : HttpLoop.byUser a = true)
    (hdelay : ∀ task, a = .call task → task.delay = none) (h : step s a = some s') :
    s.Regular a := by
  cases a with
  | call task =>
    obtain ⟨hin, hreleases, hrun⟩ := step_call h
    refine ⟨hin, hreleases, live_runTask hrun, ?_⟩
    rw [hdelay task rfl]
    intro sec hsec
    cases hsec
  | release c =>
    obtain ⟨hin, hc, -⟩ := step_release h
    exact ⟨hin, hc⟩
  | changeProtocal c connectCb closeCb msgCb =>
    obtain ⟨hin, conn, hc, -⟩ := step_changeProtocal h
    exact ⟨hin, Option.isSome_iff_exists.mpr ⟨conn, hc⟩⟩
  | consume c len =>
    obtain ⟨hin, conn, inbuffer, hc, hmove, -⟩ := step_consume h
    refine ⟨hin, conn, hc, ?_⟩
    rw [Buffer.length_unread]
    exact (Buffer.moveReadPosition_some hmove).1
  | ret =>
    obtain ⟨stack, hs, -⟩ := step_ret h
    exact ⟨by simp [due, inUser, hs], trivial⟩
  | _ => cases ha

/-- Connections stay. -/
theorem live_step {a : Act} {c : Nat} (h : step s a = some s') (hc : s.Live c) : s'.Live c := by
  obtain ⟨d, connectCb, closeCb, msgCb, rfl⟩ | ⟨d, fd, callbacks, -, hd, -, hothers⟩ | hcalls :=
    step_calls h
  · obtain ⟨-, conn, hconn, rfl⟩ := step_changeProtocal h
    by_cases hcd : c = d
    · simp [Live, changeProtocalInLoop, set, hcd]
    · simpa [Live, changeProtocalInLoop, set, hcd] using hc
  · have hcd : c ≠ d := by
      rintro rfl
      simp [Live, hd] at hc
    rw [Live, hothers c hcd]
    exact hc
  · have hsame := congrArg Option.isSome (hcalls.callbacks c)
    rw [Option.isSome_map, Option.isSome_map] at hsame
    rw [Live, hsame]
    exact hc

theorem stack_sendInLoop {c : Nat} {conn : Connection} {b : Buffer}
    (h : s.sendInLoop c conn b = some s') :
    s'.stack = s.stack := by
  unfold sendInLoop at h
  split at h
  · cases h
    rfl
  · obtain ⟨outbuffer, -, h⟩ := Option.bind_eq_some_iff.mp h
    dsimp only at h
    split at h
    · cases h
      rfl
    · cases h
      rfl

/-- User code reads from an input buffer. -/
theorem step_pops {c : Nat} {conn : Connection} {buffer : Buffer} (huser : s.inUser = true)
    (hc : s.conns c = some conn) (h : conn.inbuffer.Pops buffer) :
    step s (.consume c (conn.inbuffer.popped buffer)) =
    some (s.set c { conn with inbuffer := buffer }) := by
  simp only [step]
  rw [if_pos huser, hc]
  simp [h.eq]

end Loop

/-- The frame is one of `OnMessage`. -/
def Running.isOnMessage : Running → Bool
  | .onMessage _ => true
  | .other => false

namespace HttpLoop

open HttpServer

variable {srv : HttpServer} {s s' : HttpLoop} {c : Nat} {conn : Connection} {running : List Running}

/-- The turn that is taken next, if `OnMessage` runs in the innermost frame. -/
def nextTurn (srv : HttpServer) (s : HttpLoop) : Option (Nat × Connection × Turn) :=
  match s.running with
  | .onMessage c :: _ =>
    (s.loop.conns c).map fun conn => (c, conn, srv.turn (s.contexts c) conn.inbuffer)
  | _ => none

theorem nextTurn_eq (hr : s.running = .onMessage c :: running) (hc : s.loop.conns c = some conn) :
    nextTurn srv s = some (c, conn, srv.turn (s.contexts c) conn.inbuffer) := by
  simp only [nextTurn, hr, hc, Option.map_some]

/-- What a step of the server is on the loop. -/
def acts (srv : HttpServer) (s : HttpLoop) : Act → List Loop.Act
  | .loop a => [a]
  | .ret => [.ret]
  | .onMessage => (nextTurn srv s).elim [] fun t => t.2.2.acts t.1 t.2.1.inbuffer

/-- What a run of the server is on the loop. -/
def loopActs (srv : HttpServer) : List Act → List Loop.Act :=
  recorded (step srv) (fun done s a => done ++ acts srv s a) [] start

/-- What comes next on the loop's thread, by user code or by the rest of the loop, which keeps
its contract. -/
def Due (s : HttpLoop) : Act → Prop
  | .loop a => byUser a = false ∧ s.loop.Regular a
  | .onMessage => s.loop.inUser = true ∧ s.running.head?.any Running.isOnMessage = true
  | .ret => s.loop.inUser = true ∧ s.running.head? = some .other

instance (s : HttpLoop) : DecidablePred s.Due
  | .loop _ | .onMessage | .ret => inferInstanceAs (Decidable (_ ∧ _))

theorem sent_eq (r : Reply) : Buffer.empty.writeAndAdd r.payload = some r.sent := by
  obtain ⟨payload, hwrite, -⟩ := Buffer.empty.writeAndAdd_eq r.payload
  rw [Reply.sent, hwrite]
  rfl

theorem acts_byUser {t : Turn} {buffer : Buffer} {a : Loop.Act} (ha : a ∈ t.acts c buffer) :
    byUser a = true ∧ ∀ task, a = .call task → task.delay = none := by
  cases t with
  | idle => simp_all [Turn.acts, byUser]
  | wait context buffer' =>
    simp only [Turn.acts, List.mem_cons, List.not_mem_nil, or_false] at ha
    obtain rfl | rfl := ha
    · exact ⟨rfl, nofun⟩
    · exact ⟨rfl, nofun⟩
  | reply r context buffer' =>
    simp only [Turn.acts, List.mem_cons] at ha
    obtain rfl | rfl | ha := ha
    · exact ⟨rfl, nofun⟩
    · refine ⟨rfl, fun task htask => ?_⟩
      cases htask
      rfl
    · split at ha
      · obtain rfl := List.mem_singleton.mp ha
        refine ⟨rfl, fun task htask => ?_⟩
        cases htask
        rfl
      · cases ha
  | fault context buffer' events f => cases ha

/-- A turn is taken in a frame of user code. -/
theorem inUser_takeTurn {t : Turn} (h : s.takeTurn c conn running t = some s') :
    s.loop.inUser = true := by
  have hret : ∀ {t t' : Loop}, t.step .ret = some t' → t.stack = s.loop.stack →
      s.loop.inUser = true := by
    intro t t' ht hstack
    obtain ⟨stack, hs, -⟩ := Loop.step_ret ht
    simp [Loop.inUser, ← hstack, hs]
  cases t with
  | idle =>
    obtain ⟨loop, hloop, -⟩ := Option.bind_eq_some_iff.mp h
    exact hret hloop rfl
  | wait context buffer =>
    obtain ⟨loop, hloop, -⟩ := Option.bind_eq_some_iff.mp h
    exact hret hloop rfl
  | reply r context buffer =>
    obtain ⟨payload, loop, -, hloop, -⟩ := takeTurn_reply h
    exact (Loop.step_call hloop).1
  | fault context buffer events f => cases h

/-- A turn is a run of the loop. -/
theorem loop_takeTurn {t : Turn} (running : List Running) (huser : s.loop.inUser = true)
    (hc : s.loop.conns c = some conn) (hpops : conn.inbuffer.Pops (t.rest conn.inbuffer))
    (ht : ¬t.Stops) :
    (s.takeTurn c conn running t).map HttpLoop.loop =
    exec Loop.step s.loop (t.acts c conn.inbuffer) := by
  cases t with
  | idle =>
    simp only [takeTurn, Turn.acts, exec_cons, exec_nil]
    cases s.loop.step .ret <;> rfl
  | wait context buffer =>
    have hread : s.loop.step (.consume c (conn.inbuffer.popped buffer)) =
        some (s.store c conn context buffer).loop :=
      Loop.step_pops huser hc hpops
    simp only [takeTurn, Turn.acts, exec_cons, exec_nil, hread, Option.bind_some]
    cases (s.store c conn context buffer).loop.step .ret <;> rfl
  | reply r context buffer =>
    have hread : s.loop.step (.consume c (conn.inbuffer.popped buffer)) =
        some (s.store c conn context buffer).loop :=
      Loop.step_pops huser hc hpops
    simp only [takeTurn, Turn.acts, exec_cons, hread, sent_eq, Option.bind_some,
      Option.bind_eq_bind]
    cases (s.store c conn context buffer).loop.step (.call (.sendInLoop c r.sent)) with
    | none => rfl
    | some loop =>
      simp only [Option.bind_some]
      split
      · rw [exec_cons]
        cases hshut : loop.step (.call (.shutDownInLoop c)) with
        | none => rfl
        | some loop' =>
          show some _ = some loop'
          rw [loop_goOn]
      · rfl
  | fault context buffer events f => exact absurd trivial ht

theorem not_stops_takeTurn {t : Turn} (h : s.takeTurn c conn running t = some s') : ¬t.Stops := by
  cases t with
  | fault context buffer events f => cases h
  | _ => exact id

/-- A step of the server is a run of the loop. -/
theorem step_acts {a : Act} (h : step srv s a = some s') :
    exec Loop.step s.loop (acts srv s a) = some s'.loop := by
  obtain ⟨b, loop, rfl, -, hloop, rfl⟩ | ⟨running, loop, rfl, -, hloop, rfl⟩ |
      ⟨d, running, conn, rfl, hr, hc, hturn⟩ :=
    step_cases h
  · rw [acts, exec_cons, hloop, loop_goOn]
    rfl
  · rw [acts, exec_cons, hloop]
    rfl
  · have huser := inUser_takeTurn hturn
    have hrun := loop_takeTurn running huser hc (srv.turn_pops _ _) (not_stops_takeTurn hturn)
    rw [hturn] at hrun
    rw [acts, nextTurn_eq hr hc]
    exact hrun.symm

/-- The user code of the server keeps the contract. -/
theorem regular_acts {a : Act} (ha : s.Due a) (h : step srv s a = some s') :
    Along Loop.step Loop.Regular s.loop (acts srv s a) := by
  have hrun := step_acts h
  cases a with
  | loop b => exact ⟨ha.2, fun _ _ => trivial⟩
  | ret =>
    exact along_of_exec (fun t b hb _ ht => Loop.regular_user
      (by simp_all [acts, byUser]) (by simp_all [acts]) ht) hrun
  | onMessage =>
    refine along_of_exec (fun t b hb _ ht => ?_) hrun
    have huser : byUser b = true ∧ ∀ task, b = .call task → task.delay = none := by
      rw [acts] at hb
      cases hn : nextTurn srv s with
      | none => simp [hn] at hb
      | some turn =>
        rw [hn] at hb
        exact acts_byUser hb
    exact Loop.regular_user huser.1 huser.2 ht

theorem loopActs_exec {acts : List Act} (h : exec (step srv) start acts = some s) :
    exec Loop.step Loop.start (loopActs srv acts) = some s.loop := by
  have hany : Along (step srv) (fun _ _ => True) start acts := along_of_mem fun _ _ _ => trivial
  exact (exec_refines (HttpLoop.acts srv) HttpLoop.loop (Q := fun _ _ => True)
    (fun _ _ _ _ hstep => ⟨step_acts hstep, along_of_mem fun _ _ _ => trivial⟩) hany h).1

theorem loopActs_regular {acts : List Act} (hdue : Along (step srv) Due start acts)
    (h : exec (step srv) start acts = some s) :
    Along Loop.step Loop.Regular Loop.start (loopActs srv acts) :=
  (exec_refines (HttpLoop.acts srv) HttpLoop.loop (fun _ _ _ ha hstep => ⟨step_acts hstep, regular_acts ha hstep⟩)
    hdue h).2

/-- A run of the server is a run of the loop, and where the rest of the loop keeps the loop's
contract the user code does. -/
theorem refines_loop (srv : HttpServer) (acts : List Act) (s : HttpLoop)
    (h : exec (step srv) start acts = some s) :
    exec Loop.step Loop.start (loopActs srv acts) = some s.loop ∧
      (Along (step srv) Due start acts →
        Along Loop.step Loop.Regular Loop.start (loopActs srv acts)) :=
  ⟨loopActs_exec h, fun hdue => loopActs_regular hdue h⟩

/-- A request that is answered and closes the connection, as a run of the loop. -/
theorem refines_loop_single : ∃ s, exec (step bareFiles) start single = some s ∧
    exec Loop.step Loop.start (loopActs bareFiles single) = some s.loop ∧
      Along Loop.step Loop.Regular Loop.start (loopActs bareFiles single) := by
  have hrun : (exec (step bareFiles) start single).isSome = true := by decide +kernel
  have hdue : Along (step bareFiles) Due start single := by decide +kernel
  obtain ⟨s, hs⟩ := Option.isSome_iff_exists.mp hrun
  obtain ⟨hloop, hregular⟩ := refines_loop bareFiles single s hs
  generalize loopActs bareFiles single = acts at hloop hregular ⊢
  exact ⟨s, hs, hloop, hregular hdue⟩

/-! ## Progress -/

/-- A turn that comes to its end has its run on the loop. -/
theorem exec_turn {t : Loop} (h : Loop.Sound t.Live t) (huser : t.inUser = true)
    (hc : t.conns c = some conn) {turn : Turn}
    (hpops : conn.inbuffer.Pops (turn.rest conn.inbuffer)) (hstops : ¬turn.Stops) :
    ∃ loop, exec Loop.step t (turn.acts c conn.inbuffer) = some loop := by
  have hret : ∀ {t : Loop}, Loop.Sound t.Live t → t.inUser = true →
      ∃ loop, exec Loop.step t [.ret] = some loop := by
    intro t h huser
    obtain ⟨loop, hloop, -⟩ := h.step (a := .ret) ⟨huser, trivial⟩
    exact ⟨loop, by rw [exec_cons, hloop]; rfl⟩
  cases turn with
  | idle => exact hret h huser
  | wait context buffer =>
    obtain ⟨loop, hloop⟩ := hret (h.set c { conn with inbuffer := buffer }).here huser
    have hread : t.step (.consume c (conn.inbuffer.popped buffer)) =
        some (t.set c { conn with inbuffer := buffer }) :=
      Loop.step_pops huser hc hpops
    refine ⟨loop, ?_⟩
    rw [Turn.acts, exec_cons, hread]
    exact hloop
  | reply r context buffer =>
    have hread : t.step (.consume c (conn.inbuffer.popped buffer)) =
        some (t.set c { conn with inbuffer := buffer }) :=
      Loop.step_pops huser hc hpops
    have hstored := (h.set c { conn with inbuffer := buffer }).here
    have hlive : (t.set c { conn with inbuffer := buffer }).Live c := by simp [Loop.Live]
    obtain ⟨loop, hloop, hsound⟩ := hstored.step (a := .call (.sendInLoop c r.sent))
      ⟨huser, rfl, fun d hd => Option.some.inj hd ▸ hlive, nofun⟩
    obtain ⟨conn', -, hrun⟩ := Option.bind_eq_some_iff.mp (Loop.step_call hloop).2.2
    have huser' : loop.inUser = true := by
      rw [Loop.inUser, Loop.stack_sendInLoop hrun]
      exact huser
    rw [Turn.acts, exec_cons, hread, Option.bind_some, exec_cons, hloop, Option.bind_some]
    split
    · obtain ⟨loop', hloop', -⟩ := hsound.step (a := .call (.shutDownInLoop c))
        ⟨huser', rfl, fun d hd => Option.some.inj hd ▸ Loop.live_step hloop hlive, nofun⟩
      exact ⟨loop', by rw [exec_cons, hloop']; rfl⟩
    · exact ⟨loop, rfl⟩
  | fault context buffer events f => exact absurd trivial hstops

/-- `OnMessage` runs for connections that are there. -/
def Manned (s : HttpLoop) : Prop := ∀ c, .onMessage c ∈ s.running → s.loop.Live c

/-- An `OnMessage` that has begun was called for a connection that is there. -/
theorem mem_running_goOn {b : Loop.Act} {loop : Loop} (hb : ∀ c x y z, b ≠ .changeProtocal c x y z)
    (h : s.loop.step b = some loop) (hin : .onMessage c ∈ (s.goOn loop).running) :
    .onMessage c ∈ s.running ∨ s.loop.Live c := by
  have hcalled : ∀ i ∈ loop.invoked.drop s.loop.invoked.length, s.loop.Live i.conn := by
    intro i hi
    obtain ⟨d, x, y, z, rfl⟩ | ⟨d, fd, callbacks, -, -, hsame, -⟩ | hcalls := Loop.step_calls h
    · exact absurd rfl (hb d x y z)
    · rw [hsame, List.drop_length] at hi
      cases hi
    · obtain ⟨new, hnew, hinstalled⟩ := hcalls.invoked
      rw [hnew, List.drop_left] at hi
      obtain ⟨conn, hconn, -⟩ := (hinstalled i hi).1
      exact Option.isSome_iff_exists.mpr ⟨conn, hconn⟩
  unfold goOn at hin
  split at hin
  · dsimp only at hin
    split at hin
    · exact .inl ((List.mem_cons.mp hin).resolve_left (by simp))
    · exact .inl hin
  · rename_i i rest hdrop
    obtain hhead | hrest := List.mem_cons.mp hin
    · right
      split at hhead
      · cases hhead
        exact hcalled i (hdrop ▸ List.mem_cons_self)
      · cases hhead
    · exact .inl hrest

theorem manned_step {a : Act} (h : s.Manned) (hstep : step srv s a = some s') : s'.Manned := by
  have hlive : ∀ {c}, s.loop.Live c → s'.loop.Live c := fun {c} hc =>
    exec_preserves (fun t => t.Live c) (fun _ _ _ ht hs => Loop.live_step hs ht) hc
      (step_acts hstep)
  intro c hin
  obtain ⟨b, loop, rfl, hb, hloop, rfl⟩ | ⟨running, loop, rfl, hr, hloop, rfl⟩ |
      ⟨d, running, conn, rfl, hr, hc, hturn⟩ :=
    step_cases hstep
  · have hprotocol : ∀ c x y z, b ≠ .changeProtocal c x y z := by
      rintro c x y z rfl
      cases hb
    obtain hold | hnew := mem_running_goOn hprotocol hloop hin
    · exact hlive (h c hold)
    · exact hlive hnew
  · exact hlive (h c (hr ▸ List.mem_cons_of_mem _ hin))
  · have hrunning : ∀ {c}, .onMessage c ∈ running → s'.loop.Live c := fun {c} hin =>
      hlive (h c (hr ▸ List.mem_cons_of_mem _ hin))
    generalize srv.turn (s.contexts d) conn.inbuffer = t at hturn
    cases t with
    | idle =>
      obtain ⟨loop, hloop, hturn⟩ := Option.bind_eq_some_iff.mp hturn
      cases hturn
      exact hrunning hin
    | wait context buffer =>
      obtain ⟨loop, hloop, hturn⟩ := Option.bind_eq_some_iff.mp hturn
      cases hturn
      exact hrunning hin
    | reply r context buffer =>
      obtain ⟨payload, loop, -, hloop, ⟨-, rfl⟩ | ⟨-, loop', hloop', rfl⟩⟩ := takeTurn_reply hturn
      · exact hlive (h c hin)
      · obtain hold | hnew := mem_running_goOn (by simp) hloop' hin
        · exact hrunning ((List.mem_cons.mp hold).resolve_left (by simp))
        · rw [loop_goOn]
          exact Loop.live_step hloop' hnew
    | fault context buffer events f => cases hturn

theorem manned_exec {acts : List Act} (h : exec (step srv) start acts = some s) : s.Manned :=
  exec_preserves Manned (fun _ _ _ => manned_step) (fun _ hin => absurd hin List.not_mem_nil) h

/-- The turn taken next throws. -/
def Throws (srv : HttpServer) (s : HttpLoop) : Prop := ∃ turn ∈ nextTurn srv s, turn.2.2.Throws

/-- The turn taken next reads the last byte of an empty path. -/
def ReadsEmptyPath (srv : HttpServer) (s : HttpLoop) : Prop :=
  ∃ turn ∈ nextTurn srv s, turn.2.2.ReadsEmptyPath srv

/-- A step that is due is taken, or is a turn that stops. -/
theorem due_goes_on {a : Act} (hsound : Loop.Sound s.loop.Live s.loop) (hmanned : s.Manned)
    (ha : s.Due a) :
    (∃ s', step srv s a = some s') ∨ a = .onMessage ∧ (Throws srv s ∨ ReadsEmptyPath srv s) := by
  cases a with
  | loop b =>
    obtain ⟨hb, hreg⟩ := ha
    obtain ⟨loop, hloop, -⟩ := hsound.step hreg
    exact .inl ⟨s.goOn loop, by simp [step, hb, hloop]⟩
  | ret =>
    obtain ⟨huser, hr⟩ := ha
    obtain ⟨running, hr⟩ := List.head?_eq_some_iff.mp hr
    obtain ⟨loop, hloop, -⟩ := hsound.step (a := .ret) ⟨huser, trivial⟩
    exact .inl ⟨{ s with loop := loop, running := running },
      by simp only [step, hr, hloop, Option.map_some]⟩
  | onMessage =>
    obtain ⟨huser, hr⟩ := ha
    obtain ⟨f, hf, hmessage⟩ := (Option.any_eq_true _ _).mp hr
    obtain ⟨running, hr⟩ := List.head?_eq_some_iff.mp hf
    cases f with
    | other => cases hmessage
    | onMessage c =>
      obtain ⟨conn, hc⟩ := hsound.conns c (hmanned c (hr ▸ List.mem_cons_self))
      by_cases hstops : (srv.turn (s.contexts c) conn.inbuffer).Stops
      · refine .inr ⟨rfl, ?_⟩
        obtain hthrows | hpath := turn_stops hstops
        · exact .inl ⟨_, nextTurn_eq hr hc, hthrows⟩
        · exact .inr ⟨_, nextTurn_eq hr hc, hpath⟩
      · left
        have hpops := srv.turn_pops (s.contexts c) conn.inbuffer
        obtain ⟨loop, hloop⟩ := exec_turn hsound huser hc hpops hstops
        rw [← loop_takeTurn running huser hc hpops hstops] at hloop
        obtain ⟨s', hs', -⟩ := Option.map_eq_some_iff.mp hloop
        exact ⟨s', by simp only [step, hr, hc]; exact hs'⟩

theorem sound_exec {acts : List Act} (hdue : Along (step srv) Due start acts)
    (h : exec (step srv) start acts = some s) :
    Loop.Sound s.loop.Live s.loop := by
  obtain ⟨loop, hloop, hsound⟩ := Loop.regular_goes_through (loopActs_regular hdue h)
  cases (loopActs_exec h).symm.trans hloop
  exact hsound

end HttpLoop
end MuduoServer
