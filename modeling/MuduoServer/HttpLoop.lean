import MuduoServer.ConnectionView
import MuduoServer.HttpTurn

/-!
# The HTTP server on an event loop

`Http_Server` gives every connection `OnConnected1` and `OnMessage` as callbacks. They
are the user code of the loop here: a turn of `OnMessage` comes whenever a frame of
it is on top of the stack, and everything else the loop does may come between.
-/
namespace MuduoServer

open StdString HttpServer Transition

/-- The function that runs in a frame of user code. -/
inductive Running where
  /-- `OnMessage` of a connection, in its loop. -/
  | onMessage (c : Nat)
  /-- Another function, or an `OnMessage` that only has to return. -/
  | other
  deriving DecidableEq

/-- What the server does for a connection. -/
inductive Entry where
  /-- A call of `RecvHttpRequest`. -/
  | parse (c : Nat)
  | route (c : Nat) (req : HttpRequest)
  | answer (c : Nat) (reply : Reply)
  /-- `OnMessage` calls `Shutdown`. -/
  | close (c : Nat)
  deriving DecidableEq

def Entry.conn : Entry → Nat
  | .parse c | .route c _ | .answer c _ | .close c => c

/-- The reply of an answer for `c`. -/
def Entry.reply (c : Nat) : Entry → Option Reply
  | .answer d r => if d = c then some r else none
  | .parse _ | .route _ _ | .close _ => none

/-- The request that is routed for `c`. -/
def Entry.routed (c : Nat) : Entry → Option HttpRequest
  | .route d req => if d = c then some req else none
  | .parse _ | .answer _ _ | .close _ => none

theorem Entry.eq_answer {c : Nat} {e : Entry} {r : Reply} (h : e.reply c = some r) :
    e = .answer c r := by
  cases e <;> simp_all [Entry.reply]

theorem Entry.eq_route {c : Nat} {e : Entry} {req : HttpRequest} (h : e.routed c = some req) :
    e = .route c req := by
  cases e <;> simp_all [Entry.routed]

theorem drop_of_getElem? {log : List Entry} {n : Nat} {e : Entry} (h : log[n]? = some e) :
    log.drop n = e :: log.drop (n + 1) := by
  obtain ⟨hn, rfl⟩ := List.getElem?_eq_some_iff.mp h
  exact List.drop_eq_getElem_cons hn

theorem drop_of_reply {log : List Entry} {n c : Nat} {r : Reply}
    (h : log[n]?.bind (Entry.reply c) = some r) :
    log.drop n = .answer c r :: log.drop (n + 1) := by
  obtain ⟨e, he, hr⟩ := Option.bind_eq_some_iff.mp h
  rw [drop_of_getElem? he, Entry.eq_answer hr]

def HttpServer.Reply.entries (c : Nat) (r : Reply) : List Entry :=
  .parse c :: (if r.isError then [] else [.route c r.req]) ++
    .answer c r :: if r.shutdown then [.close c] else []

def HttpServer.Turn.entries (c : Nat) : Turn → List Entry
  | .idle => []
  | .wait _ _ => [.parse c]
  | .reply r _ _ => r.entries c
  | .fault _ _ _ _ => [.parse c]

/-- The buffer a turn leaves. -/
def HttpServer.Turn.rest (buffer : Buffer) : Turn → Buffer
  | .idle => buffer
  | .wait _ buffer | .reply _ _ buffer | .fault _ buffer _ _ => buffer

/-- The context a turn leaves. -/
def HttpServer.Turn.context (context : HttpContent) : Turn → HttpContent
  | .idle => context
  | .wait context _ | .reply _ context _ | .fault context _ _ _ => context

/-- What holds of the context a turn leaves, and of its reply. -/
def HttpServer.Turn.Leaves (P : HttpContent → Prop) (Q : Reply → Prop) : Turn → Prop
  | .idle | .fault _ _ _ _ => True
  | .wait context _ => P context
  | .reply r context _ => P context ∧ Q r

/-- A turn writes only the reply it is. -/
theorem HttpServer.Turn.mem_entries {c d : Nat} {r : Reply} {t : Turn}
    (h : .answer d r ∈ t.entries c) :
    ∃ context buffer, t = .reply r context buffer := by
  cases t with
  | reply r' context buffer =>
    refine ⟨context, buffer, ?_⟩
    simp only [entries, Reply.entries, List.cons_append, List.mem_cons, List.mem_append] at h
    grind
  | _ => simp [entries] at h

structure HttpLoop where
  loop : Loop
  /-- `_Context` of each connection. -/
  contexts : Nat → HttpContent
  /-- One function for each frame of user code, innermost first. -/
  running : List Running
  log : List Entry

namespace HttpLoop

inductive Act where
  /-- A step of the loop itself. -/
  | loop (a : Loop.Act)
  /-- A turn of `OnMessage`. -/
  | onMessage
  /-- Another function returns. -/
  | ret

/-- An action of user code. -/
def byUser : Loop.Act → Bool
  | .call _ | .release _ | .changeProtocal _ _ _ _ | .consume _ _ | .ret => true
  | _ => false

def start : HttpLoop := ⟨Loop.start, fun _ => HttpContent.fresh, [], []⟩

/-- The loop has gone on to `loop`, perhaps into a callback; `OnConnected1` sets the context. -/
def goOn (s : HttpLoop) (loop : Loop) : HttpLoop :=
  match loop.invoked.drop s.loop.invoked.length with
  | [] =>
    { s with
      loop := loop
      running := if s.loop.stack.count .user < loop.stack.count .user then .other :: s.running
        else s.running }
  | i :: _ =>
    { s with
      loop := loop
      contexts := if i.kind = .connect then Function.update s.contexts i.conn HttpContent.fresh
        else s.contexts
      running := (if i.kind = .message then .onMessage i.conn else .other) :: s.running }

/-- The context and the input buffer as the parser leaves them. -/
def store (s : HttpLoop) (c : Nat) (conn : Connection) (context : HttpContent) (buffer : Buffer) :
    HttpLoop :=
  { s with
    loop := s.loop.set c { conn with inbuffer := buffer }
    contexts := Function.update s.contexts c context }

/-- A turn of `OnMessage` in the innermost frame. An exception ends the program. -/
def takeTurn (s : HttpLoop) (c : Nat) (conn : Connection) (running : List Running) :
    Turn → Option HttpLoop
  | .idle => do
    let loop ← s.loop.step .ret
    return { s with loop := loop, running := running }
  | .wait context buffer => do
    let s := s.store c conn context buffer
    let loop ← s.loop.step .ret
    return { s with loop := loop, running := running, log := s.log ++ [.parse c] }
  | .reply r context buffer => do
    let s := s.store c conn context buffer
    let payload ← Buffer.empty.writeAndAdd r.payload
    let loop ← s.loop.step (.call (.sendInLoop c payload))
    let s := { s with loop := loop, log := s.log ++ r.entries c }
    if r.shutdown then
      let loop ← s.loop.step (.call (.shutDownInLoop c))
      return { s with running := .other :: running }.goOn loop
    else return s
  | .fault _ _ _ _ => none

def step (srv : HttpServer) (s : HttpLoop) : Act → Option HttpLoop
  | .loop a => if byUser a then none else (s.loop.step a).map s.goOn
  | .ret =>
    match s.running with
    | .other :: running =>
      (s.loop.step .ret).map fun loop => { s with loop := loop, running := running }
    | _ => none
  | .onMessage =>
    match s.running with
    | .onMessage c :: running => do
      let conn ← s.loop.conns c
      s.takeTurn c conn running (srv.turn (s.contexts c) conn.inbuffer)
    | _ => none

variable {srv : HttpServer} {s s' : HttpLoop} {c d : Nat} {conn : Connection}
    {running : List Running}

@[simp] theorem loop_goOn (s : HttpLoop) (loop : Loop) : (s.goOn loop).loop = loop := by
  unfold goOn
  split <;> rfl

@[simp] theorem log_goOn (s : HttpLoop) (loop : Loop) : (s.goOn loop).log = s.log := by
  unfold goOn
  split <;> rfl

theorem contexts_goOn (s : HttpLoop) (loop : Loop) (d : Nat) :
    (s.goOn loop).contexts d = s.contexts d ∨ (s.goOn loop).contexts d = HttpContent.fresh := by
  unfold goOn
  split
  · exact .inl rfl
  · rename_i i _ _
    dsimp only
    split
    · by_cases hd : d = i.conn
      · exact .inr (by rw [hd, Function.update_self])
      · exact .inl (Function.update_of_ne hd _ _)
    · exact .inl rfl

/-- What a step can be. -/
theorem step_cases {a : Act} (h : step srv s a = some s') :
    (∃ b loop, a = .loop b ∧ byUser b = false ∧ s.loop.step b = some loop ∧ s' = s.goOn loop) ∨
    (∃ running loop, a = .ret ∧ s.running = .other :: running ∧ s.loop.step .ret = some loop ∧
      s' = { s with loop := loop, running := running }) ∨
    ∃ d running conn, a = .onMessage ∧ s.running = .onMessage d :: running ∧
      s.loop.conns d = some conn ∧
      s.takeTurn d conn running (srv.turn (s.contexts d) conn.inbuffer) = some s' := by
  cases a with
  | loop b =>
    simp only [step] at h
    split at h
    · cases h
    · rename_i hb
      obtain ⟨loop, hloop, rfl⟩ := Option.map_eq_some_iff.mp h
      exact .inl ⟨b, loop, rfl, Bool.eq_false_of_not_eq_true hb, hloop, rfl⟩
  | ret =>
    simp only [step] at h
    split at h
    · rename_i running hrunning
      obtain ⟨loop, hloop, rfl⟩ := Option.map_eq_some_iff.mp h
      exact .inr (.inl ⟨running, loop, rfl, hrunning, hloop, rfl⟩)
    · cases h
  | onMessage =>
    simp only [step] at h
    split at h
    · rename_i d running hrunning
      obtain ⟨conn, hc, h⟩ := Option.bind_eq_some_iff.mp h
      exact .inr (.inr ⟨d, running, conn, rfl, hrunning, hc, h⟩)
    · cases h

/-- Events that read nothing and take nothing keep the input. -/
theorem input_step (v : Loop.View) {e : Loop.Event} (hreceived : ∀ bytes, e ≠ .received bytes)
    (hconsumed : ∀ len, e ≠ .consumed len) : (v.step e).input = v.input := by
  cases e with
  | received bytes => exact absurd rfl (hreceived bytes)
  | consumed len => exact absurd rfl (hconsumed len)
  | send payload =>
    simp only [Loop.View.step]
    split <;> rfl
  | written r =>
    simp only [Loop.View.step]
    split
    · rfl
    · split <;> rfl
  | shutDownRest =>
    simp only [Loop.View.step]
    split <;> rfl
  | _ => rfl

theorem input_ret {t t' : Loop} (h : t.step .ret = some t') (d : Nat) :
    (t'.view d).input = (t.view d).input := by
  rw [Loop.view_step h]
  rfl

/-- A call of `Send` or `Shutdown`. -/
theorem input_call {t t' : Loop} {task : Task} (h : t.step (.call task) = some t') (d : Nat) :
    (t'.view d).input = (t.view d).input := by
  rw [Loop.view_step h]
  refine input_step _ (fun bytes he => ?_) (fun len he => ?_)
  · cases task <;> simp only [Loop.event, Loop.executes, Option.elim_some, Loop.taskEvent] at he <;>
      first | cases he | (split at he <;> cases he)
  · cases task <;> simp only [Loop.event, Loop.executes, Option.elim_some, Loop.taskEvent] at he <;>
      first | cases he | (split at he <;> cases he)

theorem input_store (hc : s.loop.conns c = some conn) (context : HttpContent)
    (buffer : Buffer) (d : Nat) :
    ((s.store c conn context buffer).loop.view d).input =
      if d = c then buffer.unread else (s.loop.view d).input := by
  by_cases hd : d = c
  · subst hd
    rw [if_pos rfl, store, Loop.view_set]
  · rw [if_neg hd]
    exact congrArg Loop.View.input
      (Loop.view_work (Loop.work_set hc { conn with inbuffer := buffer } rfl rfl) (Ne.symm hd))

theorem view_inbuffer (hc : s.loop.conns c = some conn) :
    (s.loop.view c).input = conn.inbuffer.unread :=
  (Loop.view_conn hc).2.2.1

/-- What a turn does to the inputs and to the log. -/
theorem takeTurn_spec {t : Turn} (hc : s.loop.conns c = some conn)
    (h : s.takeTurn c conn running t = some s') :
    (∀ d, (s'.loop.view d).input = if d = c then (t.rest conn.inbuffer).unread
      else (s.loop.view d).input) ∧
      s'.log = s.log ++ t.entries c := by
  cases t with
  | idle =>
    obtain ⟨loop, hloop, h⟩ := Option.bind_eq_some_iff.mp h
    cases h
    refine ⟨fun d => ?_, (List.append_nil _).symm⟩
    rw [input_ret hloop]
    split
    · rename_i hd
      rw [hd]
      exact view_inbuffer hc
    · rfl
  | wait context buffer =>
    obtain ⟨loop, hloop, h⟩ := Option.bind_eq_some_iff.mp h
    cases h
    exact ⟨fun d => (input_ret hloop d).trans (input_store hc context buffer d), rfl⟩
  | reply r context buffer =>
    obtain ⟨payload, -, h⟩ := Option.bind_eq_some_iff.mp h
    obtain ⟨loop, hloop, h⟩ := Option.bind_eq_some_iff.mp h
    have hsent := fun d => (input_call hloop d).trans (input_store hc context buffer d)
    dsimp only at h
    split at h
    · obtain ⟨loop', hloop', h⟩ := Option.bind_eq_some_iff.mp h
      cases h
      refine ⟨fun d => ?_, by rw [log_goOn]; rfl⟩
      rw [loop_goOn, input_call hloop']
      exact hsent d
    · cases h
      exact ⟨hsent, rfl⟩
  | fault context buffer events f => cases h

/-- What a turn does to the contexts. -/
theorem takeTurn_contexts {t : Turn} (h : s.takeTurn c conn running t = some s') (d : Nat) :
    s'.contexts d = (if d = c then t.context (s.contexts c) else s.contexts d) ∨
      s'.contexts d = HttpContent.fresh := by
  have hstored : ∀ context, Function.update s.contexts c context d = if d = c then context
      else s.contexts d :=
    fun context => by simp only [Function.update_apply]
  cases t with
  | idle =>
    obtain ⟨loop, -, h⟩ := Option.bind_eq_some_iff.mp h
    cases h
    refine .inl ?_
    split
    · rename_i hd
      rw [hd]
      rfl
    · rfl
  | wait context buffer =>
    obtain ⟨loop, -, h⟩ := Option.bind_eq_some_iff.mp h
    cases h
    exact .inl (hstored context)
  | reply r context buffer =>
    obtain ⟨payload, -, h⟩ := Option.bind_eq_some_iff.mp h
    obtain ⟨loop, -, h⟩ := Option.bind_eq_some_iff.mp h
    dsimp only at h
    split at h
    · obtain ⟨loop', -, h⟩ := Option.bind_eq_some_iff.mp h
      cases h
      rcases contexts_goOn _ loop' d with he | he
      · exact .inl (he.trans (hstored context))
      · exact .inr he
    · cases h
      exact .inl (hstored context)
  | fault context buffer events f => cases h

/-- What every turn keeps of the contexts holds in every state, and what holds of its reply holds of
every response in the log. -/
theorem leaves_exec {P : HttpContent → Prop} {Q : Reply → Prop} (hfresh : P HttpContent.fresh)
    (hturn : ∀ context buffer, P context → (srv.turn context buffer).Leaves P Q) {acts : List Act}
    (h : exec (step srv) start acts = some s) :
    (∀ c, P (s.contexts c)) ∧ ∀ c r, .answer c r ∈ s.log → Q r := by
  refine exec_preserves (fun s : HttpLoop => (∀ c, P (s.contexts c)) ∧
    ∀ c r, .answer c r ∈ s.log → Q r)
    ?_ ⟨fun _ => hfresh, fun _ _ hin => absurd hin List.not_mem_nil⟩ h
  rintro s a s' ⟨hcontexts, hanswers⟩ hstep
  rcases step_cases hstep with ⟨b, loop, -, -, -, rfl⟩ | ⟨running, loop, -, -, -, rfl⟩ |
    ⟨d, running, conn, -, -, hc, htaken⟩
  · refine ⟨fun c => ?_, by rwa [log_goOn]⟩
    rcases contexts_goOn s loop c with he | he
    · exact he ▸ hcontexts c
    · exact he ▸ hfresh
  · exact ⟨hcontexts, hanswers⟩
  · have hleaves := hturn (s.contexts d) conn.inbuffer (hcontexts d)
    generalize srv.turn (s.contexts d) conn.inbuffer = t at hleaves htaken
    have hcontext : P (t.context (s.contexts d)) := by
      cases t with
      | idle => exact hcontexts d
      | wait context buffer => exact hleaves
      | reply r context buffer => exact hleaves.1
      | fault context buffer events f => cases htaken
    refine ⟨fun c => ?_, fun c r hin => ?_⟩
    · rcases takeTurn_contexts htaken c with he | he
      · rw [he]
        split
        · exact hcontext
        · exact hcontexts c
      · exact he ▸ hfresh
    · rw [(takeTurn_spec hc htaken).2] at hin
      rcases List.mem_append.mp hin with hold | hnew
      · exact hanswers c r hold
      · obtain ⟨context, buffer, rfl⟩ := Turn.mem_entries hnew
        exact hleaves.2

/-- An entry of a log that has grown is an old one, or a new one. -/
theorem split_append {log new before after : List Entry} {e : Entry}
    (h : log ++ new = before ++ e :: after) :
    (∃ mid, new = mid ++ e :: after) ∨ ∃ mid, log = before ++ e :: mid ∧ after = mid ++ new := by
  rcases List.append_eq_append_iff.mp h with ⟨mid, -, hmid⟩ | ⟨mid, hmid, hrest⟩
  · exact .inl ⟨mid, hmid⟩
  · cases mid with
    | nil => exact .inl ⟨[], hrest.symm⟩
    | cons x mid =>
      obtain ⟨rfl, rfl⟩ := List.cons.inj hrest
      exact .inr ⟨mid, hmid, rfl⟩

end HttpLoop
end MuduoServer
