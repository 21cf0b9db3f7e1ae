import MuduoServer.ConnectionEffect
import MuduoServer.Transition

/-!
# The switch of a protocol

`ChangeProtocal` is given a context and five callbacks, and `ChangeProtocalInLoop` assigns the
context and four of them: `_Event_Cb` stays. Everything a connection calls or hands out afterwards
is that of the new protocol, but for what `HanderEvent` calls.
-/
namespace MuduoServer

open Transition

namespace Loop

/-- The function that is called is installed. -/
def Installed (s : Loop) (i : Invocation) : Prop :=
  ∃ conn, s.conns i.conn = some conn ∧ conn.callbacks i.kind = some i.function

/-- From `s` to `s'` all callbacks stay, and those called are installed; `_Event_Cb` is called for
connection `e` only. -/
structure Calls (e : Option Nat) (s s' : Loop) : Prop where
  callbacks : ∀ d, (s'.conns d).map Connection.callbacks = (s.conns d).map Connection.callbacks
  invoked : ∃ new, s'.invoked = s.invoked ++ new ∧ ∀ i ∈ new, Installed s i ∧
    (i.kind = .event → e = some i.conn)

variable {e : Option Nat} {s s' s'' : Loop} {c : Nat} {conn conn' : Connection}

theorem installed_congr
    (h : ∀ d, (s'.conns d).map Connection.callbacks = (s.conns d).map Connection.callbacks)
    {i : Invocation} (hi : Installed s' i) : Installed s i := by
  obtain ⟨conn', hc', hf⟩ := hi
  have hsame := h i.conn
  rw [hc'] at hsame
  obtain ⟨conn, hc, hcb⟩ := Option.map_eq_some_iff.mp hsame.symm
  exact ⟨conn, hc, by rw [hcb]; exact hf⟩

theorem Calls.trans (h : Calls e s s') (h' : Calls e s' s'') : Calls e s s'' := by
  obtain ⟨new, he, hnew⟩ := h.invoked
  obtain ⟨new', he', hnew'⟩ := h'.invoked
  refine ⟨fun d => (h'.callbacks d).trans (h.callbacks d), new ++ new',
    by rw [he', he, List.append_assoc], fun i hi => ?_⟩
  rcases List.mem_append.mp hi with hi | hi
  · exact hnew i hi
  · exact ⟨installed_congr h.callbacks (hnew' i hi).1, (hnew' i hi).2⟩

/-- Nothing is called. -/
theorem calls_none
    (hconns : ∀ d, (s'.conns d).map Connection.callbacks = (s.conns d).map Connection.callbacks)
    (hinvoked : s'.invoked = s.invoked) : Calls e s s' :=
  ⟨hconns, [], by rw [hinvoked, List.append_nil], nofun⟩

/-- The calls of a state with the same connections. -/
theorem Calls.of (h : Calls e s' s'') (hconns : s'.conns = s.conns)
    (hinvoked : s'.invoked = s.invoked) : Calls e s s'' :=
  (calls_none (fun d => by rw [hconns]) hinvoked).trans h

theorem calls_set (hc : s.conns c = some conn) (hcb : conn'.callbacks = conn.callbacks) :
    Calls e s (s.set c conn') := by
  refine calls_none (fun d => ?_) rfl
  by_cases hd : d = c
  · subst hd
    rw [conns_set, hc, Option.map_some, Option.map_some, hcb]
  · simp [set, hd]

theorem calls_push (f : Frame) : Calls e s (s.push f) := calls_none (fun _ => rfl) rfl

theorem calls_unpate (hc : s.conns c = some conn) (hcb : conn'.callbacks = conn.callbacks) :
    Calls e s (s.unpate c conn') :=
  (calls_set hc hcb).trans (calls_none (fun _ => rfl) rfl)

theorem calls_invoke (hc : s.conns c = some conn') (hcb : conn'.callbacks = conn.callbacks)
    {kind : Callback} (hkind : kind = .event → e = some c) : Calls e s (s.invoke c conn kind) := by
  unfold invoke
  cases hf : conn.callbacks kind with
  | none => exact calls_none (fun _ => rfl) rfl
  | some f =>
    refine ⟨fun _ => rfl, [⟨c, kind, f⟩], rfl, fun i hi => ?_⟩
    rw [List.mem_singleton.mp hi]
    exact ⟨⟨conn', hc, hcb ▸ hf⟩, hkind⟩

theorem calls_message (hc : s.conns c = some conn') (hcb : conn'.callbacks = conn.callbacks) :
    Calls e s (s.message c conn) := by
  unfold message
  split
  · exact calls_invoke hc hcb nofun
  · exact calls_none (fun _ => rfl) rfl

/-! ## The functions of a connection -/

theorem calls_shutDownInLoop (hc : s.conns c = some conn) :
    Calls e s (s.shutDownInLoop c conn) := by
  have hset : Calls e s (s.set c { conn with status := .disconnecting }) := calls_set hc rfl
  exact (hset.trans (calls_push _)).trans (calls_message (conns_set s c _) rfl)

theorem calls_handerClose (hc : s.conns c = some conn) : Calls e s (s.handerClose c conn) :=
  (calls_push _).trans (calls_message (s := s.push (.release c)) hc rfl)

theorem calls_handerRead (hc : s.conns c = some conn) {r : SysResult} {bytes : StdString.Bytes}
    (h : s.handerRead c conn r bytes = some s') : Calls e s s' := by
  unfold handerRead at h
  split at h
  · cases h
    exact calls_shutDownInLoop hc
  · obtain ⟨inbuffer, -, h⟩ := Option.bind_eq_some_iff.mp h
    cases h
    have hset : Calls e s (s.set c { conn with inbuffer := inbuffer }) := calls_set hc rfl
    exact hset.trans (calls_message (conns_set s c _) rfl)

theorem calls_handerWrite (hc : s.conns c = some conn) {r : SysResult}
    (h : s.handerWrite c conn r = some s') :
    Calls e s s' := by
  unfold handerWrite at h
  dsimp only at h
  split at h
  · cases h
    exact calls_handerClose hc
  · obtain ⟨outbuffer, -, h⟩ := Option.bind_eq_some_iff.mp h
    have hset : Calls e s (s.set c { conn with outbuffer := outbuffer }) := calls_set hc rfl
    split at h
    · have hunpate : Calls e (s.set c { conn with outbuffer := outbuffer })
          ((s.set c { conn with outbuffer := outbuffer }).unpate c
            { conn with outbuffer := outbuffer, event := conn.event &&& ~~~epollOut }) :=
        calls_unpate (conns_set s c _) rfl
      have hdel := hset.trans hunpate
      split at h
      · cases h
        exact hdel.trans (calls_push _)
      · cases h
        exact hdel
    · cases h
      exact hset

theorem calls_sendInLoop (hc : s.conns c = some conn) {b : Buffer}
    (h : s.sendInLoop c conn b = some s') :
    Calls e s s' := by
  unfold sendInLoop at h
  split at h
  · cases h
    exact calls_none (fun _ => rfl) rfl
  · obtain ⟨outbuffer, -, h⟩ := Option.bind_eq_some_iff.mp h
    have hset : Calls e s (s.set c { conn with outbuffer := outbuffer }) := calls_set hc rfl
    dsimp only at h
    split at h
    · cases h
      exact hset
    · cases h
      exact hset.trans (calls_unpate (conns_set s c { conn with outbuffer := outbuffer }) rfl)

theorem calls_establishedInLoop (hc : s.conns c = some conn) :
    Calls e s (s.establishedInLoop c conn) := by
  unfold establishedInLoop
  split
  · exact calls_none (fun _ => rfl) rfl
  · have hread : Calls e s (s.fdAddRead c conn) := calls_unpate hc rfl
    have hset : (s.fdAddRead c conn).conns c = some { conn with event := conn.event ||| epollIn } :=
      conns_set s c _
    have hcall : Calls e (s.fdAddRead c conn) ((s.fdAddRead c conn).invoke c conn .connect) :=
      calls_invoke hset rfl nofun
    exact hread.trans hcall

theorem calls_releaseInloop (hc : s.conns c = some conn) : Calls e s (s.releaseInloop c conn) := by
  -- with or without a timer to disable, `_Close_Cb` finds the same callbacks
  have hclose : ∀ s₁ : Loop, s₁.invoked = s.invoked → (∀ d, d ≠ c → s₁.conns d = s.conns d) →
      (∃ k, s₁.conns c = some k ∧ k.callbacks = conn.callbacks) →
      Calls e s ((s₁.push (.serverClosed c)).invoke c conn .close) := by
    rintro s₁ hinvoked hothers ⟨k, hk, hcb⟩
    have hsame : Calls e s s₁ := by
      refine calls_none (fun d => ?_) hinvoked
      by_cases hd : d = c
      · rw [hd, hk, hc, Option.map_some, Option.map_some, hcb]
      · rw [hothers d hd]
    exact (hsame.trans (calls_push _)).trans
      (calls_invoke (s := s₁.push (.serverClosed c)) hk hcb nofun)
  unfold releaseInloop
  dsimp only
  split
  · refine hclose _ rfl (fun d hd => ?_) ⟨_, conns_set _ _ _, rfl⟩
    simp [disableTimeoutDelInLoop, detach, set, hd]
  · refine hclose _ rfl (fun d hd => ?_) ⟨_, conns_set _ _ _, rfl⟩
    simp [detach, set, hd]

theorem calls_runTask {task : Task} (h : s.runTask task = some s') : Calls e s s' := by
  cases task with
  | user =>
    cases h
    exact calls_push _
  | releaseInloop c =>
    obtain ⟨conn, hc, h⟩ := Option.bind_eq_some_iff.mp h
    cases h
    exact calls_releaseInloop hc
  | sendInLoop c b =>
    obtain ⟨conn, hc, h⟩ := Option.bind_eq_some_iff.mp h
    exact calls_sendInLoop hc h
  | shutDownInLoop c =>
    obtain ⟨conn, hc, h⟩ := Option.bind_eq_some_iff.mp h
    cases h
    exact calls_shutDownInLoop hc
  | enableTimeoutDelInLoop c sec =>
    obtain ⟨conn, hc, h⟩ := Option.bind_eq_some_iff.mp h
    obtain ⟨wheel, -, h⟩ := Option.bind_eq_some_iff.mp h
    cases h
    have hset : Calls e s (s.set c { conn with isEnableTimeDel := true }) := calls_set hc rfl
    exact hset.trans (calls_none (fun _ => rfl) rfl)
  | disableTimeoutDelInLoop c =>
    obtain ⟨conn, hc, h⟩ := Option.bind_eq_some_iff.mp h
    cases h
    have hset : Calls e s (s.set c { conn with isEnableTimeDel := false }) := calls_set hc rfl
    exact hset.trans (calls_none (fun _ => rfl) rfl)
  | establishedInLoop c =>
    obtain ⟨conn, hc, h⟩ := Option.bind_eq_some_iff.mp h
    cases h
    exact calls_establishedInLoop hc

/-- The connection whose `HanderEvent` a frame is. -/
def Frame.event : Frame → Option Nat
  | .handerEvent c => some c
  | _ => none

theorem calls_runFrame {f : Frame} (h : s.runFrame f = some s') : Calls (Frame.event f) s s' := by
  cases f with
  | release c =>
    cases h
    exact calls_none (fun _ => rfl) rfl
  | serverClosed c =>
    obtain ⟨conn, hc, h⟩ := Option.bind_eq_some_iff.mp h
    cases h
    exact calls_invoke hc rfl nofun
  | handerClose c =>
    obtain ⟨conn, hc, h⟩ := Option.bind_eq_some_iff.mp h
    cases h
    exact calls_handerClose hc
  | handerErr c =>
    obtain ⟨conn, hc, h⟩ := Option.bind_eq_some_iff.mp h
    cases h
    exact calls_handerClose hc
  | handerEvent c =>
    obtain ⟨conn, hc, h⟩ := Option.bind_eq_some_iff.mp h
    obtain ⟨wheel, -, h⟩ := Option.bind_eq_some_iff.mp h
    cases h
    have hcall : ({ s with wheel := wheel } : Loop).conns c = some conn := hc
    exact (calls_invoke hcall rfl fun _ => rfl).of rfl rfl
  | shutDownRest c =>
    obtain ⟨conn, hc, h⟩ := Option.bind_eq_some_iff.mp h
    cases h
    unfold shutDownRest
    split
    · split
      · exact calls_none (fun _ => rfl) rfl
      · exact calls_unpate hc rfl
    · exact calls_push _
  | handerRead c => cases h
  | handerWrite c => cases h
  | user => cases h

/-- The connection whose `HanderEvent` an act runs. -/
def eventOf (s : Loop) : Act → Option Nat
  | .next => s.stack.head?.bind Frame.event
  | _ => none

/-- `HanderEvent` calls what is installed. -/
theorem invoked_event (h : step s .next = some s') (he : s.eventOf .next = some c)
    (hc : s.conns c = some conn) {f : Nat} (hf : conn.callbacks .event = some f) :
    s'.invoked = s.invoked ++ [⟨c, .event, f⟩] := by
  obtain ⟨frame, stack, hs, h⟩ := step_next h
  simp only [eventOf, hs, List.head?_cons, Option.bind_some] at he
  cases frame with
  | handerEvent d =>
    cases he
    obtain ⟨conn', hc', h⟩ := Option.bind_eq_some_iff.mp h
    cases hc.symm.trans hc'
    obtain ⟨wheel, -, h⟩ := Option.bind_eq_some_iff.mp h
    cases h
    simp [invoke, hf]
  | _ => cases he

/-- What a step does to the callbacks. -/
theorem step_calls {a : Act} (h : step s a = some s') :
    (∃ c connectCb closeCb msgCb, a = .changeProtocal c connectCb closeCb msgCb) ∨
    (∃ c fd callbacks, a = .newConnection c fd callbacks ∧ s.conns c = none ∧
      s'.invoked = s.invoked ∧
      ∀ d, d ≠ c → s'.conns d = s.conns d) ∨
    Calls (s.eventOf a) s s' := by
  cases a with
  | changeProtocal c connectCb closeCb msgCb => exact .inl ⟨c, connectCb, closeCb, msgCb, rfl⟩
  | newConnection c fd callbacks =>
    obtain ⟨hc, -, rfl⟩ := step_newConnection h
    exact .inr (.inl ⟨c, fd, callbacks, rfl, hc, rfl, fun d hd => by simp [set, hd]⟩)
  | runTask =>
    obtain ⟨task, batch, -, -, h⟩ := step_runTask h
    have htask : Calls (s.eventOf .runTask) { s with phase := .run batch } s' := calls_runTask h
    exact .inr (.inr (htask.of rfl rfl))
  | call task => exact .inr (.inr (calls_runTask (step_call h).2.2))
  | next =>
    obtain ⟨f, stack, hs, h⟩ := step_next h
    have he : s.eventOf .next = Frame.event f := by simp [eventOf, hs]
    have hframe : Calls (Frame.event f) { s with stack := stack } s' := calls_runFrame h
    exact .inr (.inr (he ▸ hframe.of rfl rfl))
  | recv r bytes =>
    obtain ⟨c, stack, conn, -, hc, -, h⟩ := step_recv h
    have hread : Calls none { s with stack := stack } s' := calls_handerRead hc h
    exact .inr (.inr (hread.of rfl rfl))
  | send r =>
    obtain ⟨c, stack, conn, -, hc, h⟩ := step_send h
    have hwrite : Calls none { s with stack := stack } s' := calls_handerWrite hc h
    exact .inr (.inr (hwrite.of rfl rfl))
  | consume c len =>
    obtain ⟨-, conn, inbuffer, hc, -, rfl⟩ := step_consume h
    exact .inr (.inr (calls_set hc rfl))
  | pollReturn ready =>
    cases step_effect h with
    | work hon => cases hon
    | pollReturn hp hsame =>
      refine .inr (.inr (calls_none (fun d => ?_) rfl))
      have hd := congrArg (Option.map Connection.callbacks) (hsame d)
      rwa [Option.map_map, Option.map_map] at hd
  | release c =>
    obtain ⟨-, -, rfl⟩ := step_release h
    exact .inr (.inr (calls_push _))
  | handle =>
    obtain ⟨c, active, conn, -, -, -, rfl⟩ := step_handle h
    exact .inr (.inr (calls_none (fun _ => rfl) rfl))
  | _ =>
    cases step_effect h with
    | work hon => cases hon
    | _ => exact .inr (.inr (calls_none (fun _ => rfl) rfl))

end Loop

/-- What `ChangeProtocal` is given. -/
structure Protocol (γ : Type) where
  context : γ
  connectCb : Option Nat
  writeCb : Option Nat
  closeCb : Option Nat
  eventCb : Option Nat
  msgCb : Option Nat
  deriving DecidableEq

variable {γ : Type}

/-- The function that a protocol has for a callback; that of the server is none of its business. -/
def Protocol.callback (p : Protocol γ) : Callback → Option Nat
  | .connect => p.connectCb
  | .message => p.msgCb
  | .close => p.closeCb
  | .event => p.eventCb
  | .serverClosed => none

/-- What is used of a connection: a callback that is called, or its context. -/
inductive Used (γ : Type) where
  | callback (i : Invocation)
  | context (c : Nat) (context : γ)
  deriving DecidableEq

/-- A use, and the protocol in force: what the last `ChangeProtocal` of the connection was given,
with the context that has been set since. -/
structure Use (γ : Type) where
  used : Used γ
  inForce : Option (Protocol γ)

/-- Nothing from before the switch is used. -/
def Use.IsNew (u : Use γ) : Prop :=
  ∀ p ∈ u.inForce,
    match u.used with
    | .callback i => i.kind = .serverClosed ∨ p.callback i.kind = some i.function
    | .context _ context => context = p.context

/-- A loop with the members of its connections that it does not use itself. -/
structure ProtocolLoop (γ : Type) where
  loop : Loop
  /-- `_Context`. -/
  contexts : Nat → γ
  /-- `_Write_Cb`, which no function calls. -/
  writeCbs : Nat → Option Nat
  inForce : Nat → Option (Protocol γ)
  uses : List (Use γ)

namespace ProtocolLoop

inductive Act (γ : Type) where
  /-- Any step of the loop but `ChangeProtocal`. -/
  | loop (a : Loop.Act)
  | changeProtocal (c : Nat) (p : Protocol γ)
  | setContext (c : Nat) (context : γ)
  /-- User code reads the context through `Get_Context`. -/
  | getContext (c : Nat)

def start (empty : γ) : ProtocolLoop γ :=
  ⟨Loop.start, fun _ => empty, fun _ => none, fun _ => none, []⟩

def isChange : Loop.Act → Bool
  | .changeProtocal _ _ _ _ => true
  | _ => false

/-- `ChangeProtocal` runs `ChangeProtocalInLoop` at once, which leaves out the event callback. -/
def step (s : ProtocolLoop γ) : Act γ → Option (ProtocolLoop γ)
  | .loop a =>
    if isChange a then none
    else do
      let loop ← s.loop.step a
      let called := loop.invoked.drop s.loop.invoked.length
      return { s with loop := loop, uses := s.uses ++ called.map fun i => ⟨.callback i, s.inForce i.conn⟩ }
  | .changeProtocal c p => do
    let loop ← s.loop.step (.changeProtocal c p.connectCb p.closeCb p.msgCb)
    return { s with
      loop := loop
      contexts := Function.update s.contexts c p.context
      writeCbs := Function.update s.writeCbs c p.writeCb
      inForce := Function.update s.inForce c (some p) }
  | .setContext c context =>
    if s.loop.inUser ∧ (s.loop.conns c).isSome then
      some { s with
        contexts := Function.update s.contexts c context
        inForce := Function.update s.inForce c ((s.inForce c).map ({ · with context := context })) }
    else none
  | .getContext c =>
    if s.loop.inUser ∧ (s.loop.conns c).isSome then
      some { s with uses := s.uses ++ [⟨.context c (s.contexts c), s.inForce c⟩] }
    else none

/-- `HanderEvent` of a connection whose protocol was changed finds no other event callback than
the one passed. -/
def EventKept (s : ProtocolLoop γ) : Act γ → Prop
  | .loop a =>
    ∀ c ∈ s.loop.eventOf a, ∀ p ∈ s.inForce c, ∀ conn ∈ s.loop.conns c, ∀ f ∈ conn.callbacks .event,
    p.eventCb = some f
  | _ => True

/-- What the switch assigns is in place. -/
structure InPlace (s : ProtocolLoop γ) : Prop where
  assigned : ∀ c p, s.inForce c = some p → s.contexts c = p.context ∧ s.writeCbs c = p.writeCb ∧
    ∃ conn, s.loop.conns c = some conn ∧ conn.callbacks .connect = p.connectCb ∧
      conn.callbacks .close = p.closeCb ∧
      conn.callbacks .message = p.msgCb

variable {s s' : ProtocolLoop γ}

theorem inPlace_loop (h : InPlace s) {loop : Loop} (uses : List (Use γ))
    (hconns : ∀ c p, s.inForce c = some p →
      (loop.conns c).map Connection.callbacks = (s.loop.conns c).map Connection.callbacks) :
    InPlace { s with loop := loop, uses := uses } := by
  refine ⟨fun c p hp => ?_⟩
  obtain ⟨hcontext, hwrite, conn, hc, hcallbacks⟩ := h.assigned c p hp
  have hsame := hconns c p hp
  rw [hc] at hsame
  obtain ⟨conn', hc', hcb⟩ := Option.map_eq_some_iff.mp hsame
  exact ⟨hcontext, hwrite, conn', hc', hcb ▸ hcallbacks⟩

/-- A callback that is called is that of the protocol in force, unless it is `_Event_Cb`. -/
theorem callback_inForce (h : InPlace s) {i : Invocation} (hi : s.loop.Installed i)
    (hkind : i.kind ≠ .event) :
    Use.IsNew (⟨.callback i, s.inForce i.conn⟩ : Use γ) := by
  intro p hp
  obtain ⟨c, kind, f⟩ := i
  obtain ⟨-, -, conn, hc, hconnect, hclose, hmsg⟩ := h.assigned c p hp
  obtain ⟨conn', hc', hf⟩ := hi
  cases hc.symm.trans hc'
  cases kind with
  | connect => exact .inr (hconnect.symm.trans hf)
  | message => exact .inr (hmsg.symm.trans hf)
  | close => exact .inr (hclose.symm.trans hf)
  | event => exact absurd rfl hkind
  | serverClosed => exact .inl rfl

/-- What a step uses is new if and only if it keeps to the event callback that was passed. -/
structure Switches (s : ProtocolLoop γ) (a : Act γ) (s' : ProtocolLoop γ) : Prop where
  inPlace : InPlace s'
  uses : ∃ new, s'.uses = s.uses ++ new ∧ ((∀ u ∈ new, u.IsNew) ↔ EventKept s a)

theorem switches_loop (h : InPlace s) {a : Loop.Act} (hstep : step s (.loop a) = some s') :
    Switches s (.loop a) s' := by
  simp only [step] at hstep
  split at hstep
  · cases hstep
  · rename_i hchange
    obtain ⟨loop, hloop, hstep⟩ := Option.bind_eq_some_iff.mp hstep
    cases hstep
    rcases Loop.step_calls hloop with ⟨c, x, y, z, rfl⟩ | ⟨c, fd, callbacks, rfl, hnew,
      hinvoked, hothers⟩ |
      ⟨hconns, new, he, hnew⟩
    · exact absurd rfl hchange
    · refine ⟨inPlace_loop h _ fun d p hp => ?_, [], by simp [hinvoked], iff_of_true nofun nofun⟩
      obtain ⟨-, -, conn, hc, -⟩ := h.assigned d p hp
      have hd : d ≠ c := fun hd => by
        rw [hd, hnew] at hc
        cases hc
      rw [hothers d hd]
    · have hcalled : loop.invoked.drop s.loop.invoked.length = new := by rw [he, List.drop_left]
      refine ⟨inPlace_loop h _ fun d _ _ => hconns d, _, rfl, ?_⟩
      rw [hcalled, List.forall_mem_map]
      constructor
      · intro hall c hc p hp conn hconn f hf
        have ha : a = .next := by
          cases a <;> first | rfl | cases hc
        subst ha
        have hinvoked := Loop.invoked_event hloop hc hconn hf
        rw [he] at hinvoked
        have hin : (⟨c, .event, f⟩ : Invocation) ∈ new :=
          List.append_cancel_left hinvoked ▸ List.mem_cons_self
        exact (hall _ hin p hp).resolve_left nofun
      · intro hkept i hi
        obtain ⟨hinstalled, hevent⟩ := hnew i hi
        by_cases hkind : i.kind = .event
        · intro p hp
          obtain ⟨conn, hc, hf⟩ := hinstalled
          refine .inr ?_
          rw [hkind] at hf ⊢
          exact hkept i.conn (hevent hkind) p hp conn hc i.function hf
        · exact callback_inForce h hinstalled hkind

theorem switches_step (h : InPlace s) {a : Act γ} (hstep : step s a = some s') :
    Switches s a s' := by
  cases a with
  | loop a => exact switches_loop h hstep
  | changeProtocal c p =>
    obtain ⟨loop, hloop, hstep⟩ := Option.bind_eq_some_iff.mp hstep
    cases hstep
    obtain ⟨-, conn, hc, rfl⟩ := Loop.step_changeProtocal hloop
    refine ⟨⟨fun d q (hq : Function.update s.inForce c (some p) d = some q) => ?_⟩, [],
      (List.append_nil _).symm,
      iff_of_true nofun trivial⟩
    by_cases hd : d = c
    · subst hd
      rw [Function.update_self] at hq
      cases hq
      exact ⟨Function.update_self .., Function.update_self .., _, Loop.conns_set _ _ _,
        rfl, rfl, rfl⟩
    · rw [Function.update_of_ne hd] at hq
      obtain ⟨hcontext, hwrite, conn', hc', hcallbacks⟩ := h.assigned d q hq
      exact ⟨(Function.update_of_ne hd _ _).trans hcontext,
        (Function.update_of_ne hd _ _).trans hwrite, conn',
        (Function.update_of_ne hd _ _).trans hc', hcallbacks⟩
  | setContext c context =>
    simp only [step] at hstep
    split at hstep
    · cases hstep
      refine ⟨⟨fun d q (hq : Function.update s.inForce c _ d = some q) => ?_⟩, [],
        (List.append_nil _).symm,
        iff_of_true nofun trivial⟩
      by_cases hd : d = c
      · subst hd
        rw [Function.update_self] at hq
        obtain ⟨p, hp, rfl⟩ := Option.map_eq_some_iff.mp hq
        obtain ⟨-, hwrite, hcallbacks⟩ := h.assigned d p hp
        exact ⟨Function.update_self .., hwrite, hcallbacks⟩
      · rw [Function.update_of_ne hd] at hq
        obtain ⟨hcontext, hrest⟩ := h.assigned d q hq
        exact ⟨(Function.update_of_ne hd _ _).trans hcontext, hrest⟩
    · cases hstep
  | getContext c =>
    simp only [step] at hstep
    split at hstep
    · cases hstep
      refine ⟨⟨h.assigned⟩, _, rfl, iff_of_true (fun u hu => ?_) trivial⟩
      rw [List.mem_singleton.mp hu]
      exact fun p hp => (h.assigned c p hp).1
    · cases hstep

/-- Over a run. -/
theorem switches_run {acts : List (Act γ)} (h : InPlace s) (hrun : exec step s acts = some s') :
    (∀ u ∈ s'.uses, u.IsNew) ↔ (∀ u ∈ s.uses, u.IsNew) ∧ Along step EventKept s acts := by
  induction acts generalizing s with
  | nil =>
    cases hrun
    exact (and_iff_left trivial).symm
  | cons a acts ih =>
    obtain ⟨t, ht, hrun⟩ := Option.bind_eq_some_iff.mp hrun
    obtain ⟨hplace, new, hnew, hiff⟩ := switches_step h ht
    have halong : (∀ s', step s a = some s' → Along step EventKept s' acts) ↔
        Along step EventKept t acts :=
      ⟨fun hall => hall t ht, fun hall s' hs' => Option.some.inj (ht.symm.trans hs') ▸ hall⟩
    rw [ih hplace hrun, hnew, List.forall_mem_append, hiff, Along, halong, and_assoc]

/-- In every run, whatever happens on the loop: from a call of `ChangeProtocal` on, a connection
calls no callback and user code finds no context from before the call, and what is called or found
is what the call was given, if and only if no `HanderEvent` of the connection runs while its event
callback is another than the one passed. -/
theorem switch_complete (empty : γ) (acts : List (Act γ)) (s : ProtocolLoop γ)
    (h : exec step (start empty) acts = some s) :
    (∀ u ∈ s.uses, u.IsNew) ↔ Along step EventKept (start empty) acts := by
  have hstart : InPlace (start empty) := ⟨nofun⟩
  rw [switches_run hstart h]
  exact and_iff_right nofun

/-- Connection 1, with the same function for all callbacks, receives a byte, and its message
callback switches to a protocol with other functions. -/
def switched : List (Act Nat) :=
  [.loop (.newConnection 1 7 fun _ => some 1), .loop (.post (.establishedInLoop 1)),
    .loop (.pollReturn []), .loop .swap,
    .loop .runTask, .loop .ret, .loop .batchDone, .loop (.pollReturn [(7, epollIn)]), .loop .handle,
    .loop (.recv ⟨1, 0⟩ [97]), .changeProtocal 1 ⟨2, some 2, some 2, some 2, some 2, some 2⟩,
      .getContext 1, .loop .ret]

/-- Nothing of the old protocol has been used yet. -/
theorem switch_complete_switched : ∃ s, exec step (start 0) switched = some s ∧
    ((∀ u ∈ s.uses, u.IsNew) ↔ Along step EventKept (start 0) switched) := by
  obtain ⟨s, hs⟩ :=
    Option.isSome_iff_exists.mp (show (exec step (start 0) switched).isSome by decide +kernel)
  exact ⟨s, hs, switch_complete 0 switched s hs⟩

/-- `HanderEvent` of the same event calls the old event callback. -/
theorem switch_keeps_event : ∃ s, exec step (start 0) (switched ++ [.loop .next]) = some s ∧
    ∃ u ∈ s.uses, ∃ p, u.used = .callback ⟨1, .event, 1⟩ ∧ u.inForce = some p ∧ p.eventCb = some 2 ∧
    ¬u.IsNew := by
  have hrun : ((exec step (start 0) (switched ++ [.loop .next])).bind fun s => s.uses.getLast?).map
      (fun u => (u.used, u.inForce)) =
      some (.callback ⟨1, .event, 1⟩, some ⟨2, some 2, some 2, some 2, some 2, some 2⟩) := by
    decide +kernel
  obtain ⟨u, hu, hlast⟩ := Option.map_eq_some_iff.mp hrun
  obtain ⟨s, hs, hin⟩ := Option.bind_eq_some_iff.mp hu
  obtain ⟨hused, hforce⟩ := Prod.mk.inj hlast
  refine ⟨s, hs, u, List.mem_of_getLast? hin, _, hused, hforce, rfl, fun hnew => ?_⟩
  have hcallback := hnew _ hforce
  rw [hused] at hcallback
  exact absurd hcallback (by decide)

end ProtocolLoop
end MuduoServer
