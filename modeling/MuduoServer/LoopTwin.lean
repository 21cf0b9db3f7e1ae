import MuduoServer.ConnectionView

/-!
# Two loops that differ in one mask

A connection with nothing to send may have `EPOLLOUT` in its mask or not. Everything the
loop does with it or with another connection does the same either way, until the mask is
written anew and the two loops are the same again.
-/
namespace MuduoServer

open StdString Transition

theorem epollOut_add_delete (mask : UInt32) :
    (mask ||| epollOut) &&& ~~~epollOut = mask &&& ~~~epollOut := by
  rw [← UInt32.toBitVec_inj]
  simp only [UInt32.toBitVec_and, UInt32.toBitVec_or, UInt32.toBitVec_not, epollOut]
  refine BitVec.eq_of_getLsbD_eq fun i hi => ?_
  simp only [BitVec.getLsbD_and, BitVec.getLsbD_or, BitVec.getLsbD_not]
  grind

/-! ## Two interest sets that differ in one mask -/

namespace Poller

variable {γ : Type} {p p' : Poller γ} {fd : Nat} {mask : UInt32} {ch : γ}

/-- `p'` is `p` with `EPOLLOUT` in the mask of channel `ch`, which is registered under `fd`. -/
structure Raised (fd : Nat) (ch : γ) (mask : UInt32) (p p' : Poller γ) : Prop where
  channel : p.channels fd = some ch
  isOpen : p.isOpen fd = true
  interest : p.interest fd = some mask
  eq : p' = { p with interest := Function.update p.interest fd (some (mask ||| epollOut)) }

/-- The two interest sets agree, or one has the `EPOLLOUT` more. -/
def Alike (fd : Nat) (ch : γ) (mask : UInt32) (p p' : Poller γ) : Prop :=
  p' = p ∨ Raised fd ch mask p p'

theorem Alike.channels (h : Alike fd ch mask p p') : p'.channels = p.channels := by
  rcases h with rfl | h
  · rfl
  · rw [h.eq]

theorem Alike.isOpen (h : Alike fd ch mask p p') : p'.isOpen = p.isOpen := by
  rcases h with rfl | h
  · rfl
  · rw [h.eq]

theorem Alike.isSome (h : Alike fd ch mask p p') (e : Nat) :
    (p'.interest e).isSome = (p.interest e).isSome := by
  rcases h with rfl | h
  · rfl
  · rw [h.eq]
    by_cases he : e = fd
    · subst he
      simp [h.interest]
    · simp [he]

/-- A change of the raised mask writes it anew. -/
theorem Raised.epollOpr_self (h : Raised fd ch mask p p') {opr : EpollCtl} (hopr : opr ≠ .add)
    (events : UInt32) :
    p'.epollOpr opr fd events = p.epollOpr opr fd events := by
  rw [h.eq]
  cases opr with
  | add => exact absurd rfl hopr
  | mod => simp [epollOpr, h.isOpen, h.interest]
  | del => simp [epollOpr, h.isOpen, h.interest]

theorem Raised.epollOpr_other (h : Raised fd ch mask p p') {e : Nat} (he : e ≠ fd) (opr : EpollCtl)
    (events : UInt32) :
    Raised fd ch mask (p.epollOpr opr e events) (p'.epollOpr opr e events) := by
  have hopen : (p.epollOpr opr e events).isOpen = p.isOpen := by
    cases opr <;> simp only [epollOpr] <;> split <;> rfl
  have hsame : (p.epollOpr opr e events).interest fd = p.interest fd := by
    cases opr <;> simp only [epollOpr] <;> split <;> simp [Ne.symm he]
  refine ⟨by simpa using h.channel, hopen ▸ h.isOpen, hsame.trans h.interest, ?_⟩
  rw [h.eq]
  cases opr <;> simp only [epollOpr, Function.update_of_ne he] <;> split <;> simp
    [Function.update_comm he]

/-- The own registration writes the mask anew. -/
theorem Alike.updateEvent_self (h : Alike fd ch mask p p') (events : UInt32) :
    p'.updateEvent ch fd events = p.updateEvent ch fd events := by
  rcases h with rfl | h
  · rfl
  · have hreg : p.fdIsExist fd = true := by simp [fdIsExist, h.channel]
    have hreg' : p'.fdIsExist fd = true := by rw [fdIsExist, Alike.channels (.inr h)]; exact hreg
    unfold Poller.updateEvent
    rw [if_pos hreg, if_pos hreg', h.epollOpr_self (by decide)]

theorem Alike.updateEvent (h : Alike fd ch mask p p') (d : γ) (e : Nat) (events : UInt32) :
    Alike fd ch mask (p.updateEvent d e events) (p'.updateEvent d e events) := by
  rcases h with rfl | h
  · exact .inl rfl
  have hexist : p'.fdIsExist e = p.fdIsExist e := by
    rw [fdIsExist, fdIsExist, Alike.channels (.inr h)]
  unfold Poller.updateEvent
  rw [hexist]
  by_cases he : e = fd
  · subst he
    have hreg : p.fdIsExist e = true := by simp [fdIsExist, h.channel]
    rw [if_pos hreg, if_pos hreg]
    exact .inl (h.epollOpr_self (by decide) events)
  · split
    · exact .inr (h.epollOpr_other he .mod events)
    · have hadd := h.epollOpr_other he .add events
      refine .inr ⟨?_, hadd.isOpen, hadd.interest, ?_⟩
      · simpa [Ne.symm he] using hadd.channel
      · simp [hadd.eq]

theorem Alike.removeEvent (h : Alike fd ch mask p p') (e : Nat) :
    Alike fd ch mask (p.removeEvent e) (p'.removeEvent e) := by
  rcases h with rfl | h
  · exact .inl rfl
  have hexist : p'.fdIsExist e = p.fdIsExist e := by
    rw [fdIsExist, fdIsExist, Alike.channels (.inr h)]
  unfold Poller.removeEvent
  rw [hexist]
  by_cases he : e = fd
  · subst he
    have hreg : p.fdIsExist e = true := by simp [fdIsExist, h.channel]
    refine .inl ?_
    rw [h.eq]
    simp [hreg, epollOpr, h.isOpen, h.interest]
  · split
    · have hcleared : Raised fd ch mask { p with channels := Function.update p.channels e none }
          { p' with channels := Function.update p'.channels e none } :=
        ⟨by simpa [Ne.symm he] using h.channel, h.isOpen, h.interest, by rw [h.eq]⟩
      exact .inr (hcleared.epollOpr_other he .del 0)
    · exact .inr (h.epollOpr_other he .del 0)

theorem Alike.close (h : Alike fd ch mask p p') (e : Nat) :
    Alike fd ch mask (p.close e) (p'.close e) := by
  rcases h with rfl | h
  · exact .inl rfl
  by_cases he : e = fd
  · subst he
    refine .inl ?_
    rw [h.eq]
    simp [Poller.close]
  · refine .inr ⟨h.channel, by simpa [Poller.close, Ne.symm he] using h.isOpen,
      by simpa [Poller.close, Ne.symm he] using h.interest, ?_⟩
    rw [h.eq]
    simp [Poller.close, Function.update_comm he]

theorem Alike.opened (h : Alike fd ch mask p p') (e : Nat) :
    Alike fd ch mask (p.opened e) (p'.opened e) := by
  rcases h with rfl | h
  · exact .inl rfl
  · refine .inr ⟨h.channel, ?_, h.interest, by rw [h.eq]; rfl⟩
    by_cases he : fd = e
    · simp [Poller.opened, he]
    · simpa [Poller.opened, he] using h.isOpen

/-- Asking for `EPOLLOUT` under one's own registration. -/
theorem Alike.ask (h : Alike fd ch mask p p') (hch : p'.channels fd = some ch)
    (hmask : p'.interest fd = some (mask ||| epollOut)) :
    p.updateEvent ch fd (mask ||| epollOut) = p' := by
  have hreg : p.fdIsExist fd = true := by simp [fdIsExist, ← h.channels, hch]
  unfold Poller.updateEvent
  rw [if_pos hreg]
  rcases h with rfl | h
  · simp only [epollOpr, hmask]
    split
    · rw [← hmask, Function.update_eq_self]
    · rfl
  · rw [h.eq]
    simp [epollOpr, h.isOpen, h.interest]

/-- A new mask under one's own registration, with and without `EPOLLOUT`. -/
theorem Alike.add (h : Alike fd ch mask p p') (hch : p'.channels fd = some ch)
    (hmask : p'.interest fd = some (mask ||| epollOut)) {new : UInt32} :
    Alike fd ch new (p.updateEvent ch fd new) (p'.updateEvent ch fd (new ||| epollOut)) := by
  have hreg' : p'.fdIsExist fd = true := by simp [fdIsExist, hch]
  have hreg : p.fdIsExist fd = true := by simp [fdIsExist, ← h.channels, hch]
  have hsome' : (p'.interest fd).isSome = true := by simp [hmask]
  have hsome : (p.interest fd).isSome = true := by rw [← h.isSome, hsome']
  have hothers : Function.update p'.interest fd (some (new ||| epollOut)) =
      Function.update p.interest fd (some (new ||| epollOut)) := by
    rcases h with rfl | h
    · rfl
    · rw [h.eq, Function.update_idem]
  unfold Poller.updateEvent
  rw [if_pos hreg, if_pos hreg']
  by_cases hopen : p.isOpen fd = true
  · have hopen' : p'.isOpen fd = true := by rw [h.isOpen, hopen]
    refine .inr ⟨?_, ?_, ?_, ?_⟩
    · rw [channels_epollOpr, ← h.channels, hch]
    · simp [epollOpr, hopen, hsome]
    · simp [epollOpr, hopen, hsome]
    · simp only [epollOpr, hopen, hopen', hsome, hsome', and_self, if_true, hothers,
        Function.update_idem]
      rw [h.channels, h.isOpen]
  · refine .inl ?_
    rcases h with rfl | h
    · simp [epollOpr, hopen]
    · exact absurd h.isOpen hopen

theorem alike_ask (hch : p.channels fd = some ch) (hmask : p.interest fd = some mask) :
    Alike fd ch mask p (p.updateEvent ch fd (mask ||| epollOut)) := by
  have hreg : p.fdIsExist fd = true := by simp [fdIsExist, hch]
  unfold Poller.updateEvent
  rw [if_pos hreg]
  by_cases hopen : p.isOpen fd = true
  · exact .inr ⟨hch, hopen, hmask, by simp [epollOpr, hopen, hmask]⟩
  · exact .inl (by simp [epollOpr, hopen])

end Poller

/-! ## Two loops that differ in one mask -/

/-- The connection with `EPOLLOUT` in its mask. -/
def Connection.raised (k : Connection) : Connection := { k with event := k.event ||| epollOut }

theorem Connection.raised_ne_zero (k : Connection) : k.raised.event ≠ 0 := by
  intro hzero
  have hasked := hasEvent_out_add k.event
  rw [show k.event ||| epollOut = 0 from hzero] at hasked
  exact absurd hasked (by decide)

/-- Nothing to send and no `EPOLLOUT` asked for. -/
structure Connection.Drained (k : Connection) : Prop where
  waiting : hasEvent k.event epollOut = false
  output : k.outbuffer.unread = []

/-- A change of a connection that looks at neither its mask nor its descriptor. -/
structure Connection.Neutral (f : Connection → Connection) : Prop where
  raised : ∀ k, f k.raised = (f k).raised
  sockfd : ∀ k, (f k).sockfd = k.sockfd
  event : ∀ k, (f k).event = k.event
  output : ∀ k, (f k).outbuffer = k.outbuffer

theorem Connection.Neutral.drained {f : Connection → Connection} (hf : Neutral f) {k : Connection}
    (h : k.Drained) :
    (f k).Drained :=
  ⟨by rw [hf.event]; exact h.waiting, by rw [hf.output]; exact h.output⟩

namespace Loop

/-- Apart from the queue, the loop `s` is `t`, or it has `EPOLLOUT` in the mask of the drained
connection `c`, and perhaps in the interest set under the descriptor of `c`. -/
structure Twin (c : Nat) (s t : Loop) : Prop where
  stack : s.stack = t.stack
  wheel : s.wheel = t.wheel
  invoked : s.invoked = t.invoked
  table : s.conns = t.conns ∧ s.poller = t.poller ∨
    ∃ k, t.conns c = some k ∧ k.Drained ∧ s.conns = Function.update t.conns c (some k.raised) ∧
      Poller.Alike k.sockfd c k.event t.poller s.poller

variable {c d : Nat} {s s' t : Loop} {conn : Connection}

theorem Twin.refl (c : Nat) (s : Loop) : Twin c s s := ⟨rfl, rfl, rfl, .inl ⟨rfl, rfl⟩⟩

theorem Twin.channels (h : Twin c s t) : s.poller.channels = t.poller.channels := by
  rcases h.table with ⟨-, hp⟩ | ⟨k, -, -, -, hp⟩
  · rw [hp]
  · exact hp.channels

/-- The connection is the same in both loops, or it is the one with the other mask. -/
theorem Twin.find (h : Twin c s t) (d : Nat) : s.conns d = t.conns d ∨
    d = c ∧ ∃ k, t.conns c = some k ∧ k.Drained ∧
    s.conns = Function.update t.conns c (some k.raised) ∧
      Poller.Alike k.sockfd c k.event t.poller s.poller := by
  rcases h.table with ⟨hc, -⟩ | hraised
  · exact .inl (by rw [hc])
  · by_cases hd : d = c
    · exact .inr ⟨hd, hraised⟩
    · obtain ⟨k, -, -, hc, -⟩ := hraised
      exact .inl (by simp [hc, hd])

/-- A connection that is the same in both loops is set to the same value. -/
theorem Twin.set (h : Twin c s t) (hd : s.conns d = t.conns d) (conn : Connection) :
    Twin c (s.set d conn) (t.set d conn) := by
  refine ⟨h.stack, h.wheel, h.invoked, ?_⟩
  rcases h.table with ⟨hc, hp⟩ | ⟨k, hk, hdrained, hc, hp⟩
  · exact .inl ⟨by simp only [Loop.set, hc], hp⟩
  · have hne : d ≠ c := by
      rintro rfl
      have heq : k.raised = k := by simpa [hc, hk] using hd
      have hwaiting := hdrained.waiting
      rw [← heq, Connection.raised, hasEvent_out_add] at hwaiting
      cases hwaiting
    refine .inr ⟨k, by simp [Loop.set, hne.symm, hk], hdrained, ?_, hp⟩
    simp only [Loop.set, hc, Function.update_comm hne]

theorem Twin.unpate (h : Twin c s t) (hd : s.conns d = t.conns d) (conn : Connection) :
    Twin c (s.unpate d conn) (t.unpate d conn) := by
  have hset := h.set hd conn
  refine ⟨hset.stack, hset.wheel, hset.invoked, ?_⟩
  rcases hset.table with ⟨hc, hp⟩ | ⟨k, hk, hdrained, hc, hp⟩
  · exact .inl ⟨hc, congrArg (Poller.updateEvent · d conn.sockfd conn.event) hp⟩
  · exact .inr ⟨k, hk, hdrained, hc, hp.updateEvent d conn.sockfd conn.event⟩

/-- A neutral change of a connection, which both loops have. -/
theorem Twin.change (h : Twin c s t) (hd : s.conns d = some conn) {f : Connection → Connection}
    (hf : Connection.Neutral f) : ∃ k, t.conns d = some k ∧ (conn = k ∨ conn = k.raised) ∧
      Twin c (s.set d (f conn)) (t.set d (f k)) := by
  rcases h.find d with he | ⟨rfl, k, hk, hdrained, hc, hp⟩
  · exact ⟨conn, he ▸ hd, .inl rfl, h.set he _⟩
  · have hconn : k.raised = conn := by simpa [hc] using hd
    subst hconn
    refine ⟨k, hk, .inr rfl, h.stack, h.wheel, h.invoked,
      .inr ⟨f k, conns_set _ _ _, hf.drained hdrained, ?_, ?_⟩⟩
    · simp only [Loop.set, hc, Function.update_idem, hf.raised]
    · rw [hf.sockfd, hf.event]
      exact hp

theorem Twin.push (h : Twin c s t) (frame : Frame) : Twin c (s.push frame) (t.push frame) :=
  ⟨by simp only [Loop.push, h.stack], h.wheel, h.invoked, h.table⟩

theorem Twin.invoke (h : Twin c s t) (d : Nat) (conn : Connection) (kind : Callback) :
    Twin c (s.invoke d conn kind) (t.invoke d conn kind) := by
  unfold Loop.invoke
  split
  · exact h
  · exact ⟨by simp only [h.stack], h.wheel, by simp only [h.invoked], h.table⟩

theorem Twin.message (h : Twin c s t) (d : Nat) (conn : Connection) :
    Twin c (s.message d conn) (t.message d conn) := by
  unfold Loop.message
  split
  · exact h.invoke d conn .message
  · exact h

theorem Twin.withWheel (h : Twin c s t) (w : TimeWheel Nat) :
    Twin c { s with wheel := w } { t with wheel := w } :=
  ⟨h.stack, rfl, h.invoked, h.table⟩

theorem Twin.withStack (h : Twin c s t) (stack : List Frame) :
    Twin c { s with stack := stack } { t with stack := stack } :=
  ⟨rfl, h.wheel, h.invoked, h.table⟩

/-- A change of the phase in both loops, with the queue as it is. -/
theorem Twin.withQueues (h : Twin c s t) (phase phase' : Phase) (queue queue' : List Task) :
    Twin c { s with phase := phase, taskQueue := queue }
    { t with phase := phase', taskQueue := queue' } :=
  ⟨h.stack, h.wheel, h.invoked, h.table⟩

theorem Twin.output (h : Twin c s t) (d : Nat) : (s.view d).output = (t.view d).output := by
  rcases h.find d with he | ⟨rfl, k, hk, -, hc, -⟩
  · simp only [view, he]
  · simp only [view, hc, hk, Function.update_self]
    rfl

theorem Twin.isOpen (h : Twin c s t) : s.poller.isOpen = t.poller.isOpen := by
  rcases h.table with ⟨-, hp⟩ | ⟨k, -, -, -, hp⟩
  · rw [hp]
  · exact hp.isOpen

theorem Twin.interest_isSome (h : Twin c s t) (fd : Nat) :
    (s.poller.interest fd).isSome = (t.poller.interest fd).isSome := by
  rcases h.table with ⟨-, hp⟩ | ⟨k, -, -, -, hp⟩
  · rw [hp]
  · exact hp.isSome fd

theorem Twin.opened (h : Twin c s t) (fd : Nat) :
    Twin c { s with poller := s.poller.opened fd } { t with poller := t.poller.opened fd } := by
  refine ⟨h.stack, h.wheel, h.invoked, ?_⟩
  rcases h.table with ⟨hc, hp⟩ | ⟨k, hk, hdrained, hc, hp⟩
  · exact .inl ⟨hc, by rw [hp]⟩
  · exact .inr ⟨k, hk, hdrained, hc, hp.opened fd⟩

theorem Twin.inUser (h : Twin c s t) : s.inUser = t.inUser := by simp only [Loop.inUser, h.stack]

theorem Twin.isSome (h : Twin c s t) (d : Nat) : (s.conns d).isSome = (t.conns d).isSome := by
  rcases h.find d with he | ⟨rfl, k, hk, -, hc, -⟩
  · rw [he]
  · simp [hc, hk]

/-! ## The functions of a connection, in both loops -/

theorem Twin.shutDownInLoop (h : Twin c s t) (hd : s.conns d = some conn) :
    ∃ k, t.conns d = some k ∧ Twin c (s.shutDownInLoop d conn) (t.shutDownInLoop d k) := by
  obtain ⟨k, hk, hsame, hset⟩ := h.change hd (f := fun k => { k with status := .disconnecting })
    ⟨fun _ => rfl, fun _ => rfl, fun _ => rfl, fun _ => rfl⟩
  have hmessage := (hset.push (.shutDownRest d)).message d { conn with status := .disconnecting }
  refine ⟨k, hk, ?_⟩
  rcases hsame with rfl | rfl
  · exact hmessage
  · exact hmessage

theorem Twin.handerRead (h : Twin c s t) (hd : s.conns d = some conn) {r : SysResult}
    {bytes : Bytes} (hs : s.handerRead d conn r bytes = some s') :
    ∃ k t', t.conns d = some k ∧ t.handerRead d k r bytes = some t' ∧ Twin c s' t' := by
  unfold Loop.handerRead at hs ⊢
  by_cases hneg : Socket.recv r < 0
  · rw [if_pos hneg] at hs
    cases hs
    obtain ⟨k, hk, htwin⟩ := h.shutDownInLoop hd
    exact ⟨k, _, hk, if_pos hneg, htwin⟩
  · rw [if_neg hneg] at hs
    obtain ⟨inbuffer, hwrite, hs⟩ := Option.bind_eq_some_iff.mp hs
    cases hs
    obtain ⟨k, hk, hsame, hset⟩ := h.change hd (f := fun k => { k with inbuffer := inbuffer })
      ⟨fun _ => rfl, fun _ => rfl, fun _ => rfl, fun _ => rfl⟩
    have hwrite' : k.inbuffer.writeAndAdd bytes = some inbuffer := by
      rcases hsame with rfl | rfl <;> exact hwrite
    refine ⟨k, (t.set d { k with inbuffer := inbuffer }).message d { k with inbuffer := inbuffer },
      hk, ?_, ?_⟩
    · rw [if_neg hneg, hwrite']
      rfl
    · have hmessage := hset.message d { conn with inbuffer := inbuffer }
      rcases hsame with rfl | rfl <;> exact hmessage

theorem Twin.handerClose (h : Twin c s t) (hd : s.conns d = some conn) :
    ∃ k, t.conns d = some k ∧ Twin c (s.handerClose d conn) (t.handerClose d k) := by
  have hmessage := (h.push (.release d)).message d conn
  rcases h.find d with he | ⟨rfl, k, hk, -, hc, -⟩
  · exact ⟨conn, he ▸ hd, hmessage⟩
  · have hconn : k.raised = conn := by simpa [hc] using hd
    subst hconn
    exact ⟨k, hk, hmessage⟩

theorem Twin.handerEvent (h : Twin c s t) (hd : s.conns d = some conn)
    (hs : s.handerEvent d conn = some s') :
    ∃ k t', t.conns d = some k ∧ t.handerEvent d k = some t' ∧ Twin c s' t' := by
  obtain ⟨wheel, hwheel, hs⟩ := Option.bind_eq_some_iff.mp hs
  cases hs
  have hevent := (h.withWheel wheel).invoke d conn .event
  rw [h.wheel] at hwheel
  have hrun : ∀ k : Connection, k.isEnableTimeDel = conn.isEnableTimeDel →
      k.callbacks = conn.callbacks →
      t.handerEvent d k = some ({ t with wheel := wheel }.invoke d conn .event) := by
    intro k henable hcallbacks
    simp only [Loop.handerEvent, henable, hwheel, Loop.invoke, hcallbacks]
    rfl
  rcases h.find d with he | ⟨rfl, k, hk, -, hc, -⟩
  · exact ⟨conn, _, he ▸ hd, hrun conn rfl rfl, hevent⟩
  · have hconn : k.raised = conn := by simpa [hc] using hd
    subst hconn
    exact ⟨k, _, hk, hrun k rfl rfl, hevent⟩

theorem Twin.enableTimeoutDelInLoop (h : Twin c s t) (hd : s.conns d = some conn) {sec : Int}
    (hs : s.enableTimeoutDelInLoop d conn sec = some s') :
    ∃ k t', t.conns d = some k ∧ t.enableTimeoutDelInLoop d k sec = some t' ∧ Twin c s' t' := by
  obtain ⟨wheel, hwheel, hs⟩ := Option.bind_eq_some_iff.mp hs
  cases hs
  rw [h.wheel] at hwheel
  obtain ⟨k, hk, -, hset⟩ := h.change hd (f := fun k => { k with isEnableTimeDel := true })
    ⟨fun _ => rfl, fun _ => rfl, fun _ => rfl, fun _ => rfl⟩
  refine ⟨k, _, hk, ?_, hset.withWheel wheel⟩
  unfold Loop.enableTimeoutDelInLoop
  rw [hwheel]
  rfl

theorem Twin.disableTimeoutDelInLoop (h : Twin c s t) (hd : s.conns d = some conn) :
    ∃ k, t.conns d = some k ∧ (conn = k ∨ conn = k.raised) ∧
      Twin c (s.disableTimeoutDelInLoop d conn) (t.disableTimeoutDelInLoop d k) := by
  obtain ⟨k, hk, hsame, hset⟩ := h.change hd (f := fun k => { k with isEnableTimeDel := false })
    ⟨fun _ => rfl, fun _ => rfl, fun _ => rfl, fun _ => rfl⟩
  refine ⟨k, hk, hsame, ?_⟩
  unfold Loop.disableTimeoutDelInLoop
  rw [h.wheel]
  exact hset.withWheel _

/-- Both loops take a descriptor out of the poller and perhaps close it. -/
theorem Twin.forget (h : Twin c s t) (fd : Nat) (socket : Option Nat) :
    Twin c
      { s with poller := match socket with
          | none => s.poller.removeEvent fd
          | some e => (s.poller.removeEvent fd).close e }
      { t with poller := match socket with
          | none => t.poller.removeEvent fd
          | some e => (t.poller.removeEvent fd).close e } := by
  refine ⟨h.stack, h.wheel, h.invoked, ?_⟩
  rcases h.table with ⟨hc, hp⟩ | ⟨k, hk, hdrained, hc, hp⟩
  · exact .inl ⟨hc, by rw [hp]⟩
  · refine .inr ⟨k, hk, hdrained, hc, ?_⟩
    cases socket with
    | none => exact hp.removeEvent fd
    | some e => exact (hp.removeEvent fd).close e

theorem Twin.detach (h : Twin c s t) (hd : s.conns d = some conn) :
    ∃ k, t.conns d = some k ∧ (conn = k ∨ conn = k.raised) ∧
    Twin c (s.detach d conn) (t.detach d k) := by
  obtain ⟨k, hk, hsame, hset⟩ :=
    h.change hd (f := fun k => { k with status := .disconnected, socket := none })
    ⟨fun _ => rfl, fun _ => rfl, fun _ => rfl, fun _ => rfl⟩
  have hforget := hset.forget conn.sockfd conn.socket
  refine ⟨k, hk, hsame, ?_⟩
  rcases hsame with rfl | rfl
  · exact hforget
  · exact hforget

theorem Twin.releaseInloop (h : Twin c s t) (hd : s.conns d = some conn) :
    ∃ k, t.conns d = some k ∧ Twin c (s.releaseInloop d conn) (t.releaseInloop d k) := by
  obtain ⟨k, hk, hsame, hdetach⟩ := h.detach hd
  refine ⟨k, hk, ?_⟩
  have hcallbacks : ∀ s₀ : Loop, s₀.invoke d conn .close = s₀.invoke d k .close := by
    intro s₀
    rcases hsame with rfl | rfl <;> rfl
  unfold Loop.releaseInloop
  dsimp only
  rw [hdetach.wheel, hcallbacks]
  split
  · have hfound : (s.detach d conn).conns d =
        some { conn with status := .disconnected, socket := none } :=
      conns_set _ _ _
    obtain ⟨k', hk', -, hdisable⟩ := hdetach.disableTimeoutDelInLoop hfound
    cases hk'.symm.trans (conns_set t d { k with status := .disconnected, socket := none })
    exact (hdisable.push _).invoke _ _ _
  · exact (hdetach.push _).invoke _ _ _

theorem Twin.shutDownRest (h : Twin c s t) (hd : s.conns d = some conn) :
    ∃ k, t.conns d = some k ∧ Twin c (s.shutDownRest d conn) (t.shutDownRest d k) := by
  unfold Loop.shutDownRest
  rcases h.find d with he | ⟨rfl, k, hk, hdrained, hc, -⟩
  · refine ⟨conn, he ▸ hd, ?_⟩
    split
    · split
      · exact h
      · exact h.unpate he _
    · exact h.push _
  · have hconn : k.raised = conn := by simpa [hc] using hd
    subst hconn
    have hempty : ¬0 < k.outbuffer.currentEnableReadSpaceSize := by
      rw [(unread_eq_nil _).mp hdrained.output]
      decide
    have hempty' : ¬0 < k.raised.outbuffer.currentEnableReadSpaceSize := hempty
    refine ⟨k, hk, ?_⟩
    rw [if_neg hempty, if_neg hempty']
    exact h.push _

/-- `HanderWrite` after a `send(2)` that took something or can be retried. -/
theorem handerWrite_eq (s : Loop) (d : Nat) {conn : Connection} {r : SysResult} {outbuffer : Buffer}
    (hpos : ¬Socket.send r < 0)
    (hmove : conn.outbuffer.moveReadPosition (Socket.send r).toNat = some outbuffer) :
    s.handerWrite d conn r = some (
      let s := s.set d { conn with outbuffer := outbuffer }
      if outbuffer.currentEnableReadSpaceSize = 0 then
        let s := s.fdDeleteWrite d { conn with outbuffer := outbuffer }
        if conn.status = .disconnecting then s.push (.release d) else s
      else s) := by
  simp only [Loop.handerWrite, if_neg hpos, hmove, Option.bind_eq_bind, Option.bind_some]
  split <;> rfl

theorem Twin.handerWrite (h : Twin c s t) (hd : s.conns d = some conn) {r : SysResult}
    (hs : s.handerWrite d conn r = some s') :
    ∃ k t', t.conns d = some k ∧ t.handerWrite d k r = some t' ∧ Twin c s' t' := by
  by_cases hneg : Socket.send r < 0
  · have hclose : s' = s.handerClose d conn := by
      simpa [Loop.handerWrite, hneg, Loop.handerClose] using hs.symm
    subst hclose
    obtain ⟨k, hk, htwin⟩ := h.handerClose hd
    exact ⟨k, _, hk, by simp [Loop.handerWrite, hneg, Loop.handerClose], htwin⟩
  obtain ⟨outbuffer, hmove⟩ : ∃ outbuffer, conn.outbuffer.moveReadPosition (Socket.send r).toNat =
      some outbuffer := by
    simp only [Loop.handerWrite, if_neg hneg] at hs
    obtain ⟨outbuffer, hmove, -⟩ := Option.bind_eq_some_iff.mp hs
    exact ⟨outbuffer, hmove⟩
  rw [handerWrite_eq s d hneg hmove] at hs
  cases hs
  rcases h.find d with he | ⟨rfl, k, hk, hdrained, hc, hp⟩
  · refine ⟨conn, _, he ▸ hd, handerWrite_eq t d hneg hmove, ?_⟩
    have hset := h.set he { conn with outbuffer := outbuffer }
    have hdelete := hset.unpate ((conns_set _ _ _).trans (conns_set _ _ _).symm)
      { conn with outbuffer := outbuffer, event := conn.event &&& ~~~epollOut }
    dsimp only
    split
    · split
      · exact hdelete.push _
      · exact hdelete
    · exact hset
  · have hconn : k.raised = conn := by simpa [hc] using hd
    subst hconn
    have hmove' : k.outbuffer.moveReadPosition (Socket.send r).toNat = some outbuffer := hmove
    have hempty : outbuffer.currentEnableReadSpaceSize = 0 := by
      have hunread := Buffer.unread_moveReadPosition hmove'
      rw [hdrained.output, List.drop_nil] at hunread
      exact (unread_eq_nil _).mp hunread
    have hmask : k.raised.event &&& ~~~epollOut = k.event &&& ~~~epollOut :=
      epollOut_add_delete k.event
    -- the write interest is given up, whether it was there or not
    have hdelete : Twin d
        ((s.set d { k.raised with outbuffer := outbuffer }).fdDeleteWrite d
          { k.raised with outbuffer := outbuffer })
        ((t.set d { k with outbuffer := outbuffer }).fdDeleteWrite d { k with outbuffer := outbuffer }) := by
      refine ⟨h.stack, h.wheel, h.invoked, .inl ⟨?_, ?_⟩⟩
      · simp only [Loop.fdDeleteWrite, Loop.unpate, Loop.set, hc, Function.update_idem, hmask]
        rfl
      · simp only [Loop.fdDeleteWrite, Loop.unpate, Loop.set, hmask]
        exact hp.updateEvent_self _
    refine ⟨k, _, hk, handerWrite_eq t d hneg hmove', ?_⟩
    simp only [if_pos hempty]
    by_cases hstatus : k.status = .disconnecting
    · rw [if_pos hstatus, if_pos (show k.raised.status = .disconnecting from hstatus)]
      exact hdelete.push _
    · rw [if_neg hstatus, if_neg (show ¬k.raised.status = .disconnecting from hstatus)]
      exact hdelete

/-- The poller knows the channel of the connection under its descriptor, and the kernel its mask. -/
def Registered (s : Loop) (c : Nat) (conn : Connection) : Prop :=
  s.poller.channels conn.sockfd = some c ∧ s.poller.interest conn.sockfd = some conn.event

instance (s : Loop) (c : Nat) (conn : Connection) : Decidable (s.Registered c conn) :=
  inferInstanceAs (Decidable (_ ∧ _))

theorem Twin.establishedInLoop (h : Twin c s t) (hd : s.conns d = some conn)
    (hreg : d = c → conn.status = .connecting → conn.event ≠ 0 → s.Registered c conn) :
    ∃ k, t.conns d = some k ∧ Twin c (s.establishedInLoop d conn) (t.establishedInLoop d k) := by
  unfold Loop.establishedInLoop
  rcases h.find d with he | ⟨rfl, k, hk, hdrained, hc, hp⟩
  · refine ⟨conn, he ▸ hd, ?_⟩
    split
    · exact h
    · exact (h.unpate he _).invoke _ _ _
  · have hconn : k.raised = conn := by simpa [hc] using hd
    subst hconn
    refine ⟨k, hk, ?_⟩
    by_cases hstatus : k.status = .connecting
    · obtain ⟨hch, hinterest⟩ := hreg rfl hstatus k.raised_ne_zero
      have hmask : k.raised.event ||| epollIn = k.event ||| epollIn ||| epollOut := by
        rw [Connection.raised, UInt32.or_assoc, UInt32.or_comm epollOut, ← UInt32.or_assoc]
      rw [if_neg (not_not.mpr hstatus), if_neg (show ¬k.raised.status ≠ .connecting from not_not.mpr hstatus)]
      have hwaiting : hasEvent (k.event ||| epollIn) epollOut = false := by
        rw [hasEvent_out_addIn]
        exact hdrained.waiting
      have hadd : Twin d (s.fdAddRead d k.raised) (t.fdAddRead d k) := by
        refine ⟨h.stack, h.wheel, h.invoked,
          .inr ⟨{ k with event := k.event ||| epollIn }, conns_set t d _,
          ⟨hwaiting, hdrained.output⟩, ?_, ?_⟩⟩
        · simp only [fdAddRead, Loop.unpate, Loop.set, hc, Function.update_idem, hmask]
          rfl
        · simp only [fdAddRead, Loop.unpate, Loop.set, hmask]
          exact hp.add hch hinterest
      exact hadd.invoke d k .connect
    · rw [if_pos hstatus, if_pos (show k.raised.status ≠ .connecting from hstatus)]
      exact h

/-- `SendInLoop` of a connection that is not disconnected. -/
theorem sendInLoop_eq (s : Loop) (d : Nat) {conn : Connection} {b outbuffer : Buffer}
    (hstatus : conn.status ≠ .disconnected)
    (hwrite : conn.outbuffer.writeAsBufferAndAdd b = some outbuffer) :
    s.sendInLoop d conn b = some (
      let s := s.set d { conn with outbuffer := outbuffer }
      if hasEvent conn.event epollOut then s
        else s.fdAddWrite d { conn with outbuffer := outbuffer }) := by
  simp only [Loop.sendInLoop, if_neg hstatus, hwrite]
  rfl

theorem Twin.sendInLoop (h : Twin c s t) (hd : s.conns d = some conn) {b : Buffer}
    (hreg : d = c → conn.status ≠ .disconnected → conn.event ≠ 0 → s.Registered c conn)
    (hs : s.sendInLoop d conn b = some s') :
    ∃ k t', t.conns d = some k ∧ t.sendInLoop d k b = some t' ∧ Twin c s' t' := by
  by_cases hdis : conn.status = .disconnected
  · have hsame : s' = s := by simpa [Loop.sendInLoop, hdis] using hs.symm
    subst hsame
    rcases h.find d with he | ⟨rfl, k, hk, -, hc, -⟩
    · exact ⟨conn, t, he ▸ hd, by simp [Loop.sendInLoop, hdis], h⟩
    · have hconn : k.raised = conn := by simpa [hc] using hd
      subst hconn
      exact ⟨k, t, hk, by simp [Loop.sendInLoop, show k.status = .disconnected from hdis], h⟩
  obtain ⟨outbuffer, hwrite⟩ : ∃ outbuffer, conn.outbuffer.writeAsBufferAndAdd b =
      some outbuffer := by
    simp only [Loop.sendInLoop, if_neg hdis] at hs
    obtain ⟨outbuffer, hwrite, -⟩ := Option.bind_eq_some_iff.mp hs
    exact ⟨outbuffer, hwrite⟩
  rw [sendInLoop_eq s d hdis hwrite] at hs
  cases hs
  rcases h.find d with he | ⟨rfl, k, hk, hdrained, hc, hp⟩
  · refine ⟨conn, _, he ▸ hd, sendInLoop_eq t d hdis hwrite, ?_⟩
    have hset := h.set he { conn with outbuffer := outbuffer }
    dsimp only
    split
    · exact hset
    · exact hset.unpate ((conns_set _ _ _).trans (conns_set _ _ _).symm) _
  · have hconn : k.raised = conn := by simpa [hc] using hd
    subst hconn
    obtain ⟨hch, hinterest⟩ := hreg rfl hdis k.raised_ne_zero
    -- one loop asks for `EPOLLOUT` now, the other already did
    refine ⟨k, (t.set d { k with outbuffer := outbuffer }).fdAddWrite d
      { k with outbuffer := outbuffer }, hk, ?_, ?_⟩
    · have hsend := sendInLoop_eq t d (show k.status ≠ .disconnected from hdis) hwrite
      simpa only [hdrained.waiting, Bool.false_eq_true, if_false] using hsend
    · have hasked : hasEvent k.raised.event epollOut = true := hasEvent_out_add k.event
      simp only [hasked, if_true]
      refine ⟨h.stack, h.wheel, h.invoked, .inl ⟨?_, ?_⟩⟩
      · simp only [Loop.fdAddWrite, Loop.unpate, Loop.set, hc, Function.update_idem]
        rfl
      · exact (hp.ask hch hinterest).symm

theorem writeAsBufferAndAdd_nil (b : Buffer) {other : Buffer} (hempty : other.unread = []) :
    b.writeAsBufferAndAdd other = some b := by
  have hlen : other.currentEnableReadSpaceSize = 0 := (unread_eq_nil other).mp hempty
  simp [Buffer.writeAsBufferAndAdd, Buffer.write, hempty, hlen, Buffer.moveWritePosition]

theorem set_self (hc : s.conns c = some conn) : s.set c conn = s := by
  simp only [Loop.set, ← hc, Function.update_eq_self]

/-- A send of no bytes, in one loop only. -/
theorem Twin.skip (h : Twin c s t) (hc : s.conns c = some conn) {b : Buffer}
    (hempty : b.unread = []) (hreg : conn.status ≠ .disconnected → s.Registered c conn)
    (hwaiting : conn.outbuffer.unread ≠ [] → hasEvent conn.event epollOut = true)
    (hs : s.sendInLoop c conn b = some s') : Twin c s' t := by
  by_cases hdis : conn.status = .disconnected
  · have hsame : s' = s := by simpa [Loop.sendInLoop, hdis] using hs.symm
    exact hsame ▸ h
  rw [sendInLoop_eq s c hdis (writeAsBufferAndAdd_nil _ hempty)] at hs
  cases hs
  dsimp only
  rw [set_self hc]
  by_cases hasked : hasEvent conn.event epollOut = true
  · rw [if_pos hasked]
    exact h
  rw [if_neg hasked]
  rcases h.table with ⟨hconns, hpoller⟩ | ⟨k, hk, -, hconns, -⟩
  · obtain ⟨hch, hinterest⟩ := hreg hdis
    have hdrained : conn.Drained :=
      ⟨Bool.eq_false_iff.mpr hasked, not_not.mp fun hne => hasked (hwaiting hne)⟩
    refine ⟨h.stack, h.wheel, h.invoked, .inr ⟨conn, hconns ▸ hc, hdrained, ?_, ?_⟩⟩
    · simp only [Loop.fdAddWrite, Loop.unpate, Loop.set, hconns]
      rfl
    · rw [← hpoller]
      exact Poller.alike_ask hch hinterest
  · have hconn : k.raised = conn := by simpa [hconns] using hc
    subst hconn
    exact absurd (hasEvent_out_add k.event) hasked

/-! ## The steps of the loop, in both loops -/

theorem Twin.poll {ready : List (Nat × UInt32)} {active : List Nat} (h : Twin c s t)
    (hs : s.poll ready = some (s', active)) :
    ∃ t', t.poll ready = some (t', active) ∧ Twin c s' t' := by
  induction ready generalizing s t active with
  | nil =>
    cases hs
    exact ⟨t, rfl, h⟩
  | cons e ready ih =>
    obtain ⟨fd, revents⟩ := e
    obtain ⟨d, hch, hs⟩ := Option.bind_eq_some_iff.mp hs
    obtain ⟨conn, hd, hs⟩ := Option.bind_eq_some_iff.mp hs
    obtain ⟨⟨s₁, active₁⟩, hpoll, hs⟩ := Option.bind_eq_some_iff.mp hs
    cases hs
    obtain ⟨k, hk, -, hset⟩ := h.change hd (f := fun k => { k with revent := revents })
      ⟨fun _ => rfl, fun _ => rfl, fun _ => rfl, fun _ => rfl⟩
    obtain ⟨t', hpoll', htwin⟩ := ih hset hpoll
    rw [h.channels] at hch
    refine ⟨t', ?_, htwin⟩
    simp only [Loop.poll, hch, hk, Option.bind_eq_bind, Option.bind_some, hpoll']
    rfl

theorem Twin.oneTime (h : Twin c s t) : Twin c s.oneTime t.oneTime := by
  refine ⟨?_, ?_, h.invoked, h.table⟩
  · simp only [Loop.oneTime, h.wheel, h.stack]
  · simp only [Loop.oneTime, h.wheel]

/-- `SendInLoop` and `EstablishedInLoop` of connection `c` find it registered once it has asked for
events, and an empty send finds it registered, unless they do nothing. -/
def Settled (c : Nat) (s : Loop) : Task → Prop
  | .sendInLoop d b => d = c → ∀ conn ∈ s.conns c, conn.status ≠ .disconnected →
      b.unread = [] ∨ conn.event ≠ 0 → s.Registered c conn
  | .establishedInLoop d => d = c → ∀ conn ∈ s.conns c, conn.status = .connecting → conn.event ≠ 0 →
      s.Registered c conn
  | _ => True

theorem Twin.runTask (h : Twin c s t) {task : Task} (hsettled : Settled c s task)
    (hs : s.runTask task = some s') : ∃ t', t.runTask task = some t' ∧ Twin c s' t' := by
  cases task with
  | user =>
    cases hs
    exact ⟨_, rfl, h.push .user⟩
  | sendInLoop d b =>
    obtain ⟨conn, hd, hs⟩ := Option.bind_eq_some_iff.mp hs
    have hreg := fun he hdis hevent => hsettled he conn (he ▸ hd) hdis (.inr hevent)
    obtain ⟨k, t', hk, ht, htwin⟩ := h.sendInLoop hd hreg hs
    exact ⟨t', by simp [Loop.runTask, hk, ht], htwin⟩
  | shutDownInLoop d =>
    obtain ⟨conn, hd, hs⟩ := Option.bind_eq_some_iff.mp hs
    cases hs
    obtain ⟨k, hk, htwin⟩ := h.shutDownInLoop hd
    exact ⟨_, by simp [Loop.runTask, hk], htwin⟩
  | enableTimeoutDelInLoop d sec =>
    obtain ⟨conn, hd, hs⟩ := Option.bind_eq_some_iff.mp hs
    obtain ⟨k, t', hk, ht, htwin⟩ := h.enableTimeoutDelInLoop hd hs
    exact ⟨t', by simp [Loop.runTask, hk, ht], htwin⟩
  | disableTimeoutDelInLoop d =>
    obtain ⟨conn, hd, hs⟩ := Option.bind_eq_some_iff.mp hs
    cases hs
    obtain ⟨k, hk, -, htwin⟩ := h.disableTimeoutDelInLoop hd
    exact ⟨_, by simp [Loop.runTask, hk], htwin⟩
  | establishedInLoop d =>
    obtain ⟨conn, hd, hs⟩ := Option.bind_eq_some_iff.mp hs
    cases hs
    obtain ⟨k, hk, htwin⟩ := h.establishedInLoop hd (fun he => hsettled he conn (he ▸ hd))
    exact ⟨_, by simp [Loop.runTask, hk], htwin⟩
  | releaseInloop d =>
    obtain ⟨conn, hd, hs⟩ := Option.bind_eq_some_iff.mp hs
    cases hs
    obtain ⟨k, hk, htwin⟩ := h.releaseInloop hd
    exact ⟨_, by simp [Loop.runTask, hk], htwin⟩

/-- A frame goes on in both loops. One that calls `Release` leaves a task in each queue. -/
theorem Twin.runFrame (h : Twin c s t) {f : Frame} (hs : s.runFrame f = some s') :
    ∃ t', t.runFrame f = some t' ∧ Twin c s' t' := by
  cases f with
  | release d =>
    cases hs
    exact ⟨_, rfl, h.stack, h.wheel, h.invoked, h.table⟩
  | serverClosed d =>
    obtain ⟨conn, hd, hs⟩ := Option.bind_eq_some_iff.mp hs
    cases hs
    have hinvoke := h.invoke d conn .serverClosed
    rcases h.find d with he | ⟨rfl, k, hk, -, hc, -⟩
    · exact ⟨_, by simp [Loop.runFrame, ← he, hd], hinvoke⟩
    · have hconn : k.raised = conn := by simpa [hc] using hd
      subst hconn
      exact ⟨_, by simp only [Loop.runFrame, hk]; rfl, hinvoke⟩
  | handerClose d =>
    obtain ⟨conn, hd, hs⟩ := Option.bind_eq_some_iff.mp hs
    cases hs
    obtain ⟨k, hk, htwin⟩ := h.handerClose hd
    exact ⟨_, by simp [Loop.runFrame, hk], htwin⟩
  | handerErr d =>
    obtain ⟨conn, hd, hs⟩ := Option.bind_eq_some_iff.mp hs
    cases hs
    obtain ⟨k, hk, htwin⟩ := h.handerClose hd
    exact ⟨_, by simp [Loop.runFrame, hk, Loop.handerErr], htwin⟩
  | handerEvent d =>
    obtain ⟨conn, hd, hs⟩ := Option.bind_eq_some_iff.mp hs
    obtain ⟨k, t', hk, ht, htwin⟩ := h.handerEvent hd hs
    exact ⟨t', by simp [Loop.runFrame, hk, ht], htwin⟩
  | shutDownRest d =>
    obtain ⟨conn, hd, hs⟩ := Option.bind_eq_some_iff.mp hs
    cases hs
    obtain ⟨k, hk, htwin⟩ := h.shutDownRest hd
    exact ⟨_, by simp [Loop.runFrame, hk], htwin⟩
  | handerRead d => cases hs
  | handerWrite d => cases hs
  | user => cases hs

end Loop
end MuduoServer
