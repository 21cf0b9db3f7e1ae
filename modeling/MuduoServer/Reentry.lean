import MuduoServer.AfterClose
import MuduoServer.BodyFraming
import MuduoServer.Segmentation

/-!
# Re-entry of the message callback

`OnMessage` calls `Shutdown`, which runs `ShutDownInLoop` at once, and that calls `OnMessage` again
while bytes are left. Here the calls stand on a stack and are run step by step. A parser that a run
has left never finishes a request without a byte, so the stack empties.
-/
namespace MuduoServer

open StdString HttpServer Transition

/-- A function that is running or waits for the one above it to return. -/
inductive CallFrame where
  /-- `OnMessage`, at the condition of its loop. -/
  | onMessage
  /-- `OnMessage` behind `conn->Shutdown()`, where it returns. -/
  | returning
  /-- `ShutDownInLoop`, at its start. -/
  | shutDownInLoop
  /-- `ShutDownInLoop` behind the message callback: the output buffer and `Release`, which
  only queues. -/
  | outbuffer
  deriving DecidableEq

/-- Steps from the frame on, if nothing is read. -/
def CallFrame.weight : CallFrame → Nat
  | .onMessage | .returning | .outbuffer => 1
  | .shutDownInLoop => 3

structure CallStack where
  context : HttpContent
  buffer : Buffer
  /-- Innermost first. -/
  frames : List CallFrame
  events : List Event
  /-- The exception that has unwound the stack. -/
  fault : Option Fault

namespace CallStack

/-- A call of `OnMessage`. -/
def call (context : HttpContent) (buffer : Buffer) : CallStack :=
  ⟨context, buffer, [.onMessage], [], none⟩

/-- The call has returned, with this outcome. -/
def returned (o : Outcome) : CallStack := ⟨o.content, o.buffer, [], o.events, o.fault⟩

def step (srv : HttpServer) (s : CallStack) : CallStack :=
  match s.frames with
  | [] => s
  | .onMessage :: frames =>
    match srv.turn s.context s.buffer with
    | .idle => { s with frames := frames }
    | .wait context buffer => { s with context := context, buffer := buffer, frames := frames }
    | .reply r context buffer =>
      { s with
        context := context
        buffer := buffer
        frames := if r.shutdown then .shutDownInLoop :: .returning :: frames
          else .onMessage :: frames
        events := s.events ++ r.events }
    | .fault context buffer events f => ⟨context, buffer, [], s.events ++ events, some f⟩
  | .shutDownInLoop :: frames =>
    if s.buffer.currentEnableReadSpaceSize > 0
      then { s with frames := .onMessage :: .outbuffer :: frames }
    else { s with frames := .outbuffer :: frames }
  | .returning :: frames | .outbuffer :: frames => { s with frames := frames }

/-- The loop of `OnMessage` begins an iteration. -/
def Iterates (s : CallStack) : Prop := s.frames.head? = some .onMessage ∧ s.buffer.unread ≠ []

/-- `ShutDownInLoop` is about to call `OnMessage`. -/
def Reenters (s : CallStack) : Prop := s.frames.head? = some .shutDownInLoop ∧ s.buffer.unread ≠ []

/-- The frames that only return. -/
def Returns (frames : List CallFrame) : Prop := ∀ f ∈ frames, f = .returning ∨ f = .outbuffer

end CallStack

namespace HttpContent

/-- Before the end of the header section there is no body; behind it a byte of the
body is missing. -/
def Expects (c : HttpContent) : Prop :=
  (c.recvStatu = .recvHttpLine ∨ c.recvStatu = .recvHttpHead) ∧ c.request.body = [] ∨
    c.recvStatu = .recvHttpBody ∧ c.request.Awaits

theorem expects_fresh : fresh.Expects := .inl ⟨.inl rfl, rfl⟩

variable {c : HttpContent} {u : Bytes}

/-- The body stage stops with the whole body or waits for a byte of it. -/
theorem readRequest_body_expects (hc : c.recvStatu = .recvHttpBody)
    (hb : c.request.body = [] ∨ c.request.Awaits)
    (ho : (c.readRequest u).content.recvStatu ≠ .recvHttpOver)
    (hf : (c.readRequest u).fault = none) :
    (c.readRequest u).content.Expects := by
  rw [readRequest_body c u hc] at ho hf ⊢
  cases hn : c.request.bodySize with
  | error f =>
    rw [hn] at hf
    cases hf
  | ok n =>
    rw [hn] at ho
    dsimp only at ho ⊢
    have hsub : sizeSub n c.request.body.length = n - c.request.body.length ∧
        c.request.body.length ≤ n := by
      rcases hb with hb | ⟨n', hn', hlt, hsub⟩
      · rw [hb]
        exact ⟨sizeSub_eq (bodySize_lt hn) (Nat.zero_le n), Nat.zero_le n⟩
      · cases hn.symm.trans hn'
        exact ⟨hsub, Nat.le_of_lt hlt⟩
    rw [hsub.1] at ho ⊢
    split at ho
    · exact absurd rfl ho
    · rename_i hz
      rw [if_neg hz]
      split at ho
      · exact absurd rfl ho
      · rename_i hlong
        rw [if_neg hlong]
        have hlt : (c.request.body ++ u).length < n := by
          rw [List.length_append]
          omega
        exact .inr ⟨hc, n, hn, hlt, sizeSub_eq (bodySize_lt hn) (Nat.le_of_lt hlt)⟩

/-- A call that waits leaves a parser that expects bytes. -/
theorem readRequest_expects (h : c.Expects)
    (ho : (c.readRequest u).content.recvStatu ≠ .recvHttpOver)
    (hst : (c.readRequest u).content.resqStatu < 400) (hf : (c.readRequest u).fault = none) :
    (c.readRequest u).content.Expects := by
  have hstate : c.recvStatu ≠ .recvHttpErr ∧ c.recvStatu ≠ .recvHttpOver ∧
      (c.request.body = [] ∨ c.recvStatu = .recvHttpBody ∧ c.request.Awaits) := by
    rcases h with ⟨hc | hc, hb⟩ | ⟨hc, hb⟩
    · exact ⟨by simp [hc], by simp [hc], .inl hb⟩
    · exact ⟨by simp [hc], by simp [hc], .inl hb⟩
    · exact ⟨by simp [hc], by simp [hc], .inr ⟨hc, hb⟩⟩
  clear h
  induction c, u using request_induction with
  | idle c u hc => exact absurd hc (not_or.mpr ⟨hstate.1, hstate.2.1⟩)
  | body c u hc => exact readRequest_body_expects hc (hstate.2.2.imp id And.right) ho hf
  | wait c u hc hn hlen =>
    rw [readRequest_wait c u hn hc, if_neg (Nat.not_lt.mpr hlen)]
    refine .inl ⟨hc, hstate.2.2.resolve_right fun hb => ?_⟩
    rcases hc with hc | hc <;> simp [hc] at hb
  | fail c u code hcode heq =>
    obtain ⟨rest, he⟩ := heq []
    rw [List.append_nil] at he
    rw [he] at hst
    exact absurd hst (Int.not_lt.mpr hcode)
  | next c u c' rest hc hnext _ hbody _ heq ih =>
    have hu := heq []
    rw [List.append_nil, List.append_nil] at hu
    rw [hu] at ho hst hf ⊢
    have hempty : c.request.body = [] := hstate.2.2.resolve_right fun hb => by
      rcases hc with hc | hc <;> simp [hc] at hb
    refine ih ho hst hf ⟨?_, ?_, .inl (hbody.trans hempty)⟩ <;> rcases hnext with hnext | hnext <;> simp [hnext]

/-- A finished request has used up a byte. -/
theorem step_done_lt (h : c.Expects) {o : HttpRequest} {r : Bytes}
    (hs : httpParser.step c u = .done o r) :
    r.length < u.length := by
  have hst : c.resqStatu < 400 := Int.not_le.mp fun hbad => by
    rw [step_failed c u hbad] at hs
    cases hs
  rcases h with ⟨hc, -⟩ | ⟨hc, n, hn, hlt, hsub⟩
  · exact (step_done_length c u o r hs).2 hc
  · rw [step_body c u hc hst, hn] at hs
    dsimp only at hs
    rw [if_neg (by omega), hsub] at hs
    split at hs
    · cases hs
      rw [List.length_drop]
      omega
    · cases hs

end HttpContent

namespace HttpServer

variable (srv : HttpServer) {context context' : HttpContent} {buffer buffer' : Buffer}

theorem read_of_call {ret : Bool}
    (h : context.recvHttpRequest buffer = ⟨context', buffer', .ok ret⟩) :
    context.readRequest buffer.unread = ⟨context', buffer'.unread, none⟩ := by
  rw [← HttpContent.recvHttpRequest_read, h]
  rfl

/-- No turn adds bytes to the buffer. -/
theorem turn_rest (context : HttpContent) (buffer : Buffer) :
    ((srv.turn context buffer).rest buffer).unread.length ≤ buffer.unread.length := by
  have hrest : (context.recvHttpRequest buffer).buffer.unread.length ≤ buffer.unread.length := by
    obtain ⟨p, hp⟩ := context.readRequest_suffix buffer.unread
    rw [← context.recvHttpRequest_read buffer] at hp
    conv_rhs => rw [hp]
    rw [List.length_append]
    exact Nat.le_add_left _ _
  unfold turn
  split
  · exact Nat.le_refl _
  · split
    · rename_i hcall
      rwa [hcall] at hrest
    · rename_i context₁ buffer₁ ret hcall
      rw [hcall] at hrest
      dsimp only
      split
      · split
        · exact hrest
        · split
          · exact hrest
          · rename_i b hmove
            simp [Turn.rest, Buffer.unread_moveReadPosition hmove]
      · split
        · exact hrest
        · split <;> exact hrest

/-- A turn that waits or answers leaves a parser that expects bytes. -/
theorem turn_expects (h : context.Expects) (buffer : Buffer) :
    (srv.turn context buffer).Leaves HttpContent.Expects (fun _ => True) := by
  unfold turn
  split
  · trivial
  · split
    · trivial
    · rename_i context₁ buffer₁ ret hcall
      dsimp only
      split
      · split
        · trivial
        · split
          · trivial
          · exact ⟨HttpContent.expects_fresh, trivial⟩
      · rename_i hok
        split
        · rename_i hwait
          have hexpects := HttpContent.readRequest_expects (u := buffer.unread) h
          rw [read_of_call hcall] at hexpects
          exact hexpects hwait (Int.not_le.mp hok) rfl
        · split
          · trivial
          · exact ⟨HttpContent.expects_fresh, trivial⟩

/-- A turn that answers has used up a byte. -/
theorem turn_uses (h : context.Expects) {r : Reply}
    (hturn : srv.turn context buffer = .reply r context' buffer') :
    buffer'.unread.length < buffer.unread.length := by
  unfold turn at hturn
  split at hturn
  · cases hturn
  · rename_i hbytes
    split at hturn
    · cases hturn
    · rename_i context₁ buffer₁ ret hcall
      dsimp only at hturn
      split at hturn
      · split at hturn
        · cases hturn
        · split at hturn
          · cases hturn
          · rename_i b hmove
            cases hturn
            rw [Buffer.unread_moveReadPosition hmove, List.length_drop, Buffer.length_unread,
              Buffer.length_unread]
            omega
      · rename_i hok
        split at hturn
        · cases hturn
        · rename_i hover
          have hdone : httpParser.step context buffer.unread =
              .done context₁.request buffer₁.unread := by
            simp only [httpParser, read_of_call hcall, Read.step]
            simp [hok, Decidable.not_not.mp hover]
          split at hturn
          · cases hturn
          · cases hturn
            exact HttpContent.step_done_lt h hdone

end HttpServer

namespace CallStack

variable {srv : HttpServer} {s : CallStack}

/-- A running call: the parser expects bytes, and all frames below the innermost one only return. -/
structure Proceeds (s : CallStack) : Prop where
  expects : s.frames ≠ [] → s.context.Expects
  below : Returns s.frames.tail

theorem proceeds_call {context : HttpContent} (h : context.Expects) (buffer : Buffer) :
    Proceeds (call context buffer) :=
  ⟨fun _ => h, by simp [Returns, call]⟩

/-- Nothing is left to do but to return. -/
theorem step_returns (srv : HttpServer) (h : Returns s.frames) : Returns (step srv s).frames := by
  unfold step
  split
  · exact h
  · rename_i hf
    exact absurd (h .onMessage (hf ▸ List.mem_cons_self)) (by decide)
  · rename_i hf
    exact absurd (h .shutDownInLoop (hf ▸ List.mem_cons_self)) (by decide)
  · rename_i hf
    exact fun f hin => h f (hf ▸ List.mem_cons_of_mem _ hin)
  · rename_i hf
    exact fun f hin => h f (hf ▸ List.mem_cons_of_mem _ hin)

/-- What is left to do: an answer costs a byte and pays for the frames it brings. -/
def rank (s : CallStack) : Nat := 4 * s.buffer.unread.length + (s.frames.map CallFrame.weight).sum

/-- What one step does. -/
structure Advances (s s' : CallStack) : Prop where
  proceeds : Proceeds s'
  size : s'.buffer.unread.length ≤ s.buffer.unread.length
  rank : s.frames ≠ [] → rank s' < rank s
  /-- An iteration uses up a byte or is the last one. -/
  iterates : s.Iterates → s'.buffer.unread.length < s.buffer.unread.length ∨ Returns s'.frames
  reenters : s.Reenters → ¬s'.Reenters ∧ s'.Iterates

/-- A turn of `OnMessage`. -/
theorem advances_turn {context : HttpContent} {buffer : Buffer} {frames : List CallFrame}
    {events : List Event} {fault : Option Fault}
    (h : Proceeds ⟨context, buffer, .onMessage :: frames, events, fault⟩) :
    Advances ⟨context, buffer, .onMessage :: frames, events, fault⟩
      (step srv ⟨context, buffer, .onMessage :: frames, events, fault⟩) := by
  have hexpects : context.Expects := h.expects (List.cons_ne_nil _ _)
  have hbelow : Returns frames := h.below
  have htail : Returns frames.tail := fun f hin => hbelow f (List.mem_of_mem_tail hin)
  have hleaves := srv.turn_expects hexpects buffer
  have hrest := srv.turn_rest context buffer
  have huses : ∀ r context' buffer', srv.turn context buffer = .reply r context' buffer' →
      buffer'.unread.length < buffer.unread.length := fun _ _ _ => srv.turn_uses hexpects
  simp only [step]
  cases hturn : srv.turn context buffer with
  | idle =>
    refine ⟨⟨fun _ => hexpects, htail⟩, Nat.le_refl _, fun _ => ?_, fun _ => .inr hbelow,
      fun hre => ?_⟩
    · simp [rank, CallFrame.weight]
    · simp [Reenters] at hre
  | wait context' buffer' =>
    rw [hturn] at hleaves hrest
    refine ⟨⟨fun _ => hleaves, htail⟩, hrest, fun _ => ?_, fun _ => .inr hbelow, fun hre => ?_⟩
    · simp only [rank, List.map_cons, List.sum_cons, CallFrame.weight]
      simp only [Turn.rest] at hrest
      omega
    · simp [Reenters] at hre
  | fault context' buffer' events' f =>
    rw [hturn] at hrest
    have hnone : Returns [] := List.forall_mem_nil _
    refine ⟨⟨fun hne => absurd rfl hne, hnone⟩, hrest, fun _ => ?_, fun _ => .inr hnone,
      fun hre => ?_⟩
    · simp only [rank, List.map_cons, List.map_nil, List.sum_cons, List.sum_nil, CallFrame.weight]
      simp only [Turn.rest] at hrest
      omega
    · simp [Reenters] at hre
  | reply r context' buffer' =>
    rw [hturn] at hleaves
    have hless := huses r context' buffer' hturn
    refine ⟨⟨fun _ => hleaves.1, ?_⟩, Nat.le_of_lt hless, fun _ => ?_, fun _ => .inl hless,
      fun hre => ?_⟩
    · dsimp only
      split
      · exact List.forall_mem_cons.mpr ⟨.inl rfl, hbelow⟩
      · exact hbelow
    · simp only [rank]
      split <;> simp only [List.map_cons, List.sum_cons, CallFrame.weight] <;> omega
    · simp [Reenters] at hre

theorem advances_step (srv : HttpServer) (h : Proceeds s) : Advances s (step srv s) := by
  obtain ⟨context, buffer, frames, events, fault⟩ := s
  cases frames with
  | nil =>
    refine ⟨h, Nat.le_refl _, fun hne => absurd rfl hne, fun hit => ?_, fun hre => ?_⟩
    · simp [Iterates] at hit
    · simp [Reenters] at hre
  | cons frame frames =>
    have hexpects : context.Expects := h.expects (List.cons_ne_nil _ _)
    have hbelow : Returns frames := h.below
    have htail : Returns frames.tail := fun f hin => hbelow f (List.mem_of_mem_tail hin)
    have hpop : frame ≠ .onMessage → frame ≠ .shutDownInLoop →
        Advances ⟨context, buffer, frame :: frames, events, fault⟩
          ⟨context, buffer, frames, events, fault⟩ := by
      intro hmsg hshut
      refine ⟨⟨fun _ => hexpects, htail⟩, Nat.le_refl _, fun _ => ?_, fun _ => .inr hbelow,
        fun hre => ?_⟩
      · simp only [rank, List.map_cons, List.sum_cons]
        cases frame <;> simp [CallFrame.weight]
      · exact absurd (Option.some.inj hre.1) hshut
    cases frame with
    | onMessage => exact advances_turn h
    | returning => exact hpop (by decide) (by decide)
    | outbuffer => exact hpop (by decide) (by decide)
    | shutDownInLoop =>
      have hrest : Returns (.outbuffer :: frames) := List.forall_mem_cons.mpr ⟨.inr rfl, hbelow⟩
      simp only [step]
      split
      · refine ⟨⟨fun _ => hexpects, hrest⟩, Nat.le_refl _, fun _ => ?_, fun hit => ?_,
          fun hre => ?_⟩
        · simp only [rank, List.map_cons, List.sum_cons, CallFrame.weight]
          omega
        · simp [Iterates] at hit
        · exact ⟨fun hagain => absurd hagain.1 (by simp), rfl, hre.2⟩
      · rename_i hempty
        refine ⟨⟨fun _ => hexpects, hbelow⟩, Nat.le_refl _, fun _ => ?_, fun hit => ?_,
          fun hre => ?_⟩
        · simp only [rank, List.map_cons, List.sum_cons, CallFrame.weight]
          omega
        · simp [Iterates] at hit
        · have hpos : buffer.currentEnableReadSpaceSize = 0 := by
            omega
          exact absurd ((Loop.unread_eq_nil _).mpr hpos) hre.2

theorem proceeds_iterate (srv : HttpServer) (h : Proceeds s) (n : Nat) :
    Proceeds ((step srv)^[n] s) :=
  Function.Iterate.rec Proceeds h (fun _ hs => (advances_step srv hs).proceeds) n

theorem size_iterate (srv : HttpServer) (h : Proceeds s) (n : Nat) :
    ((step srv)^[n] s).buffer.unread.length ≤ s.buffer.unread.length := by
  induction n with
  | zero => exact Nat.le_refl _
  | succ n ih =>
    rw [Function.iterate_succ_apply']
    exact (advances_step srv (proceeds_iterate srv h n)).size.trans ih

theorem not_iterates_of_returns (h : Returns s.frames) : ¬s.Iterates ∧ ¬s.Reenters := by
  refine ⟨fun hit => ?_, fun hre => ?_⟩
  · exact absurd (h _ (List.mem_of_mem_head? hit.1)) (by decide)
  · exact absurd (h _ (List.mem_of_mem_head? hre.1)) (by decide)

/-- An iteration that is followed by another one or by a re-entry has used up a byte. -/
theorem iterates_uses (srv : HttpServer) (h : Proceeds s) (hit : s.Iterates) {n : Nat}
    (hlater : ((step srv)^[n + 1] s).Iterates ∨ ((step srv)^[n + 1] s).Reenters) :
    ((step srv)^[n + 1] s).buffer.unread.length < s.buffer.unread.length := by
  rw [Function.iterate_succ_apply] at hlater ⊢
  have hadvance := advances_step srv h
  rcases hadvance.iterates hit with hless | hreturns
  · exact Nat.lt_of_le_of_lt (size_iterate srv hadvance.proceeds n) hless
  · have hend : Returns ((step srv)^[n] (step srv s)).frames :=
      Function.Iterate.rec (fun s : CallStack => Returns s.frames) hreturns
        (fun _ hs => step_returns srv hs) n
    obtain ⟨hnit, hnre⟩ := not_iterates_of_returns hend
    exact absurd hlater (not_or.mpr ⟨hnit, hnre⟩)

theorem reenters_uses (srv : HttpServer) (h : Proceeds s) (hre : s.Reenters) {n : Nat}
    (hlater : ((step srv)^[n + 1] s).Reenters) :
    ((step srv)^[n + 1] s).buffer.unread.length < s.buffer.unread.length := by
  rw [Function.iterate_succ_apply] at hlater ⊢
  have hadvance := advances_step srv h
  obtain ⟨hnot, hit⟩ := hadvance.reenters hre
  cases n with
  | zero => exact absurd hlater hnot
  | succ n =>
    exact Nat.lt_of_lt_of_le (iterates_uses srv hadvance.proceeds hit (.inr hlater)) hadvance.size

/-- The stack empties. -/
theorem ends (srv : HttpServer) (h : Proceeds s) :
    ∃ n ≤ rank s, ((step srv)^[n] s).frames = [] := by
  induction hr : rank s using Nat.strong_induction_on generalizing s with
  | _ k ih =>
    by_cases hempty : s.frames = []
    · exact ⟨0, Nat.zero_le _, hempty⟩
    · have hadvance := advances_step srv h
      have hless := hadvance.rank hempty
      obtain ⟨n, hn, hend⟩ := ih _ (hr ▸ hless) hadvance.proceeds rfl
      exact ⟨n + 1, by omega, hend⟩

/-- Frames that only return leave the stack one after the other. -/
theorem returns_unwind (srv : HttpServer) (h : Returns s.frames) :
    (step srv)^[s.frames.length] s = { s with frames := [] } := by
  obtain ⟨context, buffer, frames, events, fault⟩ := s
  induction frames with
  | nil => rfl
  | cons frame frames ih =>
    rw [List.length_cons, Function.iterate_succ_apply]
    rcases h frame List.mem_cons_self with rfl | rfl <;> exact ih fun f hin =>
      h f (List.mem_cons_of_mem _ hin)

theorem step_ended (srv : HttpServer) (h : s.frames = []) (n : Nat) : (step srv)^[n] s = s := by
  have hstep : step srv s = s := by
    unfold step
    rw [h]
  exact Function.iterate_fixed hstep n

theorem returned_unwind (srv : HttpServer) {context : HttpContent} {buffer : Buffer}
    {frames : List CallFrame} {events : List Event} (h : Returns frames) :
    ∃ n, (step srv)^[n] ⟨context, buffer, frames, events, none⟩ =
      returned (Outcome.after events ⟨context, buffer, [], none, true⟩) :=
  ⟨_, (returns_unwind srv h).trans (by simp [returned, Outcome.after])⟩

/-- One step, and what is left. -/
theorem unwind_step {s t : CallStack} (h : ∃ n, (step srv)^[n] (step srv s) = t) :
    ∃ n, (step srv)^[n] s = t := by
  obtain ⟨n, hn⟩ := h
  exact ⟨n + 1, hn⟩

/-- The stack does what the loop of `onMessage` does. -/
theorem onMessage_unwind (srv : HttpServer) (fuel : Nat) (context : HttpContent) (buffer : Buffer)
    (frames : List CallFrame) (events : List Event) (hframes : Returns frames)
    (hfuel : (srv.onMessage fuel context buffer).finished = true) :
    ∃ n, (step srv)^[n] ⟨context, buffer, .onMessage :: frames, events, none⟩ =
      returned ((srv.onMessage fuel context buffer).after events) := by
  induction fuel generalizing context buffer frames events with
  | zero => cases hfuel
  | succ fuel ih =>
    rw [srv.onMessage_turn] at hfuel ⊢
    apply unwind_step
    simp only [step]
    cases hturn : srv.turn context buffer with
    | idle => exact returned_unwind srv hframes
    | wait context' buffer' => exact returned_unwind srv hframes
    | fault context' buffer' events' f => exact ⟨0, rfl⟩
    | reply r context' buffer' =>
      rw [hturn] at hfuel
      have hevents : ((srv.onMessage fuel context' buffer').after r.events).after events =
          (srv.onMessage fuel context' buffer').after (events ++ r.events) := by
        simp [Outcome.after]
      simp only [afterTurn, hevents]
      split
      · have hbelow : Returns (.outbuffer :: .returning :: frames) :=
          List.forall_mem_cons.mpr ⟨.inr rfl, List.forall_mem_cons.mpr ⟨.inl rfl, hframes⟩⟩
        apply unwind_step
        simp only [step]
        split
        · exact ih _ _ _ _ hbelow hfuel
        · -- nothing is left to read, and `onMessage` stops at once
          rename_i hbytes
          have hempty : buffer'.unread = [] := (Loop.unread_eq_nil _).mpr (by omega)
          cases fuel with
          | zero => cases hfuel
          | succ fuel =>
            rw [srv.onMessage_empty context' hempty]
            exact returned_unwind srv hbelow
      · exact ih _ _ _ _ hframes hfuel

/-- A call of `OnMessage`, from every parser state that a run of the server can leave and on every
buffer, returns within four steps for each byte, with the outcome of `onMessage`. An iteration of
its loop that is followed by another iteration or by a re-entry has used up a byte, and so has a
re-entry that is followed by another one. -/
theorem onMessage_ends (srv : HttpServer) (acts : List HttpLoop.Act) (s : HttpLoop)
    (h : exec (HttpLoop.step srv) HttpLoop.start acts = some s) (c : Nat) (buffer : Buffer) :
    (∃ n ≤ 4 * buffer.unread.length + 1, (step srv)^[n] (call (s.contexts c) buffer) =
      returned (srv.onMessage ((s.contexts c).loopFuel buffer) (s.contexts c) buffer)) ∧
    ∀ n k t t', (step srv)^[n] (call (s.contexts c) buffer) = t → (step srv)^[k + 1] t = t' →
      (t.Iterates → t'.Iterates ∨ t'.Reenters → t'.buffer.unread.length < t.buffer.unread.length) ∧
      (t.Reenters → t'.Reenters → t'.buffer.unread.length < t.buffer.unread.length) := by
  have hexpects : (s.contexts c).Expects :=
    (HttpLoop.leaves_exec HttpContent.expects_fresh (fun _ buffer hc => srv.turn_expects hc buffer) h).1 c
  have hcall : Proceeds (call (s.contexts c) buffer) := proceeds_call hexpects buffer
  refine ⟨?_, ?_⟩
  · obtain ⟨n, hn, hend⟩ := ends srv hcall
    obtain ⟨m, hm⟩ := onMessage_unwind srv _ (s.contexts c) buffer [] [] nofun
      (srv.onMessage_finished (s.contexts c) buffer)
    refine ⟨n, hn, ?_⟩
    -- the stack is empty after `n` steps and after `m`, so both are its end
    have hsame : (step srv)^[m + n] (call (s.contexts c) buffer) =
        (step srv)^[n] (call (s.contexts c) buffer) := by
      rw [Function.iterate_add_apply, step_ended srv hend]
    rw [← hsame, Nat.add_comm, Function.iterate_add_apply]
    exact (congrArg (step srv)^[n] hm).trans (step_ended srv rfl n)
  · rintro n k t t' rfl rfl
    have hproceeds := proceeds_iterate srv hcall n
    exact ⟨fun hit => iterates_uses srv hproceeds hit, fun hre => reenters_uses srv hproceeds hre⟩

/-- The rest of a header section, and a request behind it. -/
def pipelinedRest : Bytes := ascii "st: a\r\n\r\nGET / HTTP/1.1\r\n\r\n"

theorem onMessage_ends_midHeader :
    ∃ s, exec (HttpLoop.step HttpLoop.bareFiles) HttpLoop.start
        (HttpLoop.receive (ascii "GET / HTTP/1.1\r\nHo") ++ [.onMessage]) = some s ∧
      (s.contexts 1).recvStatu = .recvHttpHead ∧
      ∃ n ≤ 4 * (Buffer.ofBytes pipelinedRest).unread.length + 1,
        (step HttpLoop.bareFiles)^[n] (call (s.contexts 1) (Buffer.ofBytes pipelinedRest)) =
          returned (HttpLoop.bareFiles.onMessage
            ((s.contexts 1).loopFuel (Buffer.ofBytes pipelinedRest)) (s.contexts 1)
            (Buffer.ofBytes pipelinedRest)) := by
  have hrun : ((exec (HttpLoop.step HttpLoop.bareFiles) HttpLoop.start
      (HttpLoop.receive (ascii "GET / HTTP/1.1\r\nHo") ++ [.onMessage])).map fun s =>
        (s.contexts 1).recvStatu) = some .recvHttpHead := by
    decide +kernel
  obtain ⟨s, hs, hstate⟩ := Option.map_eq_some_iff.mp hrun
  exact ⟨s, hs, hstate, (onMessage_ends HttpLoop.bareFiles _ s hs 1 (Buffer.ofBytes pipelinedRest)).1⟩

end CallStack
end MuduoServer
