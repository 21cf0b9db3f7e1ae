import Mathlib.Algebra.BigOperators.Group.Finset.Piecewise
import Mathlib.Algebra.Order.BigOperators.Group.Finset
import MuduoServer.HttpRefinement
import MuduoServer.RoundsEnd

/-!
# A round of the HTTP server ends

Requests are answered on the loop's thread, one after the other, and an answer may
bring on the next call of `OnMessage`. But an answer uses up a byte, and a round reads at
most once from each connection that is active. So whatever clients send, the
server's thread is back in `epoll_wait` after a bounded number of steps, but for the
timerfd, the acceptor and the tasks that other threads queue.
-/
namespace MuduoServer

open StdString Transition

/-- The active channels still to be handled. -/
def Phase.active : Phase → List Nat
  | .handle active => active
  | .poll | .run _ => []

namespace Loop

/-- How often the rest of the round can call `recv`. -/
def reads (s : Loop) : Nat := s.stack.countP Frame.reads + s.phase.active.length

/-- The bytes that wait in the input buffers of these connections. -/
def stock (ids : Finset Nat) (s : Loop) : Nat := ∑ c ∈ ids, (s.view c).input.length

/-- How many steps are left of the round at most, when user code uses up a byte for each call
of `Shutdown`. -/
def potential (ids : Finset Nat) (s : Loop) : Nat := s.rank + 8 * (s.stock ids + 65535 * s.reads)

variable {ids : Finset Nat} {s s' : Loop} {c : Nat} {conn : Connection}

theorem reads_push {f : Frame} (hf : f.reads = false) (s : Loop) : (s.push f).reads = s.reads := by
  simp [reads, push, hf]

theorem reads_invoke (s : Loop) (c : Nat) (conn : Connection) (kind : Callback) :
    (s.invoke c conn kind).reads = s.reads := by
  unfold invoke
  cases conn.callbacks kind with
  | none => rfl
  | some f => simp [reads, Frame.reads]

theorem reads_releaseInloop (s : Loop) (c : Nat) (conn : Connection) :
    (s.releaseInloop c conn).reads = s.reads := by
  unfold releaseInloop
  dsimp only
  rw [reads_invoke, reads_push rfl]
  split
  · rfl
  · rfl

/-- No function reads but by its handler. -/
theorem Work.reads (h : Work c s s') : s'.reads = s.reads := by
  obtain ⟨new, hstack, hnew⟩ := h.stack
  have hnone : new.countP Frame.reads = 0 := by
    rw [List.countP_eq_zero]
    intro f hf
    obtain rfl | rfl | rfl := hnew f hf <;> simp [Frame.reads]
  rw [Loop.reads, Loop.reads, h.phase, hstack, List.countP_append, hnone, Nat.zero_add]

theorem reads_channelHanderEvent (c : Nat) (revent : UInt32) :
    (channelHanderEvent c revent).countP Frame.reads ≤ 1 := by
  unfold channelHanderEvent
  split <;> split <;> try split <;> try split
  all_goals simp [Frame.reads, List.countP_cons]

theorem reads_step {a : Act} (ha : a.polls = false) (h : step s a = some s') :
    s'.reads ≤ s.reads := by
  cases step_effect h with
  | work hon henter hwork =>
    rw [hwork.reads]
    cases henter with
    | frame hs hc hrelease hserver =>
      simp only [reads, hs, List.countP_cons]
      omega
    | task hp hc hrelease => simp only [reads, hp, Phase.active, Nat.le_refl]
    | user => exact Nat.le_refl _
  | releaseInloop hp hs hc =>
    rw [reads_releaseInloop]
    simp only [reads, hp, Phase.active, Nat.le_refl]
  | release hs =>
    simp only [reads, queueInLoop, hs, List.countP_cons]
    omega
  | serverClosed hs hc =>
    rw [reads_invoke]
    simp only [reads, hs, List.countP_cons]
    omega
  | handle hp hs hc =>
    have hnew := reads_channelHanderEvent ‹Nat› (Connection.revent ‹Connection›)
    simp only [reads, hp, hs, Phase.active, List.length_cons, List.countP_nil]
    omega
  | swap hp hs => simp [reads, hp, hs, Phase.active]
  | userTask hp => simp [reads, hp, push, Phase.active, Frame.reads]
  | batchDone hp => simp [reads, hp, Phase.active]
  | ret hs =>
    simp only [reads, hs, List.countP_cons]
    omega
  | timer hp hs =>
    -- the handler of the timerfd calls `Release`, which reads nothing
    have hnone : s.oneTime.stack.countP Frame.reads = 0 := by
      rw [List.countP_eq_zero]
      intro f hf
      rw [oneTime, hs, List.append_nil] at hf
      obtain ⟨t, -, rfl⟩ := List.mem_map.mp hf
      exact Bool.false_ne_true
    rw [reads, hnone, Nat.zero_add]
    exact Nat.le_add_left _ _
  | other => exact (reads_push rfl s).le
  | userCall => exact (reads_push rfl s).le
  | newConnection hc hsocket hfd => exact Nat.le_refl _
  | post task => exact Nat.le_refl _
  | pollReturn hp hsame hother hactive => cases ha

/-- `recv` is called. -/
theorem reads_recv {r : SysResult} {bytes : Bytes} (h : step s (.recv r bytes) = some s') :
    s'.reads + 1 = s.reads := by
  obtain ⟨d, stack, conn, hs, hc, -, hrun⟩ := step_recv h
  have hwork : Work d { s with stack := stack } s' := work_handerRead hc hrun
  rw [hwork.reads]
  simp only [reads, hs, List.countP_cons, Frame.reads, if_true]
  omega

/-- Nothing but `recv` adds to an input buffer. -/
theorem input_le {a : Act} (hr : ∀ r bytes, a ≠ .recv r bytes) (h : step s a = some s') (c : Nat) :
    (s'.view c).input.length ≤ (s.view c).input.length := by
  rw [view_step h]
  by_cases hreads : HttpLoop.readsInput (s.event c a) = true
  · obtain ⟨r, bytes, rfl, -⟩ | ⟨len, rfl⟩ := HttpLoop.event_input hreads
    · exact absurd rfl (hr r bytes)
    · simp only [event, if_true, View.step, List.length_drop]
      exact Nat.sub_le _ _
  · refine (congrArg List.length (HttpLoop.input_step _ (fun bytes he => ?_) fun len he => ?_)).le
    · simp [he, HttpLoop.readsInput] at hreads
    · simp [he, HttpLoop.readsInput] at hreads

theorem input_recv {r : SysResult} {bytes : Bytes} (h : step s (.recv r bytes) = some s') :
    ∃ d, ∀ c, (s'.view c).input.length ≤ (s.view c).input.length + if c = d then 65535 else 0 := by
  obtain ⟨d, stack, conn, hs, -, ⟨hret, hlen⟩, -⟩ := step_recv h
  refine ⟨d, fun c => ?_⟩
  rw [view_step h]
  by_cases hcd : c = d
  · have hbytes : bytes.length ≤ 65535 := by
      rw [hlen]
      unfold Socket.recv Socket.checked
      split <;> omega
    have he : s.event c (.recv r bytes) = if Socket.recv r < 0 then .shutDown
        else .received bytes := by
      simp [event, hs, hcd]
    rw [he, if_pos hcd]
    split
    · exact Nat.le_add_right _ _
    · simp only [View.step, List.length_append]
      omega
  · simp [event, hs, Ne.symm hcd, View.step]

theorem stock_le (h : ∀ c, (s'.view c).input.length ≤ (s.view c).input.length) :
    s'.stock ids ≤ s.stock ids :=
  Finset.sum_le_sum fun c _ => h c

/-- A read adds what fits into its buffer. -/
theorem stock_recv {r : SysResult} {bytes : Bytes} (h : step s (.recv r bytes) = some s') :
    s'.stock ids ≤ s.stock ids + 65535 := by
  obtain ⟨d, hd⟩ := input_recv h
  calc s'.stock ids ≤ ∑ c ∈ ids, ((s.view c).input.length + if c = d then 65535 else 0) :=
        Finset.sum_le_sum fun c _ => hd c
    _ = s.stock ids + if d ∈ ids then 65535 else 0 := by
      rw [Finset.sum_add_distrib, Finset.sum_ite_eq', stock]
    _ ≤ s.stock ids + 65535 := by split <;> omega

/-- Every step makes the rest of the round shorter, whatever it reads, but for what
it is charged. -/
theorem potential_step {a : Act} (ha : a.polls = false) (hrest : s.Rested)
    (h : step s a = some s') :
    s'.potential ids + 1 ≤ s.potential ids + s.charge a := by
  have hrank := rank_charge ha hrest h
  by_cases hr : ∃ r bytes, a = .recv r bytes
  · obtain ⟨r, bytes, rfl⟩ := hr
    have hreads := reads_recv h
    have hstock : s'.stock ids ≤ s.stock ids + 65535 := stock_recv h
    unfold potential
    omega
  · have hreads := reads_step ha h
    have hstock : s'.stock ids ≤ s.stock ids :=
      stock_le (input_le (fun r bytes hrecv => hr ⟨r, bytes, hrecv⟩) h)
    unfold potential
    omega

/-- A return is a step of the loop's own. -/
theorem potential_ret (hrest : s.Rested) (h : step s .ret = some s') :
    s'.potential ids + 1 ≤ s.potential ids :=
  potential_step rfl hrest h

/-- User code calls a function of the connection, which reads nothing. -/
theorem potential_call {task : Task} {n : Nat} (hc : task.conn = some c)
    (h : step s (.call task) = some s') (hleaves : ∀ later ≤ 4, Leaves later n s s') :
    s'.potential ids ≤ s.potential ids + n := by
  obtain ⟨-, hnot, hrun⟩ := step_call h
  have hreads : s'.reads = s.reads := by
    obtain ⟨rfl, -⟩ | ⟨d, conn, rfl, -, -⟩ | ⟨d, -, -, hwork⟩ := runTask_cases hrun
    · cases hc
    · cases hnot
    · exact hwork.reads
  have hrank := rank_leaves hleaves
  have hstock : s'.stock ids ≤ s.stock ids :=
    stock_le fun d => (congrArg List.length (HttpLoop.input_call h d)).le
  unfold potential
  omega

/-- The connection that is created. -/
def Act.opens : Act → Option Nat
  | .newConnection c _ _ => some c
  | _ => none

/-- The connections that are created in a run. -/
def opened (acts : List Act) : Finset Nat := (acts.filterMap Act.opens).toFinset

theorem live_before {a : Act} (h : step s a = some s') (hc : s'.Live c) :
    s.Live c ∨ a.opens = some c := by
  obtain ⟨d, connectCb, closeCb, msgCb, rfl⟩ | ⟨d, fd, callbacks, rfl, -, -, hothers⟩ | hcalls :=
    step_calls h
  · obtain ⟨-, conn, hconn, rfl⟩ := step_changeProtocal h
    left
    by_cases hcd : c = d
    · simp [Live, hcd, hconn]
    · simpa [Live, changeProtocalInLoop, set, hcd] using hc
  · by_cases hcd : c = d
    · exact .inr (congrArg some hcd.symm)
    · rw [Live, hothers c hcd] at hc
      exact .inl hc
  · have hsame := congrArg Option.isSome (hcalls.callbacks c)
    rw [Option.isSome_map, Option.isSome_map] at hsame
    rw [Live, hsame] at hc
    exact .inl hc

/-- Connections that are not there have nothing to read. -/
theorem potential_union {opening : Finset Nat} (hids : ∀ c, s.Live c → c ∈ ids) :
    s.potential (ids ∪ opening) = s.potential ids := by
  have hstock : s.stock (ids ∪ opening) = s.stock ids := by
    refine (Finset.sum_subset Finset.subset_union_left fun c _ hc => ?_).symm
    have hnone : s.conns c = none := by
      by_contra hlive
      exact hc (hids c (Option.isSome_iff_ne_none.mpr hlive))
    rw [view, hnone]
    rfl
  rw [potential, potential, hstock]

/-- Connections are there because they have been created. -/
theorem live_opened {acts : List Act} (h : exec step start acts = some s) :
    ∀ c, s.Live c → c ∈ opened acts := by
  refine exec_history (fun acts s => ∀ c, Live s c → c ∈ opened acts) ?_ ?_ h
  · intro c hc
    cases hc
  · intro acts s a s' _ ih hstep c hc
    simp only [opened, List.mem_toFinset, List.filterMap_append, List.mem_append] at ih ⊢
    obtain hold | hnew := live_before hstep hc
    · exact .inl (ih c hold)
    · right
      simp [hnew]

end Loop

namespace HttpLoop

open HttpServer

/-- The steps that the server takes of itself in a round, turns of `OnMessage` among them. -/
def Act.inRound : Act → Bool
  | .loop a => a.inRound
  | .onMessage | .ret => true

/-- `epoll_wait` returns, and a round begins. -/
def Act.polls : Act → Bool
  | .loop a => a.polls
  | .onMessage | .ret => false

/-- The connection that is created. -/
def Act.opens : Act → Option Nat
  | .loop a => a.opens
  | .onMessage | .ret => none

/-- A turn of `OnMessage` is paid for by the bytes that it uses up. -/
def charge (s : HttpLoop) : Act → Nat
  | .loop a => s.loop.charge a
  | .onMessage | .ret => 0

variable {srv : HttpServer} {ids : Finset Nat} {s s' : HttpLoop} {c : Nat} {conn : Connection}
    {running : List Running}

/-- The parser takes bytes from the buffer. -/
theorem stock_store (hc : s.loop.conns c = some conn) (context : HttpContent) {buffer : Buffer}
    (hle : buffer.unread.length ≤ conn.inbuffer.unread.length) :
    (s.store c conn context buffer).loop.stock ids ≤ s.loop.stock ids := by
  refine Loop.stock_le fun d => ?_
  rw [input_store hc]
  split
  · rename_i hd
    rw [hd, view_inbuffer hc]
    exact hle
  · exact Nat.le_refl _

theorem stock_store_lt (hc : s.loop.conns c = some conn) (hin : c ∈ ids) (context : HttpContent)
    {buffer : Buffer} (hlt : buffer.unread.length < conn.inbuffer.unread.length) :
    (s.store c conn context buffer).loop.stock ids < s.loop.stock ids := by
  refine Finset.sum_lt_sum (fun d _ => ?_) ⟨c, hin, ?_⟩
  · rw [input_store hc]
    split
    · rename_i hd
      rw [hd, view_inbuffer hc]
      exact hlt.le
    · exact Nat.le_refl _
  · rw [input_store hc, if_pos rfl, view_inbuffer hc]
    exact hlt

/-- A turn that answers has used up a byte, which pays for what `Shutdown` brings. -/
theorem potential_turn {context : HttpContent} (hexpects : context.Expects) (hrest : s.loop.Rested)
    (hc : s.loop.conns c = some conn) (hin : c ∈ ids)
    (h : s.takeTurn c conn running (srv.turn context conn.inbuffer) = some s') :
    s'.loop.potential ids + 1 ≤ s.loop.potential ids := by
  have hle := srv.turn_rest context conn.inbuffer
  have huses : ∀ r context' buffer', srv.turn context conn.inbuffer = .reply r context' buffer' →
      buffer'.unread.length < conn.inbuffer.unread.length := fun _ _ _ => srv.turn_uses hexpects
  generalize srv.turn context conn.inbuffer = t at h hle huses
  cases t with
  | idle =>
    obtain ⟨loop, hloop, h⟩ := Option.bind_eq_some_iff.mp h
    cases h
    exact Loop.potential_ret hrest hloop
  | wait context' buffer =>
    obtain ⟨loop, hloop, h⟩ := Option.bind_eq_some_iff.mp h
    cases h
    have hstock : (s.store c conn context' buffer).loop.stock ids ≤ s.loop.stock ids :=
      stock_store hc context' hle
    calc loop.potential ids + 1 ≤ (s.store c conn context' buffer).loop.potential ids :=
        Loop.potential_ret hrest hloop
      _ ≤ s.loop.potential ids :=
        Nat.add_le_add_left (Nat.mul_le_mul_left 8 (Nat.add_le_add_right hstock _)) _
  | reply r context' buffer =>
    obtain ⟨payload, loop, -, hloop, hshut⟩ := takeTurn_reply h
    have hstock := stock_store_lt hc hin context' (huses r context' buffer rfl)
    have hstored : (s.store c conn context' buffer).loop.potential ids + 8 ≤
        s.loop.potential ids := by
      show s.loop.rank + 8 * ((s.store c conn context' buffer).loop.stock ids +
          65535 * s.loop.reads) + 8 ≤
        s.loop.rank + 8 * (s.loop.stock ids + 65535 * s.loop.reads)
      omega
    have hsent : loop.potential ids ≤ (s.store c conn context' buffer).loop.potential ids + 0 := by
      obtain ⟨conn', -, hrun⟩ := Option.bind_eq_some_iff.mp (Loop.step_call hloop).2.2
      exact Loop.potential_call rfl hloop fun _ _ => Loop.leaves_sendInLoop hrun
    obtain ⟨-, rfl⟩ | ⟨-, loop', hloop', rfl⟩ := hshut
    · show loop.potential ids + 1 ≤ s.loop.potential ids
      omega
    · have hclosed : loop'.potential ids ≤ loop.potential ids + 7 := by
        obtain ⟨conn', -, hrun⟩ := Option.bind_eq_some_iff.mp (Loop.step_call hloop').2.2
        cases hrun
        refine Loop.potential_call rfl hloop' fun later hlater => ?_
        exact (Loop.leaves_shutDownInLoop loop c conn').mono (by omega)
      rw [loop_goOn]
      omega
  | fault context' buffer events f => cases h

theorem potential_server {a : Act} (ha : a.polls = false) (hrest : s.loop.Rested)
    (hexpects : ∀ c, (s.contexts c).Expects) (hids : ∀ c, s.loop.Live c → c ∈ ids)
    (h : step srv s a = some s') :
    s'.loop.potential ids + 1 ≤ s.loop.potential ids + charge s a := by
  obtain ⟨b, loop, rfl, -, hloop, rfl⟩ | ⟨running, loop, rfl, -, hloop, rfl⟩ |
      ⟨d, running, conn, rfl, -, hc, hturn⟩ :=
    step_cases h
  · rw [loop_goOn]
    exact Loop.potential_step ha hrest hloop
  · exact Loop.potential_ret hrest hloop
  · exact potential_turn (hexpects d) hrest hc
      (hids d (Option.isSome_iff_exists.mpr ⟨conn, hc⟩)) hturn

theorem rested_exec {acts : List Act} (h : exec (step srv) start acts = some s) :
    s.loop.Rested := by
  refine exec_preserves (fun s : HttpLoop => s.loop.Rested) (fun t a t' ht hstep => ?_)
    (fun _ => rfl) h
  exact exec_preserves Loop.Rested (fun _ _ _ h hstep => h.step hstep) ht (step_acts hstep)

/-- User code creates no connection. -/
theorem opens_acts {a : Act} {d : Nat} :
    ∀ b ∈ acts srv s a, b.opens = some d → a.opens = some d := by
  intro b hb hopens
  cases a with
  | loop a =>
    obtain rfl := List.mem_singleton.mp hb
    exact hopens
  | ret =>
    obtain rfl := List.mem_singleton.mp hb
    cases hopens
  | onMessage =>
    rw [acts] at hb
    cases hn : nextTurn srv s with
    | none => simp [hn] at hb
    | some turn =>
      rw [hn] at hb
      have huser := (acts_byUser hb).1
      cases b with
      | newConnection c fd callbacks => cases huser
      | _ => cases hopens

theorem live_before {a : Act} (h : step srv s a = some s') (hc : s'.loop.Live c) :
    s.loop.Live c ∨ a.opens = some c := by
  by_contra hno
  obtain ⟨hlive, hopens⟩ := not_or.mp hno
  have hnone : ∀ b ∈ acts srv s a, b.opens ≠ some c := fun b hb hb' => hopens (opens_acts b hb hb')
  refine exec_invariant (P := fun _ b => b.opens ≠ some c) (fun t => ¬t.Live c) ?_ hlive
    (along_of_mem fun _ => hnone)
    (step_acts h) hc
  intro t b t' hnot hb hstep hlive'
  exact (Loop.live_before hstep hlive').elim hnot hb

/-- The connections that are created in a round. -/
def opening (round : List Act) : Finset Nat := (round.filterMap Act.opens).toFinset

theorem potential_exec {acts round : List Act} (hs : exec (step srv) start acts = some s)
    (hids : ∀ c, s.loop.Live c → c ∈ ids) (hround : ∀ a ∈ round, a.polls = false)
    (h : exec (step srv) s round = some s') :
    round.length ≤ s.loop.potential ids + charges (step srv) charge s round := by
  have hpaid : s'.loop.potential (ids ∪ opening round) + round.length ≤
      s.loop.potential (ids ∪ opening round) + charges (step srv) charge s round := by
    refine exec_charged (P := fun _ a => a.polls = false ∧ ∀ c ∈ a.opens, c ∈ opening round)
      (fun t => (∃ done, exec (step srv) start done = some t) ∧ ∀ c, t.loop.Live c →
        c ∈ ids ∪ opening round)
      (fun t => t.loop.potential (ids ∪ opening round)) charge ?_
      ⟨⟨acts, hs⟩, fun c hc => Finset.mem_union_left _ (hids c hc)⟩
        (along_of_mem fun _ a ha => ⟨hround a ha, ?_⟩) h
    · rintro t a t' ⟨⟨done, hdone⟩, hlive⟩ ⟨ha, hopens⟩ hstep
      have hexpects :=
        (leaves_exec HttpContent.expects_fresh (fun _ buffer hc => srv.turn_expects hc buffer) hdone).1
      refine ⟨⟨⟨done ++ [a], ?_⟩, fun c hc => ?_⟩,
        potential_server ha (rested_exec hdone) hexpects hlive hstep⟩
      · rw [exec_concat, hdone]
        exact hstep
      · obtain hold | hnew := live_before hstep hc
        · exact hlive c hold
        · exact Finset.mem_union_right _ (hopens c hnew)
    · intro c hc
      rw [opening, List.mem_toFinset, List.mem_filterMap]
      exact ⟨a, ha, hc⟩
  rw [Loop.potential_union hids] at hpaid
  omega

/-- Outside `epoll_wait` a step of the round is due. -/
theorem round_due (hframed : s.Framed) (hp : s.loop.phase ≠ .poll) :
    ∃ a, a.inRound = true ∧ s.Due a := by
  by_cases huser : s.loop.inUser = true
  · -- the innermost function of the server goes on
    have hdepth : s.loop.depth ≠ 0 := by
      have hs := of_decide_eq_true huser
      obtain ⟨stack, hs⟩ := List.head?_eq_some_iff.mp hs
      simp [Loop.depth, hs]
    cases hr : s.running with
    | nil =>
      unfold Framed at hframed
      rw [hr] at hframed
      exact absurd hframed.symm hdepth
    | cons f running =>
      cases f with
      | onMessage c => exact ⟨.onMessage, rfl, huser, by rw [hr]; rfl⟩
      | other => exact ⟨.ret, rfl, huser, by rw [hr]; rfl⟩
  · obtain ⟨b, hb, hregular⟩ := Loop.round_goes_on hp
    refine ⟨.loop b, hb, ?_, hregular⟩
    cases b with
    | ret => exact absurd hregular.1 huser
    | _ => first | rfl | cases hb

/-- A request has arrived that closes its connection; the round answers it and goes on to the
release, while the acceptor takes a connection. -/
def answerRound : List Act :=
  [.onMessage, .loop .next, .ret, .loop .next, .loop .other, .ret,
    .loop (.newConnection 2 8 fun _ => none), .loop .swap,
    .loop .batchDone]

end HttpLoop
end MuduoServer
