import MuduoServer.ConnectionEffect
import MuduoServer.Transition

/-!
# How often a connection is closed

Every `Release` queues one `ReleaseInloop`, and every `ReleaseInloop` calls both
close callbacks. Neither looks at what was queued or executed before, so they run
once when `Release` is called once.
-/
namespace MuduoServer
namespace Loop

open Transition

def pending (s : Loop) : List Task :=
  match s.phase with
  | .run batch => batch ++ s.taskQueue
  | _ => s.taskQueue

/-- `ReleaseInloop` of connection `c` has been executed. -/
def closed (s : Loop) (c : Nat) : Bool :=
  match s.conns c with
  | some conn => conn.socket.isNone
  | none => false

/-- How often a callback of connection `c` has been called. -/
def times (s : Loop) (c : Nat) (kind : Callback) : Nat :=
  s.invoked.countP fun i => i.conn = c && i.kind = kind

/-- A `ReleaseInloop` of connection `c` is queued or has been executed. -/
def releasing (s : Loop) (c : Nat) : Bool := s.pending.contains (.releaseInloop c) || s.closed c

/-- The step calls `Release` of connection `c`. -/
def callsRelease (s : Loop) (c : Nat) : Act → Bool
  | .next => s.stack.head? = some (.release c)
  | .post task => task = .releaseInloop c
  | _ => false

def ReleasesOnce (c : Nat) (s : Loop) (a : Act) : Prop := s.callsRelease c a → s.releasing c = false

instance (c : Nat) (s : Loop) (a : Act) : Decidable (ReleasesOnce c s a) :=
  inferInstanceAs (Decidable (_ → _))

def ClosedOnce (c : Nat) (s : Loop) : Prop := s.times c .close ≤ 1 ∧ s.times c .serverClosed ≤ 1

/-- The one release a connection may have is queued, executed, or still to be called. -/
structure Ledger (c : Nat) (s : Loop) : Prop where
  once : s.pending.count (.releaseInloop c) + (s.closed c).toNat ≤ 1
  close : s.times c .close ≤ (s.closed c).toNat
  server : s.times c .serverClosed + s.stack.count (.serverClosed c) ≤ (s.closed c).toNat

variable {c d : Nat} {s s' : Loop} {conn : Connection}

theorem Ledger.mono (h : Ledger c s)
    (hpending : s'.pending.count (.releaseInloop c) ≤ s.pending.count (.releaseInloop c))
    (hclosed : s'.closed c = s.closed c) (hclose : s'.times c .close = s.times c .close)
    (hserver : s'.times c .serverClosed + s'.stack.count (.serverClosed c) ≤
      s.times c .serverClosed + s.stack.count (.serverClosed c)) : Ledger c s' := by
  obtain ⟨h1, h2, h3⟩ := h
  refine ⟨?_, ?_, ?_⟩
  · rw [hclosed]; omega
  · rw [hclosed, hclose]; exact h2
  · rw [hclosed]; omega

theorem closed_congr (h : s'.conns c = s.conns c) : s'.closed c = s.closed c := by
  simp only [closed, h]

theorem closed_eq_map (s : Loop) (c : Nat) :
    s.closed c = ((s.conns c).map Connection.socket == some none) := by
  unfold closed
  cases s.conns c with
  | none => rfl
  | some conn => cases h : conn.socket <;> simp [h]

theorem pending_congr (hqueue : s'.taskQueue = s.taskQueue) (hphase : s'.phase = s.phase) :
    s'.pending = s.pending := by
  simp only [pending, hqueue, hphase]

theorem times_append {new : List Invocation} (h : s'.invoked = s.invoked ++ new) (kind : Callback) :
    s'.times c kind = s.times c kind + new.countP fun i => i.conn = c && i.kind = kind := by
  simp only [times, h, List.countP_append]

theorem times_congr {new : List Invocation} (h : s'.invoked = s.invoked ++ new) {kind : Callback}
    (hnew : ∀ i ∈ new, i.conn ≠ c ∨ i.kind ≠ kind) : s'.times c kind = s.times c kind := by
  have hzero : (new.countP fun i => i.conn = c && i.kind = kind) = 0 := by
    rw [List.countP_eq_zero]
    intro i hi
    rcases hnew i hi with hne | hne <;> simp [hne]
  rw [times_append h, hzero, Nat.add_zero]

theorem count_stack {new old : List Frame} {f : Frame} (hf : f ∉ new) :
    (new ++ old).count f = old.count f := by
  rw [List.count_append, List.count_eq_zero_of_not_mem hf, Nat.zero_add]

theorem serverClosed_not_mem {frames : List Frame} (h : ∀ f ∈ frames, f = .user) :
    Frame.serverClosed c ∉ frames := by
  intro hin
  cases h _ hin

theorem Ledger.pop (h : Ledger c s) {f : Frame} {stack : List Frame} (hs : s.stack = f :: stack) :
    Ledger c { s with stack := stack } := by
  refine h.mono (Nat.le_refl _) rfl rfl (Nat.add_le_add_left ?_ _)
  rw [hs]
  exact (List.sublist_cons_self _ _).count_le _

theorem Ledger.push (h : Ledger c s) {frames : List Frame}
    (hframes : Frame.serverClosed c ∉ frames) :
    Ledger c { s with stack := frames ++ s.stack } := by
  refine h.mono (Nat.le_refl _) rfl rfl (Nat.add_le_add_left ?_ _)
  rw [count_stack hframes]

theorem Ledger.take (h : Ledger c s) {task : Task} {batch : List Task}
    (hp : s.phase = .run (task :: batch)) :
    Ledger c { s with phase := .run batch } := by
  refine h.mono ?_ rfl rfl (Nat.le_refl _)
  simp only [pending, hp, List.cons_append]
  exact (List.sublist_cons_self _ _).count_le _

/-- Code that executes no release leaves the ledger of every connection alone. -/
theorem Ledger.work (h : Ledger c s) (hwork : Work d s s') : Ledger c s' := by
  obtain ⟨frames, hstack, hframes⟩ := hwork.stack
  obtain ⟨calls, hinvoked, hcalls⟩ := hwork.invoked
  have hserver : Frame.serverClosed c ∉ frames := by
    intro hin
    rcases hframes _ hin with h | h | h <;> cases h
  refine h.mono ?_ ?_ ?_ ?_
  · rw [pending_congr hwork.taskQueue hwork.phase]
  · by_cases hd : c = d
    · subst hd
      have hk := congrArg (Option.map Prod.snd) hwork.kept
      simp only [Option.map_map] at hk
      rw [closed_eq_map, closed_eq_map]
      exact congrArg (· == some none) hk
    · exact closed_congr (hwork.others c hd)
  · exact times_congr hinvoked fun i hi => .inr (hcalls i hi).2.1
  · rw [times_congr hinvoked fun i hi => .inr (hcalls i hi).2.2, hstack, count_stack hserver]

theorem Ledger.enters (h : Ledger c s) (henter : Enters s d s') : Ledger c s' := by
  cases henter with
  | frame hs hc hrelease hserver => exact h.pop hs
  | task hp hc hrelease => exact h.take hp
  | user => exact h

/-- The first `ReleaseInloop` of the connection. -/
theorem Ledger.closing (h : Ledger c s) (hs : s.stack = []) (hopen : s.closed c = false)
    (hpending : s.pending.count (.releaseInloop c) = 0) (hclosing : Closing c conn s s') :
    Ledger c s' := by
  obtain ⟨frames, hstack, hframes⟩ := hclosing.stack
  obtain ⟨calls, hinvoked, hlen, hcalls⟩ := hclosing.invoked
  obtain ⟨k, hk, -, hsocket, -⟩ := hclosing.closed
  have hclosed : s'.closed c = true := by simp [closed, hk, hsocket]
  have hclose := h.close
  have hserver := h.server
  simp only [hopen, Bool.toNat_false, Nat.le_zero] at hclose hserver
  refine ⟨?_, ?_, ?_⟩
  · rw [pending_congr hclosing.taskQueue hclosing.phase, hpending, hclosed]
    exact Nat.le_refl 1
  · rw [times_append hinvoked, hclose, hclosed, Nat.zero_add]
    exact List.countP_le_length.trans hlen
  · have hnot : Frame.serverClosed c ∉ frames := serverClosed_not_mem hframes
    have htimes : s'.times c .serverClosed = s.times c .serverClosed :=
      times_congr hinvoked fun i hi => .inr (by rw [(hcalls i hi).2]; decide)
    rw [htimes, hstack, count_stack hnot, hs, hclosed]
    simp only [List.count_cons_self, List.count_nil, Bool.toNat_true]
    omega

/-- Another connection's `ReleaseInloop`. -/
theorem Ledger.closing_other (h : Ledger c s) (hne : c ≠ d) (hclosing : Closing d conn s s') :
    Ledger c s' := by
  obtain ⟨frames, hstack, hframes⟩ := hclosing.stack
  obtain ⟨calls, hinvoked, -, hcalls⟩ := hclosing.invoked
  have htimes : ∀ kind, s'.times c kind = s.times c kind := fun kind =>
    times_congr hinvoked fun i hi => .inl (by rw [(hcalls i hi).1]; exact fun he => hne he.symm)
  refine h.mono ?_ (closed_congr (hclosing.others c hne)) (htimes .close) ?_
  · rw [pending_congr hclosing.taskQueue hclosing.phase]
  · have hnot : Frame.serverClosed c ∉ frames := serverClosed_not_mem hframes
    rw [htimes, hstack, count_stack hnot, List.count_cons_of_ne (by simpa using fun he => hne he.symm)]

/-- One more task in the queue; a release of the connection only as its first. -/
theorem Ledger.queueInLoop (h : Ledger c s) {task : Task}
    (htask : task = .releaseInloop c → s.releasing c = false) : Ledger c (s.queueInLoop task) := by
  have hcount : (s.queueInLoop task).pending.count (.releaseInloop c) =
      s.pending.count (.releaseInloop c) + [task].count (.releaseInloop c) := by
    simp only [pending, Loop.queueInLoop]
    cases s.phase <;> simp only [List.count_append, Nat.add_assoc]
  refine ⟨?_, h.close, h.server⟩
  show (s.queueInLoop task).pending.count (.releaseInloop c) + (s.closed c).toNat ≤ 1
  rw [hcount]
  by_cases he : task = .releaseInloop c
  · have hfree := htask he
    simp only [releasing, Bool.or_eq_false_iff, List.contains_eq_mem, decide_eq_false_iff_not]
      at hfree
    rw [List.count_eq_zero_of_not_mem hfree.1, hfree.2, he]
    simp
  · have hzero : [task].count (.releaseInloop c) = 0 :=
      List.count_eq_zero_of_not_mem fun hin => he (List.mem_singleton.mp hin).symm
    rw [hzero]
    exact h.once

/-- A new connection starts with an open socket. -/
theorem Ledger.newConnection (h : Ledger c s) {fd : Nat} (hnew : s.conns d = none)
    (hsocket : conn.socket = some fd) :
    Ledger c { s.set d conn with poller := s.poller.opened fd } := by
  have hclosed : ({ s.set d conn with poller := s.poller.opened fd } : Loop).closed c =
      s.closed c := by
    by_cases hd : c = d
    · subst hd
      simp [closed, set, hnew, hsocket]
    · simp [closed, set, hd]
  exact h.mono (Nat.le_refl _) hclosed rfl (Nat.le_refl _)

/-- The end of a `ReleaseInloop` calls the other close callback. -/
theorem Ledger.serverClosed (h : Ledger c s) {stack : List Frame}
    (hs : s.stack = .serverClosed d :: stack) :
    Ledger c (({ s with stack := stack } : Loop).invoke d conn .serverClosed) := by
  obtain ⟨calls, frames, he, hlen, hcalls, hframes⟩ :=
    invoke_spec ({ s with stack := stack } : Loop) d conn .serverClosed
  have hnot : Frame.serverClosed c ∉ frames := serverClosed_not_mem hframes
  have hserver := h.server
  rw [hs] at hserver
  rw [he]
  refine ⟨h.once, ?_, ?_⟩
  · refine Nat.le_trans (Nat.le_of_eq ?_) h.close
    exact times_congr rfl fun i hi => .inr (by rw [(hcalls i hi).2]; decide)
  · show times _ c .serverClosed + (frames ++ stack).count (.serverClosed c) ≤ (s.closed c).toNat
    rw [count_stack hnot]
    by_cases hd : c = d
    · subst hd
      rw [List.count_cons_self] at hserver
      rw [times_append (s := s) rfl]
      have := List.countP_le_length
        (p := fun i : Invocation => i.conn = c && i.kind = .serverClosed) (l := calls)
      omega
    · rw [List.count_cons_of_ne (by simpa using fun he => hd he.symm)] at hserver
      rw [times_congr (s := s) rfl fun i hi => .inl (by rw [(hcalls i hi).1]; exact fun he => hd he.symm)]
      exact hserver

theorem not_mem_channelHanderEvent (c d : Nat) (revent : UInt32) :
    Frame.serverClosed c ∉ channelHanderEvent d revent := by
  unfold channelHanderEvent
  repeat' split
  all_goals simp

theorem ledger_step {a : Act} (h : Ledger c s) (ha : ReleasesOnce c s a)
    (hstep : step s a = some s') :
    Ledger c s' := by
  cases step_effect hstep with
  | work hon henter hwork => exact (h.enters henter).work hwork
  | @releaseInloop d conn batch hp hs hc =>
    by_cases hd : c = d
    · subst hd
      have hone := h.once
      have hpending : s.pending = .releaseInloop c :: (batch ++ s.taskQueue) := by
        simp only [pending, hp, List.cons_append]
      rw [hpending, List.count_cons_self] at hone
      have hopen : s.closed c = false := by
        cases hclosed : s.closed c
        · rfl
        · rw [hclosed, Bool.toNat_true] at hone; omega
      have hlast : (batch ++ s.taskQueue).count (.releaseInloop c) = 0 := by omega
      exact (h.take hp).closing hs hopen hlast (closing_releaseInloop _ c conn)
    · exact (h.take hp).closing_other hd (closing_releaseInloop _ d conn)
  | @release d stack hs =>
    refine (h.pop hs).queueInLoop fun he => ?_
    cases he
    exact ha (by simp [callsRelease, hs])
  | serverClosed hs hc => exact h.serverClosed hs
  | pollReturn hp hsame hother hactive =>
    refine h.mono ?_ ?_ rfl (Nat.le_refl _)
    · simp only [pending, hp]
      exact Nat.le_refl _
    · have hs := congrArg (Option.map Connection.socket) (hsame c)
      simp only [Option.map_map, Function.comp_def] at hs
      rw [closed_eq_map, closed_eq_map]
      exact congrArg (· == some none) hs
  | @handle d conn active hp hs hc =>
    have hpush := h.push (not_mem_channelHanderEvent c d conn.revent)
    rw [hs, List.append_nil] at hpush
    refine hpush.mono ?_ rfl rfl (Nat.le_refl _)
    simp only [pending, hp]
    exact Nat.le_refl _
  | timer hp hs =>
    refine (h.push ?_).mono (Nat.le_refl _) rfl rfl (Nat.le_refl _)
    intro hin
    obtain ⟨t, -, ht⟩ := List.mem_map.mp hin
    cases ht
  | other => exact h.push (by simp : Frame.serverClosed c ∉ [Frame.user])
  | swap hp hs =>
    refine h.mono ?_ rfl rfl (Nat.le_refl _)
    simp only [pending, hp, List.append_nil]
    exact Nat.le_refl _
  | userTask hp => exact (h.take hp).push (by simp : Frame.serverClosed c ∉ [Frame.user])
  | userCall => exact h.push (by simp : Frame.serverClosed c ∉ [Frame.user])
  | batchDone hp =>
    refine h.mono ?_ rfl rfl (Nat.le_refl _)
    simp only [pending, hp, List.nil_append]
    exact Nat.le_refl _
  | ret hs => exact h.pop hs
  | newConnection hc hsocket hfd => exact h.newConnection hc hsocket
  | post task =>
    refine h.queueInLoop fun he => ?_
    exact ha (by simp [callsRelease, he])

theorem ledger_start (c : Nat) : Ledger c start :=
  ⟨by simp [start, pending, closed], by simp [start, times], by simp [start, times]⟩

/-- A connection whose `Release` is never called again while a first call is queued or
has been executed has both close callbacks called at most once. -/
theorem close_callbacks_once (c : Nat) (acts : List Act) (s : Loop)
    (hacts : Along step (ReleasesOnce c) start acts) (h : exec step start acts = some s) :
    ClosedOnce c s := by
  have hs : Ledger c s :=
    exec_invariant (Ledger c) (fun _ _ _ hI ha hstep => ledger_step hI ha hstep)
      (ledger_start c) hacts h
  have hbit : (s.closed c).toNat ≤ 1 := Bool.toNat_le _
  have hserver := hs.server
  refine ⟨hs.close.trans hbit, ?_⟩
  omega

/-- A connection on descriptor 7 with all callbacks set; its first event has `revents`. -/
def connected (revents : UInt32) : List Act :=
  [.newConnection 1 7 fun _ => some 1, .post (.establishedInLoop 1), .pollReturn [], .swap,
    .runTask, .ret,
    .batchDone, .pollReturn [(7, revents)], .handle]

/-- The peer hangs up: one `Release` from `HanderClose`. -/
def hangUp : List Act :=
  connected epollHup ++ [.next, .next, .next, .ret, .swap, .runTask, .ret, .next, .ret, .batchDone]

theorem close_callbacks_once_hangUp :
    ∃ s, exec step start hangUp = some s ∧ s.closed 1 = true ∧ ClosedOnce 1 s := by
  have hrun : ((exec step start hangUp).map fun s => s.closed 1) = some true := by decide +kernel
  obtain ⟨s, hs, hclosed⟩ := Option.map_eq_some_iff.mp hrun
  exact ⟨s, hs, hclosed, close_callbacks_once 1 hangUp s (by decide +kernel) hs⟩

/-- The peer resets the connection: `HanderRead` fails and shuts down, and `HanderClose`
follows in the same round. -/
def reset : List Act :=
  connected (epollIn ||| epollHup) ++
    [.recv ⟨-1, 104⟩ [], .next, .next, .next, .next, .next, .ret, .swap,
    .runTask, .ret, .next, .ret, .runTask, .ret, .next, .ret, .batchDone]

theorem close_callbacks_twice : ¬∀ s, exec step start reset = some s → ClosedOnce 1 s := by
  intro h
  have hrun : ((exec step start reset).map fun s => (s.times 1 .close, s.times 1 .serverClosed)) =
      some (2, 2) := by
    decide +kernel
  obtain ⟨s, hs, htimes⟩ := Option.map_eq_some_iff.mp hrun
  have htwo := congrArg Prod.fst htimes
  have hone := (h s hs).1
  simp only at htwo
  omega

end Loop
end MuduoServer
