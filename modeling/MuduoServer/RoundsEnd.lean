import MuduoServer.NeverAborts

/-!
# A round of the loop ends

Between two calls of `epoll_wait` the thread handles the active channels and runs
one batch of tasks. What a handler queues is run in the same round, what a task
queues in the next one. Every step of the loop's own makes the rest of the round shorter.
The timerfd, the other channels, the calls of user code and other threads make it longer,
each by an amount that the step shows.
-/
namespace MuduoServer

open Transition

/-- How many steps a frame takes at most, when a task that it queues takes `later`. -/
def Frame.rank (later : Nat) : Frame → Nat
  | .user => 1
  | .release _ => later + 1
  | .serverClosed _ | .handerEvent _ => 2
  | .shutDownRest _ => later + 2
  | .handerClose _ | .handerErr _ | .handerWrite _ => later + 3
  | .handerRead _ => later + 4

namespace Loop

/-- The steps that the loop takes of itself in a round. -/
def Act.inRound : Act → Bool
  | .handle | .swap | .runTask | .batchDone | .next | .recv _ _ | .send _ | .ret => true
  | _ => false

/-- `epoll_wait` returns, and a round begins. -/
def Act.polls : Act → Bool
  | .pollReturn _ => true
  | _ => false

/-- By how much a step that the loop does not take of itself makes the round longer, with the step
itself. The timerfd's handler calls `Release` of each connection whose task fires. -/
def charge (s : Loop) : Act → Nat
  | .timer => 1 + 5 * s.oneTime.stack.length
  | .other => 2
  | .call _ => 8
  | .release _ => 6
  | .post _ => 5
  | .changeProtocal _ _ _ _ | .consume _ _ | .newConnection _ _ _ => 1
  | _ => 0

def weight (later : Nat) (stack : List Frame) : Nat := (stack.map (Frame.rank later)).sum

/-- How many steps are left of the round at most. -/
def rank (s : Loop) : Nat :=
  match s.phase with
  | .poll => 0
  | .handle active => 2 + 18 * active.length + 4 * s.taskQueue.length + weight 4 s.stack
  | .run batch => 1 + 4 * batch.length + weight 0 s.stack

/-- The functions called from `s` to `s'` left at most `n` steps to be done. -/
structure Leaves (later n : Nat) (s s' : Loop) : Prop where
  taskQueue : s'.taskQueue = s.taskQueue
  phase : s'.phase = s.phase
  left : weight later s'.stack ≤ weight later s.stack + n

variable {later m n : Nat} {s s₁ s' : Loop} {c : Nat} {conn : Connection}

theorem Leaves.trans (h : Leaves later m s s₁) (h' : Leaves later n s₁ s') :
    Leaves later (m + n) s s' := by
  have hw := h.left
  have hw' := h'.left
  exact ⟨h'.taskQueue.trans h.taskQueue, h'.phase.trans h.phase, by omega⟩

theorem Leaves.mono (h : Leaves later m s s') (hle : m ≤ n) : Leaves later n s s' := by
  have hw := h.left
  exact ⟨h.taskQueue, h.phase, by omega⟩

/-- Connections, poller and wheel do not count. -/
theorem leaves_same (hqueue : s'.taskQueue = s.taskQueue) (hphase : s'.phase = s.phase)
    (hstack : s'.stack = s.stack) : Leaves later n s s' := by
  refine ⟨hqueue, hphase, ?_⟩
  rw [hstack]
  exact Nat.le_add_right _ _

theorem Leaves.after (h : Leaves later n s₁ s') (hqueue : s₁.taskQueue = s.taskQueue)
    (hphase : s₁.phase = s.phase) (hstack : s₁.stack = s.stack) : Leaves later n s s' := by
  exact ⟨h.taskQueue.trans hqueue, h.phase.trans hphase, hstack ▸ h.left⟩

theorem leaves_push (s : Loop) (f : Frame) (later : Nat) :
    Leaves later (f.rank later) s (s.push f) := by
  refine ⟨rfl, rfl, ?_⟩
  simp only [weight, push, List.map_cons, List.sum_cons]
  omega

theorem leaves_invoke (s : Loop) (c : Nat) (conn : Connection) (kind : Callback) :
    Leaves later 1 s (s.invoke c conn kind) := by
  unfold invoke
  cases conn.callbacks kind with
  | none => exact leaves_same rfl rfl rfl
  | some f =>
    refine ⟨rfl, rfl, ?_⟩
    simp only [weight, List.map_cons, List.sum_cons, Frame.rank]
    omega

theorem leaves_message (s : Loop) (c : Nat) (conn : Connection) :
    Leaves later 1 s (s.message c conn) := by
  unfold message
  split
  · exact leaves_invoke s c conn .message
  · exact leaves_same rfl rfl rfl

/-! ## The functions -/

theorem leaves_shutDownInLoop (s : Loop) (c : Nat) (conn : Connection) :
    Leaves later (later + 3) s (s.shutDownInLoop c conn) := by
  have hpush := leaves_push (s.set c { conn with status := .disconnecting }) (.shutDownRest c) later
  exact (hpush.trans (leaves_message _ c _)).after rfl rfl rfl

theorem leaves_shutDownRest (s : Loop) (c : Nat) (conn : Connection) :
    Leaves later (later + 1) s (s.shutDownRest c conn) := by
  unfold shutDownRest
  split
  · split
    · exact leaves_same rfl rfl rfl
    · exact leaves_same rfl rfl rfl
  · exact leaves_push s (.release c) later

theorem leaves_handerClose (s : Loop) (c : Nat) (conn : Connection) :
    Leaves later (later + 2) s (s.handerClose c conn) :=
  (leaves_push s (.release c) later).trans (leaves_message _ c conn)

theorem leaves_handerRead {r : SysResult} {bytes : StdString.Bytes}
    (h : s.handerRead c conn r bytes = some s') :
    Leaves later (later + 3) s s' := by
  unfold handerRead at h
  split at h
  · cases h
    exact leaves_shutDownInLoop s c conn
  · obtain ⟨inbuffer, -, h⟩ := Option.bind_eq_some_iff.mp h
    cases h
    exact ((leaves_message _ c _).mono (Nat.le_add_left 1 _)).after rfl rfl rfl

theorem leaves_handerWrite {r : SysResult} (h : s.handerWrite c conn r = some s') :
    Leaves later (later + 2) s s' := by
  unfold handerWrite at h
  dsimp only at h
  split at h
  · cases h
    exact leaves_handerClose s c conn
  · obtain ⟨outbuffer, -, h⟩ := Option.bind_eq_some_iff.mp h
    split at h
    · split at h
      · cases h
        exact ((leaves_push _ (.release c) later).mono (Nat.le_succ _)).after rfl rfl rfl
      · cases h
        exact leaves_same rfl rfl rfl
    · cases h
      exact leaves_same rfl rfl rfl

theorem leaves_handerEvent (h : s.handerEvent c conn = some s') : Leaves later 1 s s' := by
  obtain ⟨wheel, -, h⟩ := Option.bind_eq_some_iff.mp h
  cases h
  exact (leaves_invoke _ c conn .event).after rfl rfl rfl

theorem leaves_sendInLoop {b : Buffer} (h : s.sendInLoop c conn b = some s') :
    Leaves later 0 s s' := by
  unfold sendInLoop at h
  split at h
  · cases h
    exact leaves_same rfl rfl rfl
  · obtain ⟨outbuffer, -, h⟩ := Option.bind_eq_some_iff.mp h
    dsimp only at h
    split at h
    · cases h
      exact leaves_same rfl rfl rfl
    · cases h
      exact leaves_same rfl rfl rfl

theorem leaves_establishedInLoop (s : Loop) (c : Nat) (conn : Connection) :
    Leaves later 1 s (s.establishedInLoop c conn) := by
  unfold establishedInLoop
  split
  · exact leaves_same rfl rfl rfl
  · exact (leaves_invoke _ c conn .connect).after rfl rfl rfl

theorem leaves_releaseInloop (s : Loop) (c : Nat) (conn : Connection) :
    Leaves later 3 s (s.releaseInloop c conn) := by
  have hclose : ∀ s₁ : Loop, s₁.taskQueue = s.taskQueue → s₁.phase = s.phase → s₁.stack = s.stack →
      Leaves later 3 s ((s₁.push (.serverClosed c)).invoke c conn .close) := by
    intro s₁ hqueue hphase hstack
    exact ((leaves_push s₁ (.serverClosed c) later).trans (leaves_invoke _ c conn .close)).after
      hqueue hphase hstack
  unfold releaseInloop
  dsimp only
  split
  · exact hclose _ rfl rfl rfl
  · exact hclose _ rfl rfl rfl

/-- A task takes at most three steps more, and those of what it queues. -/
theorem leaves_runTask {task : Task} (h : s.runTask task = some s') :
    Leaves later (later + 3) s s' := by
  cases task with
  | user =>
    cases h
    exact (leaves_push s .user later).mono (Nat.le_add_left 1 _)
  | sendInLoop c b =>
    obtain ⟨conn, -, h⟩ := Option.bind_eq_some_iff.mp h
    exact (leaves_sendInLoop h).mono (Nat.zero_le _)
  | shutDownInLoop c =>
    obtain ⟨conn, -, h⟩ := Option.bind_eq_some_iff.mp h
    cases h
    exact leaves_shutDownInLoop s c conn
  | enableTimeoutDelInLoop c sec =>
    obtain ⟨conn, -, h⟩ := Option.bind_eq_some_iff.mp h
    obtain ⟨wheel, -, h⟩ := Option.bind_eq_some_iff.mp h
    cases h
    exact leaves_same rfl rfl rfl
  | disableTimeoutDelInLoop c =>
    obtain ⟨conn, -, h⟩ := Option.bind_eq_some_iff.mp h
    cases h
    exact leaves_same rfl rfl rfl
  | establishedInLoop c =>
    obtain ⟨conn, -, h⟩ := Option.bind_eq_some_iff.mp h
    cases h
    exact (leaves_establishedInLoop s c conn).mono (Nat.le_add_left 1 _)
  | releaseInloop c =>
    obtain ⟨conn, -, h⟩ := Option.bind_eq_some_iff.mp h
    cases h
    exact (leaves_releaseInloop s c conn).mono (Nat.le_add_left 3 _)

/-- A frame that goes on leaves less than it counted for. -/
theorem leaves_runFrame {f : Frame} (hf : ∀ c, f ≠ .release c) (h : s.runFrame f = some s') :
    ∃ k, k < f.rank later ∧ Leaves later k s s' := by
  cases f with
  | release c => exact absurd rfl (hf c)
  | serverClosed c =>
    obtain ⟨conn, -, h⟩ := Option.bind_eq_some_iff.mp h
    cases h
    exact ⟨1, Nat.lt_succ_self 1, leaves_invoke s c conn .serverClosed⟩
  | handerClose c =>
    obtain ⟨conn, -, h⟩ := Option.bind_eq_some_iff.mp h
    cases h
    exact ⟨later + 2, Nat.lt_succ_self _, leaves_handerClose s c conn⟩
  | handerErr c =>
    obtain ⟨conn, -, h⟩ := Option.bind_eq_some_iff.mp h
    cases h
    exact ⟨later + 2, Nat.lt_succ_self _, leaves_handerClose s c conn⟩
  | handerEvent c =>
    obtain ⟨conn, -, h⟩ := Option.bind_eq_some_iff.mp h
    exact ⟨1, Nat.lt_succ_self 1, leaves_handerEvent h⟩
  | shutDownRest c =>
    obtain ⟨conn, -, h⟩ := Option.bind_eq_some_iff.mp h
    cases h
    exact ⟨later + 1, Nat.lt_succ_self _, leaves_shutDownRest s c conn⟩
  | handerRead c => cases h
  | handerWrite c => cases h
  | user => cases h

/-! ## The steps -/

theorem weight_cons (later : Nat) (f : Frame) (stack : List Frame) :
    weight later (f :: stack) = f.rank later + weight later stack := List.sum_cons

theorem weight_channelHanderEvent (c : Nat) (revent : UInt32) :
    weight 4 (channelHanderEvent c revent) ≤ 17 := by
  unfold channelHanderEvent
  split <;> split <;> try split <;> try split
  all_goals simp [weight, Frame.rank]

/-- In `epoll_wait` the thread is in no function. -/
def Rested (s : Loop) : Prop := s.phase = .poll → s.stack = []

/-- The function of a frame leaves less than the frame counted for. -/
theorem rank_frame {f : Frame} {stack : List Frame} (hrest : s.Rested) (hs : s.stack = f :: stack)
    (h : ∀ later, ∃ k, k < f.rank later ∧ Leaves later k { s with stack := stack } s') :
    s'.rank < s.rank := by
  cases hp : s.phase with
  | poll => cases (hrest hp).symm.trans hs
  | handle active =>
    obtain ⟨k, hk, hleaves⟩ := h 4
    have hleft := hleaves.left
    simp only [rank, hp, hleaves.phase, hleaves.taskQueue, hs, weight_cons] at hleft ⊢
    omega
  | run batch =>
    obtain ⟨k, hk, hleaves⟩ := h 0
    have hleft := hleaves.left
    simp only [rank, hp, hleaves.phase, hs, weight_cons] at hleft ⊢
    omega

/-- A release that a handler queues is run in the same round. -/
theorem rank_release {stack : List Frame} (hrest : s.Rested) (hs : s.stack = .release c :: stack) :
    (({ s with stack := stack } : Loop).queueInLoop (.releaseInloop c)).rank < s.rank := by
  cases hp : s.phase with
  | poll => cases (hrest hp).symm.trans hs
  | handle active =>
    simp only [rank, queueInLoop, hp, hs, weight_cons, Frame.rank, List.length_append,
      List.length_singleton]
    omega
  | run batch =>
    simp only [rank, queueInLoop, hp, hs, weight_cons, Frame.rank]
    omega

/-- Every step of the loop's own makes the rest of the round shorter. -/
theorem rank_step {a : Act} (ha : a.inRound = true) (hrest : s.Rested) (h : step s a = some s') :
    s'.rank < s.rank := by
  cases a with
  | handle =>
    obtain ⟨c, active, conn, hp, -, -, rfl⟩ := step_handle h
    have hnew := weight_channelHanderEvent c conn.revent
    simp only [rank, hp, List.length_cons]
    omega
  | swap =>
    obtain ⟨hp, hs, rfl⟩ := step_swap h
    simp only [rank, hp, hs, weight, List.map_nil, List.sum_nil]
    omega
  | runTask =>
    obtain ⟨task, batch, hp, hs, hrun⟩ := step_runTask h
    have hleaves : Leaves 0 3 _ _ := leaves_runTask hrun
    have hleft := hleaves.left
    simp only [rank, hp, hleaves.phase, hs, List.length_cons] at hleft ⊢
    simp only [weight, List.map_nil, List.sum_nil] at hleft ⊢
    omega
  | batchDone =>
    obtain ⟨hp, -, rfl⟩ := step_batchDone h
    simp only [rank, hp]
    omega
  | next =>
    obtain ⟨f, stack, hs, hrun⟩ := step_next h
    cases f with
    | release c =>
      cases hrun
      exact rank_release hrest hs
    | _ => exact rank_frame hrest hs fun later => leaves_runFrame (by simp) hrun
  | recv r bytes =>
    obtain ⟨c, stack, conn, hs, -, -, hrun⟩ := step_recv h
    exact rank_frame hrest hs fun later => ⟨later + 3, Nat.lt_succ_self _, leaves_handerRead hrun⟩
  | send r =>
    obtain ⟨c, stack, conn, hs, -, hrun⟩ := step_send h
    exact rank_frame hrest hs fun later => ⟨later + 2, Nat.lt_succ_self _, leaves_handerWrite hrun⟩
  | ret =>
    obtain ⟨stack, hs, rfl⟩ := step_ret h
    exact rank_frame hrest hs fun later => ⟨0, Nat.zero_lt_one, leaves_same rfl rfl rfl⟩
  | pollReturn ready => cases ha
  | timer => cases ha
  | other => cases ha
  | call task => cases ha
  | release c => cases ha
  | changeProtocal c connectCb closeCb msgCb => cases ha
  | consume c len => cases ha
  | newConnection c fd callbacks => cases ha
  | post task => cases ha

/-- What a function leaves adds to the round whether its tasks are run in this one or
in the next. -/
theorem rank_leaves {n : Nat} (h : ∀ later ≤ 4, Leaves later n s s') : s'.rank ≤ s.rank + n := by
  have hphase := (h 0 (Nat.zero_le 4)).phase
  have hqueue := (h 0 (Nat.zero_le 4)).taskQueue
  have hhandle := (h 4 (Nat.le_refl 4)).left
  have hrun := (h 0 (Nat.zero_le 4)).left
  unfold rank
  rw [hphase, hqueue]
  split
  · omega
  · omega
  · omega

theorem rank_push {f : Frame} {n : Nat} (hf : ∀ later ≤ 4, f.rank later ≤ n) (s : Loop) :
    (s.push f).rank ≤ s.rank + n :=
  rank_leaves fun later hlater => (leaves_push s f later).mono (hf later hlater)

/-- The handler of the timerfd queues a release for each task that fires. -/
theorem rank_oneTime {active : List Nat} (hs : s.stack = []) (hp : s.phase = .handle active) :
    s.oneTime.rank = s.rank + 5 * s.oneTime.stack.length := by
  have hrelease : ∀ f ∈ s.oneTime.stack, f.rank 4 = 5 := by
    intro f hf
    rw [oneTime, hs, List.append_nil] at hf
    obtain ⟨t, -, rfl⟩ := List.mem_map.mp hf
    rfl
  have hweight : weight 4 s.oneTime.stack = 5 * s.oneTime.stack.length := by
    rw [weight, List.map_congr_left hrelease, List.map_const', List.sum_replicate_nat, Nat.mul_comm]
  have hphase : s.oneTime.phase = .handle active := hp
  have hqueue : s.oneTime.taskQueue = s.taskQueue := rfl
  simp only [rank, hp, hphase, hqueue, hweight, hs]
  rfl

/-- A step makes the rest of the round shorter, but for what it is charged. -/
theorem rank_charge {a : Act} (ha : a.polls = false) (hrest : s.Rested) (h : step s a = some s') :
    s'.rank + 1 ≤ s.rank + s.charge a := by
  by_cases hround : a.inRound = true
  · exact Nat.le_add_right_of_le (rank_step hround hrest h)
  · cases a with
    | pollReturn ready => cases ha
    | timer =>
      obtain ⟨active, hp, hs, rfl⟩ := step_timer h
      have htimer := rank_oneTime hs hp
      rw [charge]
      omega
    | other =>
      obtain ⟨active, hp, hs, rfl⟩ := step_other h
      have hpush : (s.push .user).rank ≤ s.rank + 1 := rank_push (fun _ _ => Nat.le_refl 1) s
      rw [charge]
      omega
    | call task =>
      obtain ⟨-, -, hrun⟩ := step_call h
      have hcall : s'.rank ≤ s.rank + 7 := by
        refine rank_leaves fun later hlater => ?_
        exact (leaves_runTask hrun).mono (by omega)
      rw [charge]
      omega
    | release c =>
      obtain ⟨-, -, rfl⟩ := step_release h
      have hpush : (s.push (.release c)).rank ≤ s.rank + 5 :=
        rank_push (fun later hlater => Nat.add_le_add_right hlater 1) s
      rw [charge]
      omega
    | changeProtocal c connectCb closeCb msgCb =>
      obtain ⟨-, conn, -, rfl⟩ := step_changeProtocal h
      exact Nat.le_refl _
    | consume c len =>
      obtain ⟨-, conn, inbuffer, -, -, rfl⟩ := step_consume h
      exact Nat.le_refl _
    | newConnection c fd callbacks =>
      obtain ⟨-, -, rfl⟩ := step_newConnection h
      exact Nat.le_refl _
    | post task =>
      cases h
      have hqueue : (s.queueInLoop task).rank ≤ s.rank + 4 := by
        simp only [rank, queueInLoop]
        split
        · exact Nat.zero_le _
        · rw [List.length_append, List.length_singleton]
          omega
        · exact Nat.le_add_right _ _
      rw [charge]
      omega
    | _ => exact absurd rfl hround

/-- A step that keeps the phase is taken in a function, or pushes no frame. -/
theorem Rested.keep (h : s.Rested) (hphase : s'.phase = s.phase)
    (hstack : s.stack = [] → s'.stack = []) :
    s'.Rested := fun hp => hstack (h (hphase.symm.trans hp))

theorem not_poll (h : s.Rested) {f : Frame} {stack : List Frame} (hs : s.stack = f :: stack) :
    s.phase ≠ .poll :=
  fun hp => List.cons_ne_nil f stack (hs.symm.trans (h hp))

theorem Rested.step (h : s.Rested) {a : Act} (hstep : step s a = some s') : s'.Rested := by
  have huser : s.inUser → ∃ stack, s.stack = .user :: stack := fun hin =>
    (List.head?_eq_some_iff.mp (of_decide_eq_true hin))
  have hframe : ∀ {f stack} {t : Loop}, s.stack = f :: stack → t.phase = s.phase → t.Rested := by
    intro f stack t hs hphase hp
    exact absurd (hphase.symm.trans hp) (not_poll h hs)
  cases a with
  | pollReturn ready =>
    obtain ⟨-, -, polled, active, -, rfl⟩ := step_pollReturn hstep
    exact nofun
  | handle =>
    obtain ⟨c, active, conn, -, -, -, rfl⟩ := step_handle hstep
    exact nofun
  | timer =>
    obtain ⟨active, hp, -, rfl⟩ := step_timer hstep
    intro hpoll
    cases hp.symm.trans hpoll
  | other =>
    obtain ⟨active, hp, -, rfl⟩ := step_other hstep
    intro hpoll
    cases hp.symm.trans hpoll
  | swap =>
    obtain ⟨-, -, rfl⟩ := step_swap hstep
    exact nofun
  | runTask =>
    obtain ⟨task, batch, -, -, hrun⟩ := step_runTask hstep
    intro hpoll
    cases (leaves_runTask hrun : Leaves 0 _ _ _).phase.symm.trans hpoll
  | batchDone =>
    obtain ⟨-, hs, rfl⟩ := step_batchDone hstep
    exact fun _ => hs
  | next =>
    obtain ⟨f, stack, hs, hrun⟩ := step_next hstep
    cases f with
    | release c =>
      cases hrun
      exact hframe hs rfl
    | _ =>
      obtain ⟨k, -, hleaves⟩ : ∃ k, k < _ ∧ Leaves 0 k _ _ := leaves_runFrame (by simp) hrun
      exact hframe hs hleaves.phase
  | recv r bytes =>
    obtain ⟨c, stack, conn, hs, -, -, hrun⟩ := step_recv hstep
    exact hframe hs (leaves_handerRead hrun : Leaves 0 _ _ _).phase
  | send r =>
    obtain ⟨c, stack, conn, hs, -, hrun⟩ := step_send hstep
    exact hframe hs (leaves_handerWrite hrun : Leaves 0 _ _ _).phase
  | call task =>
    obtain ⟨hin, -, hrun⟩ := step_call hstep
    obtain ⟨stack, hs⟩ := huser hin
    exact hframe hs (leaves_runTask hrun : Leaves 0 _ _ _).phase
  | release c =>
    obtain ⟨hin, -, rfl⟩ := step_release hstep
    obtain ⟨stack, hs⟩ := huser hin
    exact hframe hs rfl
  | changeProtocal c connectCb closeCb msgCb =>
    obtain ⟨hin, conn, -, rfl⟩ := step_changeProtocal hstep
    obtain ⟨stack, hs⟩ := huser hin
    exact hframe hs rfl
  | consume c len =>
    obtain ⟨hin, conn, inbuffer, -, -, rfl⟩ := step_consume hstep
    obtain ⟨stack, hs⟩ := huser hin
    exact hframe hs rfl
  | ret =>
    obtain ⟨stack, hs, rfl⟩ := step_ret hstep
    exact hframe hs rfl
  | newConnection c fd callbacks =>
    obtain ⟨-, -, rfl⟩ := step_newConnection hstep
    exact h.keep rfl id
  | post task =>
    cases hstep
    exact h.keep rfl id

/-- Outside `epoll_wait` a step of the round is due. -/
theorem round_goes_on (hp : s.phase ≠ .poll) : ∃ a, a.inRound = true ∧ s.Regular a := by
  cases hs : s.stack with
  | nil =>
    have hidle : s.idle = true := by simp [idle, hs]
    cases hphase : s.phase with
    | poll => exact absurd hphase hp
    | handle active =>
      cases active with
      | nil => exact ⟨.swap, rfl, by simp [due, hidle, hphase], trivial⟩
      | cons c active =>
        exact ⟨.handle, rfl, by simp [due, hidle, hphase, Phase.hasActive], trivial⟩
    | run batch =>
      cases batch with
      | nil => exact ⟨.batchDone, rfl, by simp [due, hidle, hphase], trivial⟩
      | cons task batch =>
        exact ⟨.runTask, rfl, by simp [due, hidle, hphase, Phase.hasTask], trivial⟩
  | cons f stack =>
    cases f with
    | user => exact ⟨.ret, rfl, by simp [due, inUser, hs], trivial⟩
    | handerRead c =>
      exact ⟨.recv ⟨-1, Socket.eagain⟩ [], rfl, by simp [due, hs, Frame.reads], by decide, rfl⟩
    | handerWrite c =>
      refine ⟨.send ⟨-1, Socket.eagain⟩, rfl, by simp [due, hs, Frame.writes], fun conn _ => ?_⟩
      show (-1 : Int) ≤ _
      omega
    | _ => exact ⟨.next, rfl, by simp [due, hs, Frame.goesOn], trivial⟩

/-- Whatever state a run has reached, the thread is back in `epoll_wait` after at most `rank` steps
and those that the timerfd, the other channels, user code and other threads are charged for: none of
them fails, and until then there is a next one that needs none of these. -/
theorem rounds_end (acts round : List Act) (hround : ∀ a ∈ round, a.polls = false)
    (h : Along step Regular start (acts ++ round)) :
    ∃ s s', exec step start acts = some s ∧ exec step s round = some s' ∧
      round.length ≤ s.rank + charges step charge s round ∧
      (s'.phase ≠ .poll → ∃ a, a.inRound = true ∧ s'.Regular a) := by
  obtain ⟨s', hs', -⟩ := regular_goes_through h
  rw [exec_append] at hs'
  obtain ⟨s, hs, hs'⟩ := Option.bind_eq_some_iff.mp hs'
  have hrested : s.Rested :=
    exec_preserves Rested (fun _ _ _ h hstep => h.step hstep) (fun _ => rfl) hs
  have hrank : s'.rank + round.length ≤ s.rank + charges step charge s round :=
    exec_charged (P := fun _ a => a.polls = false) Rested rank charge
      (fun _ _ _ hr ha hstep => ⟨hr.step hstep, rank_charge ha hr hstep⟩) hrested
        (along_of_mem fun _ => hround) hs'
  exact ⟨s, s', hs, hs', by omega, round_goes_on⟩

/-- The round of `visit` goes on with the release that its timer asked for, and a task that another
thread queues. -/
theorem rounds_end_visit :
    ∃ s s', exec step start visit = some s ∧
      exec step s [.swap, .runTask, .post .user, .ret, .next, .ret, .batchDone] = some s' ∧
      7 ≤ s.rank + charges step charge s [.swap, .runTask, .post .user, .ret, .next,
        .ret, .batchDone] ∧
      (s'.phase ≠ .poll → ∃ a, a.inRound = true ∧ s'.Regular a) :=
  rounds_end visit [.swap, .runTask, .post .user, .ret, .next, .ret, .batchDone]
    (by decide) (by decide +kernel)

end Loop
end MuduoServer
