import Mathlib.Data.List.Range
import Mathlib.Logic.Function.Basic
import MuduoServer.Transition

/-!
# The task queue of the event loop

Producers push a task under the mutex and then write the eventfd; the loop
polls, clears the eventfd when it was seen readable, swaps the queue out and runs
the batch. Every step of every thread is one action, and actions interleave
freely.
-/
namespace MuduoServer

open Transition

/-- Where the loop thread is. -/
inductive LoopPhase (α : Type) where
  /-- In `Poll`, which returns when an event is ready. -/
  | poll
  /-- Handling the active channels; `event` while that of the eventfd is still to come. -/
  | handle (event : Bool)
  /-- In `RunAlltask` with the tasks `rest` of the batch to come; `busy` while one runs. -/
  | run (rest : List α) (busy : Bool)
  deriving DecidableEq

namespace LoopPhase

variable {α : Type}

def isPoll : LoopPhase α → Bool
  | .poll => true
  | _ => false

/-- The loop thread runs code that may call `QueueInLoop`. -/
def runsCode : LoopPhase α → Bool
  | .poll => false
  | .handle _ => true
  | .run _ busy => busy

/-- What is left of the batch. -/
def batch : LoopPhase α → List α
  | .run rest _ => rest
  | _ => []

/-- A swap is still to come before the next `Poll`. -/
def beforeSwap : LoopPhase α → Bool
  | .handle _ => true
  | _ => false

end LoopPhase

/-- `ι` are the producer threads. A task carries the number of its push. -/
structure TaskQueue (ι α : Type) where
  taskQueue : List (Nat × α)
  /-- The counter of the eventfd. -/
  eventfd : Nat
  /-- Producers between their push and their write. -/
  writing : ι → Bool
  /-- The loop thread itself between push and write. -/
  loopWriting : Bool
  phase : LoopPhase (Nat × α)
  /-- Everything pushed, in order. -/
  pushed : List (Nat × α)
  /-- Everything run, in order. -/
  ran : List (Nat × α)

namespace TaskQueue

variable {ι α : Type}

def start : TaskQueue ι α := ⟨[], 0, fun _ => false, false, .poll, [], []⟩

inductive Act (ι α : Type) where
  /-- `QueueInLoop` on a producer: the push under the mutex, then `Weak_Up_fd`. -/
  | push (i : ι) (task : α)
  | weakUp (i : ι)
  /-- `epoll_wait` returns, with the eventfd among the active channels or not. -/
  | pollReturn (event : Bool)
  | readEventFd
  /-- `QueueInLoop` on the loop thread, from a channel handler or from a task. -/
  | loopPush (task : α)
  | loopWeakUp
  /-- The swap in `RunAlltask`. -/
  | swap
  | runTask
  | taskDone
  | batchDone

def enqueue (s : TaskQueue ι α) (task : α) : TaskQueue ι α :=
  { s with
    taskQueue := s.taskQueue ++ [(s.pushed.length, task)]
    pushed := s.pushed ++ [(s.pushed.length, task)] }

theorem map_fst_enqueue (s : TaskQueue ι α) (task : α)
    (h : s.pushed.map Prod.fst = List.range s.pushed.length) :
    (s.enqueue task).pushed.map Prod.fst = List.range (s.enqueue task).pushed.length := by
  simp only [enqueue, List.map_append, h, List.map_cons, List.map_nil, List.length_append,
    List.length_cons, List.length_nil, Nat.zero_add, List.range_succ]

/-- Someone has pushed and will still write the eventfd. -/
def WriteDue (s : TaskQueue ι α) : Prop := 0 < s.eventfd ∨ s.loopWriting ∨ ∃ i, s.writing i

/-- Pushed tasks have run, are in the batch or are in the queue, in this order; and
a waiting task has a wake-up on its way or a swap before the next `Poll`. -/
structure Accounted (s : TaskQueue ι α) : Prop where
  order : s.pushed = s.ran ++ s.phase.batch ++ s.taskQueue
  numbered : s.pushed.map Prod.fst = List.range s.pushed.length
  awake : s.taskQueue ≠ [] → s.phase.beforeSwap ∨ WriteDue s
  idle : s.loopWriting → s.phase.runsCode

theorem accounted_start : Accounted (start : TaskQueue ι α) :=
  ⟨rfl, rfl, fun h => absurd rfl h, fun h => by cases h⟩

theorem Accounted.pushed_nodup {s : TaskQueue ι α} (h : Accounted s) : s.pushed.Nodup := by
  refine List.Pairwise.of_map Prod.fst (fun _ _ hne => ?_) (h.numbered ▸ List.nodup_range)
  exact fun he => hne (congrArg Prod.fst he)

variable [DecidableEq ι]

def step (s : TaskQueue ι α) : Act ι α → Option (TaskQueue ι α)
  | .push i task =>
    if s.writing i then none
    else some { s.enqueue task with writing := Function.update s.writing i true }
  | .weakUp i =>
    if s.writing i then
      some { s with eventfd := s.eventfd + 1, writing := Function.update s.writing i false }
    else none
  | .pollReturn event =>
    if s.phase.isPoll ∧ (event → 0 < s.eventfd) then some { s with phase := .handle event }
      else none
  | .readEventFd =>
    match s.phase with
    | .handle true =>
      if s.loopWriting then none else some { s with eventfd := 0, phase := .handle false }
    | _ => none
  | .loopPush task =>
    if s.loopWriting = false ∧ s.phase.runsCode
      then some { s.enqueue task with loopWriting := true }
    else none
  | .loopWeakUp =>
    if s.loopWriting then some { s with eventfd := s.eventfd + 1, loopWriting := false } else none
  | .swap =>
    match s.phase with
    | .handle false =>
      if s.loopWriting then none else some
        { s with taskQueue := [], phase := .run s.taskQueue false }
    | _ => none
  | .runTask =>
    match s.phase with
    | .run (t :: rest) false => some { s with phase := .run rest true, ran := s.ran ++ [t] }
    | _ => none
  | .taskDone =>
    match s.phase with
    | .run rest true => if s.loopWriting then none else some { s with phase := .run rest false }
    | _ => none
  | .batchDone =>
    match s.phase with
    | .run [] false => some { s with phase := .poll }
    | _ => none

/-- Each single step of a thread keeps the accounts. -/
theorem accounted_step (s : TaskQueue ι α) (a : Act ι α) (s' : TaskQueue ι α) (h : Accounted s)
    (hstep : step s a = some s') : Accounted s' := by
  obtain ⟨horder, hnum, hawake, hidle⟩ := h
  cases a with
  | push i task =>
    simp only [step] at hstep
    split at hstep
    · cases hstep
    · cases hstep
      refine ⟨?_, map_fst_enqueue s task hnum, ?_, hidle⟩
      · simp only [enqueue, horder, List.append_assoc]
      · exact fun _ => .inr (.inr (.inr ⟨i, by simp⟩))
  | weakUp i =>
    simp only [step] at hstep
    split at hstep
    · cases hstep
      exact ⟨horder, hnum, fun _ => .inr (.inl (Nat.succ_pos _)), hidle⟩
    · cases hstep
  | pollReturn event =>
    simp only [step] at hstep
    split at hstep
    · rename_i hp
      cases hstep
      have hpoll : s.phase = .poll := by
        cases hphase : s.phase <;> simp [hphase, LoopPhase.isPoll] at hp ⊢
      refine ⟨?_, hnum, fun _ => .inl rfl, fun _ => rfl⟩
      rw [horder, hpoll]
      rfl
    · cases hstep
  | readEventFd =>
    simp only [step] at hstep
    split at hstep
    · rename_i hphase
      rw [hphase] at horder
      split at hstep
      · cases hstep
      · rename_i hl
        cases hstep
        -- the swap that follows makes up for the cleared counter
        exact ⟨horder, hnum, fun _ => .inl rfl, fun h => absurd h hl⟩
    · cases hstep
  | loopPush task =>
    simp only [step] at hstep
    split at hstep
    · rename_i hl
      cases hstep
      refine ⟨?_, map_fst_enqueue s task hnum, fun _ => .inr (.inr (.inl rfl)), fun _ => hl.2⟩
      simp only [enqueue, horder, List.append_assoc]
    · cases hstep
  | loopWeakUp =>
    simp only [step] at hstep
    split at hstep
    · cases hstep
      exact ⟨horder, hnum, fun _ => .inr (.inl (Nat.succ_pos _)), fun h => by cases h⟩
    · cases hstep
  | swap =>
    simp only [step] at hstep
    split at hstep
    · rename_i hphase
      rw [hphase] at horder
      split at hstep
      · cases hstep
      · rename_i hl
        cases hstep
        refine ⟨?_, hnum, fun h => absurd rfl h, fun h => absurd h hl⟩
        simpa [LoopPhase.batch] using horder
    · cases hstep
  | runTask =>
    simp only [step] at hstep
    split at hstep
    · rename_i t rest hphase
      rw [hphase] at horder hawake
      cases hstep
      refine ⟨?_, hnum, hawake, fun _ => rfl⟩
      simpa [LoopPhase.batch] using horder
    · cases hstep
  | taskDone =>
    simp only [step] at hstep
    split at hstep
    · rename_i rest hphase
      rw [hphase] at horder hawake
      split at hstep
      · cases hstep
      · rename_i hl
        cases hstep
        exact ⟨horder, hnum, hawake, fun h => absurd h hl⟩
    · cases hstep
  | batchDone =>
    simp only [step] at hstep
    split at hstep
    · rename_i hphase
      rw [hphase] at horder hawake hidle
      cases hstep
      exact ⟨horder, hnum, hawake, hidle⟩
    · cases hstep

theorem accounted_exec {acts : List (Act ι α)} {s : TaskQueue ι α}
    (h : exec step start acts = some s) : Accounted s :=
  exec_preserves Accounted accounted_step accounted_start h

/-- What has run is a prefix of what was pushed, each push once, and the loop never
sleeps on a waiting task without a wake-up to come. -/
theorem event_loop_queue (acts : List (Act ι α)) (s : TaskQueue ι α)
    (h : exec step start acts = some s) :
    s.ran <+: s.pushed ∧ s.ran.Nodup ∧
      (s.phase = .poll → s.taskQueue ≠ [] → 0 < s.eventfd ∨ ∃ i, s.writing i = true) := by
  have hs := accounted_exec h
  have hran : s.ran <+: s.pushed := by
    rw [hs.order, List.append_assoc]
    exact List.prefix_append _ _
  refine ⟨hran, hs.pushed_nodup.sublist hran.sublist, ?_⟩
  intro hpoll hqueue
  rcases hs.awake hqueue with hswap | hcount | hloop | hwriting
  · rw [hpoll] at hswap; cases hswap
  · exact .inl hcount
  · -- the loop thread does not reach `Poll` between its push and its write
    have hcode := hs.idle hloop
    rw [hpoll] at hcode
    cases hcode
  · exact .inr hwriting

/-- A task of producer 0 queues another, and the loop returns to `Poll` with it waiting. -/
def nested : List (Act Nat Char) :=
  [.push 0 'a', .weakUp 0, .pollReturn true, .readEventFd, .push 1 'b', .swap, .runTask,
    .loopPush 'c',
    .loopWeakUp, .taskDone, .runTask, .taskDone, .batchDone]

theorem event_loop_queue_nested :
    ∃ s : TaskQueue Nat Char, exec step start nested = some s ∧ s.phase = .poll ∧
    s.taskQueue = [(2, 'c')] ∧
      s.ran <+: s.pushed ∧ s.ran.Nodup ∧
      (s.phase = .poll → s.taskQueue ≠ [] → 0 < s.eventfd ∨ ∃ i, s.writing i = true) :=
  ⟨_, rfl, rfl, rfl, event_loop_queue nested _ rfl⟩

end TaskQueue
end MuduoServer
