import Mathlib.Algebra.BigOperators.Group.Finset.Basic
import MuduoServer.PoolRuns

/-!
# `Create` obtains the loops

If no thread uses a member before its initialiser has run, the caller of `Create` is never stuck,
and apart from wakeups without a notification its steps and those of the threads are bounded. So it
returns, with the loop of each thread.
-/
namespace MuduoServer

open Transition LoopThread

namespace LoopThread

/-- The thread locks `_mutex` and writes `_loop` only after their initialisers. -/
def UsesLate (t : LoopThread) : Prop :=
  (t.entry = .lock → t.MutexReady) ∧ (t.entry = .publish → t.Constructed)

instance (t : LoopThread) : Decidable t.UsesLate := inferInstanceAs (Decidable (_ ∧ _))

/-- What a thread that uses its members late keeps to. -/
structure Tidy (i : Nat) (t : LoopThread) : Prop where
  kept : Kept i t
  fresh : t.Constructed → ¬t.Published → t.loop = none
  outside : t.InBlock → t.MutexReady
  sane : t.entry ≠ .crashed ∧ ∀ loop, t.entry = .running loop → loop = i + 1

theorem tidy_raw (i : Nat) (locked : Bool) (loop : Option Nat) : Tidy i (raw locked loop) where
  kept h := by cases h
  fresh h := by cases h
  outside h := by cases h
  sane := ⟨nofun, nofun⟩

variable {i : Nat} {t t' : LoopThread}

theorem Local.late (h : Local UsesLate i t t') : Local LoopThread.PublishesLate i t t' := by
  cases h with
  | initialise hm => exact .initialise hm
  | mutex locked hc => exact .mutex locked hc
  | entry hP he => exact .entry hP.2 he

theorem inBlock_threadEntry (h : t.threadEntry i = some t') :
    (t.entry = .lock ∧ t.locked = false ∧ t'.locked = true ∧ t'.InBlock ∧ ¬t.InBlock) ∨
      (t.entry = .unlock ∧ t'.locked = false ∧ t.InBlock ∧ ¬t'.InBlock) ∨
      (t'.locked = t.locked ∧ (t'.InBlock ↔ t.InBlock)) := by
  unfold threadEntry at h
  split at h <;> rename_i he
  case h_1 | h_8 | h_9 => cases h
  case h_2 | h_4 | h_5 => cases h; exact .inr (.inr ⟨rfl, by simp [InBlock, Entry.inBlock, he]⟩)
  case h_3 =>
    split at h <;> rename_i hl
    · cases h
    · cases h
      exact .inl ⟨he, Bool.eq_false_iff.mpr hl, rfl, rfl, by simp [InBlock, Entry.inBlock, he]⟩
  case h_6 => cases h; exact .inr (.inl ⟨he, rfl,
    by simp [InBlock, Entry.inBlock, he], by simp [InBlock, Entry.inBlock]⟩)
  case h_7 => split at h <;> cases h <;> exact .inr (.inr ⟨rfl, by simp [InBlock, Entry.inBlock, he]⟩)

/-- What `Start` runs on. -/
theorem start_threadEntry (h : t.threadEntry i = some t') (ht : Tidy i t) :
    t'.entry ≠ .crashed ∧ ∀ loop, t'.entry = .running loop → loop = i + 1 := by
  unfold threadEntry at h
  split at h <;> rename_i he
  case h_1 | h_8 | h_9 => cases h
  case h_2 | h_4 | h_5 | h_6 => cases h; simp
  case h_3 => split at h <;> cases h; simp
  case h_7 =>
    have hpub : t.Published := by simp [Published, Entry.published, he]
    rw [(ht.kept hpub).2] at h
    cases h
    refine ⟨?_, fun loop hl => (Entry.running.inj hl).symm⟩
    simp

theorem Tidy.local (h : Tidy i t) (hl : Local UsesLate i t t') : Tidy i t' := by
  refine ⟨h.kept.local hl.late, ?_, ?_, ?_⟩
  · cases hl with
    | @initialise m hm =>
      cases m with
      | loop => exact fun _ _ => rfl
      | thread | cond | mutex => exact fun hc => by cases hc
    | mutex locked hc => exact h.fresh
    | entry hP he =>
      intro hc hpub
      have hold := mt (published_threadEntry he).mpr hpub
      rw [not_or] at hold
      rw [loop_threadEntry he, if_neg hold.2]
      exact h.fresh ((constructed_threadEntry he).mp hc) hold.1
  · cases hl with
    | @initialise m hm =>
      intro hin
      cases m with
      | thread => cases hin
      | cond =>
        have hready : t.MutexReady := h.outside hin
        rw [MutexReady, hm] at hready
        rcases hready with hr | hr <;> cases hr
      | mutex => exact .inr rfl
      | loop => exact .inl rfl
    | mutex locked hc => exact fun _ => .inl hc
    | entry hP he =>
      intro hin
      have hready : t.MutexReady := by
        rcases inBlock_threadEntry he with ⟨hlock, -⟩ | ⟨-, -, -, hout⟩ | ⟨-, hiff⟩
        · exact hP.1 hlock
        · exact absurd hin hout
        · exact h.outside (hiff.mp hin)
      rw [MutexReady, (initialiser_threadEntry he).1]
      exact hready
  · cases hl with
    | @initialise m hm =>
      cases m with
      | thread => simp [initialise]
      | cond | mutex | loop => exact h.sane
    | mutex locked hc => exact h.sane
    | entry hP he => exact start_threadEntry he h

end LoopThread

namespace PoolStart

variable {n : Nat} {s s' : PoolStart} {a : Act}

/-- The thread whose `_mutex` the caller holds. -/
def Caller.holds : Caller → Option Nat
  | .check i | .block i | .take i => some i
  | _ => none

theorem Caller.holds_asks {c : Caller} {i : Nat} (h : c.holds = some i) : c.asks = some i := by
  cases c <;> first | exact h | cases h

/-- Who holds `_mutex` of a `LoopThread`, and what the caller that is at it can rely on. -/
structure Guarded (i : Nat) (t : LoopThread) (c : Caller) : Prop where
  owner : t.MutexReady → (t.locked = true ↔ t.InBlock ∨ c.holds = some i)
  alone : t.InBlock → c.holds ≠ some i
  block : c = .block i → t.loop = none
  waiting : c = .waiting i → t.Published → t.entry = .notify

theorem Guarded.elsewhere {i : Nat} {t : LoopThread} {c c' : Caller} (h : Guarded i t c)
    (hc : c.asks ≠ some i) (hc' : c'.asks ≠ some i) : Guarded i t c' where
  owner hr := by
    rw [h.owner hr]
    exact or_congr_right ⟨fun hh => absurd (Caller.holds_asks hh) hc,
      fun hh => absurd (Caller.holds_asks hh) hc'⟩
  alone _ hh := hc' (Caller.holds_asks hh)
  block hb := absurd (by rw [hb]; rfl) hc'
  waiting hb := absurd (by rw [hb]; rfl) hc'

/-- The invariant of the runs in which the threads use their members late. -/
structure InOrder (n : Nat) (s : PoolStart) : Prop where
  placed : Placed n s
  tidy : ∀ j, Tidy j (s.threads j)
  guarded : ∀ j, Guarded j (s.threads j) s.caller

/-- The step condition: thread `i` uses its members late. -/
def UsesLate (s : PoolStart) : Act → Prop
  | .thread i => (s.threads i).UsesLate
  | _ => True

instance (s : PoolStart) : ∀ a, Decidable (s.UsesLate a)
  | .thread i => inferInstanceAs (Decidable (s.threads i).UsesLate)
  | .caller => .isTrue trivial
  | .wake => .isTrue trivial

theorem asks_loopAt_ne (n i j : Nat) : (Caller.loopAt n i).asks ≠ some j := by simp

theorem inOrder_start (n : Nat) (memory : Nat → Bool × Option Nat) :
    InOrder n (start n memory) where
  placed := placed_start n memory
  tidy j := tidy_raw j _ _
  guarded j := by
    have hc : (start n memory).caller.asks ≠ some j := asks_loopAt_ne n 0 j
    refine ⟨fun hr => ?_, fun hb => ?_, fun hb => ?_, fun hb => ?_⟩
    · rcases hr with h | h <;> cases h
    · cases hb
    · exact absurd (by rw [hb]; rfl) hc
    · exact absurd (by rw [hb]; rfl) hc

theorem InOrder.tidy_step (h : InOrder n s) (hs : step n s a = some s')
    (hlate : s.UsesLate a) (j : Nat) :
    Tidy j (s'.threads j) := by
  rcases local_step h.placed hs LoopThread.UsesLate j
    (fun ha => by subst ha; exact hlate) with ht | ht
  · rw [ht]
    exact h.tidy j
  · exact (h.tidy j).local ht

/-- The caller changes the mutex of thread `i`, or nothing, and stays with this thread
or leaves it. -/
theorem InOrder.guarded_at (h : InOrder n s) {i : Nat} {t : LoopThread} {c : Caller}
    (hasks : ∀ j, s.caller.asks = some j → j = i) (hasks' : ∀ j, c.asks = some j → j = i)
    (ht : Guarded i t c) (j : Nat) :
    Guarded j ((s.setThread i t).threads j) c := by
  by_cases hj : j = i
  · subst hj
    rw [threads_setThread]
    exact ht
  · rw [threads_setThread_of_ne _ hj]
    exact (h.guarded j).elsewhere (fun hc => hj (hasks j hc)) fun hc => hj (hasks' j hc)

theorem guarded_initialise {i : Nat} {t : LoopThread} {m : Member} (ht : Tidy i t)
    (hm : t.initialiser = some m) {c : Caller} (hg : Guarded i t c) (hc : c.asks ≠ some i) :
    Guarded i (t.initialise m) c := by
  refine ⟨fun hr => ?_, fun _ hh => hc (Caller.holds_asks hh),
    fun hb => absurd (by rw [hb]; rfl) hc,
    fun hb => absurd (by rw [hb]; rfl) hc⟩
  have hholds : c.holds ≠ some i := fun hh => hc (Caller.holds_asks hh)
  cases m with
  | thread => rcases hr with h | h <;> cases h
  | cond => rcases hr with h | h <;> cases h
  | mutex =>
    have hout : ¬t.InBlock := fun hin => by
      rcases ht.outside hin with hr | hr <;> rw [hm] at hr <;> cases hr
    exact ⟨fun hl => (by cases hl), fun ho => (ho.elim hout hholds).elim⟩
  | loop => exact hg.owner (.inr hm)

/-- The caller is at thread `i`, whose mutex it changes or leaves as it is. -/
theorem InOrder.guarded_of (h : InOrder n s) {i : Nat} {t : LoopThread} {c : Caller}
    (hasks : s.caller.asks = some i) (hasks' : c.asks = some i ∨ c.asks = none)
    (ht : Guarded i t c) (j : Nat) :
    Guarded j ((s.setThread i t).threads j) c := by
  refine h.guarded_at (fun k hk => ?_) (fun k hk => ?_) ht j
  · exact (Option.some.inj (hasks.symm.trans hk)).symm
  · rcases hasks' with hc | hc <;> rw [hc] at hk <;> cases hk
    rfl

theorem setThread_self (s : PoolStart) (i : Nat) : s.setThread i (s.threads i) = s := by
  simp [setThread]

/-- The caller releases the mutex and waits or goes on. -/
theorem guarded_release {i : Nat} {t : LoopThread} {c : Caller} (hout : ¬t.InBlock)
    (hholds : c.holds ≠ some i) (hblock : c ≠ .block i) (hwaiting : c = .waiting i → ¬t.Published) :
    Guarded i { t with locked := false } c where
  owner _ := ⟨fun hl => Bool.noConfusion hl, fun ho => (ho.elim hout hholds).elim⟩
  alone _ := hholds
  block hb := absurd hb hblock
  waiting hw hpub := absurd hpub (hwaiting hw)

/-- A caller that does not hold the mutex may go on to lock it. -/
theorem InOrder.guarded_lock (h : InOrder n s) {i : Nat} (hc : s.caller.holds = none) :
    Guarded i (s.threads i) (.lock i) := by
  refine ⟨fun hr => ?_, fun _ => nofun, nofun, nofun⟩
  have howner := (h.guarded i).owner hr
  rw [hc] at howner
  exact howner

/-- A caller that has looked at `_loop` still holds the mutex. -/
theorem InOrder.guarded_checked (h : InOrder n s) {i : Nat} {c : Caller} (hc : s.caller = .check i)
    (hholds : c.holds = some i) (hblock : c = .block i → (s.threads i).loop = none) :
    Guarded i (s.threads i) c := by
  have hsame : s.caller.holds = c.holds := by
    rw [hc, hholds]
    rfl
  refine ⟨fun hr => hsame ▸ (h.guarded i).owner hr, fun hin => hsame ▸ (h.guarded i).alone hin,
    hblock, fun hw => ?_⟩
  rw [hw] at hholds
  cases hholds

theorem InOrder.guarded_caller (h : InOrder n s) (hs : CallerStep n s s') (j : Nat) :
    Guarded j (s'.threads j) s'.caller := by
  cases hs with
  | @initialise i m hc hm =>
    have hasks : s.caller.asks = none := by rw [hc]; rfl
    have hne : ∀ k, s.caller.asks ≠ some k := by simp [hasks]
    exact h.guarded_at (fun k hk => absurd hk (hne k)) (fun k hk => absurd hk (hne k))
      (guarded_initialise (h.tidy i) hm (h.guarded i) (hne i)) j
  | @constructed i hc hcons =>
    have hg : Guarded i (s.threads i) (.lock i) := h.guarded_lock (by rw [hc]; rfl)
    have hne : ∀ k, s.caller.asks ≠ some k := by simp [hc, Caller.asks]
    simpa [setThread_self] using h.guarded_at (c := .lock i)
      (fun k hk => absurd hk (hne k)) (fun k hk => (Option.some.inj hk).symm) hg j
  | @lock i hc hl =>
    have hasks : s.caller.asks = some i := by rw [hc]; rfl
    have hfree : ¬(s.threads i).InBlock := fun hin => by
      have := ((h.guarded i).owner (.inl (h.placed.asks i hasks))).mpr (.inl hin)
      rw [hl] at this
      cases this
    have hg : Guarded i { s.threads i with locked := true } (.check i) :=
      ⟨fun _ => ⟨fun _ => .inr rfl, fun _ => rfl⟩, fun hin => absurd hin hfree, nofun, nofun⟩
    exact h.guarded_of hasks (.inl rfl) hg j
  | @empty i hc hl =>
    have hasks : s.caller.asks = some i := by rw [hc]; rfl
    have hg : Guarded i (s.threads i) (.block i) := h.guarded_checked hc rfl fun _ => hl
    simpa [setThread_self] using h.guarded_of hasks (.inl rfl) hg j
  | @full i hc hl =>
    have hasks : s.caller.asks = some i := by rw [hc]; rfl
    have hg : Guarded i (s.threads i) (.take i) := h.guarded_checked hc rfl nofun
    simpa [setThread_self] using h.guarded_of hasks (.inl rfl) hg j
  | @block i hc =>
    have hout : ¬(s.threads i).InBlock := fun hin => (h.guarded i).alone hin (by rw [hc]; rfl)
    have hnot : ¬(s.threads i).Published := fun hpub => by
      have hloop := ((h.tidy i).kept hpub).2
      rw [(h.guarded i).block hc] at hloop
      cases hloop
    exact h.guarded_of (c := .waiting i) (by rw [hc]; rfl) (.inl rfl)
      (guarded_release hout nofun nofun fun _ => hnot) j
  | @take i hc =>
    have hout : ¬(s.threads i).InBlock := fun hin => (h.guarded i).alone hin (by rw [hc]; rfl)
    have hnone := asks_loopAt n (i + 1)
    have hg : Guarded i { s.threads i with locked := false } (Caller.loopAt n (i + 1)) := by
      refine guarded_release hout (fun hh => ?_) (fun hb => ?_) fun hw => ?_
      · rw [Caller.holds_asks hh] at hnone
        cases hnone
      · rw [hb] at hnone
        cases hnone
      · rw [hw] at hnone
        cases hnone
    exact h.guarded_of (by rw [hc]; rfl) (.inr hnone) hg j

/-- The caller's own thread takes a step in `Thread_Entry`. -/
theorem guarded_entry {i : Nat} {t t' : LoopThread} {c : Caller} (hg : Guarded i t c)
    (he : t.threadEntry i = some t') (hlate : t.UsesLate)
    (hc : t.entry = .notify → c ≠ .waiting i) :
    Guarded i t' c := by
  have hready : t'.MutexReady ↔ t.MutexReady := by
    rw [MutexReady, MutexReady, (initialiser_threadEntry he).1]
  refine ⟨fun hr => ?_, fun hin => ?_, fun hb => ?_, fun hw hpub => ?_⟩
  · have howner := hg.owner (hready.mp hr)
    rcases inBlock_threadEntry he with ⟨-, -, hl', hin', -⟩ | ⟨-, hl', hin, hin'⟩ | ⟨hl', hin'⟩
    · simp [hl', hin']
    · simpa [hl', hin'] using hg.alone hin
    · rw [hl', hin']
      exact howner
  · rcases inBlock_threadEntry he with ⟨hlock, hl, -⟩ | ⟨-, -, -, hout⟩ | ⟨-, hiff⟩
    · intro hh
      have := (hg.owner (hlate.1 hlock)).mpr (.inr hh)
      rw [hl] at this
      cases this
    · exact absurd hin hout
    · exact hg.alone (hiff.mp hin)
  · have hnot : t.entry ≠ .publish :=
      fun hp => hg.alone (by simp [InBlock, Entry.inBlock, hp]) (by rw [hb]; rfl)
    rw [loop_threadEntry he, if_neg hnot]
    exact hg.block hb
  · have hnot : t.entry ≠ .notify := fun hn => hc hn hw
    rcases (published_threadEntry he).mp hpub with ho | ho
    · exact absurd (hg.waiting hw ho) hnot
    · simp only [threadEntry, ho] at he
      cases he
      rfl

theorem inOrder_step (h : InOrder n s) (hlate : s.UsesLate a) (hs : step n s a = some s') :
    InOrder n s' := by
  refine ⟨placed_step h.placed hs, h.tidy_step hs hlate, fun j => ?_⟩
  cases a with
  | caller => exact h.guarded_caller (callerStep hs) j
  | wake =>
    simp only [step] at hs
    split at hs <;> cases hs
    rename_i i hc
    have hg : Guarded i (s.threads i) (.lock i) := h.guarded_lock (by rw [hc]; rfl)
    simpa [setThread_self] using h.guarded_of (by rw [hc]; rfl) (.inl rfl) hg j
  | thread i =>
    obtain ⟨t, ht, hthreads, -, hcaller⟩ := stepThread_cases hs
    rw [hthreads]
    rcases hcaller with ⟨hc, hn⟩ | ⟨hn, hc, hc'⟩
    · rw [hc]
      by_cases hj : j = i
      · subst hj
        rw [Function.update_self]
        exact guarded_entry (h.guarded j) ht hlate hn
      · rw [Function.update_of_ne hj]
        exact h.guarded j
    · rw [hc']
      have hg : Guarded i (s.threads i) (.lock i) := h.guarded_lock (by rw [hc]; rfl)
      exact h.guarded_of (by rw [hc]; rfl) (.inl rfl) (guarded_entry hg ht hlate (by simp)) j

theorem inOrder_run {memory : Nat → Bool × Option Nat} {as : List Act}
    (h : exec (step n) (start n memory) as = some s)
    (hlate : Along (step n) UsesLate (start n memory) as) :
    InOrder n s :=
  exec_invariant (InOrder n) (fun _ _ _ hi hl hs => inOrder_step hi hl hs)
    (inOrder_start n memory) hlate h

/-- As long as `Create` has not returned, a step other than a wakeup without notification
is possible. -/
theorem InOrder.progress (h : InOrder n s) (hc : s.caller ≠ .returned) :
    ∃ a, a ≠ .wake ∧ s.UsesLate a ∧ (step n s a).isSome := by
  have hthread : ∀ i, (s.threads i).Constructed → ((s.threads i).threadEntry i).isSome →
      ∃ a, a ≠ .wake ∧ s.UsesLate a ∧ (step n s a).isSome := fun i hcons ht => by
    refine ⟨.thread i, by simp, ⟨fun _ => .inl hcons, fun _ => hcons⟩, ?_⟩
    obtain ⟨t, ht⟩ := Option.isSome_iff_exists.mp ht
    simp [step, stepThread, ht]
  have hcaller : (s.stepCaller n).isSome → ∃ a, a ≠ .wake ∧ s.UsesLate a ∧ (step n s a).isSome :=
    fun hs => ⟨.caller, by simp, trivial, hs⟩
  cases hi : s.caller with
  | returned => exact absurd hi hc
  | construct i =>
    cases hm : (s.threads i).initialiser with
    | none => exact hcaller (by simp [stepCaller, hi, hm])
    | some m => exact hcaller (by simp [stepCaller, hi, hm])
  | check i | block i | take i => exact hcaller (by simp [stepCaller, hi])
  | lock i =>
    have hcons : (s.threads i).Constructed := h.placed.asks i (by rw [hi]; rfl)
    cases hl : (s.threads i).locked with
    | false => exact hcaller (by simp [stepCaller, hi, hl])
    | true =>
      -- the thread is in its block, which it can leave
      have hin := (((h.guarded i).owner (.inl hcons)).mp hl).resolve_right
        (fun hh => by rw [hi] at hh; cases hh)
      cases he : (s.threads i).entry with
      | publish | notify | unlock => exact hthread i hcons (by simp [threadEntry, he])
      | unborn | construct | lock | start | running | crashed =>
        simp [InBlock, Entry.inBlock, he] at hin
  | waiting i =>
    have hcons : (s.threads i).Constructed := h.placed.asks i (by rw [hi]; rfl)
    have hnotify := (h.guarded i).waiting hi
    cases he : (s.threads i).entry with
    | unborn =>
      have := (h.placed.coherent i).born.mpr he
      rw [hcons] at this
      cases this
    | construct | publish | notify => exact hthread i hcons (by simp [threadEntry, he])
    | lock =>
      have hfree : (s.threads i).locked ≠ true := fun hl => by
        rcases ((h.guarded i).owner (.inl hcons)).mp hl with hin | hh
        · simp [InBlock, Entry.inBlock, he] at hin
        · rw [hi] at hh
          cases hh
      exact hthread i hcons (by simp [threadEntry, he, hfree])
    | unlock | start | running | crashed =>
      have := hnotify (by simp [Published, Entry.published, he])
      rw [he] at this
      cases this

/-! ## The number of steps -/

/-- What a thread still has to do; its notification may take the caller three steps back. -/
def entryRank : Entry → Nat
  | .unborn | .construct => 9
  | .lock => 8
  | .publish => 7
  | .notify => 6
  | .unlock => 2
  | .start => 1
  | .running _ | .crashed => 0

def initialiserRank : Option Member → Nat
  | some .thread => 4
  | some .cond => 3
  | some .mutex => 2
  | some .loop => 1
  | none => 0

def callerRank (n : Nat) (s : PoolStart) : Nat :=
  match s.caller with
  | .construct i => 10 * (n - 1 - i) + 5 + initialiserRank (s.threads i).initialiser
  | .lock i => 10 * (n - 1 - i) + 4
  | .check i => 10 * (n - 1 - i) + 3
  | .block i => 10 * (n - 1 - i) + 2
  | .waiting i | .take i => 10 * (n - 1 - i) + 1
  | .returned => 0

def entriesRank (n : Nat) (s : PoolStart) : Nat :=
  ∑ j ∈ Finset.range n, entryRank (s.threads j).entry

def rank (n : Nat) (s : PoolStart) : Nat := entriesRank n s + callerRank n s

theorem entriesRank_congr
    (h : ∀ j, entryRank (s'.threads j).entry = entryRank (s.threads j).entry) :
    entriesRank n s' = entriesRank n s :=
  Finset.sum_congr rfl fun j _ => h j

theorem entriesRank_update {i : Nat} {t : LoopThread} (hi : i < n)
    (hthreads : s'.threads = Function.update s.threads i t) :
    entriesRank n s' + entryRank (s.threads i).entry = entriesRank n s + entryRank t.entry := by
  have hmem : i ∈ Finset.range n := Finset.mem_range.mpr hi
  have hrest : ∑ j ∈ (Finset.range n).erase i, entryRank (s'.threads j).entry =
      ∑ j ∈ (Finset.range n).erase i, entryRank (s.threads j).entry := by
    refine Finset.sum_congr rfl fun j hj => ?_
    rw [hthreads, Function.update_of_ne (Finset.ne_of_mem_erase hj)]
  have hi' : (s'.threads i).entry = t.entry := by rw [hthreads, Function.update_self]
  have hsum' := Finset.add_sum_erase (Finset.range n) (fun j => entryRank (s'.threads j).entry) hmem
  have hsum := Finset.add_sum_erase (Finset.range n) (fun j => entryRank (s.threads j).entry) hmem
  rw [hrest, hi'] at hsum'
  simp only [entriesRank]
  omega

theorem entryRank_threadEntry {i : Nat} {t t' : LoopThread} (h : t.threadEntry i = some t') :
    entryRank t'.entry + 1 ≤ entryRank t.entry ∧
    (t.entry = .notify → entryRank t'.entry + 4 = entryRank t.entry) := by
  unfold threadEntry at h
  split at h <;> rename_i he
  case h_1 | h_8 | h_9 => cases h
  case h_2 | h_4 | h_5 | h_6 => cases h; simp [he, entryRank]
  case h_3 => split at h <;> cases h; simp [he, entryRank]
  case h_7 => split at h <;> cases h <;> simp [he, entryRank]

/-- Steps of the caller change no entry, up to the spawning of a thread. -/
theorem entriesRank_caller (h : Placed n s) (hs : CallerStep n s s') :
    entriesRank n s' = entriesRank n s := by
  have hset : ∀ (i : Nat) (t : LoopThread), entryRank t.entry = entryRank (s.threads i).entry →
      entriesRank n (s.setThread i t) = entriesRank n s :=
        fun i t ht => entriesRank_congr fun j => by
    by_cases hj : j = i
    · subst hj
      rw [threads_setThread, ht]
    · rw [threads_setThread_of_ne _ hj]
  cases hs with
  | @initialise i m hc hm =>
    refine hset _ _ ?_
    cases m with
    | thread => rw [(h.coherent i).born.mp hm]; rfl
    | cond | mutex | loop => rfl
  | lock _ _ | block _ | take _ => exact hset _ _ rfl
  | constructed _ _ | empty _ _ | full _ _ => rfl

theorem callerRank_caller (h : Placed n s) (hs : CallerStep n s s') :
    callerRank n s' + 1 ≤ callerRank n s := by
  cases hs with
  | @initialise i m hc hm =>
    simp only [callerRank, caller_setThread, hc, threads_setThread, initialiser_initialise, hm]
    cases m <;> simp [Member.following, initialiserRank]
  | @constructed i hc hcons =>
    simp only [callerRank, hc]
    omega
  | lock hc _ | empty hc _ | block hc =>
    simp only [callerRank, hc]
    omega
  | full hc _ =>
    simp only [callerRank, hc]
    omega
  | @take i hc =>
    have hlt : i < n := by simpa [hc, Caller.index] using h.range
    simp only [callerRank, hc, Caller.loopAt]
    by_cases hnext : i + 1 < n
    · have hfresh : (s.threads (i + 1)).initialiser = some .thread :=
        h.untouched (i + 1) (.inr (by simp [hc, Caller.index]))
      simp only [if_pos hnext, threads_setThread_of_ne _ (show i + 1 ≠ i by omega), hfresh,
        initialiserRank]
      omega
    · simp only [if_neg hnext]
      omega

theorem rank_step (h : Placed n s) (hs : step n s a = some s') :
    rank n s' + 1 ≤ rank n s + 4 * (if a = .wake then 1 else 0) := by
  cases a with
  | caller =>
    have hentries := entriesRank_caller h (callerStep hs)
    have hcaller := callerRank_caller h (callerStep hs)
    simp only [rank, reduceCtorEq, if_false]
    omega
  | wake =>
    simp only [step] at hs
    split at hs <;> cases hs
    rename_i i hc
    have hentries : entriesRank n { s with caller := .lock i } = entriesRank n s := rfl
    simp only [rank, hentries, callerRank, hc, if_true]
    omega
  | thread i =>
    obtain ⟨t, ht, hthreads, -, hcaller⟩ := stepThread_cases hs
    have hborn : (s.threads i).initialiser ≠ some .thread := fun hm =>
      (initialiser_threadEntry ht).2.1 ((h.coherent i).born.mp hm)
    have hi : i < n := by
      by_contra hge
      exact hborn (h.untouched i (.inl (Nat.le_of_not_lt hge)))
    have hentries := entriesRank_update hi hthreads
    obtain ⟨hrank, hnotify⟩ := entryRank_threadEntry ht
    simp only [rank, reduceCtorEq, if_false]
    rcases hcaller with ⟨hc, -⟩ | ⟨hn, hc, hc'⟩
    · have hsame : callerRank n s' = callerRank n s := by
        have hinit : ∀ j, (s'.threads j).initialiser = (s.threads j).initialiser := fun j => by
          rw [hthreads]
          by_cases hj : j = i
          · subst hj
            rw [Function.update_self, (initialiser_threadEntry ht).1]
          · rw [Function.update_of_ne hj]
        simp only [callerRank, hc, hinit]
      omega
    · have := hnotify hn
      simp only [callerRank, hc, hc']
      omega

theorem rank_start (n : Nat) (memory : Nat → Bool × Option Nat) :
    rank n (start n memory) ≤ 19 * n := by
  have hentries : entriesRank n (start n memory) = 9 * n := by
    simp [entriesRank, start, raw, entryRank, Nat.mul_comm]
  rw [rank, hentries]
  cases n with
  | zero => simp [callerRank, start, Caller.loopAt]
  | succ n =>
    simp only [callerRank, start, Caller.loopAt, Nat.zero_lt_succ, if_true, raw, initialiserRank]
    omega

/-- Steps other than wakeups without notification are bounded. -/
theorem rank_run (h : Placed n s) {as : List Act} (hs : exec (step n) s as = some s') :
    rank n s' + as.length ≤ rank n s + 4 * as.count .wake := by
  induction as generalizing s with
  | nil => cases hs; simp
  | cons a as ih =>
    obtain ⟨t, ht, hs⟩ := Option.bind_eq_some_iff.mp hs
    have hstep := rank_step h ht
    have hrest := ih (placed_step h ht) hs
    rw [List.length_cons, List.count_cons]
    simp only [beq_iff_eq]
    omega

/-! ## Start-up -/

theorem slaves_returned (h : Placed n s) (hc : s.caller = .returned) :
    s.slaves = (List.range n).map fun i => some (i + 1) := by
  refine List.ext_getElem? fun i => ?_
  by_cases hi : i < n
  · rw [(h.obtained i (by rw [hc]; exact hi)).2.2]
    simp [hi]
  · rw [List.getElem?_eq_none (by rw [h.length]; omega)]
    simp [Nat.le_of_not_lt hi]

theorem not_returned_of_lost (h : Placed n s) {i : Nat} (hlost : (s.threads i).Lost) :
    s.caller ≠ .returned := by
  intro hc
  have hi : i < n := by
    by_contra hge
    have hborn := (h.coherent i).born.mp (h.untouched i (.inl (Nat.le_of_not_lt hge)))
    have := hlost.1
    simp [Published, Entry.published, hborn] at this
  obtain ⟨hcons, hloop, -⟩ := h.obtained i (by rw [hc]; exact hi)
  rw [hlost.2 hcons] at hloop
  cases hloop

/-- Runs of `Create` with the threads it starts, in any order of their steps. A thread's loop
stays in `_loop` exactly if the thread publishes after the initialiser of `_loop`; otherwise
`Create` does not return. If the threads use `_mutex` and `_loop` only after their initialisers,
`Create` can always go on until it has all loops, within a bounded number of steps that are no
spurious wakeups. -/
theorem create_obtains {memory : Nat → Bool × Option Nat} {as : List Act}
    (h : exec (step n) (start n memory) as = some s) :
    (∀ i, (s.threads i).Constructed → (s.threads i).Published →
      ((s.threads i).loop = some (i + 1) ↔ Along (step n) (PublishesLate i) (start n memory) as)) ∧
    (∀ i, ¬Along (step n) (PublishesLate i) (start n memory) as → s.caller ≠ .returned) ∧
    (Along (step n) UsesLate (start n memory) as →
      (∀ i, (s.threads i).Constructed → (s.threads i).Published →
        (s.threads i).loop = some (i + 1)) ∧
      (s.caller = .returned → s.slaves = (List.range n).map fun i => some (i + 1)) ∧
      (s.caller ≠ .returned → ∃ a, a ≠ .wake ∧ s.UsesLate a ∧ (step n s a).isSome) ∧
      as.length ≤ 19 * n + 4 * as.count .wake) := by
  have hplaced : Placed n s := placed_run h
  refine ⟨fun i => loop_iff_late h i, fun i hearly => ?_,
    fun hlate => ⟨fun i hcons hpub => ?_, ?_, ?_, ?_⟩⟩
  · exact not_returned_of_lost hplaced (lost_of_early (placed_start n memory) h hearly)
  · exact (((inOrder_run h hlate).tidy i).kept hpub).2
  · exact slaves_returned hplaced
  · exact (inOrder_run h hlate).progress
  · have hrank := rank_run (placed_start n memory) h
    have := rank_start n memory
    omega

/-- One thread that has published before the last initialiser of its `LoopThread`. -/
def earlyRun : List Act :=
  [.caller, .thread 0, .thread 0, .thread 0, .thread 0, .thread 0, .caller, .caller, .caller,
    .caller, .caller, .caller,
    .caller]

/-- The same steps with the thread held up until its `LoopThread` is constructed. -/
def usualRun : List Act :=
  [.caller, .caller, .caller, .caller, .thread 0, .thread 0, .thread 0, .thread 0, .thread 0,
    .thread 0, .caller, .caller,
    .caller, .caller]

def zeroMemory (_ : Nat) : Bool × Option Nat := (false, none)

theorem create_obtains_usual :
    ((exec (step 1) (start 1 zeroMemory) usualRun).map fun s => (s.caller, s.slaves)) =
    some (.returned, [some 1]) ∧
      usualRun.length ≤ 19 * 1 + 4 * usualRun.count .wake :=
  ⟨by
    decide,
      ((create_obtains (Option.some_get
        (show (exec (step 1) (start 1 zeroMemory) usualRun).isSome by decide)).symm).2.2
    (by decide)).2.2.2⟩

/-- The published loop is overwritten, and nothing that can still happen makes `Create` return. -/
theorem create_hangs : ∃ s, exec (step 1) (start 1 zeroMemory) earlyRun = some s ∧
    (s.threads 0).Constructed ∧
    (s.threads 0).Published ∧ (s.threads 0).loop = none ∧
    ∀ as s', exec (step 1) s as = some s' → s'.caller ≠ .returned := by
  obtain ⟨s, hs⟩ :=
    Option.isSome_iff_exists.mp (show (exec (step 1) (start 1 zeroMemory) earlyRun).isSome by decide)
  have hend : ((exec (step 1) (start 1 zeroMemory) earlyRun).map fun s =>
      decide ((s.threads 0).Constructed ∧ (s.threads 0).Published ∧ (s.threads 0).loop = none)) =
        some true := by decide
  rw [hs, Option.map_some, Option.some.injEq, decide_eq_true_eq] at hend
  have hplaced : Placed 1 s := placed_run hs
  refine ⟨s, hs, hend.1, hend.2.1, hend.2.2, fun as s' h => ?_⟩
  exact not_returned_of_lost (exec_preserves (Placed 1) (fun _ _ _ hi ht => placed_step hi ht) hplaced h)
    (lost_run hplaced ⟨hend.2.1, fun _ => hend.2.2⟩ h)

end PoolStart
end MuduoServer
