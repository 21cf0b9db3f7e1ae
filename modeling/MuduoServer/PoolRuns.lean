import MuduoServer.LoopThread
import MuduoServer.Transition

/-!
# What a `LoopThread` holds after its construction

`_loop` keeps the published loop exactly if the thread publishes after the initialiser of `_loop`. A
thread that publishes before it has its loop overwritten by `nullptr`, and `Create` waits for it.
-/
namespace MuduoServer

open Transition LoopThread

namespace LoopThread

/-- What one step of `Create` or of the thread does to a `LoopThread`, where the thread's
steps meet `P`. -/
inductive Local (P : LoopThread → Prop) (i : Nat) (t : LoopThread) : LoopThread → Prop where
  | initialise {m : Member} : t.initialiser = some m → Local P i t (t.initialise m)
  | mutex (locked : Bool) : t.Constructed → Local P i t { t with locked := locked }
  | entry {t' : LoopThread} : P t → t.threadEntry i = some t' → Local P i t t'

variable {P : LoopThread → Prop} {i : Nat} {t t' : LoopThread}

theorem initialiser_initialise (t : LoopThread) (m : Member) :
    (t.initialise m).initialiser = m.following := by
  cases m <;> rfl

theorem initialiser_threadEntry (h : t.threadEntry i = some t') :
    t'.initialiser = t.initialiser ∧ t.entry ≠ .unborn ∧ t'.entry ≠ .unborn := by
  unfold threadEntry at h
  split at h <;> rename_i he
  case h_1 | h_8 | h_9 => cases h
  case h_2 | h_4 | h_5 | h_6 => cases h; simp [he]
  case h_3 => split at h <;> cases h; simp [he]
  case h_7 => split at h <;> cases h <;> simp [he]

theorem constructed_threadEntry (h : t.threadEntry i = some t') :
    t'.Constructed ↔ t.Constructed := by
  rw [Constructed, Constructed, (initialiser_threadEntry h).1]

/-- What holds of a `LoopThread` in every run. -/
structure Coherent (i : Nat) (t : LoopThread) : Prop where
  born : t.initialiser = some .thread ↔ t.entry = .unborn
  value : t.Constructed → t.loop = none ∨ t.loop = some (i + 1)

theorem coherent_raw (i : Nat) (locked : Bool) (loop : Option Nat) : Coherent i (raw locked loop) :=
  ⟨Iff.intro (fun _ => rfl) fun _ => rfl, fun h => by cases h⟩

theorem loop_threadEntry (h : t.threadEntry i = some t') :
    t'.loop = if t.entry = .publish then some (i + 1) else t.loop := by
  unfold threadEntry at h
  split at h <;> rename_i he
  case h_1 | h_8 | h_9 => cases h
  case h_2 | h_4 | h_5 | h_6 => cases h; simp [he]
  case h_3 => split at h <;> cases h; simp [he]
  case h_7 => split at h <;> cases h <;> simp_all

theorem Coherent.local (h : Coherent i t) (hl : Local P i t t') : Coherent i t' := by
  cases hl with
  | @initialise m hm =>
    refine ⟨?_, fun hc => ?_⟩
    · cases m with
      | thread => simp [LoopThread.initialise, Member.following]
      | cond | mutex | loop =>
        have hb : t.entry ≠ .unborn := fun he => by
          have := h.born.mpr he
          rw [hm] at this
          cases this
        simpa [LoopThread.initialise, Member.following] using hb
    · cases m with
      | loop => exact .inl rfl
      | thread | cond | mutex => cases hc
  | mutex locked hc => exact ⟨h.born, h.value⟩
  | entry hP he =>
    obtain ⟨hi, hb, hb'⟩ := initialiser_threadEntry he
    refine ⟨?_, fun hc => ?_⟩
    · rw [hi]
      exact ⟨fun ht => absurd (h.born.mp ht) hb, fun ht => absurd ht hb'⟩
    · rw [loop_threadEntry he]
      split
      · exact .inr rfl
      · exact h.value ((constructed_threadEntry he).mp hc)

theorem published_threadEntry (h : t.threadEntry i = some t') :
    t'.Published ↔ t.Published ∨ t.entry = .publish := by
  unfold threadEntry at h
  split at h <;> rename_i he
  case h_1 | h_8 | h_9 => cases h
  case h_2 | h_4 | h_5 | h_6 => cases h; simp [Published, Entry.published, he]
  case h_3 => split at h <;> cases h; simp [Published, Entry.published, he]
  case h_7 => split at h <;> cases h <;> simp [Published, Entry.published, he]

/-- The loop is lost: it has been published, and the initialiser of `_loop` overwrites it. -/
def Lost (t : LoopThread) : Prop := t.Published ∧ (t.Constructed → t.loop = none)

theorem Published.not_publish {t : LoopThread} (h : t.Published) : t.entry ≠ .publish := by
  intro he
  simp [Published, Entry.published, he] at h

theorem Lost.local (h : t.Lost) (hp : Coherent i t) (hl : Local P i t t') : t'.Lost := by
  cases hl with
  | @initialise m hm =>
    cases m with
    | thread =>
      have he := hp.born.mp hm
      have := h.1
      simp [Published, Entry.published, he] at this
    | loop => exact ⟨h.1, fun _ => rfl⟩
    | cond | mutex => exact ⟨h.1, fun hc => by cases hc⟩
  | mutex locked hc => exact h
  | entry hP he =>
    refine ⟨(published_threadEntry he).mpr (.inl h.1), fun hc => ?_⟩
    rw [loop_threadEntry he, if_neg h.1.not_publish]
    exact h.2 ((constructed_threadEntry he).mp hc)

/-- A thread that publishes once `_loop` is initialised has its loop there. -/
def Kept (i : Nat) (t : LoopThread) : Prop := t.Published → t.Constructed ∧ t.loop = some (i + 1)

/-- The step does not publish before the initialiser of `_loop` has run. -/
def PublishesLate (t : LoopThread) : Prop := t.entry = .publish → t.Constructed

theorem Kept.local (h : Kept i t) (hl : Local PublishesLate i t t') : Kept i t' := by
  cases hl with
  | @initialise m hm =>
    intro hpub
    have hold : ¬t.Published := fun ho => by
      have := (h ho).1
      rw [Constructed, hm] at this
      cases this
    cases m with
    | thread => cases hpub
    | cond | mutex | loop => exact absurd hpub hold
  | mutex locked hc => exact h
  | entry hP he =>
    intro hpub
    rw [constructed_threadEntry he, loop_threadEntry he]
    rcases (published_threadEntry he).mp hpub with ho | ho
    · rw [if_neg ho.not_publish]
      exact h ho
    · exact ⟨hP ho, if_pos ho⟩

end LoopThread

namespace PoolStart

variable {n : Nat} {s s' : PoolStart} {a : Act}

/-- The thread whose `LoopThread` the caller is at. -/
def Caller.index (n : Nat) : Caller → Nat
  | .construct i | .lock i | .check i | .block i | .waiting i | .take i => i
  | .returned => n

/-- The thread in whose `Get_EventLoop` the caller is. -/
def Caller.asks : Caller → Option Nat
  | .lock i | .check i | .block i | .waiting i | .take i => some i
  | .construct _ | .returned => none

@[simp] theorem index_loopAt {i : Nat} (h : i ≤ n) : (Caller.loopAt n i).index n = i := by
  unfold Caller.loopAt
  split
  · rfl
  · exact Nat.le_antisymm (Nat.le_of_not_lt ‹¬i < n›) h

@[simp] theorem asks_loopAt (n i : Nat) : (Caller.loopAt n i).asks = none := by
  unfold Caller.loopAt
  split <;> rfl

theorem loopAt_eq_returned {i : Nat} : Caller.loopAt n i = .returned ↔ n ≤ i := by
  unfold Caller.loopAt
  split <;> simp <;> omega

/-- Where `Create` is, and what it has obtained before. -/
structure Placed (n : Nat) (s : PoolStart) : Prop where
  coherent : ∀ j, Coherent j (s.threads j)
  range : s.caller = .returned ∨ s.caller.index n < n
  obtained : ∀ j < s.caller.index n,
    (s.threads j).Constructed ∧ (s.threads j).loop = some (j + 1) ∧
      s.slaves[j]? = some (some (j + 1))
  asks : ∀ i, s.caller.asks = some i → (s.threads i).Constructed
  untouched : ∀ j, n ≤ j ∨ s.caller.index n < j → (s.threads j).initialiser = some .thread
  take : ∀ i, s.caller = .take i → (s.threads i).loop ≠ none
  length : s.slaves.length = n

theorem placed_start (n : Nat) (memory : Nat → Bool × Option Nat) : Placed n (start n memory) where
  coherent j := coherent_raw j _ _
  range := by
    simp only [start, loopAt_eq_returned, index_loopAt (Nat.zero_le n)]
    omega
  obtained j hj := by simp [start] at hj
  asks i hi := by simp [start] at hi
  untouched _ _ := rfl
  take i hi := by
    unfold start Caller.loopAt at hi
    split at hi <;> cases hi
  length := List.length_replicate

/-- A step after which the caller is at the same thread, and no initialiser has run. -/
theorem Placed.advance (h : Placed n s) (hindex : s'.caller.index n = s.caller.index n)
    (hrange : s.caller = .returned → s'.caller = .returned) (hslaves : s'.slaves = s.slaves)
    (hasks : ∀ i, s'.caller.asks = some i → (s.threads i).Constructed)
    (hthreads : ∀ j, Coherent j (s'.threads j) ∧
      (s'.threads j).initialiser = (s.threads j).initialiser ∧
      ((s'.threads j).loop = (s.threads j).loop ∨ (s'.threads j).loop = some (j + 1)))
    (htake : ∀ i, s'.caller = .take i → (s.threads i).loop ≠ none) : Placed n s' where
  coherent j := (hthreads j).1
  range := by
    rw [hindex]
    exact h.range.imp_left hrange
  obtained j hj := by
    rw [hindex] at hj
    obtain ⟨hc, hl, hs⟩ := h.obtained j hj
    refine ⟨(hthreads j).2.1.trans hc, ?_, hslaves ▸ hs⟩
    rcases (hthreads j).2.2 with hl' | hl'
    · exact hl'.trans hl
    · exact hl'
  asks i hi := (hthreads i).2.1.trans (hasks i hi)
  untouched j hj := by
    rw [hindex] at hj
    exact (hthreads j).2.1.trans (h.untouched j hj)
  take i hi := by
    rcases (hthreads i).2.2 with hl | hl <;> rw [hl]
    · exact htake i hi
    · exact Option.some_ne_none _
  length := by rw [hslaves, h.length]

/-! ## The steps -/

/-- The thread whose `LoopThread` a step changes. -/
theorem stepThread_cases {i : Nat} (h : s.stepThread i = some s') :
    ∃ t, (s.threads i).threadEntry i = some t ∧
    s'.threads = Function.update s.threads i t ∧ s'.slaves = s.slaves ∧
    (s'.caller = s.caller ∧ ((s.threads i).entry = .notify → s.caller ≠ .waiting i) ∨
      (s.threads i).entry = .notify ∧ s.caller = .waiting i ∧ s'.caller = .lock i) := by
  obtain ⟨t, ht, h⟩ := Option.bind_eq_some_iff.mp h
  refine ⟨t, ht, ?_⟩
  cases h
  split
  · rename_i hn
    exact ⟨rfl, rfl, .inr ⟨hn.1, hn.2, rfl⟩⟩
  · rename_i hn
    exact ⟨rfl, rfl, .inl ⟨rfl, fun he hw => hn ⟨he, hw⟩⟩⟩

/-- The steps of the thread that runs `Create`. -/
inductive CallerStep (n : Nat) (s : PoolStart) : PoolStart → Prop where
  | initialise {i : Nat} {m : Member} : s.caller = .construct i →
    (s.threads i).initialiser = some m →
      CallerStep n s (s.setThread i ((s.threads i).initialise m))
  | constructed {i : Nat} : s.caller = .construct i → (s.threads i).Constructed →
      CallerStep n s { s with caller := .lock i }
  | lock {i : Nat} : s.caller = .lock i → (s.threads i).locked = false →
      CallerStep n s { s.setThread i { s.threads i with locked := true } with caller := .check i }
  | empty {i : Nat} : s.caller = .check i → (s.threads i).loop = none →
      CallerStep n s { s with caller := .block i }
  | full {i : Nat} : s.caller = .check i → (s.threads i).loop ≠ none →
    CallerStep n s { s with caller := .take i }
  | block {i : Nat} : s.caller = .block i →
      CallerStep n s { s.setThread i { s.threads i with locked := false } with caller := .waiting i }
  | take {i : Nat} : s.caller = .take i →
      CallerStep n s { s.setThread i { s.threads i with locked := false } with
        caller := .loopAt n (i + 1), slaves := s.slaves.set i (s.threads i).loop }

theorem callerStep (h : s.stepCaller n = some s') : CallerStep n s s' := by
  unfold stepCaller at h
  split at h <;> rename_i hc
  case h_5 | h_7 => cases h
  case h_1 =>
    split at h <;> rename_i hm <;> cases h
    · exact .initialise hc hm
    · exact .constructed hc hm
  case h_2 =>
    split at h <;> rename_i hl
    · cases h
    · cases h
      exact .lock hc (Bool.eq_false_iff.mpr hl)
  case h_3 =>
    cases h
    split
    · exact .empty hc ‹_›
    · exact .full hc ‹_›
  case h_4 => cases h; exact .block hc
  case h_6 => cases h; exact .take hc

theorem Placed.construct (h : Placed n s) {i : Nat} {m : Member} (hc : s.caller = .construct i)
    (hm : (s.threads i).initialiser = some m) :
    Placed n (s.setThread i ((s.threads i).initialise m)) := by
  have hi : s.caller.index n = i := by rw [hc]; rfl
  have hlt : i < n := by simpa [hc, Caller.index] using h.range
  refine ⟨fun j => ?_, h.range, fun j hj => ?_, fun j hj => ?_, fun j hj => ?_,
    fun j hj => ?_, h.length⟩
  · by_cases hj : j = i
    · subst hj
      rw [threads_setThread]
      exact (h.coherent j).local (.initialise (P := fun _ => True) hm)
    · rw [threads_setThread_of_ne _ hj]
      exact h.coherent j
  · rw [caller_setThread, hi] at hj
    rw [threads_setThread_of_ne _ (Nat.ne_of_lt hj)]
    exact h.obtained j (hi ▸ hj)
  · rw [caller_setThread, hc] at hj
    cases hj
  · rw [caller_setThread, hi] at hj
    rw [threads_setThread_of_ne _ (by omega)]
    exact h.untouched j (hi ▸ hj)
  · rw [caller_setThread, hc] at hj
    cases hj

/-- `Get_EventLoop` returns to `Create`. -/
theorem Placed.collect (h : Placed n s) {i : Nat} (hc : s.caller = .take i) :
    Placed n { s.setThread i { s.threads i with locked := false } with
      caller := .loopAt n (i + 1), slaves := s.slaves.set i (s.threads i).loop } := by
  have hi : s.caller.index n = i := by rw [hc]; rfl
  have hlt : i < n := by simpa [hc, Caller.index] using h.range
  have hcons : (s.threads i).Constructed := h.asks i (by rw [hc]; rfl)
  have hloop : (s.threads i).loop = some (i + 1) :=
    ((h.coherent i).value hcons).resolve_left (h.take i hc)
  have hindex : (Caller.loopAt n (i + 1)).index n = i + 1 := index_loopAt hlt
  refine ⟨fun j => ?_, ?_, fun j hj => ?_, fun j hj => ?_, fun j hj => ?_, fun j hj => ?_, ?_⟩
  · by_cases hj : j = i
    · subst hj
      simpa using (h.coherent j).local (.mutex (P := fun _ => True) false hcons)
    · simpa [threads_setThread_of_ne _ hj] using h.coherent j
  · simp only [loopAt_eq_returned, hindex]
    omega
  · rw [hindex] at hj
    by_cases hji : j = i
    · subst hji
      rw [threads_setThread]
      exact ⟨hcons, hloop, by simp [h.length, hlt, hloop]⟩
    · have := h.obtained j (by omega)
      simpa [threads_setThread_of_ne _ hji, List.getElem?_set_ne (Ne.symm hji)] using this
  · simp at hj
  · rw [hindex] at hj
    simpa [threads_setThread_of_ne _ (show j ≠ i by omega)] using h.untouched j (by omega)
  · dsimp only at hj
    unfold Caller.loopAt at hj
    split at hj <;> cases hj
  · simp [h.length]

/-- The caller only changes where it is, or what is locked. -/
theorem Placed.mutex (h : Placed n s) {i : Nat} {caller : Caller} (locked : Bool)
    (hasks : s.caller.asks = some i) (hasks' : caller.asks = some i)
    (hindex : caller.index n = s.caller.index n)
    (htake : caller = .take i → (s.threads i).loop ≠ none) :
    Placed n { s.setThread i { s.threads i with locked := locked } with caller := caller } := by
  have hcons := h.asks i hasks
  refine h.advance hindex (fun hr => ?_) rfl (fun j hj => ?_) (fun j => ?_) fun j hj => ?_
  · rw [hr] at hasks
    cases hasks
  · cases hasks'.symm.trans hj
    exact hcons
  · by_cases hj : j = i
    · subst hj
      rw [show PoolStart.threads { s.setThread j _ with caller := caller } j =
        _ from s.threads_setThread j _]
      exact ⟨(h.coherent j).local (.mutex (P := fun _ => True) locked hcons), rfl, .inl rfl⟩
    · rw [show PoolStart.threads { s.setThread i _ with caller := caller } j =
        _ from s.threads_setThread_of_ne hj _]
      exact ⟨h.coherent j, rfl, .inl rfl⟩
  · have hj : caller = .take j := hj
    subst hj
    cases hasks'
    exact htake rfl

theorem Placed.go (h : Placed n s) {caller : Caller} (hindex : caller.index n = s.caller.index n)
    (hrange : s.caller ≠ .returned) (hasks : ∀ i, caller.asks = some i → (s.threads i).Constructed)
    (htake : ∀ i, caller = .take i → (s.threads i).loop ≠ none) :
    Placed n { s with caller := caller } :=
  h.advance hindex (fun hr => absurd hr hrange) rfl hasks
    (fun j => ⟨h.coherent j, rfl, .inl rfl⟩) htake

theorem placed_caller (h : Placed n s) (hs : CallerStep n s s') : Placed n s' := by
  cases hs with
  | initialise hc hm => exact h.construct hc hm
  | take hc => exact h.collect hc
  | lock hc hl => exact h.mutex true (by rw [hc]; rfl) rfl (by rw [hc]; rfl) fun ht => by cases ht
  | block hc => exact h.mutex false (by rw [hc]; rfl) rfl (by rw [hc]; rfl) fun ht => by cases ht
  | constructed hc hcons =>
    refine h.go (by rw [hc]; rfl) (by simp [hc]) (fun j hj => ?_) fun j hj => by cases hj
    cases hj
    exact hcons
  | empty hc hl =>
    refine h.go (by rw [hc]; rfl) (by simp [hc]) (fun j hj => ?_) fun j hj => by cases hj
    exact h.asks j (by rw [hc]; exact hj)
  | full hc hl =>
    refine h.go (by rw [hc]; rfl) (by simp [hc]) (fun j hj => ?_) fun j hj => ?_
    · exact h.asks j (by rw [hc]; exact hj)
    · cases hj
      exact hl

theorem placed_step (h : Placed n s) (hs : step n s a = some s') : Placed n s' := by
  cases a with
  | caller => exact placed_caller h (callerStep hs)
  | wake =>
    simp only [step] at hs
    split at hs <;> cases hs
    rename_i hc
    exact h.go (by rw [hc]; rfl) (by simp [hc]) (fun j hj => h.asks j (by rw [hc]; exact hj))
      fun j hj => by cases hj
  | thread i =>
    obtain ⟨t, ht, hthreads, hslaves, hcaller⟩ := stepThread_cases hs
    have hcaller : s'.caller.index n = s.caller.index n ∧ s'.caller.asks = s.caller.asks ∧
        (s'.caller = s.caller ∨ s.caller ≠ .returned ∧ s'.caller = .lock i) := by
      rcases hcaller with ⟨hc, -⟩ | ⟨-, hc, hc'⟩
      · rw [hc]
        exact ⟨rfl, rfl, .inl rfl⟩
      · rw [hc, hc']
        exact ⟨rfl, rfl, .inr ⟨nofun, rfl⟩⟩
    refine h.advance hcaller.1 (fun hr => ?_) hslaves (fun j hj => h.asks j (hcaller.2.1 ▸ hj))
      (fun j => ?_)
      fun j hj => ?_
    · rcases hcaller.2.2 with hc | ⟨hc, -⟩
      · exact hc.trans hr
      · exact absurd hr hc
    · rw [hthreads]
      by_cases hj : j = i
      · subst hj
        rw [Function.update_self, loop_threadEntry ht]
        refine ⟨(h.coherent j).local (.entry (P := fun _ => True) trivial ht),
          (initialiser_threadEntry ht).1, ?_⟩
        split
        · exact .inr rfl
        · exact .inl rfl
      · rw [Function.update_of_ne hj]
        exact ⟨h.coherent j, rfl, .inl rfl⟩
    · rcases hcaller.2.2 with hc | ⟨-, hc⟩
      · exact h.take j (hc ▸ hj)
      · rw [hc] at hj
        cases hj

theorem placed_run {memory : Nat → Bool × Option Nat} {as : List Act}
    (h : exec (step n) (start n memory) as = some s) : Placed n s :=
  exec_preserves (Placed n) (fun _ _ _ hi hs => placed_step hi hs) (placed_start n memory) h

theorem local_caller (h : Placed n s) (hs : CallerStep n s s') (P : LoopThread → Prop) (j : Nat) :
    s'.threads j = s.threads j ∨ Local P j (s.threads j) (s'.threads j) := by
  have hset : ∀ (i : Nat) (t : LoopThread), Local P i (s.threads i) t →
      (s.setThread i t).threads j = s.threads j ∨
        Local P j (s.threads j) ((s.setThread i t).threads j) := by
    intro i t hl
    by_cases hj : j = i
    · subst hj
      rw [threads_setThread]
      exact .inr hl
    · exact .inl (s.threads_setThread_of_ne hj t)
  cases hs with
  | initialise hc hm => exact hset _ _ (.initialise hm)
  | lock hc _ | block hc | take hc => exact hset _ _ (.mutex _ (h.asks _ (by rw [hc]; rfl)))
  | constructed _ _ | empty _ _ | full _ _ => exact .inl rfl

/-- Every `LoopThread` takes at most one local step. -/
theorem local_step (h : Placed n s) (hs : step n s a = some s') (P : LoopThread → Prop) (j : Nat)
    (hP : a = .thread j → P (s.threads j)) :
    s'.threads j = s.threads j ∨ Local P j (s.threads j) (s'.threads j) := by
  cases a with
  | caller => exact local_caller h (callerStep hs) P j
  | wake =>
    simp only [step] at hs
    split at hs <;> cases hs
    exact .inl rfl
  | thread i =>
    obtain ⟨t, ht, hthreads, -, -⟩ := stepThread_cases hs
    rw [hthreads]
    by_cases hj : j = i
    · subst hj
      rw [Function.update_self]
      exact .inr (.entry (hP rfl) ht)
    · exact .inl (Function.update_of_ne hj ..)

/-- A step of thread `i` that publishes comes after the initialiser of `_loop`. -/
def PublishesLate (i : Nat) (s : PoolStart) (a : Act) : Prop :=
  a = .thread i → (s.threads i).PublishesLate

theorem kept_run {memory : Nat → Bool × Option Nat} {as : List Act}
    (h : exec (step n) (start n memory) as = some s) (i : Nat)
    (hlate : Along (step n) (PublishesLate i) (start n memory) as) : Kept i (s.threads i) := by
  refine (exec_invariant (fun s => Placed n s ∧ Kept i (s.threads i)) ?_ ⟨placed_start n memory, ?_⟩ hlate h).2
  · rintro s a s' ⟨hplaced, hkept⟩ hlate hs
    refine ⟨placed_step hplaced hs, ?_⟩
    rcases local_step hplaced hs LoopThread.PublishesLate i hlate with ht | ht
    · rw [ht]
      exact hkept
    · exact hkept.local ht
  · intro hp
    cases hp

theorem lost_run (hplaced : Placed n s) {i : Nat} (hlost : (s.threads i).Lost) {as : List Act}
    (h : exec (step n) s as = some s') : (s'.threads i).Lost := by
  refine (exec_preserves (fun s => Placed n s ∧ (s.threads i).Lost) ?_ ⟨hplaced, hlost⟩ h).2
  rintro s a s' ⟨hplaced, hlost⟩ hs
  refine ⟨placed_step hplaced hs, ?_⟩
  rcases local_step hplaced hs (fun _ => True) i (fun _ => trivial) with ht | ht
  · rw [ht]
    exact hlost
  · exact hlost.local (hplaced.coherent i) ht

/-- A thread that publishes too early has lost its loop. -/
theorem lost_of_early (hplaced : Placed n s) {i : Nat} {as : List Act}
    (h : exec (step n) s as = some s') (hearly : ¬Along (step n) (PublishesLate i) s as) :
    (s'.threads i).Lost := by
  induction as generalizing s with
  | nil => exact absurd trivial hearly
  | cons a as ih =>
    obtain ⟨t, ht, h⟩ := Option.bind_eq_some_iff.mp h
    by_cases hlate : PublishesLate i s a
    · refine ih (placed_step hplaced ht) h fun hrest => hearly ⟨hlate, fun t' ht' => ?_⟩
      cases ht.symm.trans ht'
      exact hrest
    · refine lost_run (placed_step hplaced ht) ?_ h
      simp only [PublishesLate, LoopThread.PublishesLate, Classical.not_imp] at hlate
      obtain ⟨rfl, hpub, hcons⟩ := hlate
      obtain ⟨t', ht', hthreads, -, -⟩ := stepThread_cases ht
      rw [hthreads, Function.update_self]
      exact ⟨(published_threadEntry ht').mpr (.inr hpub),
        fun hc => absurd ((constructed_threadEntry ht').mp hc) hcons⟩

/-- A constructed `LoopThread` whose thread has published has its loop exactly if the thread
published late. -/
theorem loop_iff_late {memory : Nat → Bool × Option Nat} {as : List Act}
    (h : exec (step n) (start n memory) as = some s) (i : Nat) (hcons : (s.threads i).Constructed)
    (hpub : (s.threads i).Published) :
    (s.threads i).loop = some (i + 1) ↔ Along (step n) (PublishesLate i) (start n memory) as := by
  constructor
  · intro hloop
    by_contra hearly
    have hnone := (lost_of_early (placed_start n memory) h hearly).2 hcons
    rw [hloop] at hnone
    cases hnone
  · exact fun hlate => (kept_run h i hlate hpub).2

end PoolStart
end MuduoServer
