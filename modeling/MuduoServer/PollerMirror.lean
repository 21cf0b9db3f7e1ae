import Mathlib.Data.List.Forall2
import MuduoServer.Poller
import MuduoServer.Transition

/-!
# The poller mirrors the kernel

What is watched is written down three times: in `_channels`, in the mask of each channel and in the
interest set of the kernel. As long as one channel at a time uses a descriptor and removes itself
before the descriptor is closed, the three agree, and what the kernel reports finds the channel that
uses the descriptor now.
-/
namespace MuduoServer

open Transition

structure Channel where
  fd : Nat
  event : UInt32
  revent : UInt32
  /-- `Remove` has been called. -/
  removed : Bool
  deriving DecidableEq

/-- A poller, and the channels made so far. -/
structure Reactor where
  poller : Poller Nat
  objects : List Channel

namespace Reactor

def start : Reactor := ⟨Poller.empty, []⟩

def set (s : Reactor) (c : Nat) (ch : Channel) : Reactor := { s with objects := s.objects.set c ch }

/-- A new value of `_event`, then `unpate`. -/
def changeEvent (s : Reactor) (c : Nat) (mask : UInt32 → UInt32) : Option Reactor :=
  (s.objects[c]?).map fun ch =>
    { s.set c { ch with event := mask ch.event } with poller := s.poller.updateEvent c ch.fd (mask ch.event) }

def fdAddWrite (s : Reactor) (c : Nat) : Option Reactor :=
  s.changeEvent c fun event => event ||| epollOut
def fdAddRead (s : Reactor) (c : Nat) : Option Reactor :=
  s.changeEvent c fun event => event ||| epollIn
def fdDeleteWrite (s : Reactor) (c : Nat) : Option Reactor :=
  s.changeEvent c fun event => event &&& ~~~epollOut
def fdDeleteRead (s : Reactor) (c : Nat) : Option Reactor :=
  s.changeEvent c fun event => event &&& ~~~epollIn
def fdDeleteAllEvent (s : Reactor) (c : Nat) : Option Reactor := s.changeEvent c fun _ => 0

/-- The mask of the channel stays what it was. -/
def remove (s : Reactor) (c : Nat) : Option Reactor :=
  (s.objects[c]?).map fun ch =>
    { s.set c { ch with removed := true } with poller := s.poller.removeEvent ch.fd }

/-- The loop over what `epoll_wait` has reported. A descriptor that is not in `_channels`
fails the assert. -/
def poll (s : Reactor) : List (Nat × UInt32) → Option (Reactor × List Nat)
  | [] => some (s, [])
  | (fd, revent) :: ready => do
    let c ← s.poller.channels fd
    let ch ← s.objects[c]?
    let (s, ret) ← (s.set c { ch with revent := revent }).poll ready
    return (s, c :: ret)

inductive Act where
  | opened (fd : Nat)
  | made (fd : Nat)
  | fdAddWrite (c : Nat)
  | fdAddRead (c : Nat)
  | fdDeleteWrite (c : Nat)
  | fdDeleteRead (c : Nat)
  | fdDeleteAllEvent (c : Nat)
  | remove (c : Nat)
  | close (fd : Nat)
  | poll (ready : List (Nat × UInt32))

def step (s : Reactor) : Act → Option Reactor
  | .opened fd => some { s with poller := s.poller.opened fd }
  | .made fd => some { s with objects := s.objects ++ [⟨fd, 0, 0, false⟩] }
  | .fdAddWrite c => s.fdAddWrite c
  | .fdAddRead c => s.fdAddRead c
  | .fdDeleteWrite c => s.fdDeleteWrite c
  | .fdDeleteRead c => s.fdDeleteRead c
  | .fdDeleteAllEvent c => s.fdDeleteAllEvent c
  | .remove c => s.remove c
  | .close fd => some { s with poller := s.poller.close fd }
  | .poll ready => (s.poll ready).map Prod.fst

/-- The channel is there and has not been removed. -/
def Live (s : Reactor) (c : Nat) : Prop := ∃ ch, s.objects[c]? = some ch ∧ ch.removed = false

/-- No channel that has not been removed is about the descriptor. -/
def Unused (s : Reactor) (fd : Nat) : Prop := ∀ ch ∈ s.objects, ch.fd = fd → ch.removed = true

/-- What `epoll_wait` can report: watched descriptors, each once. -/
def Reports (s : Reactor) (ready : List (Nat × UInt32)) : Prop :=
  (ready.map Prod.fst).Nodup ∧ ∀ e ∈ ready, (s.poller.interest e.1).isSome

/-- How channels and descriptors are used: one channel for an open descriptor, no call of a channel
that has been removed, and no descriptor closed before. -/
def Proper (s : Reactor) : Act → Prop
  | .opened _ => True
  | .made fd => s.poller.isOpen fd = true ∧ s.Unused fd
  | .fdAddWrite c | .fdAddRead c | .fdDeleteWrite c | .fdDeleteRead c | .fdDeleteAllEvent c | .remove c => s.Live c
  | .close fd => s.Unused fd
  | .poll ready => s.Reports ready

instance (s : Reactor) (c : Nat) : Decidable (s.Live c) :=
  decidable_of_iff ((s.objects[c]?).any fun ch => !ch.removed) (by simp [Live, Option.any_eq_true])

instance (s : Reactor) (fd : Nat) : Decidable (s.Unused fd) :=
  inferInstanceAs (Decidable (∀ ch ∈ s.objects, ch.fd = fd → ch.removed = true))

instance (s : Reactor) (ready : List (Nat × UInt32)) : Decidable (s.Reports ready) :=
  inferInstanceAs (Decidable (_ ∧ ∀ e ∈ ready, (s.poller.interest e.1).isSome = true))

instance (s : Reactor) (a : Act) : Decidable (s.Proper a) := by
  cases a <;> unfold Proper <;> infer_instance

/-- The channel that uses the descriptor now. -/
def Uses (s : Reactor) (c fd : Nat) : Prop :=
  ∃ ch, s.objects[c]? = some ch ∧ ch.fd = fd ∧ ch.removed = false

/-- The kernel watches the descriptors of `_channels`, each for the mask of its channel, and each of
these channels is the one that uses its descriptor. -/
structure Mirrors (s : Reactor) : Prop where
  interest : ∀ fd, s.poller.interest fd = (s.poller.channels fd).bind fun c =>
    (s.objects[c]?).map Channel.event
  current : ∀ fd c, s.poller.channels fd = some c → s.Uses c fd
  alone : ∀ fd c d, s.Uses c fd → s.Uses d fd → c = d
  isOpen : ∀ fd c, s.Uses c fd → s.poller.isOpen fd = true

/-- Whatever the kernel can report is delivered, each event to the channel that uses
the descriptor. -/
def Delivers (s : Reactor) : Prop :=
  ∀ ready, s.Reports ready → ∃ s' ret, s.poll ready = some (s', ret) ∧
    List.Forall₂ (fun e c => s.Uses c e.1 ∧
      (s'.objects[c]?).map Channel.revent = some e.2) ready ret

variable {s : Reactor}

/-- A channel uses one descriptor. -/
theorem Uses.fd_eq {c fd fd' : Nat} (h : s.Uses c fd) (h' : s.Uses c fd') : fd = fd' := by
  obtain ⟨ch, hch, rfl, -⟩ := h
  obtain ⟨ch', hch', rfl, -⟩ := h'
  rw [Option.some.inj (hch.symm.trans hch')]

theorem Unused.not_uses {c fd : Nat} (h : s.Unused fd) : ¬s.Uses c fd := by
  rintro ⟨ch, hch, hfd, hlive⟩
  rw [h ch (List.mem_of_getElem? hch) hfd] at hlive
  cases hlive

theorem objects_set (s : Reactor) {c : Nat} {ch : Channel} (hch : s.objects[c]? = some ch)
    (ch' : Channel) (d : Nat) :
    (s.set c ch').objects[d]? = if d = c then some ch' else s.objects[d]? := by
  have hlt : c < s.objects.length := (List.getElem?_eq_some_iff.mp hch).1
  rw [set, List.getElem?_set]
  by_cases hd : d = c
  · subst hd
    simp [hlt]
  · rw [if_neg (Ne.symm hd), if_neg hd]

/-- A channel that keeps its descriptor and is not removed is what it was for `Uses`. -/
theorem uses_set {c d fd : Nat} {ch ch' : Channel} (hch : s.objects[c]? = some ch)
    (hfd : ch'.fd = ch.fd) (hremoved : ch'.removed = ch.removed) :
    (s.set c ch').Uses d fd ↔ s.Uses d fd := by
  unfold Uses
  rw [objects_set s hch]
  by_cases hd : d = c
  · subst hd
    simp [hch, hfd, hremoved]
  · rw [if_neg hd]

theorem Mirrors.registered (h : Mirrors s) (fd : Nat) :
    (s.poller.interest fd).isSome = (s.poller.channels fd).isSome := by
  rw [h.interest]
  cases hc : s.poller.channels fd with
  | none => rfl
  | some c =>
    obtain ⟨ch, hch, -⟩ := h.current fd c hc
    simp [hch]

/-- What becomes of a channel does not show under the descriptors of others. -/
theorem Mirrors.interest_set (h : Mirrors s) {c fd : Nat} {ch : Channel}
    (hch : s.objects[c]? = some ch) (huses : s.Uses c ch.fd) (hfd : fd ≠ ch.fd) (ch' : Channel) :
    s.poller.interest fd =
      (s.poller.channels fd).bind fun d => ((s.set c ch').objects[d]?).map Channel.event := by
  rw [h.interest fd]
  cases hd : s.poller.channels fd with
  | none => rfl
  | some d =>
    have hne : d ≠ c := by
      rintro rfl
      exact hfd ((h.current fd d hd).fd_eq huses)
    simp only [Option.bind_some, objects_set s hch, if_neg hne]

theorem start_mirrors : Mirrors start := by
  constructor <;> simp [start, Poller.empty, Uses]

/-- Every change of a mask reaches the map and the kernel. -/
theorem Mirrors.changeEvent (h : Mirrors s) {c : Nat} (hc : s.Live c) (mask : UInt32 → UInt32) :
    ∃ s', s.changeEvent c mask = some s' ∧ Mirrors s' := by
  obtain ⟨ch, hch, hlive⟩ := hc
  have huses : s.Uses c ch.fd := ⟨ch, hch, rfl, hlive⟩
  have hupdate :=
    s.poller.updateEvent_eq c ch.fd (mask ch.event) (h.isOpen _ _ huses) (h.registered ch.fd)
    fun d hd => h.alone ch.fd d c (h.current _ _ hd) huses
  have hsame : ∀ d fd, (s.set c { ch with event := mask ch.event }).Uses d fd ↔ s.Uses d fd :=
    fun d fd => uses_set hch rfl rfl
  refine ⟨_, by rw [Reactor.changeEvent, hch, Option.map_some], ?_⟩
  rw [hupdate]
  refine ⟨fun fd => ?_, fun fd d hd => ?_, fun fd d e hd he => ?_, fun fd d hd => ?_⟩
  · by_cases hfd : fd = ch.fd
    · subst hfd
      simp [objects_set s hch]
    · simp only [Function.update_of_ne hfd]
      exact h.interest_set hch huses hfd _
  · apply (hsame d fd).mpr
    by_cases hfd : fd = ch.fd
    · subst hfd
      simp only [Function.update_self, Option.some.injEq] at hd
      exact hd ▸ huses
    · simp only [Function.update_of_ne hfd] at hd
      exact h.current fd d hd
  · exact h.alone fd d e ((hsame d fd).mp hd) ((hsame e fd).mp he)
  · exact h.isOpen fd d ((hsame d fd).mp hd)

/-- A removal takes the descriptor out of the map and of the kernel, registered or not. -/
theorem Mirrors.remove (h : Mirrors s) {c : Nat} (hc : s.Live c) :
    ∃ s', s.remove c = some s' ∧ Mirrors s' := by
  obtain ⟨ch, hch, hlive⟩ := hc
  have huses : s.Uses c ch.fd := ⟨ch, hch, rfl, hlive⟩
  have hremove := s.poller.removeEvent_eq ch.fd (h.isOpen _ _ huses) (h.registered ch.fd)
  have hrest : ∀ d fd, (s.set c { ch with removed := true }).Uses d fd ↔ s.Uses d fd ∧ d ≠ c := by
    intro d fd
    unfold Uses
    rw [objects_set s hch]
    by_cases hd : d = c
    · simp [hd]
    · simp [hd]
  refine ⟨_, by rw [Reactor.remove, hch, Option.map_some], ?_⟩
  rw [hremove]
  refine ⟨fun fd => ?_, fun fd d hd => ?_, fun fd d e hd he => ?_, fun fd d hd => ?_⟩
  · by_cases hfd : fd = ch.fd
    · subst hfd
      simp
    · simp only [Function.update_of_ne hfd]
      exact h.interest_set hch huses hfd _
  · by_cases hfd : fd = ch.fd
    · subst hfd
      simp at hd
    · simp only [Function.update_of_ne hfd] at hd
      refine (hrest d fd).mpr ⟨h.current fd d hd, ?_⟩
      rintro rfl
      exact hfd ((h.current fd d hd).fd_eq huses)
  · exact h.alone fd d e ((hrest d fd).mp hd).1 ((hrest e fd).mp he).1
  · exact h.isOpen fd d ((hrest d fd).mp hd).1

theorem uses_made (s : Reactor) (fd c fd' : Nat) :
    Uses { s with objects := s.objects ++ [⟨fd, 0, 0, false⟩] } c fd' ↔
      s.Uses c fd' ∨ c = s.objects.length ∧ fd' = fd := by
  unfold Uses
  rcases Nat.lt_trichotomy c s.objects.length with hc | rfl | hc
  · simp [List.getElem?_append_left hc, Nat.ne_of_lt hc]
  · have hnone : s.objects[s.objects.length]? = none := List.getElem?_eq_none (Nat.le_refl _)
    rw [List.getElem?_concat_length, hnone]
    constructor
    · rintro ⟨ch, hch, hfd, -⟩
      cases hch
      exact .inr ⟨rfl, hfd.symm⟩
    · rintro (⟨ch, hch, -⟩ | ⟨-, rfl⟩)
      · cases hch
      · exact ⟨_, rfl, rfl, rfl⟩
  · have hnone : s.objects[c]? = none := List.getElem?_eq_none (Nat.le_of_lt hc)
    have hnone' : (s.objects ++ [⟨fd, 0, 0, false⟩])[c]? = none :=
      List.getElem?_eq_none (by simp; omega)
    simp [hnone, hnone', Nat.ne_of_gt hc]

/-- A new channel is not registered, whatever masks were left by those before it. -/
theorem Mirrors.made (h : Mirrors s) {fd : Nat} (hopen : s.poller.isOpen fd = true)
    (hunused : s.Unused fd) :
    Mirrors { s with objects := s.objects ++ [⟨fd, 0, 0, false⟩] } := by
  have hold : ∀ c, c < s.objects.length → (s.objects ++ [⟨fd, 0, 0, false⟩])[c]? = s.objects[c]? :=
    fun c hc => List.getElem?_append_left hc
  have huses := uses_made s fd
  refine ⟨fun fd' => ?_, fun fd' c hc => (huses c fd').mpr (.inl (h.current fd' c hc)),
    fun fd' c d hc hd => ?_,
    fun fd' c hc => ?_⟩
  · rw [h.interest fd']
    cases hc : s.poller.channels fd' with
    | none => rfl
    | some c =>
      obtain ⟨ch, hch, -⟩ := h.current fd' c hc
      simp only [Option.bind_some, hold c (List.getElem?_eq_some_iff.mp hch).1]
  · rcases (huses c fd').mp hc with hold_c | ⟨hlast, rfl⟩
    · rcases (huses d fd').mp hd with hold_d | ⟨-, rfl⟩
      · exact h.alone fd' c d hold_c hold_d
      · exact absurd hold_c hunused.not_uses
    · rcases (huses d fd').mp hd with hold_d | ⟨hlast', -⟩
      · exact absurd hold_d hunused.not_uses
      · exact hlast.trans hlast'.symm
  · rcases (huses c fd').mp hc with hold_c | ⟨-, rfl⟩
    · exact h.isOpen fd' c hold_c
    · exact hopen

theorem Mirrors.opened (h : Mirrors s) (fd : Nat) :
    Mirrors { s with poller := s.poller.opened fd } := by
  refine ⟨h.interest, h.current, h.alone, fun fd' c hc => ?_⟩
  by_cases hfd : fd' = fd
  · subst hfd
    simp [Poller.opened]
  · simp only [Poller.opened, Function.update_of_ne hfd]
    exact h.isOpen fd' c hc

/-- A descriptor that no channel uses is closed behind the back of the poller, which does
not know it. -/
theorem Mirrors.close (h : Mirrors s) {fd : Nat} (hunused : s.Unused fd) :
    Mirrors { s with poller := s.poller.close fd } := by
  refine ⟨fun fd' => ?_, h.current, h.alone, fun fd' c hc => ?_⟩
  · by_cases hfd : fd' = fd
    · subst hfd
      cases hc : s.poller.channels fd' with
      | none => simp [Poller.close, hc]
      | some c => exact absurd (h.current fd' c hc) hunused.not_uses
    · simp only [Poller.close, Function.update_of_ne hfd]
      exact h.interest fd'
  · have hfd : fd' ≠ fd := by
      rintro rfl
      exact hunused.not_uses hc
    simp only [Poller.close, Function.update_of_ne hfd]
    exact h.isOpen fd' c hc

/-- The events of a channel are not its mask. -/
theorem Mirrors.setRevent (h : Mirrors s) {c : Nat} {ch : Channel} (hch : s.objects[c]? = some ch)
    (revent : UInt32) :
    Mirrors (s.set c { ch with revent := revent }) := by
  have hsame : ∀ d fd, (s.set c { ch with revent := revent }).Uses d fd ↔ s.Uses d fd :=
    fun d fd => uses_set hch rfl rfl
  refine ⟨fun fd => ?_, fun fd d hd => (hsame d fd).mpr (h.current fd d hd),
    fun fd d e hd he => h.alone fd d e ((hsame d fd).mp hd) ((hsame e fd).mp he),
    fun fd d hd => h.isOpen fd d ((hsame d fd).mp hd)⟩
  have hevent : ∀ d : Nat, ((s.set c { ch with revent := revent }).objects[d]?).map Channel.event =
      (s.objects[d]?).map Channel.event := by
    intro d
    rw [objects_set s hch]
    by_cases hd : d = c
    · subst hd
      simp [hch]
    · rw [if_neg hd]
  simp only [hevent]
  exact h.interest fd

/-- What the kernel reports is found, and only the channels of the reported descriptors change. -/
theorem Mirrors.poll (h : Mirrors s) {ready : List (Nat × UInt32)} (hready : s.Reports ready) :
    ∃ s' ret, s.poll ready = some (s', ret) ∧ Mirrors s' ∧
      List.Forall₂ (fun e c => s.Uses c e.1 ∧
        (s'.objects[c]?).map Channel.revent = some e.2) ready ret ∧
      ∀ c, (∀ e ∈ ready, ¬s.Uses c e.1) → s'.objects[c]? = s.objects[c]? := by
  induction ready generalizing s with
  | nil => exact ⟨s, [], rfl, h, .nil, fun _ _ => rfl⟩
  | cons e ready ih =>
    obtain ⟨fd, revent⟩ := e
    obtain ⟨hnodup, hwatched⟩ := hready
    obtain ⟨hfresh, hnodup⟩ := List.nodup_cons.mp hnodup
    have hsome := hwatched _ List.mem_cons_self
    rw [h.registered] at hsome
    obtain ⟨c, hc⟩ := Option.isSome_iff_exists.mp hsome
    have huses := h.current fd c hc
    obtain ⟨ch, hch, -⟩ := h.current fd c hc
    have hsame : ∀ d fd', (s.set c { ch with revent := revent }).Uses d fd' ↔ s.Uses d fd' :=
      fun d fd' => uses_set hch rfl rfl
    obtain ⟨s', ret, hpoll, hmirrors, hret, hframe⟩ := ih (h.setRevent hch revent)
      ⟨hnodup, fun e he => hwatched e (List.mem_cons_of_mem _ he)⟩
    have hkept : s'.objects[c]? = some { ch with revent := revent } := by
      rw [hframe c, objects_set s hch, if_pos rfl]
      intro e he hu
      have hfd' := ((hsame c e.1).mp hu).fd_eq huses
      exact hfresh (List.mem_map.mpr ⟨e, he, hfd'⟩)
    refine ⟨s', c :: ret, ?_, hmirrors, .cons ⟨huses, by rw [hkept]; rfl⟩ ?_, fun d hd => ?_⟩
    · rw [Reactor.poll, hc]
      simp [hch, hpoll]
    · simpa only [hsame] using hret
    · have hne : d ≠ c := by
        rintro rfl
        exact hd _ List.mem_cons_self huses
      rw [hframe d fun e he hu => hd e (List.mem_cons_of_mem _ he) ((hsame d e.1).mp hu),
        objects_set s hch, if_neg hne]

/-- Every proper use succeeds. -/
theorem Mirrors.step (h : Mirrors s) {a : Act} (ha : s.Proper a) :
    ∃ s', s.step a = some s' ∧ Mirrors s' := by
  cases a with
  | opened fd => exact ⟨_, rfl, h.opened fd⟩
  | made fd => exact ⟨_, rfl, h.made ha.1 ha.2⟩
  | fdAddWrite c => exact h.changeEvent ha fun event => event ||| epollOut
  | fdAddRead c => exact h.changeEvent ha fun event => event ||| epollIn
  | fdDeleteWrite c => exact h.changeEvent ha fun event => event &&& ~~~epollOut
  | fdDeleteRead c => exact h.changeEvent ha fun event => event &&& ~~~epollIn
  | fdDeleteAllEvent c => exact h.changeEvent ha fun _ => 0
  | remove c => exact h.remove ha
  | close fd => exact ⟨_, rfl, h.close ha⟩
  | poll ready =>
    obtain ⟨s', ret, hpoll, hmirrors, -⟩ := h.poll ha
    exact ⟨s', by rw [Reactor.step, hpoll]; rfl, hmirrors⟩

/-- In every proper run the kernel, the map and the masks agree, and every report reaches the
channel it is for. -/
theorem poller_mirrors (acts : List Act) (hacts : Along step Proper start acts) :
    ∃ s, exec step start acts = some s ∧ Mirrors s ∧ Delivers s := by
  obtain ⟨s, hs, h⟩ := exec_total Mirrors (fun s a h ha => h.step ha) start_mirrors hacts
  refine ⟨s, hs, h, fun ready hready => ?_⟩
  obtain ⟨s', ret, hpoll, -, hret, -⟩ := h.poll hready
  exact ⟨s', ret, hpoll, hret⟩

/-- A descriptor goes to a second channel, which starts without a mask while the first one
keeps its own. -/
def reused : List Act :=
  [.opened 5, .made 5, .fdAddRead 0, .opened 6, .made 6, .fdAddWrite 0, .fdDeleteAllEvent 1,
    .poll [(6, 16), (5, 1)],
    .fdDeleteRead 0, .remove 0, .close 5, .opened 5, .made 5, .fdDeleteWrite 2, .fdAddRead 2,
      .poll [(5, 1)],
    .remove 1, .close 6]

theorem poller_mirrors_reused : ∃ s, exec step start reused = some s ∧ Mirrors s ∧ Delivers s :=
  poller_mirrors reused (by decide +kernel)

end Reactor
end MuduoServer
