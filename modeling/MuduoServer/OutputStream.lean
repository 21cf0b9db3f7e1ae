import MuduoServer.ConnectionView

/-!
# What a connection sends

The bytes that `SendInLoop` accepts leave in order: what `send(2)` has taken and what
is still in the output buffer are together what was accepted. A connection
that is shut down is released once the accepted bytes have all been taken.
-/
namespace MuduoServer

open StdString Transition

theorem Socket.send_pos {r : SysResult} (h : ¬Socket.send r < 0) :
    (Socket.send r).toNat = r.ret.toNat := by
  unfold Socket.send Socket.checked at h ⊢
  split
  · rename_i hle
    rw [if_pos hle] at h
    split <;> simp_all
    omega
  · rfl

theorem Socket.ret_neg {r : SysResult} (h : Socket.send r < 0) : r.ret.toNat = 0 := by
  unfold Socket.send Socket.checked at h
  split at h <;> omega

/-- A send with something to send fails only if the system call does. -/
theorem Socket.send_nonneg {r : SysResult} (hzero : r.ret ≠ 0)
    (herr : r.ret < 0 → r.errno = Socket.eagain ∨ r.errno = Socket.eintr) : ¬Socket.send r < 0 := by
  unfold Socket.send Socket.checked
  split
  · rename_i hle
    rw [if_pos (herr (by omega))]
    omega
  · omega

namespace Loop

/-- What has happened to the output of a connection so far. -/
structure Traffic where
  /-- The payloads that `SendInLoop` added to the output buffer. -/
  accepted : Bytes
  /-- The bytes that `send(2)` took. -/
  sent : Bytes
  /-- What was accepted before the first `ShutDownInLoop`. -/
  atShutDown : Option Bytes
  deriving DecidableEq

def Traffic.none : Traffic := ⟨[], [], Option.none⟩

def Traffic.note (g : Traffic) (v : View) : Event → Traffic
  | .send payload =>
    if v.status = .disconnected then g else { g with accepted := g.accepted ++ payload }
  | .written r => { g with sent := g.sent ++ v.output.take r.ret.toNat }
  | .shutDown => { g with atShutDown := g.atShutDown.or (some g.accepted) }
  | _ => g

/-- The traffic of connection `c` in a run. -/
def traffic (c : Nat) : List Act → Traffic :=
  recorded step (fun g s a => g.note (s.view c) (s.event c a)) .none start

/-- An event without an empty payload, a send error, or a `Release` by a hang-up, an error, the
wheel or user code. `send(2)` takes nothing only when there is nothing to take, and the channel
is writable only while it waits for that. -/
def View.Graceful (v : View) : Event → Prop
  | .send payload => payload ≠ []
  | .written r =>
    (r.ret = 0 → v.output = []) ∧ (r.ret < 0 → r.errno = Socket.eagain ∨ r.errno = Socket.eintr)
  | .writable => v.waiting
  | .release times => times = 0
  | _ => True

def Graceful (c : Nat) (s : Loop) (a : Act) : Prop := (s.view c).Graceful (s.event c a)

instance (v : View) (e : Event) : Decidable (v.Graceful e) := by
  cases e <;> unfold View.Graceful <;> infer_instance

instance (c : Nat) (s : Loop) (a : Act) : Decidable (Graceful c s a) :=
  inferInstanceAs (Decidable (View.Graceful _ _))

def Conserved (v : View) (g : Traffic) : Prop := g.sent ++ v.output = g.accepted

variable {v : View} {g : Traffic}

/-- What `send(2)` takes leaves the output buffer from its front. -/
theorem conserved_step (h : Conserved v g) (e : Event) : Conserved (v.step e) (g.note v e) := by
  cases e with
  | send payload =>
    simp only [View.step, Traffic.note]
    split
    · exact h
    · show g.sent ++ (v.output ++ payload) = g.accepted ++ payload
      rw [← List.append_assoc, h]
  | written r =>
    have hmove : ∀ n, (g.sent ++ v.output.take n) ++ v.output.drop n = g.accepted := by
      intro n
      rw [List.append_assoc, List.take_append_drop, h]
    simp only [View.step, Traffic.note]
    split
    · rename_i hneg
      have hzero := hmove 0
      rw [List.drop_zero] at hzero
      rwa [Socket.ret_neg hneg]
    · rename_i hpos
      rw [Socket.send_pos hpos]
      split
      · rename_i hempty
        show _ ++ v.output.drop r.ret.toNat = _
        exact hmove _
      · exact hmove _
  | shutDownRest =>
    simp only [View.step, Traffic.note]
    split <;> exact h
  | _ => exact h

/-- What a graceful run keeps, besides the bytes. -/
structure Draining (v : View) (g : Traffic) : Prop where
  conserved : Conserved v g
  waiting : v.waiting → v.output ≠ []
  writing : v.writing ≤ 1
  writes : 0 < v.writing → v.output ≠ []
  status : v.status = .disconnecting → g.atShutDown.isSome
  shutting : 0 < v.shutting → g.atShutDown.isSome
  early : ∀ early, g.atShutDown = some early → early <+: g.accepted
  releasing : 0 < v.releasing → ∃ early, g.atShutDown = some early ∧ early <+: g.sent

/-- With nothing left to send, what was accepted before the first `ShutDownInLoop` is sent. -/
theorem Draining.sent (h : Draining v g) (hsome : g.atShutDown.isSome) (hempty : v.output = []) :
    ∃ early, g.atShutDown = some early ∧ early <+: g.sent := by
  obtain ⟨early, he⟩ := Option.isSome_iff_exists.mp hsome
  have hall : g.sent = g.accepted := by
    have hc := h.conserved
    rwa [Conserved, hempty, List.append_nil] at hc
  exact ⟨early, he, hall ▸ h.early early he⟩

theorem draining_step {e : Event} (h : Draining v g) (hgood : v.Graceful e) (hen : v.Enabled e) :
    Draining (v.step e) (g.note v e) := by
  have hcons := conserved_step h.conserved e
  cases e with
  | quiet => exact h
  | established => exact h
  | received bytes =>
    exact ⟨hcons, h.waiting, h.writing, h.writes, h.status, h.shutting, h.early, h.releasing⟩
  | consumed len =>
    exact ⟨hcons, h.waiting, h.writing, h.writes, h.status, h.shutting, h.early, h.releasing⟩
  | send payload =>
    by_cases hdis : v.status = .disconnected
    · simpa [View.step, Traffic.note, hdis] using h
    · simp only [View.step, Traffic.note, if_neg hdis] at hcons ⊢
      have hne : v.output ++ payload ≠ [] := by
        simp only [View.Graceful] at hgood
        simp [hgood]
      exact ⟨hcons, fun _ => hne, h.writing, fun _ => hne, h.status, h.shutting,
        fun early he => (h.early early he).trans (List.prefix_append _ _), h.releasing⟩
  | writable =>
    simp only [View.Enabled] at hen
    simp only [View.Graceful] at hgood
    have hne := h.waiting hgood
    exact ⟨hcons, h.waiting, by simp [View.step, hen], fun _ => hne, h.status, h.shutting, h.early, h.releasing⟩
  | written r =>
    have hpos : ¬Socket.send r < 0 :=
      Socket.send_nonneg (fun h0 => h.writes hen (hgood.1 h0)) hgood.2
    have hwriting : v.writing - 1 = 0 := by
      have := h.writing
      omega
    have hlater : ∀ early, g.atShutDown = some early → early <+: g.sent →
        early <+: g.sent ++ v.output.take r.ret.toNat :=
          fun _ _ hs => hs.trans (List.prefix_append _ _)
    simp only [View.step, Traffic.note, if_neg hpos, hwriting] at hcons ⊢
    by_cases hempty : v.output.drop (Socket.send r).toNat = []
    · rw [if_pos hempty] at hcons ⊢
      have hdrained : ∀ early, g.atShutDown = some early →
          early <+: g.sent ++ v.output.take r.ret.toNat := by
        intro early he
        have hall : g.sent ++ v.output.take r.ret.toNat = g.accepted := by
          simpa [Conserved, hempty] using hcons
        exact hall ▸ h.early early he
      refine ⟨hcons, fun h => absurd h Bool.false_ne_true, Nat.zero_le _,
        fun h => absurd h (Nat.lt_irrefl 0),
        h.status, h.shutting, h.early, ?_⟩
      intro hreleasing
      by_cases hdis : v.status = .disconnecting
      · obtain ⟨early, he⟩ := Option.isSome_iff_exists.mp (h.status hdis)
        exact ⟨early, he, hdrained early he⟩
      · rw [if_neg hdis] at hreleasing
        obtain ⟨early, he, hs⟩ := h.releasing hreleasing
        exact ⟨early, he, hlater early he hs⟩
    · rw [if_neg hempty] at hcons ⊢
      refine ⟨hcons, fun _ => hempty, Nat.zero_le _, fun h => absurd h (Nat.lt_irrefl 0),
        h.status, h.shutting,
        h.early, ?_⟩
      intro hreleasing
      obtain ⟨early, he, hs⟩ := h.releasing hreleasing
      exact ⟨early, he, hlater early he hs⟩
  | shutDown =>
    have hsome : (g.atShutDown.or (some g.accepted)).isSome := by
      cases g.atShutDown <;> rfl
    refine ⟨hcons, h.waiting, h.writing, h.writes, fun _ => hsome, fun _ => hsome, ?_, ?_⟩
    · intro early he
      cases hat : g.atShutDown with
      | none =>
        simp only [Traffic.note, hat, Option.none_or, Option.some.injEq] at he
        exact he ▸ List.prefix_rfl
      | some early' =>
        simp only [Traffic.note, hat, Option.some_or, Option.some.injEq] at he
        exact h.early early (he ▸ hat)
    · intro hreleasing
      obtain ⟨early, he, hs⟩ := h.releasing hreleasing
      exact ⟨early, by simp [Traffic.note, he], hs⟩
  | shutDownRest =>
    have hsome := h.shutting hen
    simp only [View.step, Traffic.note]
    split
    · rename_i hempty
      exact ⟨h.conserved, h.waiting, h.writing, h.writes, h.status, fun _ => hsome, h.early,
        fun _ => h.sent hsome hempty⟩
    · rename_i hne
      exact ⟨h.conserved, fun _ => hne, h.writing, h.writes, h.status, fun _ => hsome,
        h.early, h.releasing⟩
  | release times =>
    simp only [View.Graceful] at hgood
    subst hgood
    exact h
  | released =>
    refine ⟨hcons, h.waiting, h.writing, h.writes, (fun h => by cases h), h.shutting, h.early,
      fun hreleasing => ?_⟩
    exact h.releasing (Nat.lt_of_lt_of_le hreleasing (Nat.sub_le _ _))

/-- In every run the bytes that `send(2)` took, followed by the output buffer, are the payloads that
`SendInLoop` accepted. If the run is graceful, a connection is released only after everything
accepted before its first `ShutDownInLoop` has been taken. -/
theorem output_stream (c : Nat) (acts : List Act) (s : Loop) (h : exec step start acts = some s) :
    (∀ conn, s.conns c = some conn →
      (traffic c acts).sent ++ conn.outbuffer.unread = (traffic c acts).accepted) ∧
    (Along step (Graceful c) start acts → ∀ batch, s.phase = .run (.releaseInloop c :: batch) →
      ∃ early, (traffic c acts).atShutDown = some early ∧ early <+: (traffic c acts).sent) := by
  constructor
  · intro conn hc
    have hcons : Conserved (s.view c) (traffic c acts) := by
      have hstart : Conserved (start.view c) .none := rfl
      refine recorded_invariant (fun s g => Conserved (s.view c) g) ?_ hstart
        (along_of_mem fun _ _ _ => trivial) h
      intro s g a s' hI _ hstep
      rw [view_step hstep]
      exact conserved_step hI _
    rwa [Conserved, (view_conn hc).2.2.2] at hcons
  · intro hgraceful batch hp
    have hstart : Draining (start.view c) .none := by
      rw [view_start]
      exact ⟨rfl, fun h => absurd h Bool.false_ne_true, Nat.zero_le _,
        fun h => absurd h (Nat.lt_irrefl 0),
        (fun h => by cases h), fun h => absurd h (Nat.lt_irrefl 0), (fun _ h => by cases h),
        fun h => absurd h (Nat.lt_irrefl 0)⟩
    have hdrain : Draining (s.view c) (traffic c acts) := by
      refine recorded_invariant (fun s g => Draining (s.view c) g) ?_ hstart hgraceful h
      intro s g a s' hI hgood hstep
      rw [view_step hstep]
      exact draining_step hI hgood (event_enabled hstep c)
    exact hdrain.releasing (releasing_pos hp)

/-- Two bytes are sent and the connection is shut down; `send(2)` takes one byte at a time. -/
def farewell : List Act :=
  [.newConnection 1 7 fun _ => none, .post (.sendInLoop 1 (Buffer.ofBytes (ascii "ab"))),
    .post (.shutDownInLoop 1),
    .pollReturn [], .swap, .runTask, .runTask, .next, .batchDone,
    .pollReturn [(7, epollOut)], .handle, .send ⟨1, 0⟩, .next, .swap, .batchDone,
    .pollReturn [(7, epollOut)], .handle, .send ⟨1, 0⟩, .next, .next, .swap]

theorem output_stream_farewell :
    ∃ s, exec step start farewell = some s ∧ s.phase = .run [.releaseInloop 1] ∧
      (∀ conn, s.conns 1 = some conn →
        (traffic 1 farewell).sent ++ conn.outbuffer.unread = (traffic 1 farewell).accepted) ∧
      ∃ early, (traffic 1 farewell).atShutDown = some early ∧
      early <+: (traffic 1 farewell).sent := by
  have hrun : ((exec step start farewell).map fun s => s.phase) =
      some (.run [.releaseInloop 1]) := by decide +kernel
  obtain ⟨s, hs, hp⟩ := Option.map_eq_some_iff.mp hrun
  obtain ⟨hbytes, hrelease⟩ := output_stream 1 farewell s hs
  exact ⟨s, hs, hp, hbytes, hrelease (by decide +kernel) [] hp⟩

example : traffic 1 farewell = ⟨ascii "ab", ascii "ab", some (ascii "ab")⟩ := by decide +kernel

end Loop
end MuduoServer
