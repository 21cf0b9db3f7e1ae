import MuduoServer.ConnectionView

/-!
# Write interest follows the output buffer

`SendInLoop` and the end of `ShutDownInLoop` ask for `EPOLLOUT`, `HanderWrite` gives it up
once it has drained the output buffer. As long as no payload is empty the mask
of the channel says at any time whether there is something to send.
-/
namespace MuduoServer
namespace Loop

open Transition

/-- The channel waits for `EPOLLOUT` exactly while there is something to send. -/
def View.Polling (v : View) : Prop := v.waiting = true ↔ v.output ≠ []

/-- `SendInLoop` of connection `c` does not get an empty payload. -/
def NonemptySend (c : Nat) (s : Loop) (a : Act) : Prop := s.event c a ≠ .send []

instance (c : Nat) (s : Loop) (a : Act) : Decidable (NonemptySend c s a) :=
  inferInstanceAs (Decidable (_ ≠ _))

theorem polling_step {v : View} {e : Event} (h : v.Polling) (hne : e ≠ .send []) :
    (v.step e).Polling := by
  cases e with
  | send payload =>
    simp only [View.step]
    split
    · exact h
    · have hout : v.output ++ payload ≠ [] := by
        intro hnil
        exact hne (by rw [(List.append_eq_nil_iff.mp hnil).2])
      exact iff_of_true rfl hout
  | written r =>
    simp only [View.step]
    split
    · exact h
    · split
      · rename_i hempty
        exact iff_of_false Bool.false_ne_true (not_not.mpr hempty)
      · rename_i hrest
        -- what is left was there before, so the channel was already waiting
        have hbefore : v.output ≠ [] := fun hnil => hrest (by simp [hnil])
        exact iff_of_true (h.mpr hbefore) hrest
  | shutDownRest =>
    simp only [View.step]
    split
    · exact h
    · rename_i hout
      exact iff_of_true rfl hout
  | _ => exact h

/-- In every state of a run without empty payloads, whatever the status of the connection is, its
mask has `EPOLLOUT` if and only if its output buffer has unread bytes. -/
theorem write_interest (c : Nat) (acts : List Act) (s : Loop) (h : exec step start acts = some s)
    (hsends : Along step (NonemptySend c) start acts) :
    ∀ conn, s.conns c = some conn →
    (hasEvent conn.event epollOut = true ↔ conn.outbuffer.unread ≠ []) := by
  intro conn hc
  have hstart : (start.view c).Polling := by
    rw [view_start]
    exact iff_of_false Bool.false_ne_true (not_not.mpr rfl)
  have hpolling : (s.view c).Polling := by
    refine exec_invariant (fun s => (s.view c).Polling) ?_ hstart hsends h
    intro s a s' hI hne hstep
    rw [view_step hstep]
    exact polling_step hI hne
  obtain ⟨-, hwaiting, -, houtput⟩ := view_conn hc
  rwa [View.Polling, hwaiting, houtput] at hpolling

/-- One byte is sent and not yet taken, another connection sends nothing. -/
def oneByte : List Act :=
  [.newConnection 1 7 fun _ => none, .newConnection 2 8 fun _ => none,
    .post (.sendInLoop 1 (Buffer.ofBytes [97])),
    .post (.sendInLoop 2 (Buffer.ofBytes [])), .pollReturn [], .swap, .runTask, .runTask]

theorem write_interest_oneByte :
    ∃ s, exec step start oneByte = some s ∧ (∃ conn, s.conns 1 = some conn) ∧
      ∀ conn, s.conns 1 = some conn →
      (hasEvent conn.event epollOut = true ↔ conn.outbuffer.unread ≠ []) := by
  have hrun : ((exec step start oneByte).map fun s => (s.conns 1).isSome) = some true := by
    decide +kernel
  obtain ⟨s, hs, hsome⟩ := Option.map_eq_some_iff.mp hrun
  exact ⟨s, hs, Option.isSome_iff_exists.mp hsome,
    write_interest 1 oneByte s hs (by decide +kernel)⟩

end Loop
end MuduoServer
