import MuduoServer.CloseOnce

/-!
# What an old errno decides

`recv(2)` and `send(2)` set `errno` only when they fail, but `Socket::Recv` and
`Socket::Send` look at it for a result of 0 too. Two runs in which the calls give the
same results differ only where a 0 meets an `EAGAIN` or `EINTR` of an earlier call.
-/
namespace MuduoServer

/-- The same result of a system call, whatever `errno` was before it. -/
structure SameResult (r r' : SysResult) : Prop where
  ret : r.ret = r'.ret
  errno : r.ret < 0 → r.errno = r'.errno

/-- A call that returns 0 finds no error in `errno` that would be worth a retry. -/
def SysResult.Fresh (r : SysResult) : Prop :=
  r.ret = 0 → r.errno ≠ Socket.eagain ∧ r.errno ≠ Socket.eintr

instance (r : SysResult) : Decidable r.Fresh := inferInstanceAs (Decidable (_ → _))

theorem Socket.checked_zero {r : SysResult} (hfresh : r.Fresh) (hzero : r.ret = 0) :
    Socket.checked r = -1 := by
  obtain ⟨hagain, hintr⟩ := hfresh hzero
  simp [Socket.checked, hzero, hagain, hintr]

/-- Only the result of a call and, if it failed, its own error reach the caller. -/
theorem SameResult.checked {r r' : SysResult} (h : SameResult r r') (hr : r.Fresh)
    (hr' : r'.Fresh) :
    Socket.checked r = Socket.checked r' := by
  rcases lt_trichotomy r.ret 0 with hneg | hzero | hpos
  · simp only [Socket.checked, ← h.ret, ← h.errno hneg]
  · rw [Socket.checked_zero hr hzero, Socket.checked_zero hr' (h.ret ▸ hzero)]
  · have hnot : ¬r.ret ≤ 0 := by omega
    simp only [Socket.checked, ← h.ret, if_neg hnot]

namespace Loop

open Transition

/-- Two actions that differ at most in an `errno` that their system call did not set. -/
inductive SameCall : Act → Act → Prop where
  | recv {r r' : SysResult} (bytes : StdString.Bytes) (h : SameResult r r') : SameCall
    (.recv r bytes) (.recv r' bytes)
  | send {r r' : SysResult} (h : SameResult r r') : SameCall (.send r) (.send r')
  | same (a : Act) : SameCall a a

def Act.Fresh : Act → Prop
  | .recv r _ | .send r => r.Fresh
  | _ => True

instance : DecidablePred Act.Fresh := fun a => by
  cases a <;> unfold Act.Fresh <;> infer_instance

theorem handerRead_congr (s : Loop) (c : Nat) (conn : Connection) {r r' : SysResult}
    (bytes : StdString.Bytes) (h : Socket.recv r = Socket.recv r') :
    s.handerRead c conn r bytes = s.handerRead c conn r' bytes := by
  simp only [handerRead, h]

theorem handerWrite_congr (s : Loop) (c : Nat) (conn : Connection) {r r' : SysResult}
    (h : Socket.send r = Socket.send r') : s.handerWrite c conn r = s.handerWrite c conn r' := by
  simp only [handerWrite, h]

/-- One step does the same whatever `errno` was before. -/
theorem step_sameCall (s : Loop) {a a' : Act} (h : SameCall a a') (ha : a.Fresh) (ha' : a'.Fresh) :
    step s a = step s a' := by
  cases h with
  | recv bytes h =>
    have hrecv : Socket.recv _ = Socket.recv _ := h.checked ha ha'
    simp only [step, h.ret, hrecv, handerRead_congr _ _ _ bytes hrecv]
  | send h =>
    have hsend : Socket.send _ = Socket.send _ := h.checked ha ha'
    simp only [step, handerWrite_congr _ _ _ hsend]
  | same a => rfl

/-- A peer that has closed the connection. -/
theorem recv_zero {s s' : Loop} {c : Nat} {conn : Connection} {stack : List Frame} {r : SysResult}
    {bytes : StdString.Bytes} (hs : s.stack = .handerRead c :: stack) (hc : s.conns c = some conn)
    (hfresh : r.Fresh) (hzero : r.ret = 0) (h : step s (.recv r bytes) = some s') :
    s' = ({ s with stack := stack } : Loop).shutDownInLoop c conn := by
  have hrecv : Socket.recv r = -1 := Socket.checked_zero hfresh hzero
  have hneg : Socket.recv r < 0 := by omega
  simp only [step, hs] at h
  split at h
  · simp only [hc, Option.bind_eq_bind, Option.bind_some, handerRead, if_pos hneg,
      Option.some.injEq] at h
    exact h.symm
  · cases h

/-- Two runs whose system calls give the same results, and in which no call that returns 0 finds
an old `EAGAIN` or `EINTR`, are the same run; in it a `recv(2)` of 0 always leads to
`ShutDownInLoop`. -/
theorem stale_errno_irrelevant (acts acts' : List Act) (hsame : List.Forall₂ SameCall acts acts')
    (hacts : ∀ a ∈ acts, a.Fresh) (hacts' : ∀ a ∈ acts', a.Fresh) :
    exec step start acts = exec step start acts' ∧
    ∀ pre r bytes s s' c conn stack, pre ++ [.recv r bytes] <+: acts →
    exec step start pre = some s →
      s.stack = .handerRead c :: stack → s.conns c = some conn → r.ret = 0 →
      step s (.recv r bytes) = some s' →
      s' = ({ s with stack := stack } : Loop).shutDownInLoop c conn := by
  constructor
  · generalize start = s
    induction hsame generalizing s with
    | nil => rfl
    | @cons a a' acts acts' h hrest ih =>
      rw [exec_cons, exec_cons,
        step_sameCall s h (hacts a List.mem_cons_self) (hacts' a' List.mem_cons_self)]
      congr 1
      funext s'
      exact ih (fun b hb => hacts b (List.mem_cons_of_mem a hb))
        (fun b hb => hacts' b (List.mem_cons_of_mem a' hb)) s'
  · intro pre r bytes s s' c conn stack hpre _ hs hc hzero hstep
    have hmem : Act.recv r bytes ∈ acts :=
      hpre.subset (List.mem_append_right _ (List.mem_singleton_self _))
    exact recv_zero hs hc (hacts _ hmem) hzero hstep

/-- The peer closes the connection; `errno` is what earlier calls left. -/
def peerClosed (errno : Nat) : List Act := connected epollIn ++ [.recv ⟨0, errno⟩ []]

theorem sameCall_peerClosed (errno errno' : Nat) :
    List.Forall₂ SameCall (peerClosed errno) (peerClosed errno') := by
  refine List.rel_append (List.forall₂_same.mpr fun a _ => .same a) ?_
  exact .cons (.recv [] ⟨rfl, fun h => absurd h (Int.lt_irrefl 0)⟩) .nil

/-- Without an error in `errno` and with one that calls for no retry. -/
theorem stale_errno_irrelevant_peerClosed :
    exec step start (peerClosed 0) = exec step start (peerClosed 104) ∧
      ((exec step start (peerClosed 0)).bind fun s => (s.conns 1).map Connection.status) =
      some .disconnecting :=
  ⟨(stale_errno_irrelevant (peerClosed 0) (peerClosed 104) (sameCall_peerClosed 0 104) (by decide) (by decide)).1,
    by decide +kernel⟩

/-- After an `EAGAIN` of an earlier call the closed connection goes on as if nothing
had happened. -/
theorem stale_errno_decides :
    List.Forall₂ SameCall (peerClosed 0) (peerClosed Socket.eagain) ∧
      ((exec step start (peerClosed 0)).bind fun s => (s.conns 1).map Connection.status) =
      some .disconnecting ∧
      ((exec step start (peerClosed Socket.eagain)).bind
        fun s => (s.conns 1).map Connection.status) = some .connecting :=
  ⟨sameCall_peerClosed 0 Socket.eagain, by decide +kernel, by decide +kernel⟩

end Loop
end MuduoServer
