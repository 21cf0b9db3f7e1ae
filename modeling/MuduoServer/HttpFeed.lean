import MuduoServer.HttpResume
import MuduoServer.Transition

/-!
# The parser on a stream

Bytes arrive in any portions, `RecvHttpRequest` is called at any time, and `Reset` begins
the next request. However the stream was cut, a call leaves the parser where one
call on all the bytes since the last `Reset` would have left it.
-/
namespace MuduoServer

open StdString Transition

namespace HttpContent

/-- A call takes bytes from the front of the input. -/
theorem readRequest_suffix (c : HttpContent) (u : Bytes) :
    ∃ p, u = p ++ (c.readRequest u).rest := by
  induction hn : u.length using Nat.strong_induction_on generalizing c u with
  | _ n ih =>
    by_cases hidle : c.recvStatu = .recvHttpErr ∨ c.recvStatu = .recvHttpOver
    · exact ⟨[], by rw [readRequest_idle c u hidle]; rfl⟩
    by_cases hbody : c.recvStatu = .recvHttpBody
    · rw [readRequest_body c u hbody]
      cases c.request.bodySize with
      | error f => exact ⟨[], rfl⟩
      | ok k =>
        dsimp only
        split
        · exact ⟨[], rfl⟩
        · split
          · exact ⟨_, (List.take_append_drop _ u).symm⟩
          · exact ⟨u, (List.append_nil u).symm⟩
    have hc : c.recvStatu = .recvHttpLine ∨ c.recvStatu = .recvHttpHead := by
      cases hs : c.recvStatu <;> simp_all
    by_cases hnl : newline ∈ u
    · obtain ⟨l, rest, rfl, hl⟩ := List.eq_append_cons_of_mem hnl
      have hshort : rest.length < n := by
        simp only [← hn, List.length_append, List.length_cons]
        omega
      have hstop : l ++ newline :: rest = (l ++ [newline]) ++ rest := by simp
      have hrec : ∀ c' : HttpContent, ∃ p, l ++ newline :: rest = p ++
          (c'.readRequest rest).rest := by
        intro c'
        obtain ⟨p, hp⟩ := ih rest.length hshort c' rest rfl
        exact ⟨l ++ newline :: p, by rw [List.append_assoc, List.cons_append, ← hp]⟩
      rcases hc with hc | hc
      · rw [readRequest_line c l rest hl hc]
        split
        · exact ⟨_, hstop⟩
        · cases c.parseHttpLine (l ++ [newline]) with
          | mk c' ret =>
            cases ret with
            | error f => exact ⟨_, hstop⟩
            | ok ret => exact hrec _
      · rw [readRequest_head c l rest hl hc]
        split
        · exact ⟨_, hstop⟩
        · split
          · exact hrec _
          · cases headerField l with
            | none => exact ⟨_, hstop⟩
            | some kv => exact hrec _
    · rw [readRequest_wait c u hnl hc]
      split <;> exact ⟨[], rfl⟩

/-- A call on `u` followed by one on what it left and on `v` is a call on both, up to the bytes an
error leaves unread. -/
theorem readRequest_append (c : HttpContent) (u v : Bytes) (hf : (c.readRequest u).fault = none) :
    (c.readRequest (u ++ v)).content =
      ((c.readRequest u).content.readRequest ((c.readRequest u).rest ++ v)).content ∧
    (c.readRequest (u ++ v)).fault =
      ((c.readRequest u).content.readRequest ((c.readRequest u).rest ++ v)).fault ∧
    ((c.readRequest u).content.recvStatu ≠ .recvHttpErr →
      c.readRequest (u ++ v) = (c.readRequest u).content.readRequest
      ((c.readRequest u).rest ++ v)) := by
  induction c, u using request_induction with
  | idle c u hc =>
    rw [readRequest_idle c u hc, readRequest_idle c (u ++ v) hc]
    exact ⟨rfl, rfl, fun _ => rfl⟩
  | wait c u hc hn hlen =>
    rw [readRequest_wait c u hn hc, if_neg (Nat.not_lt.mpr hlen)]
    exact ⟨rfl, rfl, fun _ => rfl⟩
  | fail c u code hcode heq =>
    obtain ⟨rest, he⟩ := heq []
    obtain ⟨rest', he'⟩ := heq v
    rw [List.append_nil] at he
    rw [he, he', readRequest_idle _ _ (.inl rfl)]
    exact ⟨rfl, rfl, fun hne => absurd rfl hne⟩
  | next c u c' rest _ _ _ _ _ heq ih =>
    have he := heq []
    rw [List.append_nil, List.append_nil] at he
    rw [he] at hf ⊢
    rw [heq v]
    exact ih hf
  | body c u hc =>
    have hsame := readRequest_body_append hc v hf
    exact ⟨congrArg Read.content hsame, congrArg Read.fault hsame, fun _ => hsame⟩

end HttpContent

/-- A parser and its input buffer. -/
structure HttpFeed where
  content : HttpContent
  buffer : Buffer

namespace HttpFeed

inductive Act where
  | arrive (bytes : Bytes)
  /-- A call of `RecvHttpRequest`. -/
  | call
  | reset
  deriving DecidableEq

def start : HttpFeed := ⟨HttpContent.fresh, Buffer.empty⟩

/-- A call that throws ends the run. -/
def step (s : HttpFeed) : Act → Option HttpFeed
  | .arrive bytes => do return { s with buffer := ← s.buffer.writeAndAdd bytes }
  | .call =>
    match s.content.recvHttpRequest s.buffer with
    | ⟨content, buffer, .ok _⟩ => some ⟨content, buffer⟩
    | ⟨_, _, .error _⟩ => none
  | .reset => some { s with content := s.content.reset }

/-- Where the bytes of the stream have gone. -/
structure Account where
  /-- Removed from the buffer before the last `Reset`. -/
  before : Bytes
  /-- Removed since. -/
  taken : Bytes
  arrived : Bytes
  deriving DecidableEq

def Account.note (g : Account) (s : HttpFeed) : Act → Account
  | .arrive bytes => { g with arrived := g.arrived ++ bytes }
  | .call =>
    let left := (s.content.recvHttpRequest s.buffer).buffer.unread
    { g with taken := g.taken ++ s.buffer.unread.take (s.buffer.unread.length - left.length) }
  | .reset => { g with before := g.before ++ g.taken, taken := [] }

/-- The account of a run. -/
def account : List Act → Account := recorded step Account.note ⟨[], [], []⟩ start

variable {s s' : HttpFeed}

theorem step_arrive {bytes : Bytes} (h : step s (.arrive bytes) = some s') :
    s'.content = s.content ∧ s'.buffer.unread = s.buffer.unread ++ bytes := by
  obtain ⟨b, hb, h⟩ := Option.bind_eq_some_iff.mp h
  cases h
  obtain ⟨b', hb', hu⟩ := s.buffer.writeAndAdd_eq bytes
  cases hb.symm.trans hb'
  exact ⟨rfl, hu⟩

theorem step_call (h : step s .call = some s') :
    s.content.readRequest s.buffer.unread = ⟨s'.content, s'.buffer.unread, none⟩ ∧
      (s.content.recvHttpRequest s.buffer).buffer = s'.buffer := by
  rw [← HttpContent.recvHttpRequest_read]
  simp only [step] at h
  split at h
  · rename_i content buffer ret hr
    cases h
    exact ⟨by rw [hr]; rfl, by rw [hr]⟩
  · cases h

/-- The parser stands where one call on the first part `w` of the bytes since the last `Reset`
leaves it; the rest `v` came later. -/
structure Stands (s : HttpFeed) (w v : Bytes) : Prop where
  fault : (HttpContent.fresh.readRequest w).fault = none
  content : (HttpContent.fresh.readRequest w).content = s.content
  unread : s.content.recvStatu ≠ .recvHttpErr →
    s.buffer.unread = (HttpContent.fresh.readRequest w).rest ++ v

theorem stands_fresh (v : Bytes) (buffer : Buffer) (h : buffer.unread = v) :
    Stands ⟨HttpContent.fresh, buffer⟩ [] v := by
  have hwait : HttpContent.fresh.readRequest [] = ⟨HttpContent.fresh, [], none⟩ :=
    (HttpContent.readRequest_wait _ _ List.not_mem_nil (.inl rfl)).trans
      (if_neg (Nat.not_lt_zero _))
  exact ⟨by rw [hwait], by rw [hwait], fun _ => by rw [hwait, List.nil_append, h]⟩

theorem Stands.call {w v : Bytes} (h : Stands s w v) (hstep : step s .call = some s') :
    Stands s' (w ++ v) [] := by
  obtain ⟨hread, -⟩ := step_call hstep
  obtain ⟨hcontent, hfault, hsame⟩ := HttpContent.readRequest_append HttpContent.fresh w v h.fault
  rw [h.content] at hcontent hfault hsame
  by_cases herr : s.content.recvStatu = .recvHttpErr
  · rw [HttpContent.readRequest_idle _ _ (.inl herr)] at hread hcontent hfault
    obtain ⟨hc, -, -⟩ := Read.mk.inj hread
    exact ⟨hfault, hc ▸ hcontent, fun hne => absurd (hc ▸ herr) hne⟩
  · rw [← h.unread herr, hread] at hsame
    have hall := hsame herr
    exact ⟨by rw [hall], by rw [hall], fun _ => by rw [hall, List.append_nil]⟩

/-- What holds in every state of a run. -/
structure Accounted (s : HttpFeed) (g : Account) : Prop where
  bytes : g.before ++ g.taken ++ s.buffer.unread = g.arrived
  stands : ∃ w v, g.taken ++ s.buffer.unread = w ++ v ∧ Stands s w v

/-- The bytes since the last `Reset` are the same before and after a call. -/
theorem taken_call {g : Account} (hstep : step s .call = some s') :
    (g.note s .call).taken ++ s'.buffer.unread = g.taken ++ s.buffer.unread := by
  obtain ⟨hread, hbuffer⟩ := step_call hstep
  obtain ⟨p, hp⟩ := s.content.readRequest_suffix s.buffer.unread
  simp only [hread] at hp
  have hlen : s.buffer.unread.length - s'.buffer.unread.length = p.length := by
    rw [hp, List.length_append]
    omega
  simp only [Account.note, hbuffer, hlen]
  rw [hp, List.take_left, List.append_assoc]

theorem accounted_step {g : Account} {a : Act} (h : Accounted s g) (hstep : step s a = some s') :
    Accounted s' (g.note s a) := by
  obtain ⟨hbytes, w, v, hwv, hstands⟩ := h
  cases a with
  | arrive bytes =>
    obtain ⟨hcontent, hunread⟩ := step_arrive hstep
    refine ⟨?_, w, v ++ bytes, ?_, hstands.fault, hcontent ▸ hstands.content, fun hne => ?_⟩
    · rw [hunread, ← List.append_assoc]
      exact congrArg (· ++ bytes) hbytes
    · rw [hunread, ← List.append_assoc, ← List.append_assoc, ← hwv]
      rfl
    · rw [hunread, hstands.unread (hcontent ▸ hne), List.append_assoc]
  | call =>
    have htaken := taken_call (g := g) hstep
    refine ⟨?_, w ++ v, [], ?_, hstands.call hstep⟩
    · rw [List.append_assoc, htaken, ← List.append_assoc]
      exact hbytes
    · rw [htaken, hwv, List.append_nil]
  | reset =>
    cases hstep
    refine ⟨?_, [], s.buffer.unread, rfl, stands_fresh _ _ rfl⟩
    exact (congrArg (· ++ s.buffer.unread) (List.append_nil _)).trans hbytes

theorem accounted_exec {acts : List Act} (h : exec step start acts = some s) :
    Accounted s (account acts) := by
  have hstart : Accounted start ⟨[], [], []⟩ := ⟨rfl, [], [], rfl, stands_fresh [] _ rfl⟩
  refine recorded_invariant Accounted ?_ hstart (along_of_mem fun _ _ _ => trivial) h
  exact fun _ _ _ _ hI _ hstep => accounted_step hI hstep

/-- The bytes since the last `Reset`. -/
def sinceReset (acts : List Act) (s : HttpFeed) : Bytes := (account acts).taken ++ s.buffer.unread

/-- Segmentation does not matter: after a call the parser and what it left unread are those of one
call on all the bytes since the last `Reset`. -/
theorem call_sinceReset {acts : List Act} (h : exec step start (acts ++ [.call]) = some s) :
    Stands s (sinceReset (acts ++ [.call]) s) [] := by
  rw [exec_concat] at h
  obtain ⟨t, ht, hstep⟩ := Option.bind_eq_some_iff.mp h
  obtain ⟨-, w, v, hwv, hstands⟩ := accounted_exec ht
  have hall : sinceReset (acts ++ [.call]) s = w ++ v := by
    rw [sinceReset, account, recorded_concat ht hstep, taken_call hstep]
    exact hwv
  rw [hall]
  exact hstands.call hstep

end HttpFeed
end MuduoServer
