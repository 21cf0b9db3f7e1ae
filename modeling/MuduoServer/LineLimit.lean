import MuduoServer.BodyFraming
import MuduoServer.HttpContentRuns

/-!
# The limit on lines

The parser tests the length of a line in four places: of a request line or a header line, complete
or not. Together they answer 414 to exactly the requests with a line longer than `MAX_LINE`, in the
call that sees the first byte too many.
-/
namespace MuduoServer

open StdString Transition

namespace HttpContent

/-- The pieces of a header section up to the empty line, each with its line feed; the last piece of
the stream has none. -/
def headerLines : List Bytes → List Bytes
  | [] => []
  | [l] => [l]
  | l :: piece :: ls =>
    if blankLine (l ++ [newline]) then [l ++ [newline]] else (l ++ [newline]) ::
      headerLines (piece :: ls)

/-- The request line and the header lines at the front of a stream. -/
def headLines (u : Bytes) : List Bytes :=
  match u.splitOn newline with
  | [] => []
  | [l] => [l]
  | l :: ls => (l ++ [newline]) :: headerLines ls

/-- No line is over the limit. -/
def Short (ls : List Bytes) : Prop := ∀ l ∈ ls, l.length ≤ maxLine

/-- Lines that the parser takes without an error, starting at the request line. -/
def Accepted : List Bytes → Prop
  | [] => True
  | line :: headers =>
    IsLine line ∧ RequestLineOk line ∧ line.length ≤ maxLine ∧ ∀ h ∈ headers, IsHeader h ∧
      h.length ≤ maxLine

/-- A line over the limit begins here; its end may not have come. -/
structure Long (l : Bytes) : Prop where
  length : maxLine < l.length
  noEnd : newline ∉ l.take maxLine

theorem headerLines_line (l rest : Bytes) : headerLines (l :: rest.splitOn newline) =
    if blankLine (l ++ [newline]) then [l ++ [newline]] else (l ++ [newline]) ::
    headerLines (rest.splitOn newline) := by
  cases h : rest.splitOn newline with
  | nil => exact absurd h (List.splitOn_ne_nil _ _)
  | cons piece ls => rfl

theorem headLines_line (l rest : Bytes) (hl : newline ∉ l) :
    headLines (l ++ newline :: rest) = (l ++ [newline]) :: headerLines (rest.splitOn newline) := by
  unfold headLines
  rw [List.splitOn_append_cons_self_of_not_mem hl]
  cases h : rest.splitOn newline with
  | nil => exact absurd h (List.splitOn_ne_nil _ _)
  | cons piece ls => rfl

theorem splitOn_line (l rest : Bytes) (hl : newline ∉ l) :
    (l ++ newline :: rest).splitOn newline = l :: rest.splitOn newline :=
  List.splitOn_append_cons_self_of_not_mem hl rest

/-- The first line of a stream is at least as long as what came before any line feed. -/
theorem splitOn_wait (u v : Bytes) (hn : newline ∉ u) :
    (∃ l, newline ∉ l ∧ u.length ≤ l.length ∧ u ++ v = l) ∨
    ∃ l rest, newline ∉ l ∧ u.length ≤ l.length ∧ u ++ v = l ++ newline :: rest := by
  by_cases hv : newline ∈ v
  · obtain ⟨l, rest, rfl, hl⟩ := List.eq_append_cons_of_mem hv
    refine .inr ⟨u ++ l, rest, by simp [hn, hl], by simp, by simp⟩
  · exact .inl ⟨u ++ v, by simp [hn, hv], by simp, rfl⟩

theorem short_headerLines_wait {u v : Bytes} (hn : newline ∉ u)
    (h : Short (headerLines ((u ++ v).splitOn newline))) :
    u.length ≤ maxLine := by
  rcases splitOn_wait u v hn with ⟨l, hl, hle, he⟩ | ⟨l, rest, hl, hle, he⟩
  · rw [he, List.splitOn_eq_singleton hl] at h
    exact hle.trans (h l List.mem_cons_self)
  · rw [he, splitOn_line l rest hl, headerLines_line] at h
    have hline : (l ++ [newline]).length ≤ maxLine := by
      split at h
      · exact h _ List.mem_cons_self
      · exact h _ List.mem_cons_self
    rw [List.length_append] at hline
    omega

theorem short_headLines_wait {u v : Bytes} (hn : newline ∉ u) (h : Short (headLines (u ++ v))) :
    u.length ≤ maxLine := by
  rcases splitOn_wait u v hn with ⟨l, hl, hle, he⟩ | ⟨l, rest, hl, hle, he⟩
  · rw [he, headLines, List.splitOn_eq_singleton hl] at h
    exact hle.trans (h l List.mem_cons_self)
  · rw [he, headLines_line l rest hl] at h
    have hline := h _ List.mem_cons_self
    rw [List.length_append] at hline
    omega

variable {c : HttpContent} {u : Bytes}

theorem readRequest_body_resqStatu (hc : c.recvStatu = .recvHttpBody) :
    (c.readRequest u).content.resqStatu = c.resqStatu := by
  rw [readRequest_body c u hc]
  cases c.request.bodySize with
  | error f => rfl
  | ok n =>
    dsimp only
    split
    · rfl
    · split <;> rfl

/-- The header stage answers 414 to no section of short lines. -/
theorem readRequest_headerLines_short (v : Bytes) (hc : c.recvStatu = .recvHttpHead)
    (hs : Short (headerLines ((u ++ v).splitOn newline))) (hne : c.resqStatu ≠ 414) :
    (c.readRequest u).content.resqStatu ≠ 414 := by
  induction hn : u.length using Nat.strong_induction_on generalizing c u with
  | _ n ih =>
    by_cases hnl : newline ∈ u
    · obtain ⟨l, rest, rfl, hl⟩ := List.eq_append_cons_of_mem hnl
      have happ : l ++ newline :: rest ++ v = l ++ newline :: (rest ++ v) := by simp
      rw [happ, splitOn_line l _ hl, headerLines_line] at hs
      have hline : ¬l.length + 1 > maxLine := by
        have hfirst : (l ++ [newline]).length ≤ maxLine := by
          split at hs
          · exact hs _ List.mem_cons_self
          · exact hs _ List.mem_cons_self
        rw [List.length_append, List.length_singleton] at hfirst
        omega
      rw [readRequest_head c l rest hl hc, if_neg hline]
      by_cases hblank : blankLine (l ++ [newline])
      · rw [if_pos hblank, readRequest_body_resqStatu rfl]
        exact hne
      · rw [if_neg hblank] at hs ⊢
        cases headerField l with
        | none => exact (by decide : (400 : Int) ≠ 414)
        | some kv =>
          have hshort : rest.length < n := by
            simp only [← hn, List.length_append, List.length_cons]
            omega
          have hrest : Short (headerLines ((rest ++ v).splitOn newline)) :=
            fun l hl => hs l (List.mem_cons_of_mem _ hl)
          exact ih rest.length hshort (c := { c with request := c.request.setHeader kv.1 kv.2 }) hc hrest hne rfl
    · rw [readRequest_wait c u hnl (.inr hc),
        if_neg (Nat.not_lt.mpr (short_headerLines_wait hnl hs))]
      exact hne

/-- A request of short lines is not answered 414, whatever part `u` of it is there. -/
theorem readRequest_short (u v : Bytes) (hs : Short (headLines (u ++ v))) :
    (fresh.readRequest u).content.resqStatu ≠ 414 := by
  by_cases hnl : newline ∈ u
  · obtain ⟨l, rest, rfl, hl⟩ := List.eq_append_cons_of_mem hnl
    have happ : l ++ newline :: rest ++ v = l ++ newline :: (rest ++ v) := by simp
    rw [happ, headLines_line l _ hl] at hs
    have hline : ¬l.length + 1 > maxLine := by
      have hfirst := hs _ List.mem_cons_self
      rw [List.length_append, List.length_singleton] at hfirst
      omega
    have hrest : Short (headerLines ((rest ++ v).splitOn newline)) :=
      fun l hl => hs l (List.mem_cons_of_mem _ hl)
    rw [readRequest_line fresh l rest hl rfl, if_neg hline]
    rcases parseHttpLine_cases fresh (l ++ [newline]) with ⟨c', hp, hst, _⟩ | ⟨c', hp, hst, _⟩
    · rw [hp]
      refine readRequest_headerLines_short
        (c := { c' with recvStatu := .recvHttpHead }) v rfl hrest ?_
      exact fun he => absurd (hst.symm.trans he) (by decide)
    · rw [hp]
      refine readRequest_headerLines_short
        (c := { c' with recvStatu := .recvHttpHead }) v rfl hrest ?_
      exact fun he => absurd (hst.symm.trans he) (by decide)
  · rw [readRequest_wait fresh u hnl (.inl rfl),
      if_neg (Nat.not_lt.mpr (short_headLines_wait hnl hs))]
    exact (by decide : (200 : Int) ≠ 414)

/-- The call ends with status 414 and without an exception. -/
def Refused (read : Read) : Prop := read.content.resqStatu = 414 ∧ read.fault = none

theorem readRequest_long (hc : c.recvStatu = .recvHttpLine ∨ c.recvStatu = .recvHttpHead)
    (h : Long u) :
    Refused (c.readRequest u) := by
  by_cases hnl : newline ∈ u
  · obtain ⟨l, rest, rfl, hl⟩ := List.eq_append_cons_of_mem hnl
    have hlong : l.length + 1 > maxLine := by
      by_contra hle
      refine h.noEnd ?_
      rw [List.take_append, List.take_of_length_le (by omega)]
      obtain ⟨k, hk⟩ : ∃ k, maxLine - l.length = k + 1 := ⟨maxLine - l.length - 1, by omega⟩
      rw [hk, List.take_succ_cons]
      simp
    rcases hc with hc | hc
    · rw [readRequest_line c l rest hl hc, if_pos hlong]
      exact ⟨rfl, rfl⟩
    · rw [readRequest_head c l rest hl hc, if_pos hlong]
      exact ⟨rfl, rfl⟩
  · rw [readRequest_wait c u hnl hc, if_pos h.length]
    exact ⟨rfl, rfl⟩

theorem readRequest_headers_long (headers : List Bytes) (l : Bytes)
    (hc : c.recvStatu = .recvHttpHead) (hall : ∀ h ∈ headers, IsHeader h ∧ h.length ≤ maxLine)
    (h : Long l) :
    Refused (c.readRequest (headers.flatten ++ l)) := by
  induction headers generalizing c with
  | nil => exact readRequest_long (.inr hc) h
  | cons line headers ih =>
    obtain ⟨⟨⟨⟨l', hl', rfl⟩, hblank, hfield⟩, hlen⟩, hrest⟩ := List.forall_mem_cons.mp hall
    rw [List.length_append, List.length_singleton] at hlen
    rw [List.dropLast_concat] at hfield
    obtain ⟨kv, hkv⟩ := Option.isSome_iff_exists.mp hfield
    have happ : ((l' ++ [newline]) :: headers).flatten ++ l = l' ++ newline ::
        (headers.flatten ++ l) := by simp
    rw [happ, readRequest_head c l' _ hl' hc, if_neg (by omega), if_neg hblank, hkv]
    exact ih (c := { c with request := c.request.setHeader kv.1 kv.2 }) hc hrest

/-- After lines without an error, a line over the limit is refused. -/
theorem readRequest_accepted_long (before : List Bytes) (l : Bytes) (hbefore : Accepted before)
    (h : Long l) :
    Refused (fresh.readRequest (before.flatten ++ l)) := by
  cases before with
  | nil => exact readRequest_long (.inl rfl) h
  | cons line headers =>
    obtain ⟨⟨l', hl', rfl⟩, hok, hlen, hall⟩ := hbefore
    rw [List.length_append, List.length_singleton] at hlen
    have happ : ((l' ++ [newline]) :: headers).flatten ++ l = l' ++ newline ::
        (headers.flatten ++ l) := by simp
    rw [happ, readRequest_line fresh l' _ hl' rfl, if_neg (by omega)]
    rcases parseHttpLine_cases fresh (l' ++ [newline]) with ⟨c', hp, -⟩ | ⟨_, _, _, _, hno⟩
    · rw [hp]
      exact readRequest_headers_long
        (c := { c' with recvStatu := .recvHttpHead }) headers l rfl hall h
    · exact absurd hok hno

/-- A call that returns without an error and wants more leaves at most one line's worth of bytes. -/
theorem readRequest_goesOn (c : HttpContent) (u : Bytes)
    (hc : c.recvStatu = .recvHttpErr → 400 ≤ c.resqStatu) (hf : (c.readRequest u).fault = none)
    (hst : (c.readRequest u).content.resqStatu < 400)
    (ho : (c.readRequest u).content.recvStatu ≠ .recvHttpOver) :
    (c.readRequest u).content.recvStatu ≠ .recvHttpErr ∧
    (c.readRequest u).rest.length ≤ maxLine := by
  induction c, u using request_induction with
  | idle c u hidle =>
    rw [readRequest_idle c u hidle] at hst ho
    rcases hidle with he | he
    · exact absurd (hc he) (Int.not_le.mpr hst)
    · exact absurd he ho
  | body c u hbody =>
    rw [readRequest_body c u hbody] at hf ho ⊢
    cases hn : c.request.bodySize with
    | error f =>
      rw [hn] at hf
      cases hf
    | ok n =>
      rw [hn] at ho
      dsimp only at ho ⊢
      split
      · rename_i hz
        rw [if_pos hz] at ho
        exact absurd rfl ho
      · rename_i hz
        rw [if_neg hz] at ho
        split
        · rename_i hle
          rw [if_pos hle] at ho
          exact absurd rfl ho
        · exact ⟨by simp [hbody], Nat.zero_le _⟩
  | wait c u hline hn hlen =>
    rw [readRequest_wait c u hn hline, if_neg (Nat.not_lt.mpr hlen)]
    exact ⟨by rcases hline with hs | hs <;> simp [hs], hlen⟩
  | fail c u code hcode heq =>
    obtain ⟨rest, he⟩ := heq []
    rw [List.append_nil] at he
    rw [he] at hst
    exact absurd hcode (Int.not_le.mpr hst)
  | next c u c' rest _ hnext _ _ _ heq ih =>
    have he := heq []
    rw [List.append_nil, List.append_nil] at he
    rw [he] at hf hst ho ⊢
    refine ih (fun herr => ?_) hf hst ho
    rcases hnext with hs | hs <;> simp [hs] at herr

end HttpContent

namespace HttpFeed

open HttpContent

variable {s : HttpFeed} {w v : Bytes}

/-- A call now is one call on all the bytes since the last `Reset`. -/
theorem Stands.read (h : Stands s w v) :
    (fresh.readRequest (w ++ v)).content = (s.content.readRequest s.buffer.unread).content ∧
    (fresh.readRequest (w ++ v)).fault = (s.content.readRequest s.buffer.unread).fault := by
  obtain ⟨hcontent, hfault, -⟩ := readRequest_append fresh w v h.fault
  rw [h.content] at hcontent hfault
  by_cases herr : s.content.recvStatu = .recvHttpErr
  · rw [readRequest_idle _ _ (.inl herr)] at hcontent hfault ⊢
    exact ⟨hcontent, hfault⟩
  · rw [h.unread herr]
    exact ⟨hcontent, hfault⟩

theorem step_call_of_read (hf : (s.content.readRequest s.buffer.unread).fault = none) :
    ∃ s', step s .call = some s' ∧
    s'.content = (s.content.readRequest s.buffer.unread).content := by
  rw [← recvHttpRequest_read] at hf ⊢
  obtain ⟨ret, hret⟩ := (ret_ok_iff _).mpr hf
  cases hr : s.content.recvHttpRequest s.buffer with
  | mk content buffer ret' =>
    rw [hr] at hret
    cases hret
    exact ⟨⟨content, buffer⟩, by rw [step, hr], rfl⟩

/-- The limit at every point of a stream, however it is cut. A call that goes on without an error
leaves at most `MAX_LINE` bytes; no call answers 414 to a request of short lines, whatever is still
to come; and the call that sees more than `MAX_LINE` bytes of a line answers 414 unless an earlier
line is at fault. -/
theorem line_limit (acts : List Act) (h : exec step start acts = some s) :
    (∀ s', step s .call = some s' → s'.content.resqStatu < 400 →
      s'.content.recvStatu ≠ .recvHttpOver →
      s'.buffer.unread.length ≤ maxLine) ∧
    (∀ later, Short (headLines (sinceReset acts s ++ later)) →
      s.content.resqStatu ≠ 414 ∧ (s.content.recvHttpRequest s.buffer).content.resqStatu ≠ 414) ∧
    (∀ before l, sinceReset acts s = before.flatten ++ l → Accepted before → Long l →
      ∃ s', step s .call = some s' ∧ s'.content.resqStatu = 414) := by
  obtain ⟨-, w, v, hwv, hstands⟩ := accounted_exec h
  obtain ⟨hcontent, hfault⟩ := hstands.read
  refine ⟨fun s' hstep hst ho => ?_, fun later hshort => ?_, fun before l hu hbefore hlong => ?_⟩
  · have hcall := hstands.call hstep
    obtain ⟨herr, hrest⟩ :=
      readRequest_goesOn fresh _ nofun hcall.fault (hcall.content ▸ hst) (hcall.content ▸ ho)
    rw [hcall.unread (hcall.content ▸ herr), List.append_nil]
    exact hrest
  · have hall : sinceReset acts s = w ++ v := hwv
    rw [hall] at hshort
    constructor
    · rw [← hstands.content]
      exact readRequest_short w (v ++ later) (by rwa [← List.append_assoc])
    · have hread : (s.content.recvHttpRequest s.buffer).content =
          (s.content.readRequest s.buffer.unread).content :=
        congrArg Read.content (recvHttpRequest_read s.content s.buffer)
      rw [hread, ← hcontent]
      exact readRequest_short (w ++ v) later hshort
  · have hall : w ++ v = before.flatten ++ l := hwv.symm.trans hu
    obtain ⟨h414, hnone⟩ := readRequest_accepted_long before l hbefore hlong
    rw [← hall] at h414 hnone
    obtain ⟨s', hstep, hs'⟩ := step_call_of_read (hfault ▸ hnone)
    exact ⟨s', hstep, by rw [hs', ← hcontent, h414]⟩

/-- A request line in two portions, one byte too long together. -/
def longTarget (rest : Bytes) : List Act := [.arrive (ascii "G"), .call] ++ [.arrive rest]

theorem line_limit_longTarget : ∃ rest s s', exec step start (longTarget rest) = some s ∧
    step s .call = some s' ∧
    s'.content.resqStatu = 414 := by
  obtain ⟨rest, hlong⟩ : ∃ rest, Long (ascii "G" ++ rest) := by
    refine ⟨List.replicate maxLine 97, ?_, fun hin => ?_⟩
    · rw [List.length_append, List.length_replicate]
      exact Nat.lt_add_of_pos_left (by decide)
    · rcases List.mem_append.mp (List.mem_of_mem_take hin) with hin | hin
      · exact absurd hin (by decide)
      · exact absurd (List.eq_of_mem_replicate hin) (by decide)
  have hfirst : (exec step start [.arrive (ascii "G"), .call]).any
      (fun t => t.buffer.unread = ascii "G") = true := by
    decide +kernel
  obtain ⟨t, ht, hunread⟩ := (Option.any_eq_true _ _).mp hfirst
  obtain ⟨b, hb, -⟩ := t.buffer.writeAndAdd_eq rest
  have hstep : step t (.arrive rest) = some { t with buffer := b } := by
    rw [step, hb]
    rfl
  have hrun : exec step start (longTarget rest) = some { t with buffer := b } := by
    rw [longTarget, exec_concat, ht]
    exact hstep
  have htaken : (account [.arrive (ascii "G"), .call]).taken = [] := by decide +kernel
  have hall : sinceReset (longTarget rest) { t with buffer := b } = [].flatten ++
      (ascii "G" ++ rest) := by
    have hkept : (account (longTarget rest)).taken =
        (account [.arrive (ascii "G"), .call]).taken := by
      simp only [account, longTarget, recorded_concat ht hstep, Account.note]
    rw [sinceReset, (step_arrive hstep).2, of_decide_eq_true hunread, hkept, htaken]
    rfl
  obtain ⟨s', hs', h414⟩ := (line_limit (longTarget rest) hrun).2.2 [] _ hall trivial hlong
  exact ⟨rest, _, s', hrun, hs', h414⟩

end HttpFeed
end MuduoServer
