import MuduoServer.HttpResume
import MuduoServer.Transition

/-!
# Runs of the request parser

A run is any sequence of `RecvHttpRequest` calls, each on a buffer of its own,
and of `Reset`s. Along a run the parser throws only at a `Content-Length` that
`std::stol` or the conversion after it cannot take, and its error state agrees
with its status as long as every request line it completes is well formed.
-/
namespace MuduoServer

open StdString

/-- The complete lines of the input, without their line feeds. -/
def lines (u : Bytes) : List Bytes := (u.splitOn newline).dropLast

theorem lines_of_not_mem {u : Bytes} (h : newline ∉ u) : lines u = [] := by
  rw [lines, List.splitOn_eq_singleton h]
  rfl

theorem lines_cons {l : Bytes} (rest : Bytes) (h : newline ∉ l) :
    lines (l ++ newline :: rest) = l :: lines rest := by
  rw [lines, List.splitOn_append_cons_self_of_not_mem h, List.dropLast_cons_of_ne_nil]
  · rfl
  · exact List.splitOn_ne_nil _ _

namespace HttpContent

inductive Op where
  | reset
  | recv (buffer : Buffer)

def Op.step (c : HttpContent) : Op → Option HttpContent
  | .reset => some c.reset
  | .recv buffer => some (c.recvHttpRequest buffer).content

/-! ## The header section -/

/-- The headers after the lines `ls`, once the empty line is among them. A line
that is too long or is no header ends the section without one. -/
def sectionHeaders : StrMap → List Bytes → Option StrMap
  | _, [] => none
  | m, l :: ls =>
    if l.length + 1 > maxLine then none
    else if blankLine (l ++ [newline]) then some m
    else
      match headerField l with
      | none => none
      | some (key, value) => sectionHeaders (insertNew m key value) ls

/-- The headers of the section that a call on `u` completes or has behind it. -/
def completedHeaders (c : HttpContent) (u : Bytes) : Option StrMap :=
  match c.recvStatu, lines u with
  | .recvHttpLine, l :: ls =>
    if l.length + 1 > maxLine then none else sectionHeaders c.request.headers ls
  | .recvHttpHead, ls => sectionHeaders c.request.headers ls
  | .recvHttpBody, _ => some c.request.headers
  | _, _ => none

/-- A non-empty string of decimal digits with a value `long` can hold. -/
def GoodLength (val : Bytes) : Prop :=
  val ≠ [] ∧ (∀ d ∈ val, isDigit d) ∧ (decimal val : Int) ≤ longMax

instance (val : Bytes) : Decidable (GoodLength val) := by unfold GoodLength; infer_instance

/-- The section declares no body length or a good one. -/
def LengthOk (m : StrMap) : Prop := ∀ val ∈ m.lookup (ascii "Content-Length"), GoodLength val

theorem bodySize_ok {r : HttpRequest} (h : LengthOk r.headers) : ∃ n, r.bodySize = .ok n := by
  unfold HttpRequest.bodySize
  split
  · rename_i hk
    have hmem : ascii "Content-Length" ∈ r.headers := by simpa [HttpRequest.hasHeader] using hk
    obtain ⟨val, hval⟩ := Option.isSome_iff_exists.mp (AList.lookup_isSome.mpr hmem)
    have good := h val hval
    exact ⟨_, by rw [HttpRequest.getHeader, hval, Option.getD_some, stol_digits good.1 good.2.1 good.2.2]; rfl⟩
  · exact ⟨0, rfl⟩

/-- A call stays clear of the body stage and of every exception, or it goes on to
the body stage with the completed headers `m`. -/
def ReachesBody (r : Read) : Option StrMap → Prop
  | none => r.fault = none
  | some m => ∃ (c : HttpContent) (rest : Bytes),
      c.recvStatu = .recvHttpBody ∧ c.request.headers = m ∧ r = c.readRequest rest

theorem readRequest_headerState (c : HttpContent) (u : Bytes) (hc : c.recvStatu = .recvHttpHead) :
    ReachesBody (c.readRequest u) (sectionHeaders c.request.headers (lines u)) := by
  induction hn : u.length using Nat.strong_induction_on generalizing c u with
  | _ n ih =>
    by_cases hnl : newline ∈ u
    · obtain ⟨l, rest, rfl, hl⟩ := List.eq_append_cons_of_mem hnl
      have hshort : rest.length < n := by
        simp only [← hn, List.length_append, List.length_cons]; omega
      rw [lines_cons rest hl, readRequest_head c l rest hl hc, sectionHeaders]
      by_cases hlong : l.length + 1 > maxLine
      · simp only [if_pos hlong]; rfl
      by_cases hblank : blankLine (l ++ [newline])
      · simp only [if_neg hlong, if_pos hblank]
        exact ⟨{ c with recvStatu := .recvHttpBody }, rest, rfl, rfl, rfl⟩
      · simp only [if_neg hlong, if_neg hblank]
        cases headerField l with
        | none => rfl
        | some kv =>
          exact ih _ hshort { c with request := c.request.setHeader kv.1 kv.2 } rest hc rfl
    · rw [lines_of_not_mem hnl, readRequest_wait c u hnl (.inr hc)]
      simp only [sectionHeaders, ReachesBody]
      split <;> rfl

theorem readRequest_completed (c : HttpContent) (u : Bytes) :
    ReachesBody (c.readRequest u) (completedHeaders c u) := by
  unfold completedHeaders
  cases hc : c.recvStatu with
  | recvHttpLine =>
    by_cases hnl : newline ∈ u
    · obtain ⟨l, rest, rfl, hl⟩ := List.eq_append_cons_of_mem hnl
      rw [lines_cons rest hl, readRequest_line c l rest hl hc]
      by_cases hlong : l.length + 1 > maxLine
      · simp only [if_pos hlong]; rfl
      obtain ⟨c', ret, hp, hh⟩ : ∃ c' ret, c.parseHttpLine (l ++ [newline]) = (c', .ok ret) ∧
          c'.request.headers = c.request.headers := by
        rcases parseHttpLine_cases c (l ++ [newline]) with ⟨c', hp, _, hh, _⟩ | ⟨c', hp, _, hh, _⟩
        · exact ⟨c', true, hp, hh⟩
        · exact ⟨c', false, hp, hh⟩
      simp only [if_neg hlong, hp, ← hh]
      exact readRequest_headerState { c' with recvStatu := .recvHttpHead } rest rfl
    · rw [lines_of_not_mem hnl, readRequest_wait c u hnl (.inl hc)]
      simp only [ReachesBody]
      split <;> rfl
  | recvHttpHead => exact readRequest_headerState c u hc
  | recvHttpBody => exact ⟨c, u, hc, rfl, rfl⟩
  | recvHttpErr => simp only [ReachesBody, readRequest_idle c u (.inl hc)]
  | recvHttpOver => simp only [ReachesBody, readRequest_idle c u (.inr hc)]

/-- The body stage throws, finishes the request or waits for more of its body. -/
theorem readRequest_bodyState (c : HttpContent) (u : Bytes) (hc : c.recvStatu = .recvHttpBody) :
    (∃ f, c.request.bodySize = .error f ∧ (c.readRequest u).fault = some f) ∨
    (∃ n, c.request.bodySize = .ok n ∧ (c.readRequest u).fault = none ∧
      (c.readRequest u).content.recvStatu ≠ .recvHttpErr) := by
  rw [readRequest_body c u hc]
  cases c.request.bodySize with
  | error f => exact .inl ⟨f, rfl, rfl⟩
  | ok n =>
    refine .inr ⟨n, rfl, ?_⟩
    simp only
    split
    · simp
    · split <;> simp [hc]

/-- What stops the parser is an exception that `std::stol` throws. -/
theorem readRequest_fault {c : HttpContent} {u : Bytes} {f : Fault}
    (h : (c.readRequest u).fault = some f) :
    f.thrown = true := by
  have hread := readRequest_completed c u
  cases hm : completedHeaders c u with
  | none =>
    rw [hm] at hread
    cases h.symm.trans hread
  | some m =>
    rw [hm] at hread
    obtain ⟨c', rest, hc', -, heq⟩ := hread
    rw [heq] at h
    obtain ⟨f', hsize, hfault⟩ | ⟨n, -, hnone, -⟩ := readRequest_bodyState c' rest hc'
    · cases hfault.symm.trans h
      unfold HttpRequest.bodySize at hsize
      split at hsize
      · cases hstol : stol (c'.request.getHeader (ascii "Content-Length")) with
        | error e =>
          rw [hstol] at hsize
          cases hsize
          exact stol_thrown hstol
        | ok n =>
          rw [hstol] at hsize
          cases hsize
      · cases hsize
    · cases hnone.symm.trans h

/-- A step throws nothing, and a header section it completes with a bad
`Content-Length` ends in the error state. -/
def Op.Rejects (c : HttpContent) : Op → Prop
  | .reset => True
  | .recv buffer =>
    (∃ ret, (c.recvHttpRequest buffer).ret = .ok ret) ∧
    ∀ m, completedHeaders c buffer.unread = some m → ¬LengthOk m →
      (c.recvHttpRequest buffer).content.recvStatu = .recvHttpErr ∧
      400 ≤ (c.recvHttpRequest buffer).content.resqStatu

/-- The header section a step completes, or has behind it, has a good `Content-Length` or none. -/
def Op.GoodSection (c : HttpContent) : Op → Prop
  | .reset => True
  | .recv buffer => ∀ m, completedHeaders c buffer.unread = some m → LengthOk m

theorem rejects_iff_goodSection (c : HttpContent) (op : Op) : op.Rejects c ↔ op.GoodSection c := by
  cases op with
  | reset => exact Iff.rfl
  | recv buffer =>
    have hcontent : (c.recvHttpRequest buffer).content = (c.readRequest buffer.unread).content :=
      congrArg Read.content (recvHttpRequest_read c buffer)
    simp only [Op.Rejects, Op.GoodSection, ret_ok_iff, recvHttpRequest_read, hcontent]
    have hread := readRequest_completed c buffer.unread
    cases hm : completedHeaders c buffer.unread with
    | none =>
      rw [hm] at hread
      simp only [reduceCtorEq, false_implies, implies_true, and_true, iff_true]
      exact hread
    | some m =>
      rw [hm] at hread
      obtain ⟨c', rest, hc', rfl, heq⟩ := hread
      simp only [heq, Option.some.injEq, forall_eq']
      constructor
      · rintro ⟨hfault, herr⟩
        by_contra hbad
        rcases readRequest_bodyState c' rest hc' with ⟨f, _, hf⟩ | ⟨n, _, _, hne⟩
        · rw [hf] at hfault; cases hfault
        · exact hne (herr hbad).1
      · intro hok
        refine ⟨?_, fun hbad => absurd hok hbad⟩
        rcases readRequest_bodyState c' rest hc' with ⟨f, hb, _⟩ | ⟨n, _, hf, _⟩
        · obtain ⟨n, hn⟩ := bodySize_ok hok
          rw [hn] at hb; cases hb
        · exact hf

/-- Every call of a run keeps its failures inside the error state exactly when
every header section the run completes has a good `Content-Length` or none. -/
theorem parser_fails_inside_error_state (ops : List Op) :
    Transition.Along Op.step (fun c op => op.Rejects c) fresh ops ↔
    Transition.Along Op.step (fun c op => op.GoodSection c) fresh ops :=
  Transition.along_congr rejects_iff_goodSection fresh ops

/-- `std::stol` throws out of the parser on a length that is no number. -/
theorem parser_throws_on_length :
    ¬Transition.Along Op.step (fun c op => op.Rejects c) fresh
      [.recv (Buffer.ofBytes (ascii "GET / HTTP/1.1\r\nContent-Length: abc\r\n\r\n"))] := by
  rintro ⟨⟨⟨ret, hret⟩, _⟩, _⟩
  have hthrow : (fresh.recvHttpRequest
      (Buffer.ofBytes (ascii "GET / HTTP/1.1\r\nContent-Length: abc\r\n\r\n"))).ret =
      .error .invalidArgument := by decide +kernel
  rw [hthrow] at hret
  cases hret

/-! ## The error state -/

def StatusAgrees (c : HttpContent) : Prop := 400 ≤ c.resqStatu ↔ c.recvStatu = .recvHttpErr

/-- If the call completes the first line of a request within the limit, it is a request line. -/
def Op.LineParses (c : HttpContent) : Op → Prop
  | .reset => True
  | .recv buffer => c.recvStatu = .recvHttpLine →
      ∀ l ∈ (lines buffer.unread).head?, l.length + 1 ≤ maxLine → RequestLineOk (l ++ [newline])

/-- Past the request line, every stage that sets an error status sets the error state. -/
theorem readRequest_statusAgrees (c : HttpContent) (u : Bytes) (hc : c.recvStatu ≠ .recvHttpLine)
    (h : StatusAgrees c) : StatusAgrees (c.readRequest u).content := by
  induction c, u using request_induction with
  | idle c u hidle => rwa [readRequest_idle c u hidle]
  | body c u hbody =>
    have hlow : ¬400 ≤ c.resqStatu := by simp [h.not, hbody]
    rw [readRequest_body c u hbody]
    cases c.request.bodySize with
    | error f => exact h
    | ok n =>
      simp only
      split
      · simp [StatusAgrees, hlow]
      · split <;> simp [StatusAgrees, hlow, hbody]
  | wait c u _ hn hlen => rwa [readRequest_wait c u hn (by tauto), if_neg (by omega)]
  | fail c u code hcode heq =>
    obtain ⟨rest, he⟩ := heq []
    rw [List.append_nil] at he
    simp [he, StatusAgrees, hcode]
  | next c u c' rest hline hnext hst _ _ heq ih =>
    have he := heq []
    rw [List.append_nil, List.append_nil] at he
    have hhead : c.recvStatu = .recvHttpHead := hline.resolve_left hc
    have hsame : c'.resqStatu = c.resqStatu := hst.resolve_right (fun hl => hc hl.1)
    have hlow : ¬400 ≤ c.resqStatu := by simp [h.not, hhead]
    rw [he]
    apply ih
    · rcases hnext with hs | hs <;> simp [hs]
    · rcases hnext with hs | hs <;> simp [StatusAgrees, hsame, hlow, hs]

/-- One call on a parser whose status and state agree. -/
theorem recvHttpRequest_statusAgrees (c : HttpContent) (b : Buffer) (h : StatusAgrees c)
    (hline : (Op.recv b).LineParses c) : StatusAgrees (c.recvHttpRequest b).content := by
  have hcontent : (c.recvHttpRequest b).content = (c.readRequest b.unread).content :=
    congrArg Read.content (recvHttpRequest_read c b)
  rw [hcontent]
  by_cases hc : c.recvStatu = .recvHttpLine
  · have hlow : ¬400 ≤ c.resqStatu := by simp [h.not, hc]
    by_cases hnl : newline ∈ b.unread
    · obtain ⟨l, rest, hu, hl⟩ := List.eq_append_cons_of_mem hnl
      rw [hu, readRequest_line c l rest hl hc]
      by_cases hlong : l.length + 1 > maxLine
      · rw [if_pos hlong]
        simp [StatusAgrees]
      · have hparse := hline hc l (by simp [hu, lines_cons rest hl]) (by omega)
        obtain ⟨c', hp, hst⟩ : ∃ c', c.parseHttpLine (l ++ [newline]) = (c', .ok true) ∧
            c'.resqStatu = c.resqStatu := by
          rcases parseHttpLine_cases c (l ++ [newline]) with ⟨c', hp, hst, _⟩ | ⟨_, _, _, _, hno⟩
          · exact ⟨c', hp, hst⟩
          · exact absurd hparse hno
        simp only [if_neg hlong, hp]
        apply readRequest_statusAgrees
        · simp
        · simp [StatusAgrees, hst, hlow]
    · rw [readRequest_wait c _ hnl (.inl hc)]
      split
      · simp [StatusAgrees]
      · exact h
  · exact readRequest_statusAgrees c _ hc h

/-- In a run whose request lines all parse, an error status and the error state
come together and the parser stays put until `Reset`. -/
theorem parse_errors_sticky (ops : List Op) (c : HttpContent)
    (hrun : Transition.exec Op.step fresh ops = some c)
    (hline : Transition.Along Op.step (fun c op => op.LineParses c) fresh ops) :
    (400 ≤ c.resqStatu ↔ c.recvStatu = .recvHttpErr) ∧
    (400 ≤ c.resqStatu → ∀ b, c.recvHttpRequest b = ⟨c, b, .ok true⟩) := by
  have hagree : StatusAgrees c := by
    refine Transition.exec_invariant StatusAgrees ?_ (by simp [StatusAgrees, fresh]) hline hrun
    intro c op c' h hop hstep
    cases op with
    | reset => cases hstep; simp [StatusAgrees, reset]
    | recv b => cases hstep; exact recvHttpRequest_statusAgrees c b h hop
  refine ⟨hagree, fun hst b => ?_⟩
  simp [recvHttpRequest, hagree.mp hst]

theorem parse_errors_sticky_bad_header :
    400 ≤ (fresh.recvHttpRequest (Buffer.ofBytes (ascii "GET / HTTP/1.1\r\nHost\r\n"))).content.resqStatu ↔
    (fresh.recvHttpRequest (Buffer.ofBytes (ascii "GET / HTTP/1.1\r\nHost\r\n"))).content.recvStatu =
      .recvHttpErr :=
  (parse_errors_sticky [.recv (Buffer.ofBytes (ascii "GET / HTTP/1.1\r\nHost\r\n"))] _ rfl
    ⟨by
      simp only [Op.LineParses, Buffer.unread_ofBytes]
      decide +kernel, fun _ _ => trivial⟩).1

/-- A request line that does not parse leaves the status 400 with the header
state, and the next call takes the rest of the input. -/
theorem parse_error_not_sticky :
    ∃ c, Transition.exec Op.step fresh [.recv (Buffer.ofBytes (ascii "BAD\r\n"))] = some c ∧
      c.resqStatu = 400 ∧ c.recvStatu = .recvHttpHead ∧
      (c.recvHttpRequest (Buffer.ofBytes (ascii "Host: a\r\n"))).buffer.unread = [] := by
  refine ⟨_, rfl, ?_⟩
  decide +kernel

end HttpContent
end MuduoServer
