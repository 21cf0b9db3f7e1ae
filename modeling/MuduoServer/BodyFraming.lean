import MuduoServer.HttpFeed

/-!
# The framing of a request

The bytes a completed request has taken from the buffer are its request line, its header lines, the
empty line and as many bytes as the length it declares, and these are its body. A request that waits
for the rest of its body has taken all there is.
-/
namespace MuduoServer

open StdString Transition

/-- A line with its line feed. -/
def IsLine (line : Bytes) : Prop := ∃ l, newline ∉ l ∧ line = l ++ [newline]

/-- A header line with its line feed, as the parser takes it. -/
structure IsHeader (line : Bytes) : Prop where
  isLine : IsLine line
  notBlank : ¬HttpContent.blankLine line
  field : (HttpContent.headerField line.dropLast).isSome

/-- The effect of a header line. -/
def HttpRequest.addHeader (r : HttpRequest) (line : Bytes) : HttpRequest :=
  match HttpContent.headerField line.dropLast with
  | some (key, value) => r.setHeader key value
  | none => r

/-- The bytes of the request `r`. -/
def Framed (text : Bytes) (r : HttpRequest) : Prop :=
  ∃ (line : Bytes) (headers : List Bytes) (blank : Bytes),
    IsLine line ∧ (∀ h ∈ headers, IsHeader h) ∧ HttpContent.blankLine blank ∧
    text = line ++ headers.flatten ++ blank ++ r.body ∧
    r.bodySize = .ok r.body.length ∧
    r = { headers.foldl HttpRequest.addHeader
      (HttpContent.fresh.parseHttpLine line).1.request with body := r.body }

/-- The body is not complete, and the subtraction that says what it lacks does not wrap. -/
def HttpRequest.Awaits (r : HttpRequest) : Prop :=
  ∃ n, r.bodySize = .ok n ∧ r.body.length < n ∧
    HttpContent.sizeSub n r.body.length = n - r.body.length

namespace HttpContent

theorem bodySize_lt {r : HttpRequest} {n : Nat} (h : r.bodySize = .ok n) : n < 2 ^ 64 := by
  unfold HttpRequest.bodySize at h
  split at h
  · cases hs : stol (r.getHeader (ascii "Content-Length")) with
    | error f =>
      rw [hs] at h
      cases h
    | ok v =>
      rw [hs] at h
      cases h
      unfold toSizeT
      omega
  · cases h
    decide

theorem sizeSub_eq {n b : Nat} (hn : n < 2 ^ 64) (hb : b ≤ n) : sizeSub n b = n - b := by
  unfold sizeSub
  omega

variable {c : HttpContent} {u : Bytes}

/-- What the body stage makes of a request `r` that has no body yet. -/
structure BodyRead (r : HttpRequest) (u : Bytes) (read : Read) : Prop where
  done : read.content.recvStatu = .recvHttpOver →
    u = read.content.request.body ++ read.rest ∧ r.bodySize = .ok read.content.request.body.length ∧
      read.content.request = { r with body := read.content.request.body }
  body : read.content.recvStatu = .recvHttpBody → read.rest = [] ∧ read.content.request.Awaits

theorem readRequest_bodyRead (hc : c.recvStatu = .recvHttpBody) (hb : c.request.body = [])
    (hf : (c.readRequest u).fault = none) : BodyRead c.request u (c.readRequest u) := by
  rw [readRequest_body c u hc] at hf ⊢
  cases hn : c.request.bodySize with
  | error f =>
    rw [hn] at hf
    cases hf
  | ok n =>
    have hsub : sizeSub n c.request.body.length = n := by
      rw [hb]
      exact sizeSub_eq (bodySize_lt hn) (Nat.zero_le n)
    dsimp only
    rw [hsub, hb, List.nil_append, List.nil_append]
    by_cases hz : n = 0
    · rw [if_pos hz]
      subst hz
      refine ⟨fun _ => ⟨?_, ?_, rfl⟩, nofun⟩
      · exact (congrArg (· ++ u) hb).symm
      · rw [hn, hb]
        rfl
    · rw [if_neg hz]
      by_cases hle : n ≤ u.length
      · rw [if_pos hle]
        refine ⟨fun _ => ⟨(List.take_append_drop n u).symm, ?_, rfl⟩, nofun⟩
        rw [hn, List.length_take, Nat.min_eq_left hle]
      · rw [if_neg hle]
        have hlt : u.length < n := Nat.not_le.mp hle
        refine ⟨fun ho => ?_, fun _ => ⟨rfl, n, hn, hlt, sizeSub_eq (bodySize_lt hn) (Nat.le_of_lt hlt)⟩⟩
        rw [hc] at ho
        cases ho

/-- What the header stage makes of a request `r` that has no body yet. -/
structure SectionRead (r : HttpRequest) (u : Bytes) (read : Read) : Prop where
  done : read.content.recvStatu = .recvHttpOver → ∃ (headers : List Bytes) (blank : Bytes),
    (∀ h ∈ headers, IsHeader h) ∧ blankLine blank ∧
    u = headers.flatten ++ blank ++ read.content.request.body ++ read.rest ∧
    (headers.foldl HttpRequest.addHeader r).bodySize = .ok read.content.request.body.length ∧
    read.content.request = { headers.foldl HttpRequest.addHeader r with body := read.content.request.body }
  body : read.content.recvStatu = .recvHttpBody → read.rest = [] ∧ read.content.request.Awaits

/-- The header stage by induction on the lines. -/
theorem readRequest_sectionRead (hc : c.recvStatu = .recvHttpHead) (hb : c.request.body = [])
    (hf : (c.readRequest u).fault = none) : SectionRead c.request u (c.readRequest u) := by
  induction hn : u.length using Nat.strong_induction_on generalizing c u with
  | _ n ih =>
    by_cases hnl : newline ∈ u
    · obtain ⟨l, rest, rfl, hl⟩ := List.eq_append_cons_of_mem hnl
      rw [readRequest_head c l rest hl hc] at hf ⊢
      by_cases hlong : l.length + 1 > maxLine
      · rw [if_pos hlong]
        exact ⟨nofun, nofun⟩
      rw [if_neg hlong] at hf ⊢
      by_cases hblank : blankLine (l ++ [newline])
      · rw [if_pos hblank] at hf ⊢
        obtain ⟨hover, hbody⟩ :=
          readRequest_bodyRead (c := { c with recvStatu := .recvHttpBody }) rfl hb hf
        refine ⟨fun ho => ?_, hbody⟩
        obtain ⟨hu, hsize, hreq⟩ := hover ho
        refine ⟨[], l ++ [newline], nofun, hblank, ?_, hsize, hreq⟩
        conv_lhs => rw [hu]
        simp
      · rw [if_neg hblank] at hf ⊢
        cases hfield : headerField l with
        | none =>
          exact ⟨nofun, nofun⟩
        | some kv =>
          rw [hfield] at hf
          dsimp only at hf ⊢
          have hshort : rest.length < n := by
            simp only [← hn, List.length_append, List.length_cons]
            omega
          have hline : (l ++ [newline]).dropLast = l := List.dropLast_concat
          have hheader : IsHeader (l ++ [newline]) :=
            ⟨⟨l, hl, rfl⟩, hblank, by rw [hline, hfield]; rfl⟩
          have hadd : c.request.addHeader (l ++ [newline]) = c.request.setHeader kv.1 kv.2 := by
            rw [HttpRequest.addHeader, hline, hfield]
          obtain ⟨hover, hbody⟩ :=
            ih rest.length hshort (c := { c with request := c.request.setHeader kv.1 kv.2 }) hc hb hf rfl
          refine ⟨fun ho => ?_, hbody⟩
          obtain ⟨headers, blank, hall, hblank', hu, hsize, hreq⟩ := hover ho
          refine ⟨(l ++ [newline]) :: headers, blank, List.forall_mem_cons.mpr ⟨hheader, hall⟩,
            hblank', ?_, ?_, ?_⟩
          · conv_lhs => rw [hu]
            simp
          · rw [List.foldl_cons, hadd]
            exact hsize
          · rw [List.foldl_cons, hadd]
            exact hreq
    · rw [readRequest_wait c u hnl (.inr hc)]
      split
      · exact ⟨nofun, nofun⟩
      · exact ⟨fun ho => absurd (hc.symm.trans ho) nofun, fun ho => absurd (hc.symm.trans ho) nofun⟩

/-- A call on all the bytes of a request. -/
theorem readRequest_framed (hf : (fresh.readRequest u).fault = none) :
    ((fresh.readRequest u).content.recvStatu = .recvHttpOver →
      ∃ text, u = text ++ (fresh.readRequest u).rest ∧
      Framed text (fresh.readRequest u).content.request) ∧
    ((fresh.readRequest u).content.recvStatu = .recvHttpBody →
      (fresh.readRequest u).rest = [] ∧ (fresh.readRequest u).content.request.Awaits) := by
  by_cases hnl : newline ∈ u
  · obtain ⟨l, rest, rfl, hl⟩ := List.eq_append_cons_of_mem hnl
    rw [readRequest_line fresh l rest hl rfl] at hf ⊢
    by_cases hlong : l.length + 1 > maxLine
    · rw [if_pos hlong]
      exact ⟨nofun, nofun⟩
    rw [if_neg hlong] at hf ⊢
    have hbody := parseHttpLine_body fresh (l ++ [newline])
    cases hp : fresh.parseHttpLine (l ++ [newline]) with
    | mk c' ret =>
      rw [hp] at hf hbody
      cases ret with
      | error f => cases hf
      | ok ret =>
        obtain ⟨hover, hwait⟩ :=
          readRequest_sectionRead (c := { c' with recvStatu := .recvHttpHead }) rfl hbody hf
        refine ⟨fun ho => ?_, hwait⟩
        obtain ⟨headers, blank, hall, hblank, hu, hsize, hreq⟩ := hover ho
        have hparse : (fresh.parseHttpLine (l ++ [newline])).1.request = c'.request := by rw [hp]
        refine ⟨l ++ [newline] ++ headers.flatten ++ blank ++ _, ?_, l ++ [newline], headers, blank,
          ⟨l, hl, rfl⟩, hall, hblank,
          rfl, ?_, ?_⟩
        · conv_lhs => rw [hu]
          simp
        · rw [hreq]
          exact hsize
        · rw [hparse]
          exact hreq
  · rw [readRequest_wait fresh u hnl (.inl rfl)]
    split
    · exact ⟨nofun, nofun⟩
    · exact ⟨nofun, nofun⟩

end HttpContent

namespace HttpFeed

variable {s : HttpFeed}

/-- However a stream is cut, no byte of it is lost: what was taken from the buffer and what is still
unread make up what arrived. A completed request has taken its own bytes, and a call that leaves a
request waiting for its body leaves the buffer empty. -/
theorem framing (acts : List Act) (h : exec step start acts = some s) :
    (account acts).before ++ (account acts).taken ++ s.buffer.unread = (account acts).arrived ∧
    (s.content.recvStatu = .recvHttpOver → Framed (account acts).taken s.content.request) ∧
    (s.content.recvStatu = .recvHttpBody →
      s.content.request.Awaits ∧ ∀ acts', acts = acts' ++ [.call] → s.buffer.unread = []) := by
  obtain ⟨hbytes, w, v, hwv, hstands⟩ := accounted_exec h
  obtain ⟨hover, hbody⟩ := HttpContent.readRequest_framed hstands.fault
  refine ⟨hbytes, fun ho => ?_, fun hb => ?_⟩
  · have hne : s.content.recvStatu ≠ .recvHttpErr := by simp [ho]
    rw [hstands.content] at hover
    obtain ⟨text, hw, hframed⟩ := hover ho
    have htaken : (account acts).taken = text := by
      have hall : (account acts).taken ++ ((HttpContent.fresh.readRequest w).rest ++ v) =
          text ++ ((HttpContent.fresh.readRequest w).rest ++ v) := by
        rw [← List.append_assoc text, ← hw, ← hstands.unread hne, hwv]
      exact List.append_cancel_right hall
    rw [htaken]
    exact hframed
  · rw [hstands.content] at hbody
    refine ⟨(hbody hb).2, ?_⟩
    rintro acts' rfl
    have hcall := call_sinceReset h
    have hrest := (HttpContent.readRequest_framed hcall.fault).2 (hcall.content ▸ hb)
    rw [hcall.unread (by simp [hb]), hrest.1, List.append_nil]

/-- A request in three portions: the header section is cut in a name, the body in the middle. -/
def postInParts : List Act :=
  [.arrive (ascii "POST /a HTTP/1.1\r\nContent-Le"), .call, .arrive (ascii "ngth: 4\r\n\r\nab"),
    .call, .arrive (ascii "cdGET"), .call]

theorem framing_postInParts : ∃ s, exec step start postInParts = some s ∧
    (account postInParts).before ++ (account postInParts).taken ++ s.buffer.unread =
    (account postInParts).arrived ∧
    Framed (account postInParts).taken s.content.request := by
  have hover : (exec step start postInParts).any (fun s => s.content.recvStatu = .recvHttpOver) =
      true := by
    decide +kernel
  obtain ⟨s, h, ho⟩ := (Option.any_eq_true _ _).mp hover
  obtain ⟨hbytes, hframed, -⟩ := framing postInParts h
  exact ⟨s, h, hbytes, hframed (of_decide_eq_true ho)⟩

end HttpFeed
end MuduoServer
