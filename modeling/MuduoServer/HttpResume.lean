import MuduoServer.HttpReader
import MuduoServer.Resumable
import MuduoServer.UitlSpec

/-!
# The parser resumes

Every run of a call over its input is a chain of complete lines followed by one
last stage. One induction principle states that chain; from it come the facts
that errors persist, that finished requests use up input, and that the answers
of the parser survive later bytes.
-/
namespace MuduoServer

open StdString EcmaRegex Uitl

namespace HttpContent

/-- The line matches the pattern of request lines, and every piece of its query has a `=`. -/
def RequestLineOk (line : Bytes) : Prop :=
  ∃ sm ∈ regexMatch requestLine line, ∀ e ∈ pieces 38 (sub sm 3), (61 : UInt8) ∈ e

instance (line : Bytes) : Decidable (RequestLineOk line) :=
  inferInstanceAs (Decidable (∃ sm ∈ regexMatch requestLine line, ∀ e ∈ pieces 38 (sub sm 3), _))

/-- The query loop never throws; it fails at a piece without `=`. -/
theorem parseQuery_cases (c : HttpContent) (v : List Bytes) :
    (∃ c', c.parseQuery v = (c', .ok true) ∧ c'.resqStatu = c.resqStatu ∧
      c'.request.headers = c.request.headers ∧ ∀ e ∈ v, 61 ∈ e) ∨
    (∃ c', c.parseQuery v = (c', .ok false) ∧ c'.resqStatu = 400 ∧
      c'.request.headers = c.request.headers ∧ ∃ e ∈ v, 61 ∉ e) := by
  induction v generalizing c with
  | nil => exact .inl ⟨c, rfl, rfl, rfl, by simp⟩
  | cons e v ih =>
    unfold parseQuery
    have hbyte : find e (ascii "=") 0 = none ↔ 61 ∉ e := find_byte e 61
    cases hf : find e (ascii "=") 0 with
    | none => exact .inr ⟨_, rfl, rfl, rfl, e, List.mem_cons_self, hbyte.mp hf⟩
    | some pos =>
      have hle : pos + 1 ≤ e.length := find_le _ _ _ hf
      have h1 : substr e 0 pos = .ok (e.take pos) := by simp [substr]
      have h2 : substrFrom e (pos + 1) = .ok (e.drop (pos + 1)) := by
        rw [substrFrom, substr, if_pos hle, List.take_of_length_le (by simp)]
      have he : 61 ∈ e := by
        by_contra hno
        rw [hbyte.mpr hno] at hf
        cases hf
      simp only [h1, h2]
      rcases ih { c with request := c.request.setParams _ _ } with
        ⟨c', hp, hst, hh, hall⟩ | ⟨c', hp, hst, hh, e', hmem, hno⟩
      · exact .inl ⟨c', hp, hst, hh, List.forall_mem_cons.mpr ⟨he, hall⟩⟩
      · exact .inr ⟨c', hp, hst, hh, e', List.mem_cons_of_mem e hmem, hno⟩

/-- Neither does the parser of the request line, and it accepts what `RequestLineOk` says. -/
theorem parseHttpLine_cases (c : HttpContent) (line : Bytes) :
    (∃ c', c.parseHttpLine line = (c', .ok true) ∧ c'.resqStatu = c.resqStatu ∧
      c'.request.headers = c.request.headers ∧ RequestLineOk line) ∨
    (∃ c', c.parseHttpLine line = (c', .ok false) ∧ c'.resqStatu = 400 ∧
      c'.request.headers = c.request.headers ∧ ¬RequestLineOk line) := by
  unfold parseHttpLine RequestLineOk
  cases regexMatch requestLine line with
  | none => exact .inr ⟨_, rfl, rfl, rfl, by simp⟩
  | some sm =>
    have hs : split (sub sm 3) (ascii "&") [] = .ok ([] ++ pieces 38 (sub sm 3), _) :=
      split_single (sub sm 3) 38 []
    simp only [hs]
    rcases parseQuery_cases _ (pieces 38 (sub sm 3)) with ⟨c', hp, hst, hh, hall⟩ |
      ⟨c', hp, hst, hh, e, hmem, hno⟩
    · exact .inl ⟨c', hp, hst, hh, sm, rfl, hall⟩
    · refine .inr ⟨c', hp, hst, hh, ?_⟩
      rintro ⟨sm', he, hall⟩
      cases he
      exact hno (hall e hmem)

theorem parseHttpLine_body (c : HttpContent) (line : Bytes) :
    (c.parseHttpLine line).1.request.body = c.request.body := by
  unfold parseHttpLine
  split
  · rfl
  · dsimp only
    split
    · obtain ⟨params, hrequest⟩ := parseQuery_request _ _
      rw [hrequest]
    · rfl

/-- The chain of lines a call takes. Either the call stops here, for good or
until more bytes arrive, or it has taken a whole line and goes on as a call in
another state on the rest, whatever bytes `v` follow. -/
theorem request_induction {P : HttpContent → Bytes → Prop}
    (idle : ∀ c u, c.recvStatu = .recvHttpErr ∨ c.recvStatu = .recvHttpOver → P c u)
    (body : ∀ c u, c.recvStatu = .recvHttpBody → P c u)
    (wait : ∀ c u, c.recvStatu = .recvHttpLine ∨ c.recvStatu = .recvHttpHead →
      newline ∉ u → u.length ≤ maxLine → P c u)
    (fail : ∀ c u (code : Int), 400 ≤ code →
      (∀ v, ∃ rest, c.readRequest (u ++ v) = ⟨c.fail code, rest, none⟩) → P c u)
    (next : ∀ c u c' rest, c.recvStatu = .recvHttpLine ∨ c.recvStatu = .recvHttpHead →
      c'.recvStatu = .recvHttpHead ∨ c'.recvStatu = .recvHttpBody →
      c'.resqStatu = c.resqStatu ∨ c.recvStatu = .recvHttpLine ∧ c'.resqStatu = 400 →
      c'.request.body = c.request.body → rest.length < u.length →
      (∀ v, c.readRequest (u ++ v) = c'.readRequest (rest ++ v)) → P c' rest → P c u)
    (c : HttpContent) (u : Bytes) : P c u := by
  induction hn : u.length using Nat.strong_induction_on generalizing c u with
  | _ n ih =>
    by_cases hidle : c.recvStatu = .recvHttpErr ∨ c.recvStatu = .recvHttpOver
    · exact idle c u hidle
    by_cases hbody : c.recvStatu = .recvHttpBody
    · exact body c u hbody
    have hc : c.recvStatu = .recvHttpLine ∨ c.recvStatu = .recvHttpHead := by
      cases hs : c.recvStatu <;> simp_all
    by_cases hnl : newline ∈ u
    · obtain ⟨l, rest, rfl, hl⟩ := List.eq_append_cons_of_mem hnl
      have hshort : rest.length < (l ++ newline :: rest).length := by
        simp only [List.length_append, List.length_cons]; omega
      have happ : ∀ v, l ++ newline :: rest ++ v = l ++ newline :: (rest ++ v) := by simp
      have hrec : ∀ c', P c' rest := fun c' => ih rest.length (hn ▸ hshort) c' rest rfl
      rcases hc with hc | hc
      · have heq : ∀ v, c.readRequest (l ++ newline :: rest ++ v) = _ :=
          fun v => (congrArg _ (happ v)).trans (readRequest_line c l (rest ++ v) hl hc)
        by_cases hlong : l.length + 1 > maxLine
        · exact fail c _ 414 (by decide) (fun v => ⟨rest ++ v, (heq v).trans (if_pos hlong)⟩)
        · obtain ⟨c', ret, hp, hst⟩ : ∃ c' ret, c.parseHttpLine (l ++ [newline]) = (c', .ok ret) ∧
              (c'.resqStatu = c.resqStatu ∨ c.recvStatu = .recvHttpLine ∧ c'.resqStatu = 400) := by
            rcases parseHttpLine_cases c (l ++ [newline]) with ⟨c', hp, hst, _⟩ | ⟨c', hp, hst, _⟩
            · exact ⟨c', true, hp, .inl hst⟩
            · exact ⟨c', false, hp, .inr ⟨hc, hst⟩⟩
          have hkept : c'.request.body = c.request.body := by
            rw [← parseHttpLine_body c (l ++ [newline]), hp]
          refine next c _ { c' with recvStatu := .recvHttpHead } rest (.inl hc)
            (.inl rfl) hst hkept hshort ?_
            (hrec _)
          intro v
          rw [heq v, if_neg hlong, hp]
      · have heq : ∀ v, c.readRequest (l ++ newline :: rest ++ v) = _ :=
          fun v => (congrArg _ (happ v)).trans (readRequest_head c l (rest ++ v) hl hc)
        by_cases hlong : l.length + 1 > maxLine
        · exact fail c _ 414 (by decide) (fun v => ⟨rest ++ v, (heq v).trans (if_pos hlong)⟩)
        by_cases hblank : blankLine (l ++ [newline])
        · refine next c _ { c with recvStatu := .recvHttpBody } rest (.inr hc) (.inr rfl) (.inl rfl)
            rfl hshort ?_ (hrec _)
          intro v
          rw [heq v, if_neg hlong, if_pos hblank]
        · cases hf : headerField l with
          | none =>
            refine fail c _ 400 (by decide) (fun v => ⟨rest ++ v, ?_⟩)
            rw [heq v, if_neg hlong, if_neg hblank, hf]
          | some kv =>
            refine next c _ { c with request := c.request.setHeader kv.1 kv.2 } rest
              (.inr hc) (.inl hc)
              (.inl rfl) rfl hshort ?_ (hrec _)
            intro v
            rw [heq v, if_neg hlong, if_neg hblank, hf]
    · by_cases hlong : u.length ≤ maxLine
      · exact wait c u hc hnl hlong
      · refine fail c u 414 (by decide) (fun v => ?_)
        by_cases hv : newline ∈ v
        · -- the line that ends in `v` starts with all of `u`
          obtain ⟨l, rest, rfl, hl⟩ := List.eq_append_cons_of_mem hv
          have hul : newline ∉ u ++ l := by simp [hnl, hl]
          have hlen : (u ++ l).length + 1 > maxLine := by
            simp only [List.length_append]; omega
          refine ⟨rest, ?_⟩
          rw [← List.append_assoc]
          rcases hc with hc | hc
          · rw [readRequest_line c _ rest hul hc, if_pos hlen]
          · rw [readRequest_head c _ rest hul hc, if_pos hlen]
        · refine ⟨u ++ v, ?_⟩
          have huv : newline ∉ u ++ v := by simp [hnl, hv]
          rw [readRequest_wait c _ huv hc, if_pos (by simp only [List.length_append]; omega)]

/-- A call keeps the status or sets an error status. -/
theorem readRequest_resqStatu (c : HttpContent) (u : Bytes) :
    (c.readRequest u).content.resqStatu = c.resqStatu ∨
    400 ≤ (c.readRequest u).content.resqStatu := by
  induction c, u using request_induction with
  | idle c u hc => rw [readRequest_idle c u hc]; exact .inl rfl
  | body c u hc =>
    rw [readRequest_body c u hc]
    cases c.request.bodySize with
    | error f => exact .inl rfl
    | ok n => simp only; split <;> [exact .inl rfl; (split <;> exact .inl rfl)]
  | wait c u hc hn hlen => rw [readRequest_wait c u hn hc, if_neg (by omega)]; exact .inl rfl
  | fail c u code hcode heq =>
    obtain ⟨rest, he⟩ := heq []
    rw [List.append_nil] at he
    rw [he]
    exact .inr hcode
  | next c u c' rest _ _ hst _ _ heq ih =>
    have he := heq []
    rw [List.append_nil, List.append_nil] at he
    rw [he]
    omega

/-- An error status survives every later call. -/
theorem readRequest_status (c : HttpContent) (u : Bytes) (h : 400 ≤ c.resqStatu) :
    400 ≤ (c.readRequest u).content.resqStatu := by
  rcases readRequest_resqStatu c u with he | he
  · rwa [he]
  · exact he

end HttpContent

/-- How the server reads a call: an error, a finished request, or a wait for more. -/
def Read.step (r : Read) : Resumable.Step HttpContent UInt8 HttpRequest :=
  if r.fault.isSome ∨ 400 ≤ r.content.resqStatu then .failed
  else if r.content.recvStatu = .recvHttpOver then .done r.content.request r.rest
  else .more r.content r.rest

theorem Read.step_more {r : Read} {c : HttpContent} {u : Bytes} (h : r.step = .more c u) :
    r.fault = none ∧ r.content.resqStatu < 400 ∧ r.content.recvStatu ≠ .recvHttpOver ∧
      r.content = c ∧ r.rest = u := by
  unfold Read.step at h
  split at h
  · cases h
  · rename_i hok
    obtain ⟨hf, hst⟩ := not_or.mp hok
    split at h
    · cases h
    · rename_i ho
      cases h
      exact ⟨by simpa using hf, by omega, ho, rfl, rfl⟩

theorem Read.step_done {r : Read} {o : HttpRequest} {u : Bytes} (h : r.step = .done o u) :
    r.fault = none ∧ r.content.resqStatu < 400 ∧ r.content.recvStatu = .recvHttpOver ∧
      r.content.request = o ∧ r.rest = u := by
  unfold Read.step at h
  split at h
  · cases h
  · rename_i hok
    obtain ⟨hf, hst⟩ := not_or.mp hok
    split at h
    · rename_i ho
      cases h
      exact ⟨by simpa using hf, by omega, ho, rfl, rfl⟩
    · cases h

theorem Read.step_failed {r : Read} (h : r.step = .failed) :
    r.fault.isSome ∨ 400 ≤ r.content.resqStatu := by
  unfold Read.step at h
  split at h
  · rename_i hbad; exact hbad
  · split at h <;> cases h

/-- The request parser as a resumable parser; a finished request is followed by `Reset`. -/
def httpParser : Resumable.Parser HttpContent UInt8 HttpRequest where
  start := HttpContent.fresh
  step c u := (c.readRequest u).step

namespace HttpContent

theorem step_failed (c : HttpContent) (u : Bytes) (h : 400 ≤ c.resqStatu) :
    httpParser.step c u = .failed := by
  simp [httpParser, Read.step, readRequest_status c u h]

theorem sizeSub_add (n a b : Nat) (h : b < sizeSub n a) : sizeSub n (a + b) = sizeSub n a - b := by
  simp only [sizeSub] at h ⊢
  omega

/-- The body stage on `u` and then on what follows: what the body still lacks shrinks by what
it has taken. -/
theorem readRequest_body_append {c : HttpContent} {u : Bytes}
    (hc : c.recvStatu = .recvHttpBody) (v : Bytes) (hf : (c.readRequest u).fault = none) :
    c.readRequest (u ++ v) = (c.readRequest u).content.readRequest
    ((c.readRequest u).rest ++ v) := by
  rw [readRequest_body c u hc] at hf ⊢
  rw [readRequest_body c (u ++ v) hc]
  cases hb : c.request.bodySize with
  | error f => rw [hb] at hf; cases hf
  | ok n =>
    dsimp only
    by_cases hn : n = 0
    · rw [if_pos hn, if_pos hn, readRequest_idle _ _ (.inr rfl)]
    · rw [if_neg hn, if_neg hn]
      by_cases hle : sizeSub n c.request.body.length ≤ u.length
      · have hle' : sizeSub n c.request.body.length ≤ (u ++ v).length := by
          rw [List.length_append]
          omega
        rw [if_pos hle, if_pos hle', readRequest_idle _ _ (.inr rfl),
          List.take_append_of_le_length hle,
          List.drop_append_of_le_length hle]
      · -- the body takes all of `u`
        have hsub := sizeSub_add n c.request.body.length u.length (by omega)
        have hb' : HttpRequest.bodySize { c.request with body := c.request.body ++ u } = .ok n := hb
        have hnext :=
          readRequest_body { c with request := { c.request with body := c.request.body ++ u } } v hc
        rw [if_neg hle]
        dsimp only at hnext ⊢
        rw [List.nil_append, hnext]
        simp only [hb', if_neg hn, List.length_append, hsub]
        by_cases hle' : sizeSub n c.request.body.length ≤ u.length + v.length
        · have ht : (u ++ v).take (sizeSub n c.request.body.length) =
              u ++ v.take (sizeSub n c.request.body.length - u.length) := by
            rw [List.take_append, List.take_of_length_le (by omega)]
          have hd : (u ++ v).drop (sizeSub n c.request.body.length) =
              v.drop (sizeSub n c.request.body.length - u.length) := by
            rw [List.drop_append, List.drop_of_length_le (by omega), List.nil_append]
          rw [if_pos hle', if_pos (by omega), ht, hd, List.append_assoc]
        · rw [if_neg hle', if_neg (by omega), List.append_assoc]

/-- What the body stage answers, once the declared length is a number. -/
theorem step_body (c : HttpContent) (u : Bytes) (hc : c.recvStatu = .recvHttpBody)
    (hst : c.resqStatu < 400) :
    httpParser.step c u =
      match c.request.bodySize with
      | .error _ => .failed
      | .ok n =>
        if n = 0 then .done c.request u
        else if sizeSub n c.request.body.length ≤ u.length then
          .done { c.request with body := c.request.body ++ u.take (sizeSub n c.request.body.length) }
            (u.drop (sizeSub n c.request.body.length))
        else .more { c with request := { c.request with body := c.request.body ++ u } } [] := by
  have hnot : ¬400 ≤ c.resqStatu := by omega
  simp only [httpParser, readRequest_body c u hc]
  cases c.request.bodySize with
  | error f => simp [Read.step]
  | ok n =>
    simp only
    split
    · simp [Read.step, hnot]
    · split <;> simp [Read.step, hnot, hc]

/-- No answer given on `u` is changed by the bytes `v` that follow. -/
theorem step_append (c : HttpContent) (u v : Bytes) :
    httpParser.step c (u ++ v) =
      match httpParser.step c u with
      | .done o r => .done o (r ++ v)
      | .failed => .failed
      | .more s r => httpParser.step s (r ++ v) := by
  induction c, u using request_induction with
  | idle c u hc =>
    simp only [httpParser, readRequest_idle c _ hc, Read.step]
    by_cases hst : 400 ≤ c.resqStatu
    · simp [hst]
    · by_cases ho : c.recvStatu = .recvHttpOver
      · simp [hst, ho]
      · simp [hst, ho, readRequest_idle c _ hc]
  | body c u hc =>
    by_cases hst : 400 ≤ c.resqStatu
    · rw [step_failed c _ hst, step_failed c _ hst]
    · cases hb : c.request.bodySize with
      | error f => simp [httpParser, readRequest_body c _ hc, hb, Read.step]
      | ok n =>
        obtain ⟨hf, hst'⟩ : (c.readRequest u).fault = none ∧
            (c.readRequest u).content.resqStatu = c.resqStatu := by
          rw [readRequest_body c u hc, hb]
          dsimp only
          split
          · exact ⟨rfl, rfl⟩
          · split <;> exact ⟨rfl, rfl⟩
        have hnot : ¬400 ≤ (c.readRequest u).content.resqStatu := by rwa [hst']
        simp only [httpParser, readRequest_body_append hc v hf]
        by_cases ho : (c.readRequest u).content.recvStatu = .recvHttpOver
        · rw [readRequest_idle _ _ (.inr ho)]
          simp [Read.step, hf, hnot, ho]
        · simp [Read.step, hf, hnot, ho]
  | wait c u hc hn hlen =>
    by_cases hst : 400 ≤ c.resqStatu
    · rw [step_failed c _ hst, step_failed c _ hst]
    · have hover : c.recvStatu ≠ .recvHttpOver := by rcases hc with hc | hc <;> simp [hc]
      have hstep : httpParser.step c u = .more c u := by
        simp only [httpParser, readRequest_wait c u hn hc, if_neg (Nat.not_lt.mpr hlen)]
        simp [Read.step, hst, hover]
      rw [hstep]
  | fail c u code hcode heq =>
    have hall : ∀ w, httpParser.step c (u ++ w) = .failed := by
      intro w
      obtain ⟨rest, he⟩ := heq w
      simp [httpParser, he, Read.step, hcode]
    have hu := hall []
    rw [List.append_nil] at hu
    rw [hall v, hu]
  | next c u c' rest _ _ _ _ _ heq ih =>
    have hu := heq []
    rw [List.append_nil, List.append_nil] at hu
    have h1 : httpParser.step c (u ++ v) = httpParser.step c' (rest ++ v) :=
      congrArg Read.step (heq v)
    have h2 : httpParser.step c u = httpParser.step c' rest := congrArg Read.step hu
    rw [h1, h2, ih]

theorem httpParser_lawful : Resumable.Lawful httpParser where
  done_append s u v o r h := by rw [step_append, h]
  failed_append s u v h := by rw [step_append, h]
  more_append s u v s' r h := by rw [step_append, h]

/-- A finished request leaves a suffix of the input, and has used up at least one byte unless
its header section was complete before. -/
theorem step_done_length (c : HttpContent) (u : Bytes) (o : HttpRequest) (r : Bytes)
    (h : httpParser.step c u = .done o r) :
    r.length ≤ u.length ∧ (c.recvStatu = .recvHttpLine ∨ c.recvStatu = .recvHttpHead →
      r.length < u.length) := by
  induction c, u using request_induction with
  | idle c u hc =>
    simp only [httpParser, readRequest_idle c u hc, Read.step] at h
    split at h
    · cases h
    · split at h
      · cases h
        rename_i ho
        exact ⟨Nat.le_refl _, fun hl => by rcases hl with hl | hl <;> simp [hl] at ho⟩
      · cases h
  | body c u hc =>
    refine ⟨?_, fun hl => by rcases hl with hl | hl <;> simp [hl] at hc⟩
    by_cases hst : 400 ≤ c.resqStatu
    · rw [step_failed c _ hst] at h; cases h
    · rw [step_body c u hc (by omega)] at h
      cases hb : c.request.bodySize with
      | error f => simp [hb] at h
      | ok n =>
        simp only [hb] at h
        split at h
        · cases h; exact Nat.le_refl _
        · split at h
          · cases h
            simp
          · cases h
  | wait c u hc hn hlen =>
    have hover : c.recvStatu ≠ .recvHttpOver := by rcases hc with hc | hc <;> simp [hc]
    simp only [httpParser, readRequest_wait c u hn hc, if_neg (Nat.not_lt.mpr hlen),
      Read.step, hover,
      if_false] at h
    split at h <;> cases h
  | fail c u code hcode heq =>
    obtain ⟨rest, he⟩ := heq []
    rw [List.append_nil] at he
    simp [httpParser, he, Read.step, hcode] at h
  | next c u c' rest _ _ _ _ hshort heq ih =>
    have hu := heq []
    rw [List.append_nil, List.append_nil] at hu
    have h2 : httpParser.step c u = httpParser.step c' rest := congrArg Read.step hu
    have := (ih (h2 ▸ h)).1
    exact ⟨by omega, fun _ => by omega⟩

/-! ## The call behind an answer -/

theorem ret_ok_iff (r : Call) : (∃ ret, r.ret = .ok ret) ↔ r.read.fault = none := by
  cases h : r.ret <;> simp [Call.read, Call.fault, h]

theorem call_more {c c' : HttpContent} {b : Buffer} {rest : Bytes}
    (h : httpParser.step c b.unread = .more c' rest) :
    ∃ b' ret, c.recvHttpRequest b = ⟨c', b', .ok ret⟩ ∧ c'.resqStatu < 400 ∧
      c'.recvStatu ≠ .recvHttpOver ∧ b'.unread = rest := by
  have hread := recvHttpRequest_read c b
  obtain ⟨hf, hst, ho, rfl, rfl⟩ := Read.step_more h
  obtain ⟨ret, hret⟩ := (ret_ok_iff _).mpr (hread ▸ hf)
  rw [← hread] at hst ho ⊢
  exact ⟨_, ret, by rw [← hret]; rfl, hst, ho, rfl⟩

theorem call_done {c : HttpContent} {b : Buffer} {o : HttpRequest} {rest : Bytes}
    (h : httpParser.step c b.unread = .done o rest) :
    ∃ c' b' ret, c.recvHttpRequest b = ⟨c', b', .ok ret⟩ ∧ c'.resqStatu < 400 ∧
      c'.recvStatu = .recvHttpOver ∧ c'.request = o ∧ b'.unread = rest ∧
      loopFuel fresh b' < loopFuel c b := by
  have hread := recvHttpRequest_read c b
  have hshort := step_done_length c b.unread o rest h
  obtain ⟨hf, hst, ho, rfl, rfl⟩ := Read.step_done h
  obtain ⟨ret, hret⟩ := (ret_ok_iff _).mpr (hread ▸ hf)
  rw [← hread] at hst ho hshort ⊢
  refine ⟨_, _, ret, by rw [← hret]; rfl, hst, ho, rfl, rfl, ?_⟩
  simp only [loopFuel, fresh, if_true, ← Buffer.length_unread]
  simp only [Call.read] at hshort
  split
  · rename_i hl
    have := hshort.2 (.inl hl)
    omega
  · omega

theorem call_resqStatu {c c' : HttpContent} {b b' : Buffer} {ret : Except Fault Bool}
    (h : c.recvHttpRequest b = ⟨c', b', ret⟩) (hst : c'.resqStatu < 400) :
    c'.resqStatu = c.resqStatu := by
  have hread := congrArg Read.content (recvHttpRequest_read c b)
  rw [h] at hread
  have hcases := readRequest_resqStatu c b.unread
  rw [← hread] at hcases
  exact hcases.resolve_right (Int.not_le.mpr hst)

theorem call_failed {c : HttpContent} {b : Buffer} (h : httpParser.step c b.unread = .failed) :
    (∃ c' b' f, c.recvHttpRequest b = ⟨c', b', .error f⟩) ∨
    (∃ c' b' ret, c.recvHttpRequest b = ⟨c', b', .ok ret⟩ ∧ 400 ≤ c'.resqStatu) := by
  have hread := recvHttpRequest_read c b
  have hbad := Read.step_failed h
  rw [← hread] at hbad
  cases hr : c.recvHttpRequest b with
  | mk c' b' ret =>
    rw [hr] at hbad
    cases ret with
    | error f => exact .inl ⟨c', b', f, rfl⟩
    | ok ret =>
      have hst : 400 ≤ c'.resqStatu := by simpa [Call.read, Call.fault] using hbad
      exact .inr ⟨c', b', ret, rfl, hst⟩

theorem loopFuel_pos {c : HttpContent} {b : Buffer} {fuel : Nat} (h : loopFuel c b ≤ fuel) :
    ∃ n, fuel = n + 1 := by
  refine ⟨fuel - 1, ?_⟩
  unfold loopFuel at h
  split at h <;> omega

end HttpContent
end MuduoServer
