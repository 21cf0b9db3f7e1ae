import MuduoServer.HttpContent

/-!
# What a call reads

A call sees the buffer only through its unread bytes. Its effect is described
here on byte strings, one equation for each state and each shape of the input,
and every later fact about the parser is derived from these equations.
-/
namespace MuduoServer

open StdString

/-- A call with the buffer reduced to its unread bytes. -/
structure Read where
  content : HttpContent
  rest : Bytes
  fault : Option Fault

def Call.fault (r : Call) : Option Fault :=
  match r.ret with
  | .ok _ => none
  | .error f => some f

def Call.read (r : Call) : Read := ⟨r.content, r.buffer.unread, r.fault⟩

@[simp] theorem Call.fallThrough_ok (c : HttpContent) (b : Buffer) (ret : Bool)
    (stage : HttpContent → Buffer → Call) : Call.fallThrough ⟨c, b, .ok ret⟩ stage = stage c b :=
  rfl

@[simp] theorem Call.fallThrough_error (c : HttpContent) (b : Buffer) (f : Fault)
    (stage : HttpContent → Buffer → Call) :
    Call.fallThrough ⟨c, b, .error f⟩ stage = ⟨c, b, .error f⟩ := rfl

/-- A stage that depends on the unread bytes only, run after calls that agree. -/
theorem Call.read_fallThrough_congr {r r' : Call} (stage : HttpContent → Buffer → Call)
    (h : r.read = r'.read)
    (hs : ∀ c b b', b.unread = b'.unread → (stage c b).read = (stage c b').read) :
    (r.fallThrough stage).read = (r'.fallThrough stage).read := by
  obtain ⟨c, b, ret⟩ := r
  obtain ⟨c', b', ret'⟩ := r'
  simp only [Call.read, Call.fault, Read.mk.injEq] at h
  obtain ⟨rfl, hb, hf⟩ := h
  cases ret <;> cases ret' <;> simp only [reduceCtorEq, Option.some.injEq] at hf
  · simp [Call.fallThrough, Call.read, Call.fault, hb, hf]
  · exact hs c b b' hb

namespace HttpContent

theorem recvHttpLine_congr (c : HttpContent) (b b' : Buffer) (h : b.unread = b'.unread) :
    (c.recvHttpLine b).read = (c.recvHttpLine b').read := by
  have hlen : b.currentEnableReadSpaceSize = b'.currentEnableReadSpaceSize := by
    rw [← Buffer.length_unread, h, Buffer.length_unread]
  unfold recvHttpLine
  split
  · simp [Call.read, Call.fault, h]
  · rcases b.getLineAndAdd_cases with ⟨hn, he⟩ | ⟨l, rest, d, hl, hu, he, hr⟩
    · rw [he, b'.getLineAndAdd_none (h ▸ hn)]
      simp only [List.length_nil, if_true, hlen]
      split <;> simp [Call.read, Call.fault, h]
    · obtain ⟨d', he', hr'⟩ := b'.getLineAndAdd_some l rest hl (h ▸ hu)
      rw [he, he']
      simp only [List.length_append, List.length_singleton, Nat.add_eq_zero_iff, one_ne_zero,
        and_false, if_false]
      split
      · simp [Call.read, Call.fault, hr, hr']
      · cases c.parseHttpLine (l ++ [newline]) with
        | mk c' ret => cases ret <;> simp [Call.read, Call.fault, hr, hr']

/-- The header loop depends on the unread bytes only, and not on its fuel once
that covers them. -/
theorem recvHttpHeadLoop_congr (n m : Nat) (c : HttpContent) (b b' : Buffer)
    (h : b.unread = b'.unread) (hn : b.unread.length < n) (hm : b.unread.length < m) :
    (recvHttpHeadLoop n c b).read = (recvHttpHeadLoop m c b').read := by
  induction n generalizing m c b b' with
  | zero => omega
  | succ n ih =>
    obtain ⟨m, rfl⟩ : ∃ k, m = k + 1 := ⟨m - 1, by omega⟩
    have hlen : b.currentEnableReadSpaceSize = b'.currentEnableReadSpaceSize := by
      rw [← Buffer.length_unread, h, Buffer.length_unread]
    unfold recvHttpHeadLoop
    rcases b.getLineAndAdd_cases with ⟨hnl, he⟩ | ⟨l, rest, d, hl, hu, he, hr⟩
    · rw [he, b'.getLineAndAdd_none (h ▸ hnl)]
      simp only [List.length_nil, if_true, hlen]
      split <;> simp [Call.read, Call.fault, h]
    · obtain ⟨d', he', hr'⟩ := b'.getLineAndAdd_some l rest hl (h ▸ hu)
      rw [he, he']
      simp only [List.length_append, List.length_singleton, Nat.add_eq_zero_iff, one_ne_zero,
        and_false, if_false]
      split
      · simp [Call.read, Call.fault, hr, hr']
      · split
        · simp [Call.read, Call.fault, hr, hr']
        · have hshort : rest.length < n := by
            simp only [hu, List.length_append, List.length_cons] at hn; omega
          have hshort' : rest.length < m := by
            simp only [hu, List.length_append, List.length_cons] at hm; omega
          cases c.parseHttpHead (l ++ [newline]) with
          | mk c' ret =>
            rcases ret with f | _ | _
            · simp [Call.read, Call.fault, hr, hr']
            · simp [Call.read, Call.fault, hr, hr']
            · exact ih m c' d d' (hr.trans hr'.symm) (hr ▸ hshort) (hr ▸ hshort')

theorem recvHttpHead_congr (c : HttpContent) (b b' : Buffer) (h : b.unread = b'.unread) :
    (c.recvHttpHead b).read = (c.recvHttpHead b').read := by
  unfold recvHttpHead
  split
  · simp [Call.read, Call.fault, h]
  · apply recvHttpHeadLoop_congr _ _ _ _ _ h
    · simp
    · simp [h]

theorem takeBody_eq (c : HttpContent) (b : Buffer) (len : Nat) (st : HttpRecvStatu)
    (h : len ≤ b.unread.length) :
    (c.takeBody b len st).read =
      ⟨{ c with request := { c.request with body := c.request.body ++ b.unread.take len },
                recvStatu := st }, b.unread.drop len, none⟩ := by
  obtain ⟨b', he, hu⟩ := b.moveReadPosition_eq len h
  simp [takeBody, he, Call.read, Call.fault, hu]

/-- The body stage on the unread bytes. -/
theorem recvHttpBody_eq (c : HttpContent) (b : Buffer) :
    (c.recvHttpBody b).read =
      if c.recvStatu ≠ .recvHttpBody then ⟨c, b.unread, none⟩
      else
        match c.request.bodySize with
        | .error f => ⟨c, b.unread, some f⟩
        | .ok n =>
          if n = 0 then ⟨{ c with recvStatu := .recvHttpOver }, b.unread, none⟩
          else
            let len := sizeSub n c.request.body.length
            if len ≤ b.unread.length then
              ⟨{ c with request := { c.request with body := c.request.body ++ b.unread.take len },
                        recvStatu := .recvHttpOver }, b.unread.drop len, none⟩
            else
              ⟨{ c with request := { c.request with body := c.request.body ++ b.unread } },
                [], none⟩ := by
  unfold recvHttpBody
  split
  · rfl
  · rename_i hc
    cases c.request.bodySize with
    | error f => rfl
    | ok n =>
      simp only
      split
      · rfl
      · split
        · rename_i hle
          rw [takeBody_eq c b _ _ (by rwa [Buffer.length_unread]),
            if_pos (by rwa [Buffer.length_unread])]
        · rename_i hle
          rw [takeBody_eq c b _ _ (by rw [Buffer.length_unread]),
            if_neg (by rwa [Buffer.length_unread])]
          have hst : c.recvStatu = .recvHttpBody := not_not.mp hc
          simp only [← Buffer.length_unread, List.take_length, List.drop_length]
          rw [← hst]

theorem recvHttpBody_congr (c : HttpContent) (b b' : Buffer) (h : b.unread = b'.unread) :
    (c.recvHttpBody b).read = (c.recvHttpBody b').read := by
  rw [recvHttpBody_eq, recvHttpBody_eq, h]

/-- `RecvHttpRequest` as a function of the unread bytes. -/
def readRequest (c : HttpContent) (u : Bytes) : Read := (c.recvHttpRequest (Buffer.ofBytes u)).read

theorem recvHttpRequest_congr (c : HttpContent) (b b' : Buffer) (h : b.unread = b'.unread) :
    (c.recvHttpRequest b).read = (c.recvHttpRequest b').read := by
  unfold recvHttpRequest
  split
  · apply Call.read_fallThrough_congr _ _ recvHttpBody_congr
    exact Call.read_fallThrough_congr _ (recvHttpLine_congr c b b' h) recvHttpHead_congr
  · exact Call.read_fallThrough_congr _ (recvHttpHead_congr c b b' h) recvHttpBody_congr
  · exact recvHttpBody_congr c b b' h
  · simp [Call.read, Call.fault, h]
  · simp [Call.read, Call.fault, h]

theorem recvHttpRequest_read (c : HttpContent) (b : Buffer) :
    (c.recvHttpRequest b).read = c.readRequest b.unread :=
  recvHttpRequest_congr c b _ (by simp)

/-! ## One equation for each state -/

theorem recvHttpHead_skip (c : HttpContent) (b : Buffer) (h : c.recvStatu ≠ .recvHttpHead) :
    c.recvHttpHead b = ⟨c, b, .ok false⟩ := if_pos h

theorem recvHttpBody_skip (c : HttpContent) (b : Buffer) (h : c.recvStatu ≠ .recvHttpBody) :
    c.recvHttpBody b = ⟨c, b, .ok false⟩ := if_pos h

@[simp] theorem fail_recvStatu (c : HttpContent) (code : Int) :
    (c.fail code).recvStatu = .recvHttpErr := rfl

@[simp] theorem fail_resqStatu (c : HttpContent) (code : Int) : (c.fail code).resqStatu = code :=
  rfl

/-- The parser neither reads nor changes anything after an error or a finished request. -/
theorem readRequest_idle (c : HttpContent) (u : Bytes)
    (hc : c.recvStatu = .recvHttpErr ∨ c.recvStatu = .recvHttpOver) :
    c.readRequest u = ⟨c, u, none⟩ := by
  rcases hc with hc | hc <;> simp [readRequest, recvHttpRequest, hc, Call.read, Call.fault]

theorem readRequest_body (c : HttpContent) (u : Bytes) (hc : c.recvStatu = .recvHttpBody) :
    c.readRequest u =
      match c.request.bodySize with
      | .error f => ⟨c, u, some f⟩
      | .ok n =>
        if n = 0 then ⟨{ c with recvStatu := .recvHttpOver }, u, none⟩
        else
          let len := sizeSub n c.request.body.length
          if len ≤ u.length then
            ⟨{ c with request := { c.request with body := c.request.body ++ u.take len },
                      recvStatu := .recvHttpOver }, u.drop len, none⟩
          else ⟨{ c with request := { c.request with body := c.request.body ++ u } },
            [], none⟩ := by
  have h : c.recvHttpRequest (Buffer.ofBytes u) = c.recvHttpBody (Buffer.ofBytes u) := by
    simp [recvHttpRequest, hc]
  rw [readRequest, h, recvHttpBody_eq, if_neg (by simp [hc]), Buffer.unread_ofBytes]

/-- The header stage leads into the body stage; both are skipped when they are not due. -/
theorem readRequest_fallThrough (c : HttpContent) (b : Buffer) (hc : c.recvStatu ≠ .recvHttpLine) :
    ((c.recvHttpHead b).fallThrough recvHttpBody).read = c.readRequest b.unread := by
  rw [← recvHttpRequest_read]
  cases hs : c.recvStatu with
  | recvHttpLine => exact absurd hs hc
  | recvHttpHead => simp [recvHttpRequest, hs]
  | recvHttpBody =>
    rw [recvHttpHead_skip c b (by simp [hs]), Call.fallThrough_ok]
    simp [recvHttpRequest, hs]
  | recvHttpErr =>
    rw [recvHttpHead_skip c b (by simp [hs]), Call.fallThrough_ok,
      recvHttpBody_skip c b (by simp [hs])]
    simp [recvHttpRequest, hs, Call.read, Call.fault]
  | recvHttpOver =>
    rw [recvHttpHead_skip c b (by simp [hs]), Call.fallThrough_ok,
      recvHttpBody_skip c b (by simp [hs])]
    simp [recvHttpRequest, hs, Call.read, Call.fault]

/-- No line feed yet: the line waits, unless what is there is already too long. -/
theorem readRequest_wait (c : HttpContent) (u : Bytes) (hn : newline ∉ u)
    (hc : c.recvStatu = .recvHttpLine ∨ c.recvStatu = .recvHttpHead) :
    c.readRequest u = if u.length > maxLine then ⟨c.fail 414, u, none⟩ else ⟨c, u, none⟩ := by
  have hget := (Buffer.ofBytes u).getLineAndAdd_none (by simpa using hn)
  have hlen : (Buffer.ofBytes u).currentEnableReadSpaceSize = u.length := by
    rw [← Buffer.length_unread, Buffer.unread_ofBytes]
  rcases hc with hc | hc
  · have hline : c.recvHttpLine (Buffer.ofBytes u) =
        if u.length > maxLine then ⟨c.fail 414, Buffer.ofBytes u, .ok false⟩
        else ⟨c, Buffer.ofBytes u, .ok true⟩ := by
      simp [recvHttpLine, hc, hget, hlen]
    simp only [readRequest, recvHttpRequest, hc, hline]
    split <;> simp [Call.fallThrough, recvHttpHead, recvHttpBody, hc, Call.read, Call.fault]
  · have hhead : c.recvHttpHead (Buffer.ofBytes u) =
        if u.length > maxLine then ⟨c.fail 414, Buffer.ofBytes u, .ok false⟩
        else ⟨c, Buffer.ofBytes u, .ok true⟩ := by
      simp [recvHttpHead, recvHttpHeadLoop, hc, hget, hlen]
    simp only [readRequest, recvHttpRequest, hc, hhead]
    split <;> simp [Call.fallThrough, recvHttpBody, hc, Call.read, Call.fault]

/-- A complete request line. -/
theorem readRequest_line (c : HttpContent) (l rest : Bytes) (hl : newline ∉ l)
    (hc : c.recvStatu = .recvHttpLine) :
    c.readRequest (l ++ newline :: rest) =
      if l.length + 1 > maxLine then ⟨c.fail 414, rest, none⟩
      else
        match c.parseHttpLine (l ++ [newline]) with
        | (c', .ok _) => { c' with recvStatu := .recvHttpHead }.readRequest rest
        | (c', .error f) => ⟨c', rest, some f⟩ := by
  obtain ⟨b, he, hu⟩ :=
    (Buffer.ofBytes (l ++ newline :: rest)).getLineAndAdd_some l rest hl (by simp)
  simp only [readRequest, recvHttpRequest, hc, recvHttpLine, ne_eq, not_true_eq_false, if_false, he,
    List.length_append, List.length_singleton, Nat.add_eq_zero_iff, one_ne_zero, and_false]
  split
  · rw [Call.fallThrough_ok, readRequest_fallThrough _ _ (by simp),
      readRequest_idle _ _ (by simp), hu]
  · cases c.parseHttpLine (l ++ [newline]) with
    | mk c' ret =>
      cases ret with
      | error f => simp [Call.fallThrough, Call.read, Call.fault, hu]
      | ok ret =>
        simp only
        rw [Call.fallThrough_ok, readRequest_fallThrough _ _ (by simp), hu]
        rfl

/-- A header line without its line end. -/
def headerText (l : Bytes) : Bytes := if l.getLast? = some 13 then l.dropLast else l

/-- Name and value of a header line, split at the first `": "`. -/
def headerField (l : Bytes) : Option (Bytes × Bytes) :=
  (find (headerText l) (ascii ": ") 0).map
    (fun pos => ((headerText l).take pos, (headerText l).drop (pos + 2)))

/-- No string operation of the header parser is out of range on a line that is
not blank. -/
theorem parseHttpHead_eq (c : HttpContent) (l : Bytes) (hb : ¬blankLine (l ++ [newline])) :
    c.parseHttpHead (l ++ [newline]) =
      match headerField l with
      | none => (c.fail 400, .ok false)
      | some (key, value) => ({ c with request := c.request.setHeader key value }, .ok true) := by
  have hne : l ≠ [] := by rintro rfl; simp [blankLine] at hb
  have hpop : (popBackIf (l ++ [newline]) newline >>= fun line => popBackIf line 13) =
      .ok (headerText l) := by
    obtain ⟨init, last, rfl⟩ := (List.eq_nil_or_concat' l).resolve_left hne
    simp only [popBackIf, back, List.getLast?_append, List.getLast?_singleton, Option.some_or,
      List.dropLast_concat, headerText, Option.some.injEq]
    by_cases h13 : last = 13 <;> simp [h13, Bind.bind, Except.bind, Pure.pure, Except.pure]
  rw [parseHttpHead, hpop]
  simp only [headerField]
  cases hf : find (headerText l) (ascii ": ") 0 with
  | none => rfl
  | some pos =>
    have hle : pos + 2 ≤ (headerText l).length := find_le _ _ _ hf
    have h1 : substr (headerText l) 0 pos = .ok ((headerText l).take pos) := by simp [substr]
    have h2 : substrFrom (headerText l) (pos + 2) = .ok ((headerText l).drop (pos + 2)) := by
      simp only [substrFrom, substr, if_pos hle]
      rw [List.take_of_length_le (by simp)]
    simp [h1, h2]

/-- A complete header line: too long, the empty line, a header, or not a header. -/
theorem readRequest_head (c : HttpContent) (l rest : Bytes) (hl : newline ∉ l)
    (hc : c.recvStatu = .recvHttpHead) :
    c.readRequest (l ++ newline :: rest) =
      if l.length + 1 > maxLine then ⟨c.fail 414, rest, none⟩
      else if blankLine (l ++ [newline]) then { c with recvStatu := .recvHttpBody }.readRequest rest
      else
        match headerField l with
        | none => ⟨c.fail 400, rest, none⟩
        | some (key, value) =>
          { c with request := c.request.setHeader key value }.readRequest rest := by
  obtain ⟨b, he, hu⟩ :=
    (Buffer.ofBytes (l ++ newline :: rest)).getLineAndAdd_some l rest hl (by simp)
  simp only [readRequest, recvHttpRequest, hc, recvHttpHead, ne_eq, not_true_eq_false, if_false]
  rw [recvHttpHeadLoop]
  simp only [he, List.length_append, List.length_singleton, Nat.add_eq_zero_iff, one_ne_zero,
    and_false, if_false]
  split
  · rw [Call.fallThrough_ok, recvHttpBody_skip _ _ (by simp)]
    simp [Call.read, Call.fault, hu]
  · split
    · rw [Call.fallThrough_ok, recvHttpBody_congr _ _ (Buffer.ofBytes rest) (by simp [hu])]
    · rename_i hb
      rw [parseHttpHead_eq c l hb]
      cases headerField l with
      | none =>
        simp only [Call.fallThrough_ok]
        rw [recvHttpBody_skip _ _ (by simp)]
        simp [Call.read, Call.fault, hu]
      | some kv =>
        simp only
        rw [← hc]
        apply Call.read_fallThrough_congr _ _ recvHttpBody_congr
        apply recvHttpHeadLoop_congr _ _ _ _ _ (by simp [hu])
        · simp only [← Buffer.length_unread, Buffer.unread_ofBytes, hu, List.length_append,
            List.length_cons]
          omega
        · simp only [← Buffer.length_unread, Buffer.unread_ofBytes, hu]
          omega

end HttpContent
end MuduoServer
