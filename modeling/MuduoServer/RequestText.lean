import MuduoServer.BodyFraming

/-!
# The text of a request

A request written in its parts: the request line, the header lines, the empty line and the body. A
new parser that gets all of the text, whatever follows, finishes the request and takes no more; one
that gets less waits, and what it leaves unread is the part of a line.
-/
namespace MuduoServer

open StdString HttpContent

theorem isLine_iff (line : Bytes) :
    IsLine line ↔ newline ∉ line.dropLast ∧ line.getLast? = some newline := by
  constructor
  · rintro ⟨l, hl, rfl⟩
    rw [List.dropLast_concat, List.getLast?_concat]
    exact ⟨hl, rfl⟩
  · rintro ⟨hl, hlast⟩
    exact ⟨line.dropLast, hl, (List.dropLast_append_getLast? _ hlast).symm⟩

instance (line : Bytes) : Decidable (IsLine line) := decidable_of_iff' _ (isLine_iff line)

instance (line : Bytes) : Decidable (IsHeader line) :=
  decidable_of_iff (IsLine line ∧ ¬blankLine line ∧ (headerField line.dropLast).isSome)
    ⟨fun ⟨h₁, h₂, h₃⟩ => ⟨h₁, h₂, h₃⟩, fun h => ⟨h.1, h.2, h.3⟩⟩

/-- A request in the parts that the parser reads. -/
structure RequestText where
  /-- The request line, the header lines and the empty line, each with its line feed. -/
  line : Bytes
  headers : List Bytes
  blank : Bytes
  body : Bytes

namespace RequestText

def text (r : RequestText) : Bytes := r.line ++ r.headers.flatten ++ r.blank ++ r.body

/-- What the parser makes of it. -/
def parsed (r : RequestText) : HttpRequest :=
  { r.headers.foldl HttpRequest.addHeader (HttpContent.fresh.parseHttpLine r.line).1.request with body := r.body }

/-- A request that the parser takes in full. -/
structure Readable (r : RequestText) : Prop where
  line : IsLine r.line
  lineOk : RequestLineOk r.line
  headers : ∀ h ∈ r.headers, IsHeader h
  short : ∀ h ∈ r.line :: r.headers, h.length ≤ maxLine
  blank : blankLine r.blank
  body : r.parsed.bodySize = .ok r.body.length

instance (r : RequestText) : Decidable r.Readable :=
  decidable_of_iff
    (IsLine r.line ∧ RequestLineOk r.line ∧ (∀ h ∈ r.headers, IsHeader h) ∧
      (∀ h ∈ r.line :: r.headers, h.length ≤ maxLine) ∧
      blankLine r.blank ∧ r.parsed.bodySize = .ok r.body.length)
    ⟨fun ⟨h₁, h₂, h₃, h₄, h₅, h₆⟩ => ⟨h₁, h₂, h₃, h₄, h₅, h₆⟩,
      fun h => ⟨h.1, h.2, h.3, h.4, h.5, h.6⟩⟩

end RequestText

/-! ## Reading a request -/

namespace HttpContent

theorem blankLine_eq {line : Bytes} (h : blankLine line = true) :
    line = [newline] ∨ line = [13, newline] := by
  simpa [blankLine] using h

/-- One header line and whatever follows. -/
theorem readRequest_header (c : HttpContent) {h : Bytes} (rest : Bytes)
    (hc : c.recvStatu = .recvHttpHead) (hheader : IsHeader h) (hlen : h.length ≤ maxLine) :
    c.readRequest (h ++ rest) = { c with request := c.request.addHeader h }.readRequest rest := by
  obtain ⟨⟨l, hl, rfl⟩, hnot, hfield⟩ := hheader
  obtain ⟨⟨key, value⟩, hkv⟩ := Option.isSome_iff_exists.mp hfield
  have hadd : c.request.addHeader (l ++ [newline]) = c.request.setHeader key value := by
    rw [HttpRequest.addHeader, hkv]
  rw [List.length_append, List.length_singleton] at hlen
  rw [List.dropLast_concat] at hkv
  have hread := readRequest_head c l rest hl hc
  rw [if_neg (Nat.not_lt.mpr hlen), if_neg hnot, hkv] at hread
  rw [List.append_assoc, List.singleton_append, hread, hadd]

theorem isLine_blank {blank : Bytes} (h : blankLine blank = true) :
    IsLine blank ∧ blank.length ≤ maxLine := by
  rcases blankLine_eq h with rfl | rfl
  · exact ⟨⟨[], by decide, rfl⟩, by decide⟩
  · exact ⟨⟨[13], by decide, rfl⟩, by decide⟩

/-- The header lines, the empty line and whatever follows. -/
theorem readRequest_section (c : HttpContent) {hs : List Bytes} {blank : Bytes} (rest : Bytes)
    (hc : c.recvStatu = .recvHttpHead) (hhs : ∀ h ∈ hs, IsHeader h ∧ h.length ≤ maxLine) (hblank : blankLine blank) :
    c.readRequest (hs.flatten ++ blank ++ rest) =
      { c with recvStatu := .recvHttpBody, request := hs.foldl HttpRequest.addHeader c.request }.readRequest rest := by
  induction hs generalizing c with
  | nil =>
    obtain ⟨⟨l, hl, rfl⟩, hlen⟩ := isLine_blank hblank
    rw [List.length_append, List.length_singleton] at hlen
    have hread := readRequest_head c l rest hl hc
    rw [if_neg (Nat.not_lt.mpr hlen), if_pos hblank] at hread
    rw [List.flatten_nil, List.nil_append, List.append_assoc, List.singleton_append, hread]
    rfl
  | cons h hs ih =>
    obtain ⟨hheader, hlen⟩ := hhs h List.mem_cons_self
    rw [List.flatten_cons, List.append_assoc, List.append_assoc,
      readRequest_header c _ hc hheader hlen,
      ← List.append_assoc, List.foldl_cons]
    exact ih { c with request := c.request.addHeader h } hc fun h hh =>
      hhs h (List.mem_cons_of_mem _ hh)

theorem body_foldl (hs : List Bytes) (r : HttpRequest) :
    (hs.foldl HttpRequest.addHeader r).body = r.body := by
  induction hs generalizing r with
  | nil => rfl
  | cons h hs ih =>
    rw [List.foldl_cons, ih]
    unfold HttpRequest.addHeader
    split <;> rfl

/-- How many of the first `n` bytes belong to an unfinished line, given the lengths of the lines. -/
def unfinished : List Nat → Nat → Nat
  | [], _ => 0
  | k :: ks, n => if n < k then n else unfinished ks (n - k)

/-- The body stage waits for the rest of the body and has nothing left to read. -/
theorem step_bodyPrefix {c : HttpContent} {body u : Bytes} (hc : c.recvStatu = .recvHttpBody)
    (hst : c.resqStatu < 400) (hb : c.request.body = [])
    (hsize : c.request.bodySize = .ok body.length) (hu : u.length < body.length) :
    ∃ c', httpParser.step c u = .more c' [] := by
  have hsub : sizeSub body.length c.request.body.length = body.length := by
    rw [hb]
    exact sizeSub_eq (bodySize_lt hsize) (Nat.zero_le _)
  have hne : body.length ≠ 0 := by omega
  rw [step_body c u hc hst, hsize]
  dsimp only
  rw [hsub, if_neg hne, if_neg (Nat.not_le.mpr hu)]
  exact ⟨_, rfl⟩

/-- A part of a line waits for the rest. -/
theorem step_linePrefix {c : HttpContent} {line : Bytes} {n : Nat}
    (hc : c.recvStatu = .recvHttpLine ∨ c.recvStatu = .recvHttpHead) (hst : c.resqStatu < 400)
    (hline : IsLine line) (hlen : line.length ≤ maxLine) (hn : n < line.length) :
    httpParser.step c (line.take n) = .more c (line.take n) := by
  obtain ⟨l, hl, rfl⟩ := hline
  rw [List.length_append, List.length_singleton] at hn hlen
  have htake : (l ++ [newline]).take n = l.take n := List.take_append_of_le_length (by omega)
  have hnl : newline ∉ l.take n := fun hmem => hl (List.mem_of_mem_take hmem)
  have hshort : ¬(l.take n).length > maxLine := by
    rw [List.length_take]
    omega
  have hover : c.recvStatu ≠ .recvHttpOver := by rcases hc with hc | hc <;> rw [hc] <;> decide
  have hok : ¬(False ∨ 400 ≤ c.resqStatu) := by simpa using hst
  rw [htake]
  simp only [httpParser, readRequest_wait c _ hnl hc, if_neg hshort, Read.step, Option.isSome_none,
    Bool.false_eq_true, if_neg hok,
    if_neg hover]

/-- The header stage on a part of what is still to come of a request. -/
theorem step_sectionPrefix (c : HttpContent) {hs : List Bytes} {blank body : Bytes} {n : Nat}
    (hc : c.recvStatu = .recvHttpHead) (hst : c.resqStatu < 400)
    (hhs : ∀ h ∈ hs, IsHeader h ∧ h.length ≤ maxLine) (hblank : blankLine blank)
    (hb : c.request.body = []) (hsize : (hs.foldl HttpRequest.addHeader c.request).bodySize =
      .ok body.length) (hn : n < (hs.flatten ++ blank ++ body).length) :
    ∃ c' r', httpParser.step c ((hs.flatten ++ blank ++ body).take n) = .more c' r' ∧
      r'.length = unfinished (hs.map List.length ++ [blank.length]) n := by
  induction hs generalizing c n with
  | nil =>
    rw [List.flatten_nil, List.nil_append] at hn ⊢
    rw [List.length_append] at hn
    obtain ⟨hline, hlen⟩ := isLine_blank hblank
    by_cases hshort : n < blank.length
    · refine ⟨c, blank.take n, ?_, ?_⟩
      · rw [List.take_append_of_le_length (Nat.le_of_lt hshort)]
        exact step_linePrefix (.inr hc) hst hline hlen hshort
      · rw [List.length_take, Nat.min_eq_left (Nat.le_of_lt hshort)]
        exact (if_pos hshort).symm
    · have hread := readRequest_section c (body.take (n - blank.length)) hc hhs hblank
      rw [List.flatten_nil, List.nil_append] at hread
      obtain ⟨c', hc'⟩ := step_bodyPrefix (c := { c with recvStatu := .recvHttpBody })
        (u := body.take (n - blank.length)) rfl
        hst hb hsize (by rw [List.length_take]; omega)
      refine ⟨c', [], ?_, ?_⟩
      · rw [List.take_append, List.take_of_length_le (by omega)]
        exact (congrArg Read.step hread).trans hc'
      · exact (if_neg hshort).symm
  | cons h hs ih =>
    obtain ⟨hheader, hlen⟩ := hhs h List.mem_cons_self
    rw [List.flatten_cons, List.append_assoc, List.append_assoc, ← List.append_assoc hs.flatten]
      at hn ⊢
    rw [List.length_append] at hn
    by_cases hshort : n < h.length
    · refine ⟨c, h.take n, ?_, ?_⟩
      · rw [List.take_append_of_le_length (Nat.le_of_lt hshort)]
        exact step_linePrefix (.inr hc) hst hheader.isLine hlen hshort
      · rw [List.length_take, Nat.min_eq_left (Nat.le_of_lt hshort)]
        exact (if_pos hshort).symm
    · have htake : (h ++ (hs.flatten ++ blank ++ body)).take n =
          h ++ (hs.flatten ++ blank ++ body).take (n - h.length) := by
        rw [List.take_append, List.take_of_length_le (Nat.not_lt.mp hshort)]
      obtain ⟨c', r', hstep, hrest⟩ :=
        ih { c with request := c.request.addHeader h } (n := n - h.length) hc hst
        (fun h hh => hhs h (List.mem_cons_of_mem _ hh)) ((body_foldl [h] c.request).trans hb) hsize
          (by omega)
      refine ⟨c', r', ?_, ?_⟩
      · rw [htake]
        exact (congrArg Read.step (readRequest_header c _ hc hheader hlen)).trans hstep
      · rw [hrest]
        exact (if_neg hshort).symm

/-- The header stage on all that is still to come of a request. -/
theorem step_section (c : HttpContent) {hs : List Bytes} {blank body : Bytes} (rest : Bytes)
    (hc : c.recvStatu = .recvHttpHead) (hst : c.resqStatu < 400)
    (hhs : ∀ h ∈ hs, IsHeader h ∧ h.length ≤ maxLine) (hblank : blankLine blank)
    (hb : c.request.body = []) (hsize : (hs.foldl HttpRequest.addHeader c.request).bodySize = .ok body.length) :
    httpParser.step c (hs.flatten ++ blank ++ body ++ rest) =
      .done { hs.foldl HttpRequest.addHeader c.request with body := body } rest := by
  have hbody : (hs.foldl HttpRequest.addHeader c.request).body = [] := (body_foldl hs c.request).trans hb
  have hread := readRequest_section c (body ++ rest) hc hhs hblank
  rw [← List.append_assoc] at hread
  have hstep := step_body { c with recvStatu := .recvHttpBody, request := hs.foldl HttpRequest.addHeader c.request }
    (body ++ rest) rfl hst
  refine (congrArg Read.step hread).trans (hstep.trans ?_)
  have hsub : sizeSub body.length
      (hs.foldl HttpRequest.addHeader c.request).body.length = body.length := by
    rw [hbody]
    exact sizeSub_eq (bodySize_lt hsize) (Nat.zero_le _)
  rw [hsize]
  dsimp only
  rw [hsub, hbody, List.nil_append, List.take_left, List.drop_left]
  by_cases hz : body.length = 0
  · obtain rfl := List.eq_nil_of_length_eq_zero hz
    rw [if_pos hz, List.nil_append, ← hbody]
  · rw [if_neg hz, if_pos (by rw [List.length_append]; exact Nat.le_add_right _ _)]

/-- The parser after the request line. -/
def afterLine (line : Bytes) : HttpContent :=
  ⟨200, .recvHttpHead, (fresh.parseHttpLine line).1.request⟩

theorem afterLine_resqStatu (line : Bytes) : (afterLine line).resqStatu < 400 :=
  show (200 : Int) < 400 by decide

theorem step_line {line : Bytes} (rest : Bytes) (hline : IsLine line) (hok : RequestLineOk line)
    (hlen : line.length ≤ maxLine) :
    httpParser.step fresh (line ++ rest) = httpParser.step (afterLine line) rest := by
  obtain ⟨l, hl, rfl⟩ := hline
  rw [List.length_append, List.length_singleton] at hlen
  rcases parseHttpLine_cases fresh (l ++ [newline]) with ⟨c', hp, hst, -, -⟩ | ⟨c', -, -, -, hnot⟩
  · have hread := readRequest_line fresh l rest hl rfl
    rw [if_neg (Nat.not_lt.mpr hlen), hp] at hread
    have hafter : { c' with recvStatu := HttpRecvStatu.recvHttpHead } =
        afterLine (l ++ [newline]) := by
      rw [afterLine, hp]
      simp only [hst]
      rfl
    rw [List.append_assoc, List.singleton_append]
    exact congrArg Read.step (hread.trans (congrArg (readRequest · rest) hafter))
  · exact absurd hok hnot

end HttpContent

namespace RequestText

variable {r : RequestText}

/-- The lengths of the lines. -/
def lineLengths (r : RequestText) : List Nat := (r.line :: r.headers ++ [r.blank]).map List.length

theorem Readable.sectionLines (hread : r.Readable) :
    ∀ h ∈ r.headers, IsHeader h ∧ h.length ≤ maxLine :=
  fun h hh => ⟨hread.headers h hh, hread.short h (List.mem_cons_of_mem _ hh)⟩

theorem body_afterLine (line : Bytes) : (afterLine line).request.body = [] :=
  parseHttpLine_body fresh line

theorem step_text (hread : r.Readable) (rest : Bytes) :
    httpParser.step fresh (r.text ++ rest) = .done r.parsed rest := by
  have hlines : r.text ++ rest = r.line ++ (r.headers.flatten ++ r.blank ++ r.body ++ rest) := by
    simp only [text, List.append_assoc]
  rw [hlines, step_line _ hread.line hread.lineOk (hread.short _ List.mem_cons_self)]
  exact step_section _ rest rfl (afterLine_resqStatu _) hread.sectionLines hread.blank
    (body_afterLine _) hread.body

theorem step_textPrefix (hread : r.Readable) {n : Nat} (hn : n < r.text.length) :
    ∃ c' t, httpParser.step fresh (r.text.take n) = .more c' t ∧
    t.length = unfinished r.lineLengths n := by
  have hshort := hread.short _ List.mem_cons_self
  have hlines : r.text = r.line ++ (r.headers.flatten ++ r.blank ++ r.body) := by
    simp only [text, List.append_assoc]
  rw [hlines, List.length_append] at hn
  by_cases hline : n < r.line.length
  · refine ⟨fresh, r.line.take n, ?_, ?_⟩
    · rw [hlines, List.take_append_of_le_length (Nat.le_of_lt hline)]
      exact step_linePrefix (.inl rfl) (by decide) hread.line hshort hline
    · rw [List.length_take, Nat.min_eq_left (Nat.le_of_lt hline)]
      exact (if_pos hline).symm
  · obtain ⟨c', t, hstep, ht⟩ := step_sectionPrefix (afterLine r.line) (n := n - r.line.length) rfl
      (afterLine_resqStatu _) hread.sectionLines hread.blank
        (body_afterLine _) hread.body (by omega)
    refine ⟨c', t, ?_, ?_⟩
    · rw [hlines, List.take_append, List.take_of_length_le (Nat.not_lt.mp hline),
        step_line _ hread.line hread.lineOk hshort]
      exact hstep
    · rw [ht, lineLengths, List.cons_append, List.map_cons, List.map_append]
      exact (if_neg hline).symm

def stream (rs : List RequestText) : Bytes := (rs.map text).flatten

theorem Readable.append_ne_nil (hread : r.Readable) (rest : Bytes) : r.text ++ rest ≠ [] := by
  obtain ⟨l, -, hline⟩ := hread.line
  simp [text, hline]

/-- The parser's loop on all of a stream. -/
theorem drains_stream {rs : List RequestText} (hread : ∀ r ∈ rs, r.Readable) :
    Resumable.Drains httpParser fresh (stream rs) (rs.map parsed) (some (fresh, [])) := by
  induction rs with
  | nil => exact .idle fresh
  | cons r rs ih =>
    have hr := hread r List.mem_cons_self
    exact .done (hr.append_ne_nil _) (step_text hr _)
      (ih fun r hr => hread r (List.mem_cons_of_mem _ hr))

end RequestText
end MuduoServer
