import MuduoServer.RecvLoop
import MuduoServer.RequestLine
import MuduoServer.RequestText

/-!
# Requests survive the wire

A client writes requests one after the other; the parser, `Reset` after each
request, reads back the same requests and nothing else: what the client writes is a
text that the parser takes in full, and each part of it reads as what was written.
-/
namespace MuduoServer

open StdString Uitl HttpContent

/-! ## What a client writes -/

def paramText (kv : Bytes × Bytes) : Bytes := urlEnCode kv.1 true ++ 61 :: urlEnCode kv.2 true

def query (params : List (Bytes × Bytes)) : Option Bytes :=
  if params = [] then none else some ([38].intercalate (params.map paramText))

def lineEnd : Bytes := [13, newline]

def requestLineText (method path : Bytes) (params : List (Bytes × Bytes)) : Bytes :=
  method ++ ascii " " ++ urlEnCode path false ++ queryText (query params) ++ ascii " " ++
    ascii "HTTP/1.1" ++ lineEnd

def headerLine (kv : Bytes × Bytes) : Bytes := kv.1 ++ ascii ": " ++ kv.2 ++ lineEnd

/-- A request in the form a client holds it, its bytes not yet encoded. -/
structure ClientRequest where
  method : Bytes
  path : Bytes
  params : List (Bytes × Bytes)
  headers : List (Bytes × Bytes)
  body : Bytes
  method_mem : method ∈ methods
  path_ne_nil : path ≠ []
  params_nodup : (params.map Prod.fst).Nodup
  headers_nodup : (headers.map Prod.fst).Nodup
  name_clean : ∀ kv ∈ headers, 58 ∉ kv.1 ∧ 13 ∉ kv.1 ∧ newline ∉ kv.1
  value_clean : ∀ kv ∈ headers, 13 ∉ kv.2 ∧ newline ∉ kv.2
  keepAlive : (ascii "Connection", ascii "keep-alive") ∈ headers
  contentLength : (ascii "Content-Length", numeral body.length) ∈ headers
  /-- No `std::string` is longer. -/
  body_length : (body.length : Int) ≤ longMax
  requestLine_length : (requestLineText method path params).length ≤ maxLine
  headerLine_length : ∀ kv ∈ headers, (headerLine kv).length ≤ maxLine

def ClientRequest.serialise (r : ClientRequest) : Bytes :=
  requestLineText r.method r.path r.params ++ r.headers.flatMap headerLine ++ lineEnd ++ r.body

/-- The parsed request holds what the client wrote, and no more. -/
structure Carries (r : ClientRequest) (o : HttpRequest) : Prop where
  method : o.method = r.method
  path : o.path = r.path
  version : o.version = ascii "HTTP/1.1"
  params : ∀ key val, o.params.lookup key = some val ↔ (key, val) ∈ r.params
  headers : ∀ key val, o.headers.lookup key = some val ↔ (key, val) ∈ r.headers
  body : o.body = r.body
  matched : o.matched = []

/-! ## The request line -/

/-- The bytes percent coding writes. -/
def isPlain (c : UInt8) : Bool :=
  isAlnum c || c == 45 || c == 95 || c == 126 || c == 46 || c == 37 || c == 43

/-- None of them is a blank, a line end or a separator. -/
theorem isPlain_clean : ∀ c : UInt8, isPlain c →
    nonSpace c ∧ c ≠ 63 ∧ c ≠ 38 ∧ c ≠ 61 ∧ c ≠ newline := by
  decide +kernel

theorem hexDigit_isPlain : ∀ e : UInt8, isPlain (hexDigit (e / 16)) ∧
    isPlain (hexDigit (e % 16)) := by
  decide +kernel

theorem urlEnCode_isPlain (s : Bytes) (b : Bool) : ∀ c ∈ urlEnCode s b, isPlain c := by
  intro c hc
  obtain ⟨e, _, hc⟩ := List.mem_flatMap.mp hc
  unfold urlEnCodeByte at hc
  split at hc
  · rename_i he
    obtain rfl : c = e := by simpa using hc
    simp only [isPlain, Bool.or_eq_true, beq_iff_eq]
    tauto
  · split at hc
    · obtain rfl : c = 43 := by simpa using hc
      rfl
    · simp only [List.mem_cons, List.not_mem_nil, or_false] at hc
      rcases hc with rfl | rfl | rfl
      · rfl
      · exact (hexDigit_isPlain e).1
      · exact (hexDigit_isPlain e).2

theorem urlEnCode_plain (s : Bytes) (b : Bool) : ∀ c ∈ urlEnCode s b,
    nonSpace c ∧ c ≠ 63 ∧ c ≠ 38 ∧ c ≠ 61 ∧ c ≠ newline :=
  fun c hc => isPlain_clean c (urlEnCode_isPlain s b c hc)

theorem urlEnCode_ne_nil {s : Bytes} (b : Bool) (h : s ≠ []) : urlEnCode s b ≠ [] := by
  intro he
  have hd := urlDecode_encoded s b
  rw [he, urlDecode] at hd
  exact h hd.symm

theorem paramText_plain (kv : Bytes × Bytes) :
    ∀ c ∈ paramText kv, nonSpace c ∧ c ≠ 38 ∧ c ≠ newline := by
  intro c hc
  simp only [paramText, List.mem_append, List.mem_cons] at hc
  rcases hc with hc | rfl | hc
  · obtain ⟨h1, _, h2, _, h3⟩ := urlEnCode_plain _ _ c hc
    exact ⟨h1, h2, h3⟩
  · decide
  · obtain ⟨h1, _, h2, _, h3⟩ := urlEnCode_plain _ _ c hc
    exact ⟨h1, h2, h3⟩

theorem query_plain (params : List (Bytes × Bytes)) :
    ∀ c ∈ (query params).getD [], nonSpace c ∧ c ≠ newline := by
  have hinter : ∀ ps : List (Bytes × Bytes), ∀ c ∈ [38].intercalate (ps.map paramText),
      nonSpace c ∧ c ≠ newline := by
    intro ps
    induction ps with
    | nil => simp
    | cons kv ps ih =>
      intro c hc
      cases ps with
      | nil =>
        simp only [List.map_cons, List.map_nil, List.intercalate_singleton] at hc
        exact ⟨(paramText_plain kv c hc).1, (paramText_plain kv c hc).2.2⟩
      | cons kv' ps =>
        simp only [List.map_cons, List.intercalate_cons_cons, List.mem_append, List.mem_singleton]
          at hc ih
        rcases hc with (hc | rfl) | hc
        · exact ⟨(paramText_plain kv c hc).1, (paramText_plain kv c hc).2.2⟩
        · decide
        · exact ih c hc
  intro c hc
  unfold query at hc
  split at hc
  · simp at hc
  · exact hinter params c hc

/-- Splitting the query at `&` gives the pieces back. -/
theorem pieces_query (params : List (Bytes × Bytes)) :
    pieces 38 ((query params).getD []) = params.map paramText := by
  unfold query
  split
  · rename_i h; subst h; rfl
  · rename_i h
    have hamp : ∀ l ∈ params.map paramText, (38 : UInt8) ∉ l := by
      intro l hl hmem
      obtain ⟨kv, _, rfl⟩ := List.mem_map.mp hl
      exact (paramText_plain kv 38 hmem).2.1 rfl
    have hne : ∀ l ∈ params.map paramText, l ≠ [] := by
      intro l hl
      obtain ⟨kv, _, rfl⟩ := List.mem_map.mp hl
      simp [paramText]
    rw [Option.getD_some, pieces, List.splitOn_intercalate 38 hamp (by simpa using h)]
    exact List.filter_eq_self.mpr (by simpa using hne)

/-- The query loop reads the parameters in order. -/
theorem parseQuery_params (c : HttpContent) (params : List (Bytes × Bytes)) :
    c.parseQuery (params.map paramText) =
      ({ c with request := { c.request with params := insertAll c.request.params params } },
        .ok true) := by
  induction params generalizing c with
  | nil => rfl
  | cons kv params ih =>
    have hkey : 61 ∉ urlEnCode kv.1 true := fun hmem => (urlEnCode_plain _ _ 61 hmem).2.2.2.1 rfl
    have hsplit : paramText kv = urlEnCode kv.1 true ++ 61 :: urlEnCode kv.2 true := rfl
    rw [List.map_cons, hsplit, HttpContent.parseQuery_cons c _ hkey, urlDecode_encoded,
      urlDecode_encoded, ih]
    rfl

theorem parseHttpLine_requestLineText (c : HttpContent) (r : ClientRequest) :
    c.parseHttpLine (requestLineText r.method r.path r.params) =
      ({ c with request := { c.request with
          version := ascii "HTTP/1.1", method := r.method, path := r.path,
          params := insertAll c.request.params r.params } }, .ok true) := by
  have hupper : r.method.map toUpper = r.method := by
    have hall : ∀ m ∈ methods, m.map toUpper = m := by decide +kernel
    exact hall r.method r.method_mem
  have hblank : ascii " " ≠ [] ∧ ∀ c ∈ ascii " ", isSpace c := by decide +kernel
  have htarget : ∀ c ∈ urlEnCode r.path false, nonSpace c :=
    fun c hc => (urlEnCode_plain _ _ c hc).1
  have hmark : 63 ∉ (urlEnCode r.path false).tail :=
    fun hmem => (urlEnCode_plain _ _ 63 (List.mem_of_mem_tail hmem)).2.1 rfl
  have hversion : (ascii "HTTP/1.1").map toUpper ∈ versions := by decide +kernel
  have hmethod : r.method.map toUpper ∈ methods := hupper.symm ▸ r.method_mem
  have hend : lineEnd ∈ lineEnds := by decide +kernel
  have heq := HttpContent.parseHttpLine_eq c (query r.params) hmethod hblank
    ⟨urlEnCode_ne_nil false r.path_ne_nil, htarget⟩ hmark
      (fun c hc => (query_plain _ c hc).1) hblank
    hversion hend
  simp only [requestLineText, List.append_assoc]
  rw [heq, pieces_query, urlDecode_encoded, parseQuery_params, hupper]

/-! ## Headers and body -/

theorem headerField_headerLine (kv : Bytes × Bytes) (hname : 58 ∉ kv.1) :
    headerField (kv.1 ++ ascii ": " ++ kv.2 ++ [13]) = some kv := by
  have htext : headerText (kv.1 ++ ascii ": " ++ kv.2 ++ [13]) = kv.1 ++ ascii ": " ++ kv.2 := by
    simp [headerText]
  have hfind : find (kv.1 ++ ascii ": " ++ kv.2) (ascii ": ") 0 = some (0 + kv.1.length) :=
    find_eq _ 58 [32] 0 _ kv.2 (by simp [ascii]) hname
  rw [headerField, htext, hfind, Nat.zero_add, Option.map_some, List.append_assoc, List.take_left,
    ← List.append_assoc, List.drop_left' (by simp [ascii])]

theorem addHeader_headerLine (o : HttpRequest) {kv : Bytes × Bytes} (hname : 58 ∉ kv.1) :
    o.addHeader (headerLine kv) = o.setHeader kv.1 kv.2 := by
  have hdrop : (headerLine kv).dropLast = kv.1 ++ ascii ": " ++ kv.2 ++ [13] := by
    rw [headerLine, lineEnd, List.dropLast_append_cons]
    rfl
  rw [HttpRequest.addHeader, hdrop, headerField_headerLine kv hname]

/-- A header line of a client is one to the parser. -/
theorem isHeader_headerLine {kv : Bytes × Bytes} (hname : 58 ∉ kv.1 ∧ 13 ∉ kv.1 ∧ newline ∉ kv.1)
    (hvalue : 13 ∉ kv.2 ∧ newline ∉ kv.2) : IsHeader (headerLine kv) := by
  have htext : headerLine kv = kv.1 ++ ascii ": " ++ kv.2 ++ [13] ++ [newline] := by
    simp [headerLine, lineEnd]
  rw [htext]
  refine ⟨⟨_, ?_, rfl⟩, ?_, ?_⟩
  · simp only [List.mem_append, not_or]
    exact ⟨⟨⟨hname.2.2, by decide⟩, hvalue.2⟩, by decide⟩
  · have hlong : 3 ≤ (kv.1 ++ ascii ": " ++ kv.2 ++ [13] ++ [newline]).length := by
      simp only [ascii, List.length_append, List.length_map, List.length_cons, List.length_nil,
        show (": ".toList).length = 2 from rfl]
      omega
    simp only [blankLine, Bool.or_eq_true, decide_eq_true_eq, not_or]
    constructor <;> (intro he; rw [he] at hlong; simp at hlong)
  · rw [List.dropLast_concat, headerField_headerLine kv hname.1]
    rfl

theorem foldl_headerLine (hs : List (Bytes × Bytes)) (o : HttpRequest)
    (hname : ∀ kv ∈ hs, 58 ∉ kv.1) :
    (hs.map headerLine).foldl HttpRequest.addHeader o =
    { o with headers := insertAll o.headers hs } := by
  induction hs generalizing o with
  | nil => rfl
  | cons kv hs ih =>
    rw [List.map_cons, List.foldl_cons, addHeader_headerLine o (hname kv List.mem_cons_self),
      ih _ fun kv h => hname kv (List.mem_cons_of_mem _ h)]
    rfl

theorem lookup_insertAll_empty (kvs : List (Bytes × Bytes)) (hd : (kvs.map Prod.fst).Nodup)
    (key val : Bytes) : (insertAll ∅ kvs).lookup key = some val ↔ (key, val) ∈ kvs := by
  rw [lookup_insertAll ∅ kvs hd (fun kv _ => AList.notMem_empty kv.1), AList.lookup_empty]
  simp

/-- What the parser holds after the request of `r`. -/
def ClientRequest.received (r : ClientRequest) : HttpRequest :=
  ⟨r.method, r.path, ascii "HTTP/1.1", r.body, [], insertAll ∅ r.headers, insertAll ∅ r.params⟩

theorem ClientRequest.carries_received (r : ClientRequest) : Carries r r.received where
  method := rfl
  path := rfl
  version := rfl
  params := lookup_insertAll_empty r.params r.params_nodup
  headers := lookup_insertAll_empty r.headers r.headers_nodup
  body := rfl
  matched := rfl

theorem ClientRequest.bodySize_eq (r : ClientRequest) (o : HttpRequest)
    (h : o.headers = insertAll ∅ r.headers) : o.bodySize = .ok r.body.length := by
  have hl : o.headers.lookup (ascii "Content-Length") = some (numeral r.body.length) := by
    rw [h, lookup_insertAll_empty r.headers r.headers_nodup]
    exact r.contentLength
  have hmem : ascii "Content-Length" ∈ o.headers := by simp [← AList.lookup_isSome, hl]
  rw [HttpRequest.bodySize, if_pos (by simpa [HttpRequest.hasHeader] using hmem),
    HttpRequest.getHeader, hl]
  exact stol_numeral r.body_length

/-- The request line without its line feed, which occurs nowhere in it. -/
theorem requestLineText_eq (r : ClientRequest) : ∃ l, newline ∉ l ∧
    requestLineText r.method r.path r.params = l ++ [newline] := by
  refine ⟨r.method ++ ascii " " ++ urlEnCode r.path false ++ queryText (query r.params) ++ ascii " " ++
    ascii "HTTP/1.1" ++ [13], ?_, by simp [requestLineText, lineEnd]⟩
  have hmethod : newline ∉ r.method := by
    have hall : ∀ m ∈ methods, newline ∉ m := by decide +kernel
    exact hall r.method r.method_mem
  have hpath : newline ∉ urlEnCode r.path false := fun h => (urlEnCode_plain _ _ _ h).2.2.2.2 rfl
  have hquery : newline ∉ queryText (query r.params) := by
    have hplain := query_plain r.params
    cases hq : query r.params with
    | none => simp [queryText]
    | some q =>
      rw [hq] at hplain
      have hq' : newline ∉ q := fun h => (hplain newline h).2 rfl
      have hne : newline ≠ 63 := by decide
      simp [queryText, hq', hne]
  simp only [List.mem_append, not_or]
  exact ⟨⟨⟨⟨⟨⟨hmethod, by decide⟩, hpath⟩, hquery⟩, by decide⟩, by decide⟩, by decide⟩

/-! ## Reading it back -/

/-- The request in the parts that the parser reads. -/
def ClientRequest.toText (r : ClientRequest) : RequestText :=
  ⟨requestLineText r.method r.path r.params, r.headers.map headerLine, lineEnd, r.body⟩

theorem ClientRequest.text_toText (r : ClientRequest) : r.toText.text = r.serialise := rfl

theorem ClientRequest.parsed_toText (r : ClientRequest) : r.toText.parsed = r.received := by
  have hparse := parseHttpLine_requestLineText fresh r
  simp only [RequestText.parsed, toText, hparse]
  rw [foldl_headerLine _ _ fun kv h => (r.name_clean kv h).1]
  rfl

theorem ClientRequest.readable_toText (r : ClientRequest) : r.toText.Readable where
  line := requestLineText_eq r
  lineOk := by
    rcases parseHttpLine_cases fresh r.toText.line with ⟨-, -, -, -, hok⟩ | ⟨c', hp, -⟩
    · exact hok
    · have hparse := (parseHttpLine_requestLineText fresh r).symm.trans hp
      cases (Prod.mk.inj hparse).2
  headers := by
    intro h hh
    obtain ⟨kv, hkv, rfl⟩ := List.mem_map.mp hh
    exact isHeader_headerLine (r.name_clean kv hkv) (r.value_clean kv hkv)
  short := by
    intro h hh
    rcases List.mem_cons.mp hh with rfl | hh
    · exact r.requestLine_length
    · obtain ⟨kv, hkv, rfl⟩ := List.mem_map.mp hh
      exact r.headerLine_length kv hkv
  blank := show blankLine lineEnd from by decide
  body := by
    rw [r.parsed_toText]
    exact r.bodySize_eq _ rfl

/-- One request after the other. -/
theorem drains_serialise (rs : List ClientRequest) :
    Resumable.Drains httpParser HttpContent.fresh (rs.flatMap ClientRequest.serialise)
      (rs.map ClientRequest.received) (some (HttpContent.fresh, [])) := by
  have hread : ∀ t ∈ rs.map ClientRequest.toText, t.Readable := by
    intro t ht
    obtain ⟨r, -, rfl⟩ := List.mem_map.mp ht
    exact r.readable_toText
  have hd := RequestText.drains_stream hread
  have hparsed : RequestText.parsed ∘ ClientRequest.toText = ClientRequest.received :=
    funext ClientRequest.parsed_toText
  have htext : RequestText.text ∘ ClientRequest.toText = ClientRequest.serialise :=
    funext ClientRequest.text_toText
  rw [RequestText.stream, List.map_map, List.map_map, hparsed, htext] at hd
  exact hd

/-- Requests written one after the other are read back in order, without an error
and without leftover bytes. -/
theorem requests_round_trip (rs : List ClientRequest) (b : Buffer)
    (hb : b.unread = rs.flatMap ClientRequest.serialise) :
    let out := recvLoop (loopFuel HttpContent.fresh b) HttpContent.fresh b
    List.Forall₂ Carries rs out.requests ∧ out.failed = false ∧
      out.content = HttpContent.fresh ∧ out.buffer.unread = [] := by
  intro out
  obtain ⟨hreq, hfail, hend⟩ :=
    recvLoop_drains (drains_serialise rs) b hb (loopFuel HttpContent.fresh b) (Nat.le_refl _)
  obtain ⟨hcontent, hrest⟩ := hend _ _ rfl
  refine ⟨?_, hfail, hcontent, hrest⟩
  have hall : List.Forall₂ Carries rs (rs.map ClientRequest.received) :=
    List.forall₂_map_right_iff.mpr (List.forall₂_same.mpr fun r _ => r.carries_received)
  rw [← hreq] at hall
  exact hall

/-- The request of the keep-alive test client, with a parameter. -/
def helloRequest : ClientRequest where
  method := ascii "GET"
  path := ascii "/hello"
  params := [(ascii "a b", ascii "1&2")]
  headers := [(ascii "Content-Length", numeral 0), (ascii "Connection", ascii "keep-alive")]
  body := []
  method_mem := by decide +kernel
  path_ne_nil := by decide +kernel
  params_nodup := by decide +kernel
  headers_nodup := by decide +kernel
  name_clean := by decide +kernel
  value_clean := by decide +kernel
  keepAlive := by decide +kernel
  contentLength := by decide +kernel
  body_length := by decide +kernel
  requestLine_length := by decide +kernel
  headerLine_length := by decide +kernel

theorem requests_round_trip_hello :
    let b := Buffer.ofBytes (helloRequest.serialise ++ helloRequest.serialise)
    let out := recvLoop (loopFuel HttpContent.fresh b) HttpContent.fresh b
    List.Forall₂ Carries [helloRequest, helloRequest] out.requests ∧ out.failed = false ∧
      out.content = HttpContent.fresh ∧ out.buffer.unread = [] :=
  requests_round_trip [helloRequest, helloRequest] _ (by simp)

end MuduoServer
