import MuduoServer.EchoServer
import MuduoServer.RequestText

/-!
# What the demo server makes of segments

The stored context is never found again, so that every call of `OnMessage` starts a request with a
new parser and serves at most one. Requests are answered in order as long as no call leaves a
request half read, and all of them are when as many calls complete one.
-/
namespace MuduoServer

open StdString HttpContent

/-- Each segment completes the oldest request that has not been served, or leaves its request line
incomplete. The bytes `u` are unread. -/
def ReadsWhole : List RequestText → Bytes → List Bytes → Prop
  | _, _, [] => True
  | [], u, seg :: segs => ReadsWhole [] (u ++ seg) segs
  | r :: rs, u, seg :: segs =>
    if r.text <+: u ++ seg then ReadsWhole rs ((u ++ seg).drop r.text.length) segs
    else newline ∉ u ++ seg ∧ ReadsWhole (r :: rs) (u ++ seg) segs

/-- How many segments complete the oldest request that has not been served. -/
def completions : List RequestText → Bytes → List Bytes → Nat
  | _, _, [] => 0
  | [], _, _ :: _ => 0
  | r :: rs, u, seg :: segs =>
    if r.text <+: u ++ seg then completions rs ((u ++ seg).drop r.text.length) segs + 1
    else completions (r :: rs) (u ++ seg) segs

theorem completions_le (rs : List RequestText) (u : Bytes) (segs : List Bytes) :
    completions rs u segs ≤ rs.length := by
  induction segs generalizing rs u with
  | nil => exact Nat.zero_le _
  | cons seg segs ih =>
    cases rs with
    | nil => exact Nat.le_refl _
    | cons r rs =>
      unfold completions
      split
      · exact Nat.succ_le_succ (ih _ _)
      · exact ih _ _

namespace EchoServer

variable (srv : EchoServer) {s : Session}

/-! ## One call -/

/-- The context cannot be found. -/
def Forgotten (s : Session) : Prop := s.context.get .connContext = none

/-- The session with a new object, in which `ctx` stands. -/
def withContext (s : Session) (ctx : ConnContext) (buffer : Buffer) : Session :=
  ⟨.ofVal (t := .connContextPtr) s.heap.length, s.heap ++ [some ctx], buffer⟩

theorem forgotten_ofVal {t : Stored} (val : t.Val) (h : t ≠ .connContext)
    (heap : List (Option ConnContext)) (buffer : Buffer) :
    Forgotten ⟨.ofVal val, heap, buffer⟩ := Any.get_ofVal_ne val h

theorem forgotten_withContext (s : Session) (ctx : ConnContext) (buffer : Buffer) :
    Forgotten (withContext s ctx buffer) :=
  forgotten_ofVal (t := .connContextPtr) _ (by decide) _ _

theorem findContext_forgotten (h : Forgotten s) :
    s.findContext = (.made s.heap.length, withContext s ⟨fresh, true⟩ s.buffer) := by
  rw [Session.findContext, h]
  rfl

theorem load_withContext (s : Session) (ctx : ConnContext) (buffer : Buffer) :
    (withContext s ctx buffer).load (.made s.heap.length) = some ctx := by
  simp [withContext, Session.load]

theorem store_withContext (s : Session) (ctx ctx' : ConnContext) (buffer : Buffer) :
    (withContext s ctx buffer).store ctx' (.made s.heap.length) = withContext s ctx' buffer := by
  simp [withContext, Session.store]

theorem buffer_withContext (s : Session) (ctx : ConnContext) (buffer buffer' : Buffer) :
    { withContext s ctx buffer with buffer := buffer' } = withContext s ctx buffer' := rfl

/-- `Shutdown` of the context of `s`, in the session `t`. -/
def shutdown (fuel : Nat) (s t : Session) (events : List Event) : Outcome :=
  ((if t.buffer.currentEnableReadSpaceSize > 0 then srv.onMessage fuel t else ⟨t, [], none, true⟩).dropContext
    (.made s.heap.length)).after (events ++ [.shutdown])

/-- A call begins with a new parser. -/
theorem onMessage_eq (fuel : Nat) (h : Forgotten s) : srv.onMessage (fuel + 1) s =
    match fresh.recvHttpRequest s.buffer with
    | ⟨parser, buffer, .error f⟩ => ⟨withContext s ⟨parser, true⟩ buffer, [], some f, true⟩
    | ⟨parser, buffer, .ok _⟩ =>
      if parser.resqStatu ≠ 200 then
        srv.shutdown fuel s (withContext s ⟨parser, true⟩ buffer)
          [.send (srv.errorResponse parser.resqStatu)]
      else if parser.recvStatu = .recvHttpOver then
        match srv.response parser.request with
        | .error f => ⟨withContext s ⟨parser, true⟩ buffer, [], some f, true⟩
        | .ok payload =>
          if clientKeep parser.request
            then ⟨withContext s ⟨fresh, true⟩ buffer, [.send payload], none, true⟩
          else srv.shutdown fuel s (withContext s ⟨fresh, false⟩ buffer) [.send payload]
      else ⟨withContext s ⟨parser, true⟩ buffer, [], none, true⟩ := by
  rw [onMessage]
  simp only [findContext_forgotten h, load_withContext, store_withContext, buffer_withContext]
  have hbuffer : (withContext s ⟨fresh, true⟩ s.buffer).buffer = s.buffer := rfl
  rw [hbuffer]
  obtain ⟨parser, buffer, ret⟩ := fresh.recvHttpRequest s.buffer
  cases ret with
  | error f => rfl
  | ok ret =>
    dsimp only
    split
    · rfl
    · split
      · cases srv.response parser.request with
        | error f => rfl
        | ok payload =>
          dsimp only
          cases clientKeep parser.request <;> rfl
      · rfl

theorem forgotten_dropContext {o : Outcome} (h : Forgotten o.session) (ctx : CtxPtr) :
    Forgotten (o.dropContext ctx).session := by
  unfold Outcome.dropContext
  cases o.fault with
  | some f => exact h
  | none =>
    cases o.session.delete ctx with
    | none => exact h
    | some s => exact forgotten_ofVal (t := .nullptr) _ (by decide) _ _

/-- What is stored is a pointer or null, and never what is asked for. -/
theorem forgotten_onMessage (fuel : Nat) (h : Forgotten s) :
    Forgotten (srv.onMessage fuel s).session := by
  induction fuel generalizing s with
  | zero => exact h
  | succ fuel ih =>
    have hshutdown : ∀ (ctx : ConnContext) (buffer : Buffer) (events : List Event),
        Forgotten (srv.shutdown fuel s (withContext s ctx buffer) events).session := by
      intro ctx buffer events
      refine forgotten_dropContext ?_ _
      split
      · exact ih (forgotten_withContext s ctx buffer)
      · exact forgotten_withContext s ctx buffer
    rw [srv.onMessage_eq fuel h]
    obtain ⟨parser, buffer, ret⟩ := fresh.recvHttpRequest s.buffer
    cases ret with
    | error f => exact forgotten_withContext s _ buffer
    | ok ret =>
      dsimp only
      split
      · exact hshutdown _ _ _
      · split
        · cases srv.response parser.request with
          | error f => exact forgotten_withContext s _ buffer
          | ok payload =>
            dsimp only
            split
            · exact forgotten_withContext s _ buffer
            · exact hshutdown _ _ _
        · exact forgotten_withContext s _ buffer

/-- A call on bytes that do not complete a request. -/
theorem onMessage_more (fuel : Nat) (h : Forgotten s) {c : HttpContent} {rest : Bytes}
    (hstep : httpParser.step fresh s.buffer.unread = .more c rest) :
    ∃ s', srv.onMessage (fuel + 1) s = ⟨s', [], none, true⟩ ∧ Forgotten s' ∧
    s'.buffer.unread = rest := by
  obtain ⟨b, ret, hcall, hlow, hover, hrest⟩ := call_more hstep
  have hst : c.resqStatu = 200 := call_resqStatu hcall hlow
  refine ⟨withContext s ⟨c, true⟩ b, ?_, forgotten_withContext s _ b, hrest⟩
  rw [srv.onMessage_eq fuel h, hcall]
  dsimp only
  rw [if_neg (not_not.mpr hst), if_neg hover]

/-- A call that completes a keep-alive request answers it and leaves the bytes that follow. -/
theorem onMessage_done (fuel : Nat) (h : Forgotten s) {o : HttpRequest} {rest payload : Bytes}
    (hstep : httpParser.step fresh s.buffer.unread = .done o rest)
    (hresponse : srv.response o = .ok payload) (hkeep : clientKeep o) :
    ∃ s', srv.onMessage (fuel + 1) s = ⟨s', [.send payload], none, true⟩ ∧ Forgotten s' ∧
    s'.buffer.unread = rest := by
  obtain ⟨c, b, ret, hcall, hlow, hover, rfl, hrest, -⟩ := call_done hstep
  have hst : c.resqStatu = 200 := call_resqStatu hcall hlow
  refine ⟨withContext s ⟨fresh, true⟩ b, ?_, forgotten_withContext s _ b, hrest⟩
  rw [srv.onMessage_eq fuel h, hcall]
  dsimp only
  rw [if_neg (not_not.mpr hst), if_pos hover, hresponse]
  dsimp only
  rw [if_pos hkeep]

theorem back_ok {s : Bytes} (h : s ≠ []) : ∃ c, back s = .ok c :=
  ⟨s.getLast h, by rw [back, List.getLast?_eq_some_getLast h]⟩

/-- What is taken for a file is one. -/
theorem namedFile_regular {path : Bytes} {last : UInt8} (h : (srv.namedFile path last).2 = true) :
    Uitl.isRegular srv.fs (srv.namedFile path last).1 = true := by
  unfold namedFile at h ⊢
  dsimp only at h ⊢
  by_cases hregular : Uitl.isRegular srv.fs (srv.rootDir ++ path) = true
  · rw [if_pos hregular]
    exact hregular
  · rw [if_neg hregular] at h ⊢
    split at h
    · rename_i hpage
      rw [if_pos hpage]
      exact hpage.2.2
    · cases h

/-- A file can be read, or an error page says that it cannot. -/
theorem sendFile_ok {fullPath : Bytes} (h : Uitl.isRegular srv.fs fullPath = true)
    (req : HttpRequest) (resp : HttpResponse) :
    ∃ resp', srv.sendFile req resp fullPath = .ok resp' := by
  obtain ⟨⟨ret, content⟩, hread⟩ := Uitl.readFile_regular h []
  unfold sendFile
  rw [hread]
  cases ret with
  | false => exact ⟨_, rfl⟩
  | true => exact ⟨_, rfl⟩

/-- No request makes the server throw: a file, a redirection or an error page answers it. -/
theorem handleRequest_ok (req : HttpRequest) (resp : HttpResponse) :
    ∃ resp', srv.handleRequest req resp = .ok resp' := by
  have hpath : (if req.path.isEmpty || req.path = ascii "/" then ascii "/index.html"
      else req.path) ≠ [] := by
    split
    · decide
    · rename_i hnot
      rintro hnil
      simp [hnil] at hnot
  obtain ⟨last, hlast⟩ := back_ok hpath
  have hsent : ∀ file : Bytes × Bool, (file.2 = true → Uitl.isRegular srv.fs file.1 = true) →
      ∃ resp', (if (!file.2) = true then .ok (buildErrorResponse { resp with status := 404 })
        else srv.sendFile req resp file.1) = .ok resp' := by
    intro file hregular
    cases hfile : file.2 with
    | false => exact ⟨_, rfl⟩
    | true => exact srv.sendFile_ok (hregular hfile) req resp
  unfold handleRequest
  simp only [Uitl.vaildPath_eq, hlast, Bind.bind, Except.bind, Pure.pure, Except.pure]
  generalize (if (req.path.isEmpty || req.path = ascii "/") = true then ascii "/index.html"
    else req.path) = path
  split
  · exact ⟨_, rfl⟩
  · split
    · exact ⟨_, rfl⟩
    · split
      · exact ⟨_, rfl⟩
      · split
        · exact hsent _ id
        · exact hsent _ srv.namedFile_regular

theorem response_ok (req : HttpRequest) : ∃ payload, srv.response req = .ok payload := by
  obtain ⟨resp, hresp⟩ := srv.handleRequest_ok req (HttpResponse.ofStatus 200)
  exact ⟨_, by rw [response, hresp]; rfl⟩

/-! ## Runs -/

/-- However a stream is cut, no call finds the parser that the call before it has left. -/
theorem forgotten_deliver (h : Forgotten s) (segs : List Bytes) :
    Forgotten (srv.deliver s segs).session := by
  induction segs generalizing s with
  | nil => exact h
  | cons seg segs ih =>
    obtain ⟨b, hw, -⟩ := s.buffer.writeAndAdd_eq seg
    have hcall :=
      srv.forgotten_onMessage (b.currentEnableReadSpaceSize + 1) (s := { s with buffer := b }) h
    simp only [deliver, hw]
    split
    · exact hcall
    · exact ih hcall

/-- The events are one response for each request, in order. -/
def AnswersEach (rs : List RequestText) (events : List Event) : Prop :=
  List.Forall₂ (fun r event => ∃ payload, srv.response r.parsed = .ok payload ∧
    event = .send payload) rs events

/-- A part of a stream that ends before its first line feed waits. -/
theorem step_noNewline {rs : List RequestText} (hread : ∀ r ∈ rs, r.Readable) {u : Bytes}
    (hn : newline ∉ u) (hu : u <+: RequestText.stream rs) :
    ∃ c, httpParser.step fresh u = .more c u := by
  have hlen : ¬u.length > maxLine := by
    cases rs with
    | nil =>
      obtain rfl := List.prefix_nil.mp hu
      decide
    | cons r rs =>
      have hr := hread r List.mem_cons_self
      have hshort := hr.short r.line List.mem_cons_self
      intro hlong
      have hline : r.line <+: RequestText.stream (r :: rs) :=
        ⟨_,
          by
            simp only [RequestText.stream, RequestText.text, List.map_cons, List.flatten_cons,
              List.append_assoc]; rfl⟩
      obtain ⟨l, -, hl⟩ := hr.line
      have hmem : newline ∈ r.line := by simp [hl]
      exact hn ((List.prefix_of_prefix_length_le hline hu (by omega)).subset hmem)
  refine ⟨fresh, ?_⟩
  have hwait := readRequest_wait fresh u hn (.inl rfl)
  rw [if_neg hlen] at hwait
  exact (congrArg Read.step hwait).trans rfl

theorem deliver_cons {seg : Bytes} {b : Buffer} {s' : Session} {events : List Event}
    (segs : List Bytes) (hw : s.buffer.writeAndAdd seg = some b)
    (h : srv.onMessage (b.currentEnableReadSpaceSize + 1) { s with buffer := b } =
      ⟨s', events, none, true⟩) :
    srv.deliver s (seg :: segs) = (srv.deliver s' segs).after events := by
  simp only [deliver, hw, h]
  rfl

/-- The events of a run: those of its first requests, one for each segment that completes one. -/
structure Served (rs : List RequestText) (o : Outcome) : Prop where
  answers : srv.AnswersEach rs o.events
  fault : o.fault = none
  finished : o.finished = true

theorem deliver_served {rs : List RequestText} (hread : ∀ r ∈ rs, r.Readable)
    (hkeep : ∀ r ∈ rs, clientKeep r.parsed) {u : Bytes} {segs : List Bytes}
    (hcut : u ++ segs.flatten <+: RequestText.stream rs) (hwhole : ReadsWhole rs u segs)
    (h : Forgotten s) (hu : s.buffer.unread = u) :
    srv.Served (rs.take (completions rs u segs)) (srv.deliver s segs) := by
  induction segs generalizing rs u s with
  | nil => exact ⟨by rw [completions, List.take_zero]; exact .nil, rfl, rfl⟩
  | cons seg segs ih =>
    obtain ⟨b, hw, hb⟩ := s.buffer.writeAndAdd_eq seg
    rw [hu] at hb
    rw [List.flatten_cons, ← List.append_assoc] at hcut
    have hpart : u ++ seg <+: RequestText.stream rs := (List.prefix_append _ _).trans hcut
    have hwait : newline ∉ u ++ seg → ReadsWhole rs (u ++ seg) segs →
        srv.Served (rs.take (completions rs (u ++ seg) segs)) (srv.deliver s (seg :: segs)) := by
      intro hn hwhole
      obtain ⟨c, hstep⟩ := step_noNewline hread hn hpart
      obtain ⟨s', hcall, hforgotten, hrest⟩ :=
        srv.onMessage_more b.currentEnableReadSpaceSize (s := { s with buffer := b }) h
          (hb.symm ▸ hstep)
      rw [srv.deliver_cons segs hw hcall]
      exact ih hread hkeep hcut hwhole hforgotten (hrest.trans hb)
    cases rs with
    | nil =>
      obtain ⟨hnil, -⟩ := List.append_eq_nil_iff.mp (List.prefix_nil.mp hcut)
      have hzero : completions [] (u ++ seg) segs = 0 :=
        Nat.eq_zero_of_le_zero (completions_le [] _ segs)
      have hserved := hwait (by rw [hnil]; exact List.not_mem_nil) hwhole
      rwa [List.take_nil] at hserved
    | cons r rs =>
      unfold ReadsWhole at hwhole
      unfold completions
      by_cases hcomplete : r.text <+: u ++ seg
      · rw [if_pos hcomplete] at hwhole
        rw [if_pos hcomplete, List.take_succ_cons]
        obtain ⟨rest, hrest⟩ := hcomplete
        rw [← hrest, List.drop_left] at hwhole ⊢
        obtain ⟨payload, hpayload⟩ := srv.response_ok r.parsed
        have hstep := RequestText.step_text (hread r List.mem_cons_self) rest
        obtain ⟨s', hcall, hforgotten, hrest'⟩ :=
          srv.onMessage_done b.currentEnableReadSpaceSize (s := { s with buffer := b }) h
          (hb ▸ hrest ▸ hstep) hpayload (hkeep r List.mem_cons_self)
        have hlater : rest ++ segs.flatten <+: RequestText.stream rs := by
          rw [← hrest, List.append_assoc] at hcut
          exact (List.prefix_append_right_inj _).mp hcut
        obtain ⟨hanswers, hfault, hfinished⟩ := ih (fun r hr => hread r (List.mem_cons_of_mem _ hr))
          (fun r hr => hkeep r (List.mem_cons_of_mem _ hr)) hlater hwhole hforgotten hrest'
        rw [srv.deliver_cons segs hw hcall]
        exact ⟨.cons ⟨payload, hpayload, rfl⟩ hanswers, hfault, hfinished⟩
      · rw [if_neg hcomplete] at hwhole
        rw [if_neg hcomplete]
        exact hwait hwhole.1 hwhole.2

/-- A server without files. -/
def emptySite : EchoServer where
  rootDir := ascii "/srv/www"
  fs := FileSystem.empty
  walk m := (m.entries.map fun e => (e.1, e.2)).reverse
  walk_perm _ := List.reverse_perm _

def getIndex : RequestText :=
  ⟨ascii "GET / HTTP/1.1\r\n", [ascii "Connection: keep-alive\r\n"], ascii "\r\n", []⟩

/-- What the server without files sends for every path. -/
def notFound : Bytes :=
  emptySite.serializeResponse
    ((buildErrorResponse (HttpResponse.ofStatus 404)).setHeader (ascii "Connection") (ascii "keep-alive"))

end EchoServer
end MuduoServer
