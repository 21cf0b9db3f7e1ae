import MuduoServer.HttpLoop

/-!
# The version of a request

The status line of a response starts with the version of its request. Whatever bytes a connection
receives, that is the text the version group has matched or the default, and
has neither a blank nor the end of a line in it.
-/
namespace MuduoServer

open StdString EcmaRegex HttpServer Transition

def HttpRequest.VersionClean (req : HttpRequest) : Prop := 32 ∉ req.version ∧ 13 ∉ req.version

theorem HttpRequest.versionClean_fresh : HttpRequest.fresh.VersionClean := ⟨by decide, by decide⟩

theorem icase_clean (c d : UInt8) (hc : c ∈ ascii "HTTP/1.") (hd : toLower d == toLower c) :
    d ≠ 32 ∧ d ≠ 13 := by
  have hnone : (ascii "HTTP/1.").all (fun c => toLower 32 != toLower c && toLower 13 != toLower c) =
      true := by decide
  have hboth := List.all_eq_true.mp hnone c hc
  rw [Bool.and_eq_true, bne_iff_ne, bne_iff_ne] at hboth
  constructor
  · rintro rfl
    exact hboth.1 (eq_of_beq hd)
  · rintro rfl
    exact hboth.2 (eq_of_beq hd)

def versionGroup : Regex UInt8 := .seq (icase "HTTP/1.") (.char (fun c => c == 48 || c == 49))

theorem versionGroup_clean (s : Bytes) :
    ∀ m ∈ parses versionGroup s, ∀ c ∈ m.text, c ≠ 32 ∧ c ≠ 13 := by
  have hdigit : ∀ d : UInt8, d = 48 ∨ d = 49 → d ≠ 32 ∧ d ≠ 13 := by
    rintro d (rfl | rfl) <;> decide
  have hadmits : Admits (fun m : Match UInt8 => ∀ c ∈ m.text, c ≠ 32 ∧ c ≠ 13) versionGroup := by
    constructor
    · refine admits_word _ ?_
      intro p hp d _ hd c hc
      obtain ⟨a, ha, rfl⟩ := List.mem_map.mp hp
      exact List.mem_singleton.mp hc ▸ icase_clean a d ha hd
    · intro d _ hd c hc
      exact List.mem_singleton.mp hc ▸ hdigit d (by simpa using hd)
  exact parses_induction (fun _ _ hc => absurd hc List.not_mem_nil)
    (fun m n hm hn c hc => (List.mem_append.mp hc).elim (hm c) (hn c)) hadmits s

/-- The texts of group 4 are clean. -/
def GroupClean (m : Match UInt8) : Prop := ∀ g ∈ m.groups, g.1 = 4 → 32 ∉ g.2 ∧ 13 ∉ g.2

theorem admits_char (p : UInt8 → Bool) : Admits GroupClean (.char p) :=
  fun _ _ _ _ hg => absurd hg List.not_mem_nil

theorem admits_icase (s : String) : Admits GroupClean (icase s) :=
  admits_word _ fun _ _ _ _ _ _ hg => absurd hg List.not_mem_nil

theorem GroupClean.close {m : Match UInt8} (h : GroupClean m) {n : Nat}
    (hn : n = 4 → 32 ∉ m.text ∧ 13 ∉ m.text) :
    GroupClean (m.close n) := by
  intro g hg h4
  rcases List.mem_append.mp hg with hg | hg
  · exact h g hg h4
  · rw [List.mem_singleton.mp hg] at h4 ⊢
    exact hn h4

theorem admits_requestLine : Admits GroupClean requestLine := by
  have hother : ∀ (n : Nat) (r : Regex UInt8), n ≠ 4 → Admits GroupClean r →
      Admits GroupClean (.group n r) :=
    fun n r hn hr => ⟨fun _ _ _ h => h.close fun he => absurd he hn, hr⟩
  refine ⟨hother 1 _ (by decide) ?_, ⟨admits_char _, admits_char _⟩, hother 2 _ (by decide) ?_,
    ⟨?_, trivial⟩,
    ⟨admits_char _, admits_char _⟩, ⟨?_, ⟨admits_icase _, admits_char _⟩⟩, ?_⟩
  · exact ⟨admits_icase _, admits_icase _, admits_icase _, admits_icase _, admits_icase _⟩
  · exact ⟨admits_char _, admits_char _⟩
  · exact ⟨admits_char _, hother 3 _ (by decide) (admits_char _)⟩
  · intro s m hm h
    have hclean := versionGroup_clean s m hm
    exact h.close fun _ => ⟨fun hin => (hclean 32 hin).1 rfl, fun hin => (hclean 13 hin).2 rfl⟩
  · exact ⟨⟨admits_char _, admits_char _, admits_char _⟩, trivial⟩

namespace HttpContent

variable (c : HttpContent)

theorem parseHttpLine_version (h : c.request.VersionClean) (line : Bytes) :
    (c.parseHttpLine line).1.request.VersionClean := by
  unfold parseHttpLine
  cases hmatch : regexMatch requestLine line with
  | none => exact h
  | some sm =>
    have hversion : 32 ∉ sub sm 4 ∧ 13 ∉ sub sm 4 := by
      rcases sub_regexMatch (P := fun n w => n = 4 → 32 ∉ w ∧
        13 ∉ w) admits_requestLine hmatch 4 with he | hclean
      · rw [he]
        exact ⟨List.not_mem_nil, List.not_mem_nil⟩
      · exact hclean rfl
    dsimp only
    split
    · obtain ⟨params, hrequest⟩ := parseQuery_request _ _
      rw [HttpRequest.VersionClean, hrequest]
      exact hversion
    · exact hversion

theorem parseHttpHead_version (line : Bytes) :
    (c.parseHttpHead line).1.request.version = c.request.version := by
  unfold parseHttpHead
  split
  · rfl
  · split
    · rfl
    · split <;> rfl

theorem recvHttpHeadLoop_version (fuel : Nat) (buffer : Buffer) :
    (recvHttpHeadLoop fuel c buffer).content.request.version = c.request.version := by
  induction fuel generalizing c buffer with
  | zero => rfl
  | succ fuel ih =>
    unfold recvHttpHeadLoop
    split
    · rfl
    · rename_i line buffer' _
      split
      · split <;> rfl
      · split
        · rfl
        · split
          · rfl
          · have hhead := c.parseHttpHead_version line
            split
            · rename_i c' hp
              rw [hp] at hhead
              exact (ih c' buffer').trans hhead
            · rename_i c' ret hp
              rw [hp] at hhead
              exact hhead

theorem recvHttpBody_version (buffer : Buffer) :
    (c.recvHttpBody buffer).content.request.version = c.request.version := by
  have htake : ∀ len st, (c.takeBody buffer len st).content.request.version =
      c.request.version := by
    intro len st
    unfold takeBody
    dsimp only
    split <;> rfl
  unfold recvHttpBody
  split
  · rfl
  · split
    · rfl
    · split
      · rfl
      · dsimp only
        split <;> exact htake _ _

theorem recvHttpHead_version (buffer : Buffer) :
    (c.recvHttpHead buffer).content.request.version = c.request.version := by
  unfold recvHttpHead
  split
  · rfl
  · exact c.recvHttpHeadLoop_version _ buffer

theorem recvHttpLine_version (h : c.request.VersionClean) (buffer : Buffer) :
    (c.recvHttpLine buffer).content.request.VersionClean := by
  unfold recvHttpLine
  split
  · exact h
  · split
    · exact h
    · rename_i line buffer' _
      split
      · split <;> exact h
      · split
        · exact h
        · have hline := c.parseHttpLine_version h line
          split
          · rename_i c' ret hp
            rw [hp] at hline
            exact hline
          · rename_i c' f hp
            rw [hp] at hline
            exact hline

theorem fallThrough_version {r : Call} {stage : HttpContent → Buffer → Call}
    (h : r.content.request.VersionClean)
    (hstage : ∀ c buffer, (stage c buffer).content.request.version = c.request.version) :
    (r.fallThrough stage).content.request.VersionClean := by
  unfold Call.fallThrough
  split
  · rw [HttpRequest.VersionClean, hstage]
    exact h
  · exact h

/-- A call of `RecvHttpRequest` leaves a clean version. -/
theorem recvHttpRequest_version (h : c.request.VersionClean) (buffer : Buffer) :
    (c.recvHttpRequest buffer).content.request.VersionClean := by
  unfold recvHttpRequest
  split
  · exact fallThrough_version (fallThrough_version (c.recvHttpLine_version h buffer) recvHttpHead_version)
      recvHttpBody_version
  · refine fallThrough_version ?_ recvHttpBody_version
    rw [HttpRequest.VersionClean, recvHttpHead_version]
    exact h
  · rw [HttpRequest.VersionClean, recvHttpBody_version]
    exact h
  · exact h
  · exact h

end HttpContent

/-- The context and the request of a turn. -/
def HttpServer.Turn.VersionClean : Turn → Prop
  | .wait context _ => context.request.VersionClean
  | .reply r context _ => r.req.VersionClean ∧ context.request.VersionClean
  | _ => True

theorem HttpServer.turn_version (srv : HttpServer) {context : HttpContent}
    (h : context.request.VersionClean) (buffer : Buffer) :
    (srv.turn context buffer).VersionClean := by
  have hcall := context.recvHttpRequest_version h buffer
  unfold turn
  split
  · trivial
  · split
    · trivial
    · rename_i c' buffer' ret hr
      rw [hr] at hcall
      dsimp only at hcall ⊢
      split
      · split
        · trivial
        · split
          · trivial
          · exact ⟨hcall, HttpRequest.versionClean_fresh⟩
      · split
        · exact hcall
        · split
          · trivial
          · exact ⟨hcall, HttpRequest.versionClean_fresh⟩

namespace HttpLoop

structure VersionsClean (s : HttpLoop) : Prop where
  contexts : ∀ c, (s.contexts c).request.VersionClean
  answers : ∀ c r, .answer c r ∈ s.log → r.req.VersionClean

theorem versionsClean_exec {srv : HttpServer} {s : HttpLoop} {acts : List Act}
    (h : exec (step srv) start acts = some s) : VersionsClean s := by
  have hturn : ∀ context buffer, context.request.VersionClean →
      (srv.turn context buffer).Leaves (fun context => context.request.VersionClean)
        (fun r => r.req.VersionClean) := by
    intro context buffer hclean
    have hversion := srv.turn_version hclean buffer
    generalize srv.turn context buffer = t at hversion ⊢
    cases t with
    | idle => trivial
    | wait context buffer => exact hversion
    | reply r context buffer => exact hversion.symm
    | fault context buffer events f => trivial
  obtain ⟨hcontexts, hanswers⟩ := leaves_exec HttpRequest.versionClean_fresh hturn h
  exact ⟨hcontexts, hanswers⟩

/-- Every response of a run belongs to a request with a clean version. -/
theorem answered_version (srv : HttpServer) (acts : List Act) (s : HttpLoop)
    (h : exec (step srv) start acts = some s) : ∀ c r, .answer c r ∈ s.log → r.req.VersionClean :=
  (versionsClean_exec h).answers

end HttpLoop
end MuduoServer
