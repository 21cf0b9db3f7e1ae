import MuduoServer.HttpResume

/-!
# The loop around the parser

`OnMessage` calls the parser, takes a finished request, resets the parser and
calls it again. The loop is stated here without what the server does with the
requests, and read as a drain of the resumable parser.
-/
namespace MuduoServer

open StdString

namespace HttpContent

/-- What the loop has read and where it stopped. -/
structure Received where
  requests : List HttpRequest
  content : HttpContent
  buffer : Buffer
  failed : Bool

/-- The loop of `OnMessage` around the parser, with `Reset` after each request. It
ends at an exception, at an error status, or when the bytes do not finish a request. -/
def recvLoop : Nat → HttpContent → Buffer → Received
  | 0, c, buffer => ⟨[], c, buffer, false⟩
  | fuel + 1, c, buffer =>
    if buffer.currentEnableReadSpaceSize = 0 then ⟨[], c, buffer, false⟩
    else
      match c.recvHttpRequest buffer with
      | ⟨c, buffer, .error _⟩ => ⟨[], c, buffer, true⟩
      | ⟨c, buffer, .ok _⟩ =>
        if 400 ≤ c.resqStatu then ⟨[], c, buffer, true⟩
        else if c.recvStatu ≠ .recvHttpOver then ⟨[], c, buffer, false⟩
        else
          let t := recvLoop fuel c.reset buffer
          { t with requests := c.request :: t.requests }

/-- The requests a stream completes before its first error. -/
def requestsOf (stream : Bytes) : List HttpRequest :=
  (recvLoop (fresh.loopFuel (Buffer.ofBytes stream)) fresh (Buffer.ofBytes stream)).requests

theorem unread_ne_nil {b : Buffer} (h : b.unread ≠ []) : b.currentEnableReadSpaceSize ≠ 0 := by
  rw [← Buffer.length_unread]
  exact fun hz => h (List.eq_nil_of_length_eq_zero hz)

theorem recvLoop_drains {c : HttpContent} {u : Bytes} {os : List HttpRequest}
    {e : Option (HttpContent × Bytes)} (h : Resumable.Drains httpParser c u os e) (b : Buffer)
    (hb : b.unread = u) (fuel : Nat) (hfuel : c.loopFuel b ≤ fuel) :
    (recvLoop fuel c b).requests = os ∧ (recvLoop fuel c b).failed = e.isNone ∧
      ∀ s r, e = some (s, r) →
        (recvLoop fuel c b).content = s ∧ (recvLoop fuel c b).buffer.unread = r := by
  obtain ⟨fuel, rfl⟩ := loopFuel_pos hfuel
  induction h generalizing b fuel with
  | idle c =>
    have hz : b.currentEnableReadSpaceSize = 0 := by rw [← Buffer.length_unread, hb]; rfl
    simp [recvLoop, hz, hb]
  | more hu hs =>
    subst hb
    obtain ⟨b', ret, hcall, hst, ho, hrest⟩ := call_more hs
    simp [recvLoop, unread_ne_nil hu, hcall, Int.not_le.mpr hst, ho, hrest]
  | failed hu hs =>
    subst hb
    simp only [recvLoop, unread_ne_nil hu, if_false]
    rcases call_failed hs with ⟨c', b', f, hcall⟩ | ⟨c', b', ret, hcall, hst⟩
    · simp [hcall]
    · simp [hcall, hst]
  | done hu hs hd ih =>
    subst hb
    obtain ⟨c', b', ret, hcall, hst, ho, hreq, hrest, hfuel'⟩ := call_done hs
    have hless : fresh.loopFuel b' ≤ fuel := by omega
    obtain ⟨fuel, rfl⟩ := loopFuel_pos hless
    have htail := ih b' hrest fuel hless
    simp only [recvLoop, unread_ne_nil hu, hcall, Int.not_le.mpr hst, ho, if_false, ne_eq,
      not_true_eq_false, hreq]
    exact ⟨congrArg (_ :: ·) htail.1, htail.2⟩

/-- Every input drains: a request read from its first line on uses up a byte. -/
theorem drains_total (c : HttpContent) (u : Bytes) :
    ∃ os e, Resumable.Drains httpParser c u os e := by
  induction hn : 2 * u.length + (if c.recvStatu = .recvHttpLine then 0 else 1)
    using Nat.strong_induction_on generalizing c u with
  | _ n ih =>
    by_cases hu : u = []
    · subst hu
      exact ⟨[], _, .idle c⟩
    · cases hs : httpParser.step c u with
      | more c' r => exact ⟨[], _, .more hu hs⟩
      | failed => exact ⟨[], none, .failed hu hs⟩
      | done o r =>
        obtain ⟨hle, hlt⟩ := step_done_length c u o r hs
        have hless : 2 * r.length + (if fresh.recvStatu = .recvHttpLine then 0 else 1) < n := by
          simp only [fresh, if_true]
          split at hn
          · rename_i hl
            have := hlt (.inl hl)
            omega
          · omega
        obtain ⟨os, e, hd⟩ := ih _ hless fresh r rfl
        exact ⟨o :: os, e, .done hu hs hd⟩

theorem requestsOf_drains {stream : Bytes} {os : List HttpRequest}
    {e : Option (HttpContent × Bytes)} (h : Resumable.Drains httpParser fresh stream os e) :
    requestsOf stream = os :=
  (recvLoop_drains h (Buffer.ofBytes stream) (by simp) _ (Nat.le_refl _)).1

end HttpContent
end MuduoServer
