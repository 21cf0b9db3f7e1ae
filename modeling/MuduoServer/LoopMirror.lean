import MuduoServer.Released

/-!
# The loop mirrors the kernel

Descriptors are reused: the number that a released connection had is soon that of another. As long
as a released connection is neither shut down nor released again, `_channels` and the kernel know,
under each descriptor, the connection that has it open and the mask of that connection, and no
handler runs for a connection whose descriptor is closed.
-/
namespace MuduoServer

/-- The connection whose descriptor the rest of the function may use. -/
def Frame.drives : Frame → Option Nat
  | .handerRead c | .handerWrite c | .handerClose c | .handerErr c | .handerEvent c | .shutDownRest c => some c
  | .release _ | .serverClosed _ | .user => none

theorem Frame.conn_of_drives {f : Frame} {c : Nat} (h : f.drives = some c) : f.conn = some c := by
  cases f <;> first | exact h | cases h

/-- The connection that the functor closes, or brings nearer to it. -/
def Task.ends : Task → Option Nat
  | .shutDownInLoop c | .releaseInloop c => some c
  | _ => none

namespace Loop

open StdString Transition

/-- The descriptor in the socket of the connection. -/
def Holds (s : Loop) (c fd : Nat) : Prop := (s.conns c).bind Connection.socket = some fd

def Open (s : Loop) (c : Nat) : Prop := ((s.conns c).bind Connection.socket).isSome

instance (s : Loop) : DecidablePred s.Open := fun c =>
  inferInstanceAs (Decidable (((s.conns c).bind Connection.socket).isSome = true))

/-- The kernel watches the descriptors of `_channels`, each for the mask of the connection that
has it open. -/
structure Mirrors (s : Loop) : Prop where
  interest : ∀ fd, s.poller.interest fd = (s.poller.channels fd).bind fun c =>
    (s.conns c).map Connection.event
  current : ∀ fd c, s.poller.channels fd = some c → s.Holds c fd
  alone : ∀ fd c d, s.Holds c fd → s.Holds d fd → c = d
  isOpen : ∀ fd c, s.Holds c fd → s.poller.isOpen fd = true
  /-- The channel and the socket have one descriptor. -/
  sockfd : ∀ c conn fd, s.conns c = some conn → conn.socket = some fd → conn.sockfd = fd
  closed : ∀ c conn, s.conns c = some conn → conn.socket = none → conn.status = .disconnected

variable {s s' : Loop} {c d fd : Nat} {conn conn' : Connection}

theorem holds_iff (hc : s.conns c = some conn) : s.Holds c fd ↔ conn.socket = some fd := by
  rw [Holds, hc]
  rfl

theorem open_iff (hc : s.conns c = some conn) : s.Open c ↔ conn.socket.isSome := by
  rw [Open, hc]
  rfl

theorem Holds.isOpen (h : s.Holds c fd) : s.Open c := by
  rw [Open, h]
  rfl

theorem conns_set_of_ne (s : Loop) (hd : d ≠ c) (conn : Connection) :
    (s.set c conn).conns d = s.conns d := by
  simp [set, hd]

/-- What holds of every connection holds of them when one is replaced by a connection of
which it holds. -/
theorem forall_set {P : Connection → Prop} (h : ∀ d k, s.conns d = some k → P k)
    (conn' : Connection) (hnew : P conn') (d : Nat) (k : Connection)
    (hk : (s.set c conn').conns d = some k) : P k := by
  by_cases hd : d = c
  · subst hd
    cases (conns_set s d conn').symm.trans hk
    exact hnew
  · exact h d k ((conns_set_of_ne s hd conn').symm.trans hk)

theorem socket_set (hc : s.conns c = some conn) (conn' : Connection)
    (hsocket : conn'.socket = conn.socket) (d : Nat) :
    ((s.set c conn').conns d).bind Connection.socket = (s.conns d).bind Connection.socket := by
  by_cases hd : d = c
  · subst hd
    simp [hc, hsocket]
  · rw [conns_set_of_ne s hd]

/-- The descriptors and the masks are what they were, and what is closed stays disconnected. -/
theorem Mirrors.congr (h : Mirrors s) (hpoller : s'.poller = s.poller)
    (hshape : ∀ c, (s'.conns c).map (fun k => (k.event, k.sockfd, k.socket)) =
      (s.conns c).map (fun k => (k.event, k.sockfd, k.socket)))
    (hclosed : ∀ c conn, s'.conns c = some conn → conn.socket = none →
      conn.status = .disconnected) : Mirrors s' := by
  have hevent : ∀ c, (s'.conns c).map Connection.event = (s.conns c).map Connection.event := by
    intro c
    have hc := congrArg (Option.map Prod.fst) (hshape c)
    simpa only [Option.map_map, Function.comp_def] using hc
  have hholds : ∀ c fd, s'.Holds c fd ↔ s.Holds c fd := by
    intro c fd
    have hc := congrArg (fun o => Option.bind o fun k => k.2.2) (hshape c)
    simp only [Option.bind_map, Function.comp_def] at hc
    unfold Holds
    exact Iff.of_eq (congrArg (· = some fd) hc)
  refine ⟨fun fd => ?_, fun fd c hch => ?_, fun fd c d hc hd => ?_, fun fd c hc => ?_,
    fun c conn fd hc hfd => ?_, hclosed⟩
  · simp only [hpoller, hevent]
    exact h.interest fd
  · exact (hholds c fd).mpr (h.current fd c (hpoller ▸ hch))
  · exact h.alone fd c d ((hholds c fd).mp hc) ((hholds d fd).mp hd)
  · rw [hpoller]
    exact h.isOpen fd c ((hholds c fd).mp hc)
  · have hsame := hshape c
    rw [hc, Option.map_some, eq_comm, Option.map_eq_some_iff] at hsame
    obtain ⟨old, hold, he⟩ := hsame
    simp only [Prod.mk.injEq] at he
    rw [← he.2.1]
    exact h.sockfd c old fd hold (he.2.2.trans hfd)

/-- A connection changes in what the poller does not see. -/
theorem Mirrors.set (h : Mirrors s) (hc : s.conns c = some conn) (conn' : Connection)
    (hevent : conn'.event = conn.event) (hfd : conn'.sockfd = conn.sockfd)
    (hsocket : conn'.socket = conn.socket)
    (hclosed : conn.socket = none → conn'.status = .disconnected) : Mirrors (s.set c conn') := by
  refine h.congr rfl (fun d => ?_)
    (forall_set h.closed conn' fun hnone => hclosed (hsocket.symm.trans hnone))
  by_cases hd : d = c
  · subst hd
    simp [hc, hevent, hfd, hsocket]
  · rw [conns_set_of_ne s hd]

/-- What the kernel knows, `_channels` knows. -/
theorem Mirrors.registered (h : Mirrors s) (fd : Nat) :
    (s.poller.interest fd).isSome = (s.poller.channels fd).isSome := by
  rw [h.interest]
  cases hc : s.poller.channels fd with
  | none => rfl
  | some c =>
    obtain ⟨conn, hconn, -⟩ := Option.bind_eq_some_iff.mp (h.current fd c hc)
    simp [hconn]

/-- Under another descriptor there is another connection. -/
theorem Mirrors.interest_other (h : Mirrors s) (hold : s.Holds c fd) {fd' : Nat} (hne : fd' ≠ fd)
    (conn' : Connection) :
    s.poller.interest fd' =
      (s.poller.channels fd').bind fun d => ((s.set c conn').conns d).map Connection.event := by
  rw [h.interest fd']
  cases hd : s.poller.channels fd' with
  | none => rfl
  | some d =>
    have hdc : d ≠ c := by
      rintro rfl
      exact hne (Option.some.inj ((h.current fd' d hd).symm.trans hold))
    rw [Option.bind_some, Option.bind_some, conns_set_of_ne s hdc]

/-- A new mask reaches the map and the kernel. -/
theorem Mirrors.unpate (h : Mirrors s) (hc : s.conns c = some conn) (hopen : s.Open c)
    (mask : UInt32) :
    Mirrors (s.unpate c { conn with event := mask }) := by
  obtain ⟨fd, hsocket⟩ := Option.isSome_iff_exists.mp ((open_iff hc).mp hopen)
  have hfd := h.sockfd c conn fd hc hsocket
  have hold : s.Holds c fd := (holds_iff hc).mpr hsocket
  have hupdate := s.poller.updateEvent_eq c fd mask (h.isOpen fd c hold) (h.registered fd)
    fun d hd => h.alone fd d c (h.current fd d hd) hold
  have hholds : ∀ d fd', (s.unpate c { conn with event := mask }).Holds d fd' ↔ s.Holds d fd' := by
    intro d fd'
    unfold Holds Loop.unpate
    dsimp only
    rw [socket_set hc { conn with event := mask } rfl d]
  have hpoller : (s.unpate c { conn with event := mask }).poller =
      s.poller.updateEvent c fd mask := by
    rw [← hfd]
    rfl
  rw [hupdate] at hpoller
  have hsockfd : ∀ d k, s.conns d = some k → ∀ fd', k.socket = some fd' → k.sockfd = fd' :=
    fun d k hk fd' => h.sockfd d k fd' hk
  refine ⟨fun fd' => ?_, fun fd' d hd => (hholds d fd').mpr ?_, fun fd' d e hd he => ?_,
    fun fd' d hd => ?_,
    fun d k fd' hk => forall_set hsockfd { conn with event := mask } (hsockfd c conn hc) d k hk fd',
    forall_set h.closed { conn with event := mask } (h.closed c conn hc)⟩
  · rw [hpoller]
    by_cases hne : fd' = fd
    · subst hne
      simp [Loop.unpate]
    · simp only [Function.update_of_ne hne]
      exact h.interest_other hold hne { conn with event := mask }
  · rw [hpoller] at hd
    by_cases hne : fd' = fd
    · subst hne
      simp only [Function.update_self, Option.some.injEq] at hd
      exact hd ▸ hold
    · simp only [Function.update_of_ne hne] at hd
      exact h.current fd' d hd
  · exact h.alone fd' d e ((hholds d fd').mp hd) ((hholds e fd').mp he)
  · rw [hpoller]
    exact h.isOpen fd' d ((hholds d fd').mp hd)

/-- The descriptor is forgotten before it is closed. -/
theorem Mirrors.detach (h : Mirrors s) (hc : s.conns c = some conn) (hopen : s.Open c) :
    Mirrors (s.detach c conn) := by
  obtain ⟨fd, hsocket⟩ := Option.isSome_iff_exists.mp ((open_iff hc).mp hopen)
  have hfd := h.sockfd c conn fd hc hsocket
  have hold : s.Holds c fd := (holds_iff hc).mpr hsocket
  have hdetach : s.detach c conn =
      { s.set c { conn with status := .disconnected, socket := none } with
      poller := { channels := Function.update s.poller.channels fd none
                  interest := Function.update s.poller.interest fd none
                  isOpen := Function.update s.poller.isOpen fd false } } := by
    simp only [Loop.detach, hfd, hsocket,
      s.poller.removeEvent_eq fd (h.isOpen fd c hold) (h.registered fd), Poller.close,
      Function.update_idem]
  rw [hdetach]
  have hrest : ∀ d fd', ((s.set c { conn with status := .disconnected, socket := none }).conns d).bind
      Connection.socket = some fd' ↔ s.Holds d fd' ∧ d ≠ c := by
    intro d fd'
    by_cases hd : d = c
    · subst hd
      simp
    · rw [conns_set_of_ne s hd]
      exact ⟨fun h => ⟨h, hd⟩, And.left⟩
  have hsockfd : ∀ d k, s.conns d = some k → ∀ fd', k.socket = some fd' → k.sockfd = fd' :=
    fun d k hk fd' => h.sockfd d k fd' hk
  refine ⟨fun fd' => ?_, fun fd' d hd => (hrest d fd').mpr ?_, fun fd' d e hd he => ?_,
    fun fd' d hd => ?_,
    fun d k fd' hk => forall_set hsockfd { conn with status := .disconnected, socket := none }
      (by simp) d k hk fd',
    forall_set h.closed { conn with status := .disconnected, socket := none } fun _ => rfl⟩
  · by_cases hne : fd' = fd
    · subst hne
      simp
    · simp only [Function.update_of_ne hne]
      exact h.interest_other hold hne { conn with status := .disconnected, socket := none }
  · by_cases hne : fd' = fd
    · subst hne
      simp at hd
    · simp only [Function.update_of_ne hne] at hd
      refine ⟨h.current fd' d hd, ?_⟩
      rintro rfl
      exact hne (Option.some.inj ((h.current fd' d hd).symm.trans hold))
  · exact h.alone fd' d e ((hrest d fd').mp hd).1 ((hrest e fd').mp he).1
  · obtain ⟨hholds, hdc⟩ := (hrest d fd').mp hd
    have hne : fd' ≠ fd := by
      rintro rfl
      exact hdc (h.alone fd' d c hholds hold)
    simp only [Function.update_of_ne hne]
    exact h.isOpen fd' d hholds

/-- The descriptor of a new connection was closed, so no other has it. -/
theorem Mirrors.newConnection (h : Mirrors s) (hc : s.conns c = none)
    (hfd : s.poller.isOpen fd = false) (hsocket : conn.socket = some fd)
    (hsockfd : conn.sockfd = fd) :
    Mirrors { s.set c conn with poller := s.poller.opened fd } := by
  have hfree : ∀ d, ¬s.Holds d fd := by
    intro d hd
    rw [h.isOpen fd d hd] at hfd
    cases hfd
  have hnew : ∀ d fd', ((s.set c conn).conns d).bind Connection.socket = some fd' ↔
      s.Holds d fd' ∧ d ≠ c ∨ d = c ∧ fd' = fd := by
    intro d fd'
    by_cases hd : d = c
    · subst hd
      simp [hsocket, eq_comm]
    · rw [conns_set_of_ne s hd]
      simp [Holds, hd]
  have hold : ∀ {d fd'}, s.Holds d fd' → d ≠ c := by
    rintro d fd' hd rfl
    rw [Holds, hc] at hd
    cases hd
  have hold_fd : ∀ d k, s.conns d = some k → ∀ fd', k.socket = some fd' → k.sockfd = fd' :=
    fun d k hk fd' => h.sockfd d k fd' hk
  refine ⟨fun fd' => ?_, fun fd' d hd => ?_, fun fd' d e hd he => ?_, fun fd' d hd => ?_,
    fun d k fd' hk => forall_set hold_fd conn (by simp [hsocket, hsockfd]) d k hk fd',
    forall_set h.closed conn (by simp [hsocket])⟩
  · refine (h.interest fd').trans ?_
    cases hd : s.poller.channels fd' with
    | none => simp [hd]
    | some d =>
      have hdc := hold (h.current fd' d hd)
      simp [hd, conns_set_of_ne s hdc]
  · have hd := h.current fd' d hd
    exact (hnew d fd').mpr (.inl ⟨hd, hold hd⟩)
  · rcases (hnew d fd').mp hd with ⟨hdold, -⟩ | ⟨hdc, hfd'⟩
    · rcases (hnew e fd').mp he with ⟨heold, -⟩ | ⟨-, hfd'⟩
      · exact h.alone fd' d e hdold heold
      · exact absurd (hfd' ▸ hdold) (hfree d)
    · rcases (hnew e fd').mp he with ⟨heold, -⟩ | ⟨hec, -⟩
      · exact absurd (hfd' ▸ heold) (hfree e)
      · exact hdc.trans hec.symm
  · by_cases hne : fd' = fd
    · subst hne
      simp [Poller.opened]
    · have hd := ((hnew d fd').mp hd).resolve_right fun hd => hne hd.2
      simp only [Poller.opened, Function.update_of_ne hne]
      exact h.isOpen fd' d hd.1

/-! ## The functions of a connection -/

/-- The two agree, and what is under way is about connections with an open descriptor. -/
structure Tended (s : Loop) : Prop where
  mirrors : Mirrors s
  frames : ∀ f ∈ s.stack, ∀ c ∈ f.drives, s.Open c
  active : ∀ active, s.phase = .handle active → ∀ c ∈ active, s.Open c

/-- The poller and the connections are those of a state that mirrors. -/
theorem Mirrors.same (h : Mirrors s) (hpoller : s'.poller = s.poller)
    (hconns : s'.conns = s.conns) : Mirrors s' := by
  refine h.congr hpoller (fun c => by rw [hconns]) ?_
  rw [hconns]
  exact h.closed

theorem Tended.set (h : Tended s) (hc : s.conns c = some conn) (conn' : Connection)
    (hevent : conn'.event = conn.event) (hfd : conn'.sockfd = conn.sockfd)
    (hsocket : conn'.socket = conn.socket)
    (hclosed : conn.socket = none → conn'.status = .disconnected) : Tended (s.set c conn') := by
  have hopen : ∀ d, (s.set c conn').Open d ↔ s.Open d := by
    intro d
    rw [Open, socket_set hc conn' hsocket d]
    rfl
  exact ⟨h.mirrors.set hc conn' hevent hfd hsocket hclosed,
    fun f hf d hd => (hopen d).mpr (h.frames f hf d hd),
    fun active hp d hd => (hopen d).mpr (h.active active hp d hd)⟩

theorem Tended.unpate (h : Tended s) (hc : s.conns c = some conn) (hopen : s.Open c)
    (mask : UInt32) :
    Tended (s.unpate c { conn with event := mask }) := by
  have hkeep : ∀ d, (s.unpate c { conn with event := mask }).Open d ↔ s.Open d := by
    intro d
    rw [Open, Loop.unpate]
    dsimp only
    rw [socket_set hc { conn with event := mask } rfl d]
    rfl
  exact ⟨h.mirrors.unpate hc hopen mask, fun f hf d hd => (hkeep d).mpr (h.frames f hf d hd),
    fun active hp d hd => (hkeep d).mpr (h.active active hp d hd)⟩

theorem Tended.push (h : Tended s) {f : Frame} (hf : ∀ c ∈ f.drives, s.Open c) :
    Tended (s.push f) := by
  refine ⟨h.mirrors.same rfl rfl, fun g hg => ?_, h.active⟩
  rcases List.mem_cons.mp hg with rfl | hg
  · exact hf
  · exact h.frames g hg

theorem Tended.pushUser (h : Tended s) : Tended (s.push .user) := h.push (by simp [Frame.drives])

theorem Tended.pushRelease (h : Tended s) (c : Nat) : Tended (s.push (.release c)) :=
  h.push (by simp [Frame.drives])

theorem Tended.pop {f : Frame} {stack : List Frame} (h : Tended s) (hs : s.stack = f :: stack) :
    Tended { s with stack := stack } :=
  ⟨h.mirrors.same rfl rfl, fun g hg => h.frames g (hs ▸ List.mem_cons_of_mem f hg), h.active⟩

theorem Tended.inPhase (h : Tended s) (phase : Phase)
    (hphase : ∀ active, phase = .handle active → ∀ c ∈ active, s.Open c) :
    Tended { s with phase := phase } :=
  ⟨h.mirrors.same rfl rfl, h.frames, hphase⟩

theorem Tended.withWheel (h : Tended s) (w : TimeWheel Nat) : Tended { s with wheel := w } :=
  ⟨h.mirrors.same rfl rfl, h.frames, h.active⟩

theorem Tended.queueInLoop (h : Tended s) (task : Task) : Tended (s.queueInLoop task) :=
  ⟨h.mirrors.same rfl rfl, h.frames, h.active⟩

theorem Tended.invoke (h : Tended s) (c : Nat) (conn : Connection) (kind : Callback) :
    Tended (s.invoke c conn kind) := by
  obtain ⟨calls, frames, he, -, -, hframes⟩ := invoke_spec s c conn kind
  rw [he]
  refine ⟨h.mirrors.same rfl rfl, fun f hf => ?_, h.active⟩
  rcases List.mem_append.mp hf with hf | hf
  · rw [hframes f hf]
    simp [Frame.drives]
  · exact h.frames f hf

theorem Tended.message (h : Tended s) (c : Nat) (conn : Connection) :
    Tended (s.message c conn) := by
  unfold Loop.message
  split
  · exact h.invoke c conn .message
  · exact h

theorem Tended.shutDownInLoop (h : Tended s) (hc : s.conns c = some conn) (hopen : s.Open c) :
    Tended (s.shutDownInLoop c conn) := by
  have hsome := (open_iff hc).mp hopen
  have hset := h.set hc { conn with status := .disconnecting } rfl rfl rfl fun hnone => by
    rw [hnone] at hsome; cases hsome
  have hpush := hset.push (f := .shutDownRest c) fun d hd => by
    cases hd
    exact (open_iff (conns_set s c { conn with status := .disconnecting })).mpr hsome
  exact hpush.message c { conn with status := .disconnecting }

theorem Tended.shutDownRest (h : Tended s) (hc : s.conns c = some conn) (hopen : s.Open c) :
    Tended (s.shutDownRest c conn) := by
  unfold Loop.shutDownRest
  split
  · split
    · exact h
    · exact h.unpate hc hopen _
  · exact h.pushRelease c

theorem Tended.handerRead (h : Tended s) (hc : s.conns c = some conn) (hopen : s.Open c)
    {r : SysResult} {bytes : Bytes} (hrun : s.handerRead c conn r bytes = some s') : Tended s' := by
  unfold Loop.handerRead at hrun
  split at hrun
  · cases hrun
    exact h.shutDownInLoop hc hopen
  · obtain ⟨inbuffer, -, hrun⟩ := Option.bind_eq_some_iff.mp hrun
    cases hrun
    have hset :=
      h.set hc { conn with inbuffer := inbuffer } rfl rfl rfl (h.mirrors.closed c conn hc)
    exact hset.message c { conn with inbuffer := inbuffer }

theorem Tended.handerClose (h : Tended s) (c : Nat) (conn : Connection) :
    Tended (s.handerClose c conn) :=
  (h.pushRelease c).message c conn

theorem Tended.handerWrite (h : Tended s) (hc : s.conns c = some conn) (hopen : s.Open c)
    {r : SysResult} (hrun : s.handerWrite c conn r = some s') : Tended s' := by
  unfold Loop.handerWrite at hrun
  dsimp only at hrun
  split at hrun
  · cases hrun
    exact h.handerClose c conn
  · obtain ⟨outbuffer, -, hrun⟩ := Option.bind_eq_some_iff.mp hrun
    have hset :=
      h.set hc { conn with outbuffer := outbuffer } rfl rfl rfl (h.mirrors.closed c conn hc)
    split at hrun
    · have hfound := conns_set s c { conn with outbuffer := outbuffer }
      have hdel := hset.unpate hfound ((open_iff hfound).mpr ((open_iff hc).mp hopen))
        (conn.event &&& ~~~epollOut)
      split at hrun
      · cases hrun
        exact hdel.pushRelease c
      · cases hrun
        exact hdel
    · cases hrun
      exact hset

theorem Tended.handerEvent (h : Tended s) (hrun : s.handerEvent c conn = some s') : Tended s' := by
  obtain ⟨wheel, -, hrun⟩ := Option.bind_eq_some_iff.mp hrun
  cases hrun
  exact (h.withWheel wheel).invoke c conn .event

/-- Nothing is sent on a connection that is closed. -/
theorem Tended.sendInLoop (h : Tended s) (hc : s.conns c = some conn) {b : Buffer}
    (hrun : s.sendInLoop c conn b = some s') : Tended s' := by
  unfold Loop.sendInLoop at hrun
  split at hrun
  · cases hrun
    exact h
  · rename_i hstatus
    obtain ⟨outbuffer, -, hrun⟩ := Option.bind_eq_some_iff.mp hrun
    have hset :=
      h.set hc { conn with outbuffer := outbuffer } rfl rfl rfl (h.mirrors.closed c conn hc)
    have hfound := conns_set s c { conn with outbuffer := outbuffer }
    have hsome : conn.socket.isSome :=
      Option.isSome_iff_ne_none.mpr fun hnone => hstatus (h.mirrors.closed c conn hc hnone)
    dsimp only at hrun
    split at hrun
    · cases hrun
      exact hset
    · cases hrun
      exact hset.unpate hfound ((open_iff hfound).mpr hsome) _

theorem Tended.establishedInLoop (h : Tended s) (hc : s.conns c = some conn) :
    Tended (s.establishedInLoop c conn) := by
  unfold Loop.establishedInLoop
  split
  · exact h
  · rename_i hstatus
    have hsome : conn.socket.isSome := by
      refine Option.isSome_iff_ne_none.mpr fun hnone => hstatus ?_
      rw [h.mirrors.closed c conn hc hnone]
      decide
    exact (h.unpate hc ((open_iff hc).mpr hsome) _).invoke c conn .connect

theorem Tended.disableTimeoutDelInLoop (h : Tended s) (hc : s.conns c = some conn) :
    Tended (s.disableTimeoutDelInLoop c conn) :=
  (h.set hc { conn with isEnableTimeDel := false } rfl rfl rfl (h.mirrors.closed c conn hc)).withWheel _

theorem Tended.enableTimeoutDelInLoop (h : Tended s) (hc : s.conns c = some conn) {sec : Int}
    (hrun : s.enableTimeoutDelInLoop c conn sec = some s') : Tended s' := by
  obtain ⟨wheel, -, hrun⟩ := Option.bind_eq_some_iff.mp hrun
  cases hrun
  exact (h.set hc { conn with isEnableTimeDel := true } rfl rfl rfl (h.mirrors.closed c conn hc)).withWheel wheel

/-- `ReleaseInloop` is run from the loop itself, with no other function under way. -/
theorem Tended.releaseInloop (h : Tended s) (hc : s.conns c = some conn) (hopen : s.Open c)
    (hs : s.stack = []) (hp : ∀ active, s.phase ≠ .handle active) :
    Tended (s.releaseInloop c conn) := by
  have hclosed : Tended (s.detach c conn) := by
    refine ⟨h.mirrors.detach hc hopen, ?_, fun active hphase => absurd hphase (hp active)⟩
    have hstack : (s.detach c conn).stack = [] := hs
    simp [hstack]
  unfold Loop.releaseInloop
  dsimp only
  split
  · have hfound : (s.detach c conn).conns c =
        some { conn with status := .disconnected, socket := none } :=
      conns_set s c { conn with status := .disconnected, socket := none }
    exact ((hclosed.disableTimeoutDelInLoop hfound).push (by simp [Frame.drives])).invoke c conn .close
  · exact (hclosed.push (by simp [Frame.drives])).invoke c conn .close

theorem Tended.runTask (h : Tended s) {task : Task} (hnot : task.releases = none)
    (hends : ∀ c ∈ task.ends, s.Open c) (hrun : s.runTask task = some s') : Tended s' := by
  cases task with
  | user =>
    cases hrun
    exact h.pushUser
  | releaseInloop c => cases hnot
  | sendInLoop c b =>
    obtain ⟨conn, hc, hrun⟩ := Option.bind_eq_some_iff.mp hrun
    exact h.sendInLoop hc hrun
  | shutDownInLoop c =>
    obtain ⟨conn, hc, hrun⟩ := Option.bind_eq_some_iff.mp hrun
    cases hrun
    exact h.shutDownInLoop hc (hends c rfl)
  | enableTimeoutDelInLoop c sec =>
    obtain ⟨conn, hc, hrun⟩ := Option.bind_eq_some_iff.mp hrun
    exact h.enableTimeoutDelInLoop hc hrun
  | disableTimeoutDelInLoop c =>
    obtain ⟨conn, hc, hrun⟩ := Option.bind_eq_some_iff.mp hrun
    cases hrun
    exact h.disableTimeoutDelInLoop hc
  | establishedInLoop c =>
    obtain ⟨conn, hc, hrun⟩ := Option.bind_eq_some_iff.mp hrun
    cases hrun
    exact h.establishedInLoop hc

theorem Tended.runFrame (h : Tended s) {f : Frame} (hf : ∀ c ∈ f.drives, s.Open c)
    (hrun : s.runFrame f = some s') :
    Tended s' := by
  cases f with
  | handerRead c => cases hrun
  | handerWrite c => cases hrun
  | user => cases hrun
  | release c =>
    cases hrun
    exact h.queueInLoop _
  | handerClose c =>
    obtain ⟨conn, -, hrun⟩ := Option.bind_eq_some_iff.mp hrun
    cases hrun
    exact h.handerClose c conn
  | handerErr c =>
    obtain ⟨conn, -, hrun⟩ := Option.bind_eq_some_iff.mp hrun
    cases hrun
    exact h.handerClose c conn
  | handerEvent c =>
    obtain ⟨conn, -, hrun⟩ := Option.bind_eq_some_iff.mp hrun
    exact h.handerEvent hrun
  | shutDownRest c =>
    obtain ⟨conn, hc, hrun⟩ := Option.bind_eq_some_iff.mp hrun
    cases hrun
    exact h.shutDownRest hc (hf c rfl)
  | serverClosed c =>
    obtain ⟨conn, -, hrun⟩ := Option.bind_eq_some_iff.mp hrun
    cases hrun
    exact h.invoke c conn .serverClosed

/-! ## The steps -/

/-- No connection whose descriptor is closed is shut down or released. -/
def SparesClosed (s : Loop) (a : Act) : Prop := ∀ task ∈ s.executes a, ∀ c ∈ task.ends, s.Open c

instance (s : Loop) (a : Act) : Decidable (s.SparesClosed a) :=
  inferInstanceAs (Decidable (∀ task ∈ s.executes a, ∀ c ∈ task.ends, s.Open c))

/-- Reports only go to connections that have the descriptor, and only leave them their events. -/
theorem Tended.poll (h : Tended s) {ready : List (Nat × UInt32)} {active : List Nat}
    (hpoll : s.poll ready = some (s', active)) : Tended s' ∧ ∀ c ∈ active, s'.Open c := by
  induction ready generalizing s active with
  | nil =>
    cases hpoll
    exact ⟨h, nofun⟩
  | cons e ready ih =>
    obtain ⟨c, hch, hpoll⟩ := Option.bind_eq_some_iff.mp hpoll
    obtain ⟨conn, hc, hpoll⟩ := Option.bind_eq_some_iff.mp hpoll
    obtain ⟨⟨s₁, active₁⟩, hrest, hpoll⟩ := Option.bind_eq_some_iff.mp hpoll
    cases hpoll
    have hset := h.set hc { conn with revent := e.2 } rfl rfl rfl (h.mirrors.closed c conn hc)
    obtain ⟨h', hactive⟩ := ih hset hrest
    obtain ⟨conns, rfl, hsame, -, -⟩ := poll_eq hrest
    refine ⟨h', fun d hd => ?_⟩
    rcases List.mem_cons.mp hd with rfl | hd
    · have hold : (s.set d { conn with revent := e.2 }).Open d :=
        (open_iff (conns_set s d _)).mpr ((open_iff hc).mp (h.mirrors.current e.1 d hch).isOpen)
      have hsocket := congrArg (fun o => (Option.bind o Connection.socket).isSome) (hsame d)
      simp only [Option.bind_map, Function.comp_def] at hsocket
      rw [Open]
      exact hsocket.trans hold
    · exact hactive d hd

theorem Tended.step (h : Tended s) {a : Act} (ha : s.SparesClosed a) (hstep : step s a = some s') :
    Tended s' := by
  cases a with
  | pollReturn ready =>
    obtain ⟨-, -, polled, active, hpoll, rfl⟩ := step_pollReturn hstep
    obtain ⟨h', hactive⟩ := h.poll hpoll
    refine h'.inPhase _ fun active' hp => ?_
    cases hp
    exact hactive
  | handle =>
    obtain ⟨c, active, conn, hp, hs, hc, rfl⟩ := step_handle hstep
    have hopen := h.active _ hp
    refine ⟨h.mirrors.same rfl rfl, fun f hf d hd => ?_, fun active' hp' d hd => ?_⟩
    · have hfor : some d = some c :=
        (Frame.conn_of_drives hd).symm.trans (conn_channelHanderEvent hf)
      exact Option.some.inj hfor ▸ hopen c List.mem_cons_self
    · cases hp'
      exact hopen d (List.mem_cons_of_mem c hd)
  | timer =>
    obtain ⟨active, hp, hs, rfl⟩ := step_timer hstep
    refine ⟨h.mirrors.same rfl rfl, fun f hf => ?_, h.active⟩
    rcases List.mem_append.mp hf with hf | hf
    · obtain ⟨t, -, rfl⟩ := List.mem_map.mp hf
      simp [Frame.drives]
    · exact h.frames f hf
  | other =>
    obtain ⟨-, -, -, rfl⟩ := step_other hstep
    exact h.pushUser
  | swap =>
    obtain ⟨-, -, rfl⟩ := step_swap hstep
    exact ⟨h.mirrors.same rfl rfl, h.frames, by simp⟩
  | runTask =>
    obtain ⟨task, batch, hp, hs, hrun⟩ := step_runTask hstep
    have hbatch : Tended { s with phase := .run batch } := h.inPhase (.run batch) (by simp)
    have hends : ∀ c ∈ task.ends, s.Open c := ha task (by simp [executes, hp])
    rcases runTask_cases hrun with ⟨rfl, -⟩ | ⟨c, conn, rfl, hc, rfl⟩ | ⟨c, -, hnot, -⟩
    · exact hbatch.runTask rfl hends hrun
    · exact hbatch.releaseInloop hc (hends c rfl) hs (by simp)
    · exact hbatch.runTask hnot hends hrun
  | batchDone =>
    obtain ⟨-, -, rfl⟩ := step_batchDone hstep
    exact h.inPhase .poll (by simp)
  | next =>
    obtain ⟨f, stack, hs, hrun⟩ := step_next hstep
    exact (h.pop hs).runFrame (h.frames f (hs ▸ List.mem_cons_self)) hrun
  | recv r bytes =>
    obtain ⟨c, stack, conn, hs, hc, -, hrun⟩ := step_recv hstep
    exact (h.pop hs).handerRead hc (h.frames _ (hs ▸ List.mem_cons_self) c rfl) hrun
  | send r =>
    obtain ⟨c, stack, conn, hs, hc, hrun⟩ := step_send hstep
    exact (h.pop hs).handerWrite hc (h.frames _ (hs ▸ List.mem_cons_self) c rfl) hrun
  | call task =>
    obtain ⟨-, hnot, hrun⟩ := step_call hstep
    exact h.runTask hnot (ha task rfl) hrun
  | release c =>
    obtain ⟨-, -, rfl⟩ := step_release hstep
    exact h.pushRelease c
  | changeProtocal c connectCb closeCb msgCb =>
    obtain ⟨-, conn, hc, rfl⟩ := step_changeProtocal hstep
    exact h.set hc _ rfl rfl rfl (h.mirrors.closed c conn hc)
  | consume c len =>
    obtain ⟨-, conn, inbuffer, hc, -, rfl⟩ := step_consume hstep
    exact h.set hc _ rfl rfl rfl (h.mirrors.closed c conn hc)
  | ret =>
    obtain ⟨stack, hs, rfl⟩ := step_ret hstep
    exact h.pop hs
  | newConnection c fd callbacks =>
    obtain ⟨hc, hfd, rfl⟩ := step_newConnection hstep
    have hkeep : ∀ d, s.Open d →
        ((s.set c ⟨fd, .connecting, false, some fd, 0, 0, Buffer.empty, Buffer.empty,
        callbacks⟩).conns d).bind Connection.socket ≠ none := by
      intro d hd
      by_cases hdc : d = c
      · subst hdc
        simp
      · rw [conns_set_of_ne s hdc]
        exact Option.isSome_iff_ne_none.mp hd
    exact ⟨h.mirrors.newConnection hc hfd rfl rfl,
      fun f hf d hd => Option.isSome_iff_ne_none.mpr (hkeep d (h.frames f hf d hd)),
      fun active hp d hd => Option.isSome_iff_ne_none.mpr (hkeep d (h.active active hp d hd))⟩
  | post task =>
    cases hstep
    exact h.queueInLoop task

theorem tended_start : Tended start :=
  ⟨⟨fun _ => rfl, nofun, nofun, nofun, nofun, nofun⟩, nofun, nofun⟩

/-! ## What the kernel reports -/

/-- What `epoll_wait` can report: watched descriptors, each once. -/
def Reports (s : Loop) (ready : List (Nat × UInt32)) : Prop :=
  (ready.map Prod.fst).Nodup ∧ ∀ e ∈ ready, (s.poller.interest e.1).isSome

/-- Whatever the kernel can report is delivered, each event to the connection that has the
descriptor open. -/
def Delivers (s : Loop) : Prop :=
  ∀ ready, s.Reports ready → ∃ s' active, s.poll ready = some (s', active) ∧
    List.Forall₂ (fun e c => s.Holds c e.1 ∧
      (s'.conns c).map Connection.revent = some e.2) ready active

/-- The reports are found one after the other, and connections with other descriptors see
none of them. -/
theorem Mirrors.poll (h : Mirrors s) {ready : List (Nat × UInt32)} (hready : s.Reports ready) :
    ∃ s' active, s.poll ready = some (s', active) ∧
      List.Forall₂ (fun e c => s.Holds c e.1 ∧
        (s'.conns c).map Connection.revent = some e.2) ready active ∧
      ∀ c, (∀ e ∈ ready, ¬s.Holds c e.1) → s'.conns c = s.conns c := by
  induction ready generalizing s with
  | nil => exact ⟨s, [], rfl, .nil, fun _ _ => rfl⟩
  | cons e ready ih =>
    obtain ⟨fd, revent⟩ := e
    obtain ⟨hnodup, hwatched⟩ := hready
    obtain ⟨hfresh, hnodup⟩ := List.nodup_cons.mp hnodup
    have hsome := hwatched _ List.mem_cons_self
    rw [h.registered] at hsome
    obtain ⟨c, hch⟩ := Option.isSome_iff_exists.mp hsome
    have hholds := h.current fd c hch
    obtain ⟨conn, hc, hsocket⟩ := Option.bind_eq_some_iff.mp hholds
    have hset := h.set hc { conn with revent := revent } rfl rfl rfl (h.closed c conn hc)
    have hsame : ∀ d fd', (s.set c { conn with revent := revent }).Holds d fd' ↔ s.Holds d fd' := by
      intro d fd'
      rw [Holds, socket_set hc { conn with revent := revent } rfl d]
      rfl
    obtain ⟨s', active, hpoll, hactive, hframe⟩ :=
      ih hset ⟨hnodup, fun e he => hwatched e (List.mem_cons_of_mem _ he)⟩
    have hkept : s'.conns c = some { conn with revent := revent } := by
      rw [hframe c, conns_set]
      intro e he hheld
      have hfd : e.1 = fd := Option.some.inj (((hsame c e.1).mp hheld).symm.trans hholds)
      exact hfresh (List.mem_map.mpr ⟨e, he, hfd⟩)
    refine ⟨s', c :: active, ?_, .cons ⟨hholds, by rw [hkept]; rfl⟩ ?_, fun d hd => ?_⟩
    · rw [Loop.poll, hch]
      simp [hc, hpoll]
    · simpa only [hsame] using hactive
    · have hdc : d ≠ c := by
        rintro rfl
        exact hd _ List.mem_cons_self hholds
      rw [hframe d fun e he hheld => hd e (List.mem_cons_of_mem _ he) ((hsame d e.1).mp hheld),
        conns_set_of_ne s hdc]

/-- In every run in which no connection is shut down or released again after its descriptor is
closed, the kernel, the map and the masks agree, what the kernel reports under a descriptor goes to
the connection that has it now, and no handler runs for a connection that has none. -/
theorem loop_mirrors (acts : List Act) (s : Loop) (hacts : Along step SparesClosed start acts)
    (h : exec step start acts = some s) :
    Mirrors s ∧ Delivers s ∧ ∀ f ∈ s.stack, ∀ c ∈ f.drives, s.Open c := by
  have htended : Tended s :=
    exec_invariant Tended (fun _ _ _ hI ha hstep => hI.step ha hstep) tended_start hacts h
  refine ⟨htended.mirrors, fun ready hready => ?_, htended.frames⟩
  obtain ⟨s', active, hpoll, hactive, -⟩ := htended.mirrors.poll hready
  exact ⟨s', active, hpoll, hactive⟩

/-- Descriptor 7 goes from connection 1 to connection 2, which has something to read. -/
def handedOn : List Act :=
  [.pollReturn [], .other, .newConnection 1 7 fun _ => some 1, .post (.establishedInLoop 1), .ret,
    .swap, .runTask, .ret,
    .batchDone, .pollReturn [(7, epollHup)], .handle, .next, .next, .next, .ret, .swap, .runTask,
    .call (.sendInLoop 1 Buffer.empty), .ret, .next, .ret, .batchDone, .pollReturn [], .other,
    .newConnection 2 7 fun _ => some 2, .post (.establishedInLoop 2), .ret, .swap, .runTask,
    .call (.sendInLoop 1 Buffer.empty), .ret, .batchDone, .pollReturn [(7, epollIn)], .handle]

theorem loop_mirrors_handedOn :
    ∃ s, exec step start handedOn = some s ∧ s.poller.channels 7 = some 2 ∧
    Mirrors s ∧ Delivers s ∧ ∀ f ∈ s.stack, ∀ c ∈ f.drives, s.Open c := by
  have hrun : ((exec step start handedOn).map fun s => s.poller.channels 7) = some (some 2) := by
    decide +kernel
  obtain ⟨s, hs, hch⟩ := Option.map_eq_some_iff.mp hrun
  exact ⟨s, hs, hch, loop_mirrors handedOn s (by decide +kernel) hs⟩

end Loop
end MuduoServer
