import MuduoServer.ConnTable

/-!
# Ids

One counter of 64 bits gives the ids of connections and of `RunAfter` tasks. A connection keeps its
id in an `int` and widens it again where it is a key or a timer id. The ids that survive this are
the lowest and the highest 2³¹; for these, the table and the timers are those of the counter.
-/
namespace MuduoServer

open StdString Transition

namespace TcpSever

/-- `_Conn_Id`, and `_Timer_Id` with it, widened to `uint64_t`. -/
def ConnObject.timerId (c : ConnObject) : Nat := toSizeT c.connId

/-- What ids have been used for. -/
structure Ids where
  /-- The connections with the keys that `NewConnection` has entered them under. -/
  entries : List (Nat × Nat)
  /-- The timer ids of the `RunAfter` tasks. -/
  timers : List Nat
  deriving DecidableEq

def Ids.note (g : Ids) (s : TcpSever) (a : Act) : Ids :=
  match s.idEvent a with
  | some (.enter x) => { g with entries := g.entries ++ [(x, s.connId)] }
  | some .timer => { g with timers := g.timers ++ [s.nextId.connId] }
  | _ => g

/-- The ids used in a run. -/
def ids (isAbleDelayDel : Bool) (threadCnt : Nat) : List Act → Ids :=
  recorded step Ids.note ⟨[], []⟩ (start isAbleDelayDel threadCnt)

/-- The id of a connection survives the `int`, and `NewConnection` enters the
connection under it. -/
def KeepsId (s : TcpSever) (a : Act) : Prop :=
  EntersFirst s a ∧ (a = .accept → s.nextId.connId < 2 ^ 31 ∨ 2 ^ 64 ≤ s.nextId.connId + 2 ^ 31)

instance (s : TcpSever) (a : Act) : Decidable (KeepsId s a) := inferInstanceAs (Decidable (_ ∧ _))

theorem toSizeT_toInt {n : Nat} (hn : n < 2 ^ 64) (h : n < 2 ^ 31 ∨ 2 ^ 64 ≤ n + 2 ^ 31) :
    toSizeT (toInt n) = n := by
  unfold toSizeT toInt
  rw [Int.bmod_def]
  split <;> omega

/-- What holds while the counter has not wrapped. -/
structure IdsFaithful (s : TcpSever) (g : Ids) : Prop where
  counter : s.connId = s.issued
  used : ∀ id ∈ s.objects.map ConnObject.timerId ++ g.timers, id ≤ s.issued
  distinct : (s.objects.map ConnObject.timerId ++ g.timers).Nodup
  entries : ∀ x k, (x, k) ∈ g.entries → ∃ conn, s.objects[x]? = some conn ∧ conn.timerId = k
  listed : ∀ k x, s.conns k = some x → (x, k) ∈ g.entries
  entering : ∀ x ∈ s.entering, ∃ conn, s.objects[x]? = some conn ∧ conn.timerId = s.connId
  entered : ∀ x, x < s.objects.length → x ∈ s.entering ∨ ∃ k, (x, k) ∈ g.entries

variable {s s' : TcpSever} {g : Ids}

/-- The ids, the table and the connections are the same. -/
theorem IdsFaithful.same {t : TcpSever} (h : IdsFaithful s g) (hobjects : t.objects = s.objects)
    (hconns : t.conns = s.conns) (hconnId : t.connId = s.connId) (hissued : t.issued = s.issued)
    (hentering : t.entering = s.entering) :
    IdsFaithful t g where
  counter := by rw [hconnId, hissued]; exact h.counter
  used := by rw [hobjects, hissued]; exact h.used
  distinct := by rw [hobjects]; exact h.distinct
  entries := by rw [hobjects]; exact h.entries
  listed := by rw [hconns]; exact h.listed
  entering := by rw [hentering, hobjects, hconnId]; exact h.entering
  entered := by rw [hobjects, hentering]; exact h.entered

theorem IdsFaithful.kept {t : TcpSever} (h : IdsFaithful s g) (hk : Kept s t) : IdsFaithful t g :=
  h.same hk.objects hk.conns hk.connId hk.issued hk.entering

/-- Connections with the same timer id are the same. -/
theorem IdsFaithful.timerId_inj (h : IdsFaithful s g) {x y : Nat} {c d : ConnObject}
    (hx : s.objects[x]? = some c) (hy : s.objects[y]? = some d) (he : c.timerId = d.timerId) :
    x = y := by
  obtain ⟨hxlt, rfl⟩ := List.getElem?_eq_some_iff.mp hx
  obtain ⟨hylt, rfl⟩ := List.getElem?_eq_some_iff.mp hy
  have hnodup := (List.nodup_append.mp h.distinct).1
  have hxmap : x < (s.objects.map ConnObject.timerId).length := by simpa using hxlt
  have hymap : y < (s.objects.map ConnObject.timerId).length := by simpa using hylt
  have hids : (s.objects.map ConnObject.timerId)[x] = (s.objects.map ConnObject.timerId)[y] := by
    simpa using he
  exact hnodup.getElem_inj_iff.mp hids

/-- A connection is entered under one key. -/
theorem IdsFaithful.entry_unique (h : IdsFaithful s g) {x y k : Nat} (hx : (x, k) ∈ g.entries)
    (hy : (y, k) ∈ g.entries) :
    x = y := by
  obtain ⟨c, hc, hck⟩ := h.entries x k hx
  obtain ⟨d, hd, hdk⟩ := h.entries y k hy
  exact h.timerId_inj hc hd (hck.trans hdk.symm)

theorem IdsFaithful.create (h : IdsFaithful s g) (hs : s.issued + 1 < 2 ^ 64)
    (hstack : (s.loops 0).stack = []) (hid : s.nextId.connId < 2 ^ 31 ∨
      2 ^ 64 ≤ s.nextId.connId + 2 ^ 31) : IdsFaithful s.newConnection g := by
  obtain ⟨loop, hobjects, hconnId, hissued, hconns, -, hbase, -⟩ := s.newConnection_spec
  have hnext : (s.connId + 1) % 2 ^ 64 = s.issued + 1 := by rw [h.counter, Nat.mod_eq_of_lt hs]
  have hnew : (⟨toInt ((s.connId + 1) % 2 ^ 64), loop⟩ : ConnObject).timerId = s.issued + 1 := by
    simp only [nextId, hnext] at hid
    simp only [ConnObject.timerId, hnext]
    exact toSizeT_toInt hs hid
  have hentering : s.newConnection.entering = [s.objects.length] := by
    rw [TcpSever.entering, hbase, hstack]
    rfl
  have hempty : s.entering = [] := by rw [TcpSever.entering, hstack]; rfl
  have hids : ∀ id, id ∈ s.newConnection.objects.map ConnObject.timerId ++ g.timers →
      id ∈ s.objects.map ConnObject.timerId ++ g.timers ∨ id = s.issued + 1 := by
    intro id hid
    rw [hobjects, List.map_append, List.map_singleton, hnew] at hid
    rcases List.mem_append.mp hid with hid | hid
    · rcases List.mem_append.mp hid with hid | hid
      · exact .inl (List.mem_append_left _ hid)
      · exact .inr (List.mem_singleton.mp hid)
    · exact .inl (List.mem_append_right _ hid)
  have hfresh : s.issued + 1 ∉ s.objects.map ConnObject.timerId ++ g.timers :=
    fun hin => Nat.not_succ_le_self _ (h.used _ hin)
  have hold : ∀ {x : Nat} {conn : ConnObject}, s.objects[x]? = some conn →
      s.newConnection.objects[x]? = some conn := by
    intro x conn hx
    rw [hobjects, List.getElem?_append_left (List.getElem?_eq_some_iff.mp hx).1, hx]
  constructor
  · rw [hconnId, hissued, hnext]
  · intro id hid
    rw [hissued]
    rcases hids id hid with hid | rfl
    · exact Nat.le_succ_of_le (h.used id hid)
    · exact Nat.le_refl _
  · rw [hobjects, List.map_append, List.map_singleton, hnew, List.append_assoc]
    refine List.nodup_middle.mpr (List.nodup_cons.mpr ⟨hfresh, h.distinct⟩)
  · intro x k hx
    obtain ⟨conn, hconn, hk⟩ := h.entries x k hx
    exact ⟨conn, hold hconn, hk⟩
  · rw [hconns]
    exact h.listed
  · intro x hx
    rw [hentering, List.mem_singleton] at hx
    rw [hx, hconnId, hnext, hobjects, List.getElem?_concat_length]
    exact ⟨_, rfl, hnew⟩
  · intro x hx
    rw [hobjects, List.length_append, List.length_singleton] at hx
    rw [hentering, List.mem_singleton]
    rcases Nat.lt_succ_iff_lt_or_eq.mp hx with hx | hx
    · refine .inr ((h.entered x hx).resolve_left ?_)
      rw [hempty]
      exact List.not_mem_nil
    · exact .inl hx

theorem IdsFaithful.enter (h : IdsFaithful s g) {x : Nat} {stack : List Frame}
    (hstack : (s.loops 0).stack = .insert x :: stack) :
    IdsFaithful ((s.setLoop 0 { s.loops 0 with stack := stack }).insertConn x)
      { g with entries := g.entries ++ [(x, s.connId)] } := by
  obtain ⟨hobjects, hconnId, hissued, -, hloops, hconns⟩ :=
    insertConn_spec (s.setLoop 0 { s.loops 0 with stack := stack }) x
  have hentering : s.entering = x :: stack.filterMap Frame.inserts := by
    rw [TcpSever.entering, hstack]; rfl
  have htail : ((s.setLoop 0 { s.loops 0 with stack := stack }).insertConn x).entering =
      stack.filterMap Frame.inserts := by
    rw [TcpSever.entering, hloops, loops_setLoop]
  constructor
  · rw [hconnId, hissued]
    exact h.counter
  · rw [hobjects, hissued]
    exact h.used
  · rw [hobjects]
    exact h.distinct
  · intro y k hy
    rw [hobjects]
    rcases List.mem_append.mp hy with hy | hy
    · exact h.entries y k hy
    · cases List.mem_singleton.mp hy
      exact h.entering x (hentering ▸ List.mem_cons_self)
  · intro k y hy
    rw [hconns] at hy
    refine List.mem_append.mpr ?_
    split at hy
    · exact .inl (h.listed k y hy)
    · by_cases hk : k = s.connId
      · subst hk
        cases (Function.update_self _ _ _).symm.trans hy
        exact .inr (List.mem_singleton.mpr rfl)
      · exact .inl (h.listed k y ((Function.update_of_ne hk _ _).symm.trans hy))
  · intro y hy
    rw [hobjects, hconnId]
    exact h.entering y (hentering ▸ List.mem_cons_of_mem x (htail ▸ hy))
  · intro y hy
    rw [hobjects] at hy
    rw [htail]
    rcases h.entered y hy with hy | ⟨k, hk⟩
    · rw [hentering] at hy
      rcases List.mem_cons.mp hy with rfl | hy
      · exact .inr ⟨s.connId, List.mem_append_right _ (List.mem_singleton.mpr rfl)⟩
      · exact .inl hy
    · exact .inr ⟨k, List.mem_append_left _ hk⟩

/-- The entry of the connection `x` is erased, if it is still there, and no other. -/
def ErasesOwn (s : TcpSever) (g : Ids) (x : Nat) (s' : TcpSever) : Prop :=
  ∃ k, (x, k) ∈ g.entries ∧ s'.conns = Function.update s.conns k none ∧
    (∀ y, s.conns k = some y → y = x) ∧
    ¬s'.InTable x

/-- `RemoveConnectionInLoop` finds the entry of its connection. -/
theorem IdsFaithful.erase (h : IdsFaithful s g) {x : Nat} (hentering : s.entering = [])
    (hstep : s.removeConnectionInLoop x = some s') :
    IdsFaithful s' g ∧ ErasesOwn s g x s' := by
  obtain ⟨conn, hobj, he⟩ := Option.bind_eq_some_iff.mp hstep
  cases he
  obtain ⟨k, hk⟩ := (h.entered x (List.getElem?_eq_some_iff.mp hobj).1).resolve_left (by
    rw [hentering]
    exact List.not_mem_nil)
  obtain ⟨conn', hobj', hkey⟩ := h.entries x k hk
  cases hobj.symm.trans hobj'
  have hleft : ∀ k' y, Function.update s.conns (toSizeT conn.connId) none k' = some y → k' ≠ k ∧
      s.conns k' = some y := by
    intro k' y hy
    by_cases hk' : k' = toSizeT conn.connId
    · subst hk'
      cases (Function.update_self _ _ _).symm.trans hy
    · exact ⟨fun he => hk' (he.trans hkey.symm), (Function.update_of_ne hk' _ _).symm.trans hy⟩
  refine ⟨⟨h.counter, h.used, h.distinct, h.entries, fun k' y hy => ?_, h.entering, h.entered⟩, k,
    hk, ?_, fun y hy => ?_, ?_⟩
  · exact h.listed k' y (hleft k' y hy).2
  · rw [← hkey]
    rfl
  · exact h.entry_unique (h.listed k y hy) hk
  · rintro ⟨k', hy⟩
    obtain ⟨hne, hold⟩ := hleft k' x hy
    obtain ⟨conn', hobj', hkey'⟩ := h.entries x k' (h.listed k' x hold)
    cases hobj.symm.trans hobj'
    exact hne (hkey'.symm.trans hkey)

theorem IdsFaithful.timer (h : IdsFaithful s g) (hs : s.issued + 1 < 2 ^ 64)
    (hentering : s.entering = []) :
    IdsFaithful s.nextId { g with timers := g.timers ++ [s.nextId.connId] } := by
  have hnext : s.nextId.connId = s.issued + 1 := by
    rw [nextId, h.counter]
    exact Nat.mod_eq_of_lt hs
  have hempty : s.nextId.entering = [] := hentering
  constructor
  · exact hnext
  · intro id hid
    rw [← List.append_assoc] at hid
    rcases List.mem_append.mp hid with hid | hid
    · exact Nat.le_succ_of_le (h.used id hid)
    · rw [List.mem_singleton.mp hid, hnext]
      exact Nat.le_refl _
  · rw [← List.append_assoc]
    refine List.nodup_append.mpr ⟨h.distinct, List.nodup_singleton _, fun id hid id' hid' he => ?_⟩
    rw [List.mem_singleton.mp hid', hnext] at he
    exact Nat.not_succ_le_self _ (he ▸ h.used id hid)
  · exact h.entries
  · exact h.listed
  · rw [hempty]
    exact fun _ hx => absurd hx List.not_mem_nil
  · exact h.entered

/-- A step that erases an entry erases the one it means. -/
theorem IdsFaithful.erased {a : Act} {x : Nat} (h : IdsFaithful s g) (ht : TableStep s a s')
    (ha : s.idEvent a = some (.erase x)) : IdsFaithful s' g ∧ ErasesOwn s g x s' := by
  cases ht with
  | kept hevent _ => cases hevent.symm.trans ha
  | create hevent _ _ =>
    subst hevent
    cases ha
  | enter hevent _ => cases hevent.symm.trans ha
  | request hevent _ _ => cases hevent.symm.trans ha
  | @retract y t _ hevent hkept _ hentering hstep =>
    cases hevent.symm.trans ha
    have ht : IdsFaithful { t with released := t.released ++ [x] } g :=
      (h.kept hkept).same rfl rfl rfl rfl rfl
    obtain ⟨hs', k, hk, hconns, hown, hgone⟩ := ht.erase (hkept.entering.trans hentering) hstep
    rw [hkept.conns] at hconns hown
    exact ⟨hs', k, hk, hconns, hown, hgone⟩
  | @remove y batch _ hevent hphase hstack hstep =>
    cases hevent.symm.trans ha
    have hentering : (s.setLoop 0 { s.loops 0 with phase := .run batch }).entering =
        s.entering := by
      rw [TcpSever.entering, loops_setLoop]
      rfl
    have hempty : s.entering = [] := by rw [TcpSever.entering, hstack]; rfl
    have ht : IdsFaithful (s.setLoop 0 { s.loops 0 with phase := .run batch }) g :=
      h.same rfl rfl rfl rfl hentering
    exact ht.erase (hentering.trans hempty) hstep
  | timer hevent _ _ => cases hevent.symm.trans ha

theorem IdsFaithful.step {a : Act} (h : IdsFaithful s g) (hs : s'.issued < 2 ^ 64)
    (ha : KeepsId s a) (ht : TableStep s a s') : IdsFaithful s' (g.note s a) := by
  have herase : ∀ x, s.idEvent a = some (.erase x) → IdsFaithful s' (g.note s a) := by
    intro x hevent
    rw [Ids.note, hevent]
    exact (h.erased ht hevent).1
  cases ht with
  | kept hevent hkept =>
    rw [Ids.note, hevent]
    exact h.kept hkept
  | create hevent _ hstack =>
    subst hevent
    obtain ⟨loop, -, -, hissued, -⟩ := s.newConnection_spec
    exact h.create (hissued ▸ hs) hstack (ha.2 rfl)
  | enter hevent hstack =>
    rw [Ids.note, hevent]
    exact h.enter hstack
  | @request x t hevent hkept _ =>
    rw [Ids.note, hevent]
    refine (h.kept hkept).same rfl rfl rfl rfl ?_
    rw [TcpSever.entering, (waiting_request t x).1]
    rfl
  | retract hevent _ _ _ _ => exact herase _ hevent
  | remove hevent _ _ _ => exact herase _ hevent
  | @timer t hevent hkept he =>
    have hentering : s.entering = [] := he.elim ha.1 id
    have hid : t.nextId.connId = s.nextId.connId := by simp only [nextId, hkept.connId]
    rw [Ids.note, hevent]
    dsimp only
    rw [← hid]
    exact (h.kept hkept).timer hs (hkept.entering.trans hentering)

theorem idsFaithful_start (isAbleDelayDel : Bool) (threadCnt : Nat) :
    IdsFaithful (start isAbleDelayDel threadCnt) ⟨[], []⟩ where
  counter := rfl
  used _ hid := absurd hid List.not_mem_nil
  distinct := .nil
  entries _ _ hx := absurd hx List.not_mem_nil
  listed _ _ hx := by cases hx
  entering _ hx := absurd hx List.not_mem_nil
  entered _ hx := absurd hx (Nat.not_lt_zero _)

/-! ## The table -/

/-- What is entered and not given up is listed. -/
structure TableOk (s : TcpSever) : Prop where
  loops : LoopsOk s
  ids : ∃ g, IdsFaithful s g
  removals : ∀ x ∈ s.removals, x ∈ s.released
  listed : ∀ x, x < s.objects.length → x ∉ s.entering → x ∉ s.released → s.InTable x

theorem TableOk.kept {t : TcpSever} (h : TableOk s) (hk : Kept s t) : TableOk t where
  loops := hk.loops
  ids := h.ids.imp fun _ hg => hg.kept hk
  removals := by rw [hk.removals, hk.released]; exact h.removals
  listed := by
    unfold InTable
    rw [hk.objects, hk.entering, hk.released, hk.conns]
    exact h.listed

/-- `RemoveConnectionInLoop` of a connection that is given up. -/
theorem TableOk.erase (h : TableOk s) {x : Nat} (hentering : s.entering = []) (hx : x ∈ s.released)
    (hstep : s.removeConnectionInLoop x = some s') : TableOk s' := by
  obtain ⟨g, hg⟩ := h.ids
  obtain ⟨hg', k, -, hconns, hown, -⟩ := hg.erase hentering hstep
  obtain ⟨conn, -, he⟩ := Option.bind_eq_some_iff.mp hstep
  cases he
  refine ⟨h.loops, ⟨g, hg'⟩, h.removals, fun y hy hin hrel => ?_⟩
  obtain ⟨key, hkey⟩ := h.listed y hy hin hrel
  refine ⟨key, ?_⟩
  rw [hconns, Function.update_of_ne]
  · exact hkey
  · rintro rfl
    exact hrel (hown y hkey ▸ hx)

/-- The connection that is entered is found afterwards. -/
theorem TableOk.enter (h : TableOk s) {x : Nat} {stack : List Frame}
    (hstack : (s.loops 0).stack = .insert x :: stack) :
    TableOk ((s.setLoop 0 { s.loops 0 with stack := stack }).insertConn x) := by
  obtain ⟨g, hg⟩ := h.ids
  obtain ⟨hobjects, -, -, hreleased, hloops, hconns⟩ :=
    insertConn_spec (s.setLoop 0 { s.loops 0 with stack := stack }) x
  have htable : ((s.setLoop 0 { s.loops 0 with stack := stack }).insertConn x).conns =
      if (s.conns s.connId).isSome then s.conns else Function.update s.conns s.connId (some x) :=
        hconns
  have hentering : s.entering = x :: stack.filterMap Frame.inserts := by
    rw [TcpSever.entering, hstack]; rfl
  have htail : ((s.setLoop 0 { s.loops 0 with stack := stack }).insertConn x).entering =
      stack.filterMap Frame.inserts := by
    rw [TcpSever.entering, hloops, loops_setLoop]
  have hwaiting : ((s.setLoop 0 { s.loops 0 with stack := stack }).insertConn x).removals =
      s.removals := by
    rw [TcpSever.removals, hloops, loops_setLoop]
    rfl
  obtain ⟨conn, hobj, hkey⟩ := hg.entering x (hentering ▸ List.mem_cons_self)
  refine ⟨loopsOk_insertConn h.loops hstack, ⟨_, hg.enter hstack⟩, ?_, fun y hy hin hrel => ?_⟩
  · rw [hwaiting, hreleased]
    exact h.removals
  · rw [hobjects] at hy
    rw [htail] at hin
    rw [hreleased] at hrel
    rw [InTable, htable]
    have hthere : (s.conns s.connId).isSome → s.conns s.connId = some x := by
      intro hsome
      obtain ⟨z, hz⟩ := Option.isSome_iff_exists.mp hsome
      obtain ⟨conn', hobj', hkey'⟩ := hg.entries z _ (hg.listed _ z hz)
      rw [hz, hg.timerId_inj hobj' hobj (hkey'.trans hkey.symm)]
    by_cases hyx : y = x
    · subst hyx
      refine ⟨s.connId, ?_⟩
      by_cases hsome : (s.conns s.connId).isSome
      · rw [if_pos hsome]
        exact hthere hsome
      · rw [if_neg hsome]
        exact Function.update_self _ _ _
    · obtain ⟨key, hfound⟩ :=
        h.listed y hy (fun hin' => (List.mem_cons.mp (hentering ▸ hin')).elim hyx hin) hrel
      refine ⟨key, ?_⟩
      by_cases hsome : (s.conns s.connId).isSome
      · rw [if_pos hsome]
        exact hfound
      · rw [if_neg hsome, Function.update_of_ne]
        · exact hfound
        · rintro rfl
          exact hsome (Option.isSome_of_eq_some hfound)

theorem TableOk.step {a : Act} (h : TableOk s) (hs : s'.issued < 2 ^ 64) (ha : KeepsId s a)
    (hstep : TcpSever.step s a = some s') :
    TableOk s' := by
  obtain ⟨g, hg⟩ := h.ids
  have ht := tableStep_step h.loops hstep
  have hids : ∃ g, IdsFaithful s' g := ⟨_, hg.step hs ha ht⟩
  have hloops := ht.loopsOk h.loops
  cases ht with
  | kept _ hkept => exact h.kept hkept
  | create _ _ hstack =>
    obtain ⟨loop, hobjects, -, -, hconns, hreleased, hbase, -⟩ := s.newConnection_spec
    have hempty : s.entering = [] := by rw [TcpSever.entering, hstack]; rfl
    have hentering : s.newConnection.entering = [s.objects.length] := by
      rw [TcpSever.entering, hbase, hstack]; rfl
    have hremovals : s.newConnection.removals = s.removals := by rw [TcpSever.removals, hbase]; rfl
    refine ⟨hloops, hids, by rw [hremovals, hreleased]; exact h.removals, fun y hy hin hrel => ?_⟩
    rw [hobjects, List.length_append, List.length_singleton] at hy
    rw [hentering, List.mem_singleton] at hin
    rw [hreleased] at hrel
    rw [InTable, hconns]
    exact h.listed y (by omega) (hempty ▸ List.not_mem_nil) hrel
  | enter _ hstack => exact h.enter hstack
  | @request x t _ hkept hx =>
    obtain ⟨hloop, hwaiting⟩ := waiting_request t x
    have ht := h.kept hkept
    have hentering : ({ t with released := t.released ++ [x] }.queueInLoop 0
        (.removeConnectionInLoop x)).entering = t.entering := by
      rw [TcpSever.entering, hloop]
      rfl
    refine ⟨hloops, hids, fun y hy => ?_, fun y hy hin hrel => ?_⟩
    · rw [TcpSever.removals, hwaiting, List.filterMap_append] at hy
      refine List.mem_append.mpr ((List.mem_append.mp hy).imp (ht.removals y) id)
    · rw [hentering] at hin
      exact ht.listed y hy hin fun hrel' => hrel (List.mem_append_left _ hrel')
  | @retract x t _ _ hkept _ hentering hret =>
    have ht := h.kept hkept
    have hreleased : TableOk { t with released := t.released ++ [x] } :=
      ⟨ht.loops, ht.ids.imp fun _ hg => hg.same rfl rfl rfl rfl rfl,
        fun y hy => List.mem_append_left _ (ht.removals y hy),
        fun y hy hin hrel => ht.listed y hy hin fun hrel' => hrel (List.mem_append_left _ hrel')⟩
    exact hreleased.erase (hkept.entering.trans hentering)
      (List.mem_append_right _ (List.mem_singleton.mpr rfl)) hret
  | @remove x batch _ _ hphase hstack hrem =>
    have hempty : s.entering = [] := by rw [TcpSever.entering, hstack]; rfl
    have hentering : (s.setLoop 0 { s.loops 0 with phase := .run batch }).entering =
        s.entering := by
      rw [TcpSever.entering, loops_setLoop]
      rfl
    have hremovals : s.removals = x ::
        (s.setLoop 0 { s.loops 0 with phase := .run batch }).removals := by
      rw [TcpSever.removals, TcpSever.removals, loops_setLoop, EventLoop.waiting, hphase]
      rfl
    have htaken : TableOk (s.setLoop 0 { s.loops 0 with phase := .run batch }) :=
      ⟨loopsOk_setLoop h.loops ((h.loops 0).take hphase hstack),
        ⟨g, hg.same rfl rfl rfl rfl hentering⟩,
        fun y hy => h.removals y (hremovals ▸ List.mem_cons_of_mem x hy), by
          rw [hentering]; exact h.listed⟩
    exact htaken.erase (hentering.trans hempty) (h.removals x (hremovals ▸ List.mem_cons_self)) hrem
  | timer _ hkept _ =>
    have ht := h.kept hkept
    exact ⟨hloops, hids, ht.removals, ht.listed⟩

theorem tableOk_start (isAbleDelayDel : Bool) (threadCnt : Nat) :
    TableOk (start isAbleDelayDel threadCnt) where
  loops := loopsOk_start isAbleDelayDel threadCnt
  ids := ⟨_, idsFaithful_start isAbleDelayDel threadCnt⟩
  removals x hx := by
    have hempty : (start isAbleDelayDel threadCnt).removals = [] := by
      simp [removals, start, EventLoop.waiting, Phase.batch]
    rw [hempty] at hx
    exact absurd hx List.not_mem_nil
  listed _ hx := absurd hx (Nat.not_lt_zero _)

/-- For any number of connections and `RunAfter` tasks: while the connections keep their ids,
`RemoveConnectionInLoop` erases the entry under which `NewConnection` has entered that connection,
and no two connections or `RunAfter` tasks, whether they live or not, have the same timer id. -/
theorem ids_faithful (isAbleDelayDel : Bool) (threadCnt : Nat) (acts : List Act) (s : TcpSever)
    (hacts : Along step KeepsId (start isAbleDelayDel threadCnt) acts)
    (h : exec step (start isAbleDelayDel threadCnt) acts = some s) (hissued : s.issued < 2 ^ 64) :
    (∀ a x s', s.idEvent a = some (.erase x) → step s a = some s' →
      ErasesOwn s (ids isAbleDelayDel threadCnt acts) x s') ∧
      (s.objects.map ConnObject.timerId ++ (ids isAbleDelayDel threadCnt acts).timers).Nodup := by
  have hinv : LoopsOk s ∧ (s.issued < 2 ^ 64 →
      IdsFaithful s (ids isAbleDelayDel threadCnt acts)) := by
    refine recorded_invariant (fun s g => LoopsOk s ∧ (s.issued < 2 ^ 64 → IdsFaithful s g)) ?_
      ⟨loopsOk_start isAbleDelayDel threadCnt,
        fun _ => idsFaithful_start isAbleDelayDel threadCnt⟩ hacts h
    intro s g a s' hI ha hstep
    have ht := tableStep_step hI.1 hstep
    refine ⟨ht.loopsOk hI.1, fun hs' => ?_⟩
    exact (hI.2 (Nat.lt_of_le_of_lt (issued_step hstep) hs')).step hs' ha ht
  obtain ⟨hloops, hids⟩ := hinv
  exact ⟨fun a x s' ha hstep => ((hids hissued).erased (tableStep_step hloops hstep) ha).2,
    (hids hissued).distinct⟩

/-- The removal after a double release, with one worker. -/
theorem ids_faithful_releasedFirst :
    ∃ s s', exec step (start true 1) (releasedFirst.take 23) = some s ∧
    step s (.runTask 0) = some s' ∧ ErasesOwn s (ids true 1 (releasedFirst.take 23)) 0 s' ∧
    (s.objects.map ConnObject.timerId ++ (ids true 1 (releasedFirst.take 23)).timers).Nodup := by
  have hrun : (exec step (start true 1) (releasedFirst.take 23)).any (fun s =>
      s.issued < 2 ^ 64 ∧ s.idEvent (.runTask 0) = some (.erase 0) ∧ (step s (.runTask 0)).isSome) =
        true := by
    decide +kernel
  obtain ⟨s, hs, hend⟩ := (Option.any_eq_true _ _).mp hrun
  obtain ⟨hissued, hevent, hsome⟩ := of_decide_eq_true hend
  obtain ⟨s', hs'⟩ := Option.isSome_iff_exists.mp hsome
  obtain ⟨herase, hnodup⟩ :=
    ids_faithful true 1 (releasedFirst.take 23) s (by decide +kernel) hs hissued
  exact ⟨s, s', hs, hs', herase _ 0 s' hevent hs', hnodup⟩

/-- `RunAfter` on the base loop, any number of times. -/
theorem exec_runAfter (n : Nat) (hcode : s.runsCode (some 0) = true) (hn : s.connId + n < 2 ^ 64) :
    exec step s (List.replicate n (.runAfter (some 0))) =
    some { s with connId := s.connId + n, issued := s.issued + n } := by
  induction n generalizing s with
  | zero => rfl
  | succ n ih =>
    have hstep : step s (.runAfter (some 0)) =
        some { s with connId := s.connId + 1, issued := s.issued + 1 } := by
      rw [step, if_pos hcode, runInLoop, if_pos rfl, runTask, nextId, Nat.mod_eq_of_lt (by omega)]
    have hrest := ih (s := { s with connId := s.connId + 1, issued := s.issued + 1 }) hcode
      (by dsimp only; omega)
    simp only [Nat.add_right_comm _ 1 n] at hrest
    rw [List.replicate_succ, exec_cons, hstep, Option.bind_some, hrest]
    rfl

/-- One connection is accepted and released. -/
def acceptedReleased : List Act :=
  [.ret 0, .pollReturn 0, .accept, .next 0, .next 0, .ret 0, .next 0, .handle 0,
    .release (some 0) 0, .ret 0, .swap 0,
    .runTask 0, .ret 0]

def acceptedAfter (n : Nat) : List Act := List.replicate n (.runAfter (some 0)) ++ acceptedReleased

/-- After 2³¹ - 1 `RunAfter`s the id of a connection is negative as an `int`, and its removal
misses its entry. -/
theorem wide_id_stays_in_table : ∃ s s',
    exec step (start false 0) (acceptedAfter (2 ^ 31 - 1)) = some s ∧
    s.issued < 2 ^ 64 ∧ s.idEvent (.next 0) = some (.erase 0) ∧ step s (.next 0) = some s' ∧
    ¬ErasesOwn s (ids false 0 (acceptedAfter (2 ^ 31 - 1))) 0 s' := by
  have hrun : (exec step { start false 0 with connId := 0 + (2 ^ 31 - 1), issued := 0 +
      (2 ^ 31 - 1) } acceptedReleased).any
      (fun s => s.issued < 2 ^ 64 ∧ s.idEvent (.next 0) = some (.erase 0) ∧
        (step s (.next 0)).any (fun s' => s'.conns (2 ^ 31) = some 0)) = true := by
    decide +kernel
  obtain ⟨s, hs, hend⟩ := (Option.any_eq_true _ _).mp hrun
  obtain ⟨hissued, hevent, hnext⟩ := of_decide_eq_true hend
  obtain ⟨s', hs', hin⟩ := (Option.any_eq_true _ _).mp hnext
  have hlow : 0 + (2 ^ 31 - 1) < 2 ^ 64 := by decide
  -- the length of the list is kept from being evaluated
  generalize 2 ^ 31 - 1 = n at hs hlow ⊢
  have hmany := exec_runAfter (s := start false 0) n rfl hlow
  refine ⟨s, s', ?_, hissued, hevent, hs', ?_⟩
  · rw [acceptedAfter, exec_append, hmany, Option.bind_some]
    exact hs
  · rintro ⟨k, -, -, -, hgone⟩
    exact hgone ⟨2 ^ 31, of_decide_eq_true hin⟩

end TcpSever
end MuduoServer
