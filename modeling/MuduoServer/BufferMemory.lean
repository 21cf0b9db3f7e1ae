import MuduoServer.BufferQueue

/-!
# How much memory the buffer takes

Storage grows only when the room asked for is in neither end of it, and then the
bytes already consumed stay in front of it. They are fewer than the bytes asked
for, so the storage is below twice what it has been asked to hold.
-/
namespace MuduoServer

open StdString Transition

namespace Buffer

/-- The public operations: those of the queue, a move of the write index behind bytes that the
caller has put there, and a look at the next line. -/
inductive Call where
  | op (a : Attempt)
  | moveWritePosition (len : Nat)
  | getLine (memory : Bool)

def call (b : Buffer) : Call → Option Buffer
  | .op a => (b.step a).map Prod.fst
  | .moveWritePosition len => b.moveWritePosition len
  | .getLine memory =>
    match b.tryGetLine memory with
    | .error _ => some b
    | .ok line => line.map fun _ => b

/-- The size of the storage that a call leaves, also where it ends before the write index. -/
def sizeAfter (b : Buffer) : Call → Nat
  | .op ⟨.ensureWriteSpaceSize len, memory⟩ =>
    let size := (b.writeIndex + len.toNat) % 2 ^ 64
    if len.toNat ≤ b.getTailIdleSpaceSize + b.getHeadIdleSpaceSize ∨
      (b.resizeFault memory size).isSome then
      b.storage.length
    else size
  | c => (b.call c).elim 0 fun b' => b'.storage.length

/-- What the buffer holds right after a write, and what it is asked to make room for. -/
def load (b b' : Buffer) : Call → Nat
  | .op a =>
    match a.op with
    | .writeAndAdd _ | .wtStringAndAdd _ | .writeAsBufferAndAdd _ => b'.currentEnableReadSpaceSize
    | .ensureWriteSpaceSize len => b.currentEnableReadSpaceSize + len.toNat
    | _ => 0
  | _ => 0

/-- The buffer, and the largest load so far. -/
def stepPeak : Buffer × Nat → Call → Option (Buffer × Nat)
  | (b, peak), c => (b.call c).map fun b' => (b', max peak (load b b' c))

/-- The asserts of a call. -/
def Call.Asserts (b : Buffer) : Call → Prop
  | .op a => a.op.InRange b
  | .moveWritePosition len => len ≤ b.getTailIdleSpaceSize
  | .getLine _ => True

def Call.NoWrap (b : Buffer) : Call → Prop
  | .op a => a.op.NoWrap b
  | _ => True

instance (b : Buffer) (c : Call) : Decidable (c.Asserts b) := by
  cases c <;> unfold Call.Asserts <;> infer_instance

instance (b : Buffer) (c : Call) : Decidable (c.NoWrap b) := by
  cases c <;> unfold Call.NoWrap <;> infer_instance

/-- In every state on the way the storage is at most twice the peak, and no call
makes it smaller. -/
structure Proportional (calls : List Call) : Prop where
  grows : Along stepPeak (fun s c => s.1.storage.length ≤ s.1.sizeAfter c) (empty, 0) calls
  bounded : ∀ pre, pre <+: calls → ∃ b peak, exec stepPeak (empty, 0) pre = some (b, peak) ∧
    b.storage.length ≤ max bufferSize (2 * peak)

/-! ## The size of the storage -/

/-- The size that has room for `len` bytes. -/
def sizeFor (b : Buffer) (len : Nat) : Nat :=
  if len ≤ b.getTailIdleSpaceSize + b.getHeadIdleSpaceSize then b.storage.length
    else b.writeIndex + len

@[simp] theorem sizeFor_zero (b : Buffer) : b.sizeFor 0 = b.storage.length := if_pos (Nat.zero_le _)

theorem length_le_sizeFor (b : Buffer) (len : Nat) : b.storage.length ≤ b.sizeFor len := by
  unfold sizeFor
  split
  · exact Nat.le_refl _
  · simp only [getTailIdleSpaceSize] at *
    omega

/-- What was consumed is less than what is asked for when the storage grows. -/
theorem sizeFor_le (b : Buffer) (len : Nat) :
    b.sizeFor len ≤ max b.storage.length (2 * (b.currentEnableReadSpaceSize + len)) := by
  have hr := b.read_le
  unfold sizeFor
  split
  · exact Nat.le_max_left _ _
  · refine Nat.le_trans ?_ (Nat.le_max_right _ _)
    simp only [getTailIdleSpaceSize, getHeadIdleSpaceSize, currentEnableReadSpaceSize] at *
    omega

theorem length_ensureWriteSpaceSize (b : Buffer) (len : Nat) :
    (b.ensureWriteSpaceSize len).storage.length = b.sizeFor len := by
  have hr := b.read_le
  have hw := b.write_le
  unfold ensureWriteSpaceSize sizeFor
  by_cases htail : len ≤ b.getTailIdleSpaceSize
  · rw [if_pos htail, if_pos (Nat.le_add_right_of_le htail)]
  · rw [if_neg htail]
    by_cases hboth : len ≤ b.getTailIdleSpaceSize + b.getHeadIdleSpaceSize
    · simp only [if_pos hboth, List.length_append, length_unread, List.length_drop,
        currentEnableReadSpaceSize]
      omega
    · simp only [if_neg hboth, List.length_append, List.length_replicate]
      simp only [getTailIdleSpaceSize] at htail
      omega

theorem length_copyIn (b : Buffer) (data : Bytes) (hroom : data.length ≤ b.getTailIdleSpaceSize) :
    (b.copyIn data hroom).storage.length = b.storage.length := by
  have hw := b.write_le
  simp only [getTailIdleSpaceSize] at hroom
  simp only [copyIn, List.length_append, List.length_take, List.length_drop]
  omega

theorem length_write (b : Buffer) (data : Bytes) :
    (b.write data).storage.length = b.sizeFor data.length := by
  unfold write
  by_cases hd : data = []
  · rw [if_pos hd, hd, List.length_nil, sizeFor_zero]
  · rw [if_neg hd, length_copyIn, length_ensureWriteSpaceSize]

theorem storage_moveWritePosition {b b' : Buffer} {len : Nat}
    (h : b.moveWritePosition len = some b') :
    b'.storage = b.storage := by
  unfold moveWritePosition at h
  split at h
  · cases h
    rfl
  · cases h

theorem storage_moveReadPosition {b b' : Buffer} {len : Nat}
    (h : b.moveReadPosition len = some b') :
    b'.storage = b.storage := by
  unfold moveReadPosition at h
  split at h
  · cases h
    rfl
  · cases h

/-- Whatever is read, popping it leaves the storage alone. -/
theorem storage_pop {b b' : Buffer} {r : Option Bytes} {n : Bytes → Nat} {out : Bytes}
    (h : (do let ret ← r; let b ← b.moveReadPosition (n ret); return (ret, b)) = some (out, b')) :
    b'.storage = b.storage := by
  obtain ⟨ret, -, h⟩ := Option.bind_eq_some_iff.mp h
  obtain ⟨b₁, hmove, h⟩ := Option.bind_eq_some_iff.mp h
  cases h
  exact storage_moveReadPosition hmove

theorem length_perform {b b' : Buffer} {o : Op} {out : Bytes} (h : b.perform o = some (b', out)) :
    b'.storage.length = b.sizeFor o.asked := by
  have hwrite : ∀ data : Bytes, (b.write data).moveWritePosition data.length = some b' →
      b'.storage.length = b.sizeFor data.length := by
    intro data hmove
    rw [storage_moveWritePosition hmove, length_write]
  have hread : b'.storage = b.storage → b'.storage.length = b.sizeFor 0 := by
    intro hsame
    rw [hsame, sizeFor_zero]
  cases o with
  | writeAndAdd data =>
    obtain ⟨_, hmove, he⟩ := Option.map_eq_some_iff.mp h
    cases he
    exact hwrite data hmove
  | wtStringAndAdd s =>
    obtain ⟨_, hmove, he⟩ := Option.map_eq_some_iff.mp h
    cases he
    exact hwrite s hmove
  | writeAsBufferAndAdd other =>
    obtain ⟨_, hmove, he⟩ := Option.map_eq_some_iff.mp h
    cases he
    rw [writeAsBufferAndAdd, ← length_unread] at hmove
    rw [hwrite other.unread hmove, length_unread]
    rfl
  | ensureWriteSpaceSize len =>
    cases h
    exact length_ensureWriteSpaceSize b len.toNat
  | readAndPop len =>
    obtain ⟨⟨_, _⟩, hpop, he⟩ := Option.map_eq_some_iff.mp h
    cases he
    exact hread (storage_pop hpop)
  | rdStringAndPop len =>
    obtain ⟨⟨_, _⟩, hpop, he⟩ := Option.map_eq_some_iff.mp h
    cases he
    exact hread (storage_pop hpop)
  | getLineAndAdd =>
    obtain ⟨⟨_, _⟩, hpop, he⟩ := Option.map_eq_some_iff.mp h
    cases he
    exact hread (storage_pop hpop)
  | moveReadPosition len =>
    obtain ⟨_, hmove, he⟩ := Option.map_eq_some_iff.mp h
    cases he
    exact hread (storage_moveReadPosition hmove)
  | clear =>
    cases h
    exact hread rfl

/-- An operation that asks for room asks for no more than its load. -/
theorem asked_le_load {b b' : Buffer} {a : Attempt} {out : Bytes} (hrange : a.op.InRange b)
    (h : b.perform a.op = some (b', out)) :
    a.op.asked = 0 ∨ b.currentEnableReadSpaceSize + a.op.asked = load b b' (.op a) := by
  obtain ⟨b₁, out₁, he, hq⟩ := b.perform_queue a.op hrange
  cases he.symm.trans h
  obtain ⟨o, memory⟩ := a
  have hwritten : ∀ data, o.queue = .append data →
      b.currentEnableReadSpaceSize + data.length = b'.currentEnableReadSpaceSize := by
    intro data hdata
    rw [hdata, FifoQueue.step] at hq
    have hu : b.unread ++ data = b'.unread := congrArg Prod.fst (Option.some.inj hq)
    rw [← length_unread, ← length_unread, ← hu, List.length_append]
  cases o with
  | writeAndAdd data => exact .inr (hwritten data rfl)
  | wtStringAndAdd s => exact .inr (hwritten s rfl)
  | writeAsBufferAndAdd other =>
    have hload := hwritten other.unread rfl
    rw [length_unread] at hload
    exact .inr hload
  | ensureWriteSpaceSize len => exact .inr rfl
  | readAndPop len => exact .inl rfl
  | rdStringAndPop len => exact .inl rfl
  | getLineAndAdd => exact .inl rfl
  | moveReadPosition len => exact .inl rfl
  | clear => exact .inl rfl

/-! ## One call -/

/-- Room behind the write index is in the storage, or the storage becomes larger. -/
theorem sizeAfter_ensureWriteSpaceSize {b b' : Buffer} {len : UInt64} {memory : Bool}
    {r : Except Fault Bytes} (hwrap : (Op.ensureWriteSpaceSize len).NoWrap b)
    (h : b.step ⟨.ensureWriteSpaceSize len, memory⟩ = some (b', r)) :
    b.sizeAfter (.op ⟨.ensureWriteSpaceSize len, memory⟩) = b'.storage.length := by
  simp only [step, attempt, ensureWriteSpaceSize64, makeRoom] at h
  simp only [sizeAfter]
  by_cases hfits : len.toNat ≤ b.getTailIdleSpaceSize + b.getHeadIdleSpaceSize
  · rw [if_pos hfits] at h
    rw [if_pos (.inl hfits)]
    cases h
    rw [length_ensureWriteSpaceSize, sizeFor, if_pos hfits]
  · rw [if_neg hfits, resize] at h
    cases hfault : b.resizeFault memory ((b.writeIndex + len.toNat) % 2 ^ 64) with
    | some f =>
      rw [hfault] at h
      cases h
      rw [if_pos (.inr rfl)]
    | none =>
      rw [hfault] at h
      have hlt := hwrap (Nat.lt_of_not_le hfits)
      rw [Nat.mod_eq_of_lt hlt] at h
      simp only [dif_pos (Nat.le_add_right b.writeIndex len.toNat)] at h
      cases h
      have hlarger : b.storage.length ≤ b.writeIndex + len.toNat := by
        simp only [getTailIdleSpaceSize] at hfits
        omega
      rw [if_neg (by simp [hfits]), Nat.mod_eq_of_lt hlt]
      simp only [List.length_append, List.length_take, List.length_replicate]
      omega

/-- The asserts behind a look at the next line never fail. -/
theorem getLine_isSome (b : Buffer) : ∃ line, b.getLine = some line := by
  have hpop : ∃ r, b.getLineAndAdd = some r := by
    rcases b.getLineAndAdd_cases with ⟨-, he⟩ | ⟨_, _, _, -, -, he, -⟩
    · exact ⟨_, he⟩
    · exact ⟨_, he⟩
  obtain ⟨r, hr⟩ := hpop
  obtain ⟨line, hline, -⟩ := Option.bind_eq_some_iff.mp hr
  exact ⟨line, hline⟩

/-- A call whose asserts hold and whose sum does not wrap leaves a buffer, with storage of the size
`sizeAfter`. -/
theorem call_memory (b : Buffer) (c : Call) (hasserts : c.Asserts b) (hwrap : c.NoWrap b) :
    ∃ b', b.call c = some b' ∧ b.sizeAfter c = b'.storage.length ∧
    b.storage.length ≤ b'.storage.length ∧
      b'.storage.length ≤ max b.storage.length (2 * load b b' c) := by
  cases c with
  | op a =>
    obtain ⟨b', r, he, -, -⟩ := b.step_queue a hasserts hwrap
    have hcall : b.call (.op a) = some b' := by rw [call, he]; rfl
    refine ⟨b', hcall, ?_, ?_⟩
    · obtain ⟨o, memory⟩ := a
      cases o with
      | ensureWriteSpaceSize len => exact sizeAfter_ensureWriteSpaceSize hwrap he
      | _ => simp only [sizeAfter, hcall, Option.elim_some]
    · rcases b.attempt_eq a hwrap with hgiven | ⟨f, hthrown, -⟩
      · obtain ⟨b₁, out, hb₁, -⟩ := b.perform_queue a.op hasserts
        rw [step, hgiven, hb₁] at he
        cases he
        rw [length_perform hb₁]
        refine ⟨length_le_sizeFor b a.op.asked, ?_⟩
        rcases asked_le_load hasserts hb₁ with hnone | hload
        · rw [hnone, sizeFor_zero]
          exact Nat.le_max_left _ _
        · rw [← hload]
          exact sizeFor_le b a.op.asked
      · rw [step, hthrown] at he
        cases he
        exact ⟨Nat.le_refl _, Nat.le_max_left _ _⟩
  | moveWritePosition len =>
    obtain ⟨b', he, -⟩ := b.moveWritePosition_eq len hasserts
    have hcall : b.call (.moveWritePosition len) = some b' := he
    refine ⟨b', hcall, by simp only [sizeAfter, hcall, Option.elim_some], ?_⟩
    rw [storage_moveWritePosition he]
    exact ⟨Nat.le_refl _, Nat.le_max_left _ _⟩
  | getLine memory =>
    have hcall : b.call (.getLine memory) = some b := by
      obtain ⟨l, hline⟩ := b.getLine_isSome
      rcases b.tryGetLine_eq memory with he | ⟨-, he⟩
      · rw [call, he, hline]
        rfl
      · rw [call, he]
    refine ⟨b, hcall, by simp only [sizeAfter, hcall, Option.elim_some], ?_⟩
    exact ⟨Nat.le_refl _, Nat.le_max_left _ _⟩

/-- A sum that wraps ends before the write index, and no exception keeps the storage
from shrinking. -/
theorem sizeAfter_lt {b : Buffer} {c : Call} (h : ¬c.NoWrap b) :
    b.sizeAfter c < b.storage.length := by
  cases c with
  | op a =>
    obtain ⟨o, memory⟩ := a
    cases o with
    | ensureWriteSpaceSize len =>
      obtain ⟨hgrow, hover⟩ := Classical.not_imp.mp h
      have hlen := len.toNat_lt
      have hw := b.write_le
      have hsmaller : (b.writeIndex + len.toNat) % 2 ^ 64 < b.storage.length := by omega
      have hfault : b.resizeFault memory ((b.writeIndex + len.toNat) % 2 ^ 64) = none :=
        if_pos (Nat.le_of_lt hsmaller)
      simp only [sizeAfter]
      rwa [if_neg (by simp only [hfault, Option.isSome_none, Bool.false_eq_true, or_false]; omega)]
    | _ => exact absurd trivial h
  | moveWritePosition len => exact absurd trivial h
  | getLine memory => exact absurd trivial h

/-! ## Every run -/

/-- A call under which the peak bounds the storage. -/
theorem stepPeak_bounded (s : Buffer × Nat) (c : Call)
    (hs : s.1.storage.length ≤ max bufferSize (2 * s.2)) (hc : c.Asserts s.1 ∧ c.NoWrap s.1) :
    ∃ s', stepPeak s c = some s' ∧ s'.1.storage.length ≤ max bufferSize (2 * s'.2) := by
  obtain ⟨b, peak⟩ := s
  obtain ⟨b', he, -, -, hle⟩ := b.call_memory c hc.1 hc.2
  refine ⟨(b', max peak (load b b' c)), by simp only [stepPeak, he, Option.map_some], ?_⟩
  simp only at hs ⊢
  omega

/-- The storage stays proportional to the peak load, and never shrinks, in exactly the runs in which
no sum wraps. -/
theorem memory_proportional (calls : List Call)
    (hasserts : Along stepPeak (fun s c => c.Asserts s.1) (empty, 0) calls) :
    Proportional calls ↔ Along stepPeak (fun s c => c.NoWrap s.1) (empty, 0) calls := by
  constructor
  · intro h
    refine along_mono (fun s c hle => ?_) h.grows
    by_contra hwrap
    exact absurd (sizeAfter_lt hwrap) (Nat.not_lt.mpr hle)
  · intro hwrap
    have hboth := along_and hasserts hwrap
    refine ⟨along_mono (fun s c hc => ?_) hboth, fun pre hpre => ?_⟩
    · obtain ⟨b', -, hsize, hle, -⟩ := s.1.call_memory c hc.1 hc.2
      rw [hsize]
      exact hle
    · obtain ⟨post, rfl⟩ := hpre
      have hstart : (empty, 0).1.storage.length ≤
          max bufferSize (2 * ((empty, 0) : Buffer × Nat).2) := by
        simp [empty]
      obtain ⟨⟨b, peak⟩, he, hle⟩ :=
        exec_total _ stepPeak_bounded hstart ((along_append _ _ _).mp hboth).1
      exact ⟨b, peak, he, hle⟩

/-- Most of a thousand bytes are read, then room is asked for behind them. -/
def grownCalls : List Call :=
  [.op ⟨.writeAndAdd (List.replicate 1000 0), true⟩, .op ⟨.moveReadPosition 900, true⟩,
    .op ⟨.ensureWriteSpaceSize 950, true⟩, .moveWritePosition 950, .op ⟨.getLineAndAdd, true⟩,
      .getLine false,
    .op ⟨.ensureWriteSpaceSize (2 ^ 63), true⟩, .op ⟨.ensureWriteSpaceSize 3000, false⟩]

theorem memory_proportional_grown : Proportional grownCalls :=
  (memory_proportional grownCalls (by decide +kernel)).mpr (by decide +kernel)

/-- One byte, and the largest `uint64_t` of room. -/
def wrappedCalls : List Call :=
  [.op ⟨.writeAndAdd (ascii "a"), true⟩, .op ⟨.ensureWriteSpaceSize (-1), true⟩]

/-- No assert fails, and nothing is left of the storage. -/
theorem memory_shrinks : Along stepPeak (fun s c => c.Asserts s.1) (empty, 0) wrappedCalls ∧
    (∃ b peak, exec stepPeak (empty, 0) [.op ⟨.writeAndAdd (ascii "a"), true⟩] = some (b, peak) ∧
      b.storage.length = 1024 ∧ b.sizeAfter (.op ⟨.ensureWriteSpaceSize (-1), true⟩) = 0) ∧
    ¬Proportional wrappedCalls := by
  have hrun : ((exec stepPeak (empty, 0) [.op ⟨.writeAndAdd (ascii "a"), true⟩]).map fun s =>
      (s.1.storage.length, s.1.sizeAfter (.op ⟨.ensureWriteSpaceSize (-1), true⟩))) =
        some (1024, 0) := by
    decide +kernel
  obtain ⟨⟨b, peak⟩, hs, hsizes⟩ := Option.map_eq_some_iff.mp hrun
  obtain ⟨hbefore, hafter⟩ := Prod.mk.inj hsizes
  refine ⟨by decide +kernel, ⟨b, peak, hs, hbefore, hafter⟩, fun h => ?_⟩
  have hle := (along_iff_everywhere _ _).mp h.grows _ _ (b, peak) (List.prefix_refl _) hs
  simp only [hbefore, hafter] at hle
  omega

end Buffer
end MuduoServer
