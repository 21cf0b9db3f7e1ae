import MuduoServer.Buffer
import MuduoServer.FifoQueue
import MuduoServer.Transition

/-!
# The buffer is a queue

Each public operation of `Buffer` does to the unread bytes what an operation of a
queue does, whichever of the three ways a write makes its room. The two indices
and the storage never show, unless a sum of indices wraps.
-/
namespace MuduoServer

open StdString Transition

namespace Buffer

inductive Op where
  | writeAndAdd (data : Bytes)
  | wtStringAndAdd (s : Bytes)
  | writeAsBufferAndAdd (other : Buffer)
  | ensureWriteSpaceSize (len : UInt64)
  | readAndPop (len : Nat)
  | rdStringAndPop (len : Nat)
  | getLineAndAdd
  | moveReadPosition (len : Nat)
  | clear

/-- The buffer an operation leaves and the bytes it hands to its caller. -/
def attempt (b : Buffer) (memory : Bool) : Op → Except Fault (Option (Buffer × Bytes))
  | .writeAndAdd data => (b.tryWriteAndAdd memory data).map (Option.map (·, []))
  | .wtStringAndAdd s => (b.tryWriteAndAdd memory s).map (Option.map (·, []))
  | .writeAsBufferAndAdd other => (b.tryWriteAndAdd memory other.unread).map (Option.map (·, []))
  | .ensureWriteSpaceSize len => (b.ensureWriteSpaceSize64 memory len).map (Option.map (·, []))
  | .readAndPop len => .ok ((b.readAndPop len).map Prod.swap)
  | .rdStringAndPop len => (b.tryRdStringAndPop memory len).map (Option.map Prod.swap)
  | .getLineAndAdd => (b.tryGetLineAndAdd memory).map (Option.map Prod.swap)
  | .moveReadPosition len => .ok ((b.moveReadPosition len).map (·, b.unread.take len))
  | .clear => .ok (some (b.clear, []))

/-- An operation, and whether an allocation in it succeeds. -/
structure Attempt where
  op : Op
  memory : Bool

/-- The buffer after an operation, and what its caller gets: bytes or an exception. -/
def step (b : Buffer) (a : Attempt) : Option (Buffer × Except Fault Bytes) :=
  match b.attempt a.memory a.op with
  | .error f => some (b, .error f)
  | .ok none => none
  | .ok (some (b', out)) => some (b', .ok out)

def stepLogged : Buffer × List (Except Fault Bytes) → Attempt →
    Option (Buffer × List (Except Fault Bytes))
  | (b, results), a => (b.step a).map fun r => (r.1, results ++ [r.2])

/-- What an operation is to the queue of unread bytes. -/
def Op.queue : Op → FifoQueue.Op UInt8
  | .writeAndAdd data => .append data
  | .wtStringAndAdd s => .append s
  | .writeAsBufferAndAdd other => .append other.unread
  | .ensureWriteSpaceSize _ => .keep
  | .readAndPop len => .pop len
  | .rdStringAndPop len => .pop len
  | .getLineAndAdd => .popThrough (· == newline)
  | .moveReadPosition len => .pop len
  | .clear => .clear

/-- What an operation with this result is to the queue: an exception takes nothing out and
puts nothing in. -/
def Attempt.queue (a : Attempt) : Except Fault Bytes → FifoQueue.Op UInt8
  | .ok _ => a.op.queue
  | .error _ => .keep

/-- The bytes that a caller gets. -/
def returned : Except Fault Bytes → Bytes
  | .ok out => out
  | .error _ => []

/-- A read asks for no more than there is. -/
def Op.InRange (b : Buffer) : Op → Prop
  | .readAndPop len | .rdStringAndPop len | .moveReadPosition len =>
    len ≤ b.currentEnableReadSpaceSize
  | _ => True

/-- Room that has to be allocated ends below 2^64. -/
def Op.NoWrap (b : Buffer) : Op → Prop
  | .ensureWriteSpaceSize len => b.getTailIdleSpaceSize + b.getHeadIdleSpaceSize < len.toNat →
      b.writeIndex + len.toNat < 2 ^ 64
  | _ => True

/-- The bytes for which an operation needs room. -/
def Op.asked : Op → Nat
  | .writeAndAdd data | .wtStringAndAdd data => data.length
  | .writeAsBufferAndAdd other => other.currentEnableReadSpaceSize
  | .ensureWriteSpaceSize len => len.toNat
  | _ => 0

/-- There is memory, and the storage does not have to grow past `max_size()`. -/
def Attempt.Affordable (b : Buffer) (a : Attempt) : Prop :=
  a.memory = true ∧ (b.getTailIdleSpaceSize + b.getHeadIdleSpaceSize < a.op.asked →
    b.writeIndex + a.op.asked ≤ maxSize)

instance (b : Buffer) (op : Op) : Decidable (op.InRange b) := by
  cases op <;> unfold Op.InRange <;> infer_instance

instance (b : Buffer) (op : Op) : Decidable (op.NoWrap b) := by
  cases op <;> unfold Op.NoWrap <;> infer_instance

instance (b : Buffer) (a : Attempt) : Decidable (a.Affordable b) :=
  inferInstanceAs (Decidable (_ ∧ (_ → _)))

/-- An operation that finds the memory it asks for. -/
def perform (b : Buffer) : Op → Option (Buffer × Bytes)
  | .writeAndAdd data => (b.writeAndAdd data).map (·, [])
  | .wtStringAndAdd s => (b.wtStringAndAdd s).map (·, [])
  | .writeAsBufferAndAdd other => (b.writeAsBufferAndAdd other).map (·, [])
  | .ensureWriteSpaceSize len => some (b.ensureWriteSpaceSize len.toNat, [])
  | .readAndPop len => (b.readAndPop len).map Prod.swap
  | .rdStringAndPop len => (b.rdStringAndPop len).map Prod.swap
  | .getLineAndAdd => b.getLineAndAdd.map Prod.swap
  | .moveReadPosition len => (b.moveReadPosition len).map (·, b.unread.take len)
  | .clear => some (b.clear, [])

/-! ## Making room -/

/-- Room whose end is computed without wrapping is made, or an exception says why not. -/
theorem makeRoom_eq (b : Buffer) (memory : Bool) (len : Nat) :
    b.makeRoom memory len (b.writeIndex + len) = .ok (some (b.ensureWriteSpaceSize len)) ∨
      ∃ f, b.makeRoom memory len (b.writeIndex + len) = .error f ∧
        b.getTailIdleSpaceSize + b.getHeadIdleSpaceSize < len ∧
        (memory = false ∨ maxSize < b.writeIndex + len) := by
  unfold makeRoom
  by_cases hfits : len ≤ b.getTailIdleSpaceSize + b.getHeadIdleSpaceSize
  · exact .inl (if_pos hfits)
  · rw [if_neg hfits]
    have hlt := Nat.lt_of_not_le hfits
    have htail : ¬len ≤ b.getTailIdleSpaceSize := by omega
    have hlarger : b.storage.length < b.writeIndex + len := by
      simp only [getTailIdleSpaceSize] at htail
      omega
    have hfault : b.resizeFault memory (b.writeIndex + len) =
        if maxSize < b.writeIndex + len then some .lengthError else if memory then none
          else some .badAlloc :=
      if_neg (Nat.not_le.mpr hlarger)
    unfold resize
    rw [hfault]
    by_cases hmax : maxSize < b.writeIndex + len
    · rw [if_pos hmax]
      exact .inr ⟨_, rfl, hlt, .inr hmax⟩
    · rw [if_neg hmax]
      cases memory with
      | false => exact .inr ⟨_, rfl, hlt, .inl rfl⟩
      | true =>
        left
        simp only [if_true, dif_pos (Nat.le_add_right b.writeIndex len), ensureWriteSpaceSize,
          if_neg htail, if_neg hfits,
          List.take_of_length_le (Nat.le_of_lt hlarger)]

theorem ensureWriteSpaceSize64_makeRoom {b : Buffer} {len : UInt64} (memory : Bool)
    (h : (Op.ensureWriteSpaceSize len).NoWrap b) :
    b.ensureWriteSpaceSize64 memory len = b.makeRoom memory len.toNat
    (b.writeIndex + len.toNat) := by
  unfold ensureWriteSpaceSize64 makeRoom
  split
  · rfl
  · rename_i hgrow
    rw [Nat.mod_eq_of_lt (h (Nat.lt_of_not_le hgrow))]

/-- A write makes its room, or throws what making room throws. -/
theorem tryWriteAndAdd_eq (b : Buffer) (memory : Bool) (data : Bytes) :
    b.tryWriteAndAdd memory data = .ok (b.writeAndAdd data) ∨
      ∃ f, b.tryWriteAndAdd memory data = .error f ∧
        b.getTailIdleSpaceSize + b.getHeadIdleSpaceSize < data.length ∧
        (memory = false ∨ maxSize < b.writeIndex + data.length) := by
  unfold tryWriteAndAdd tryWrite writeAndAdd write
  by_cases hd : data = []
  · rw [if_pos hd, if_pos hd]
    exact .inl rfl
  · rw [if_neg hd, if_neg hd]
    rcases b.makeRoom_eq memory data.length with he | ⟨f, he, hroom⟩
    · left
      rw [he]
      simp only [Except.map, Option.bind_some, dif_pos (b.ensureWriteSpaceSize_room data.length)]
    · rw [he]
      exact .inr ⟨f, rfl, hroom⟩

/-! ## Reading -/

theorem tryReadAsString_eq (b : Buffer) (memory : Bool) (len : Nat) :
    b.tryReadAsString memory len = .ok (b.readAsString len) ∨
      memory = false ∧ b.tryReadAsString memory len = .error .badAlloc := by
  unfold tryReadAsString
  split
  · rename_i h
    exact .inr ⟨h.1, rfl⟩
  · exact .inl rfl

theorem tryRdStringAndPop_eq (b : Buffer) (memory : Bool) (len : Nat) :
    b.tryRdStringAndPop memory len = .ok (b.rdStringAndPop len) ∨
      memory = false ∧ b.tryRdStringAndPop memory len = .error .badAlloc := by
  unfold tryRdStringAndPop
  rcases b.tryReadAsString_eq memory len with he | ⟨hmemory, he⟩
  · left
    rw [he, rdStringAndPop]
    cases b.readAsString len with
    | none => rfl
    | some ret => simp [Except.map, Option.map_eq_bind]
  · exact .inr ⟨hmemory, by rw [he]; rfl⟩

theorem tryGetLine_eq (b : Buffer) (memory : Bool) :
    b.tryGetLine memory = .ok b.getLine ∨ memory = false ∧
    b.tryGetLine memory = .error .badAlloc := by
  unfold tryGetLine getLine
  cases b.getCRLF with
  | none => exact .inl rfl
  | some i => exact b.tryReadAsString_eq memory (i + 1)

theorem tryGetLineAndAdd_eq (b : Buffer) (memory : Bool) :
    b.tryGetLineAndAdd memory = .ok b.getLineAndAdd ∨
      memory = false ∧ b.tryGetLineAndAdd memory = .error .badAlloc := by
  unfold tryGetLineAndAdd
  rcases b.tryGetLine_eq memory with he | ⟨hmemory, he⟩
  · left
    rw [he, getLineAndAdd]
    cases b.getLine with
    | none => rfl
    | some ret => simp [Except.map, Option.map_eq_bind]
  · exact .inr ⟨hmemory, by rw [he]; rfl⟩

/-- An operation does what it does with all the memory it asks for, or throws because that is
not to be had. -/
theorem attempt_eq (b : Buffer) (a : Attempt) (hwrap : a.op.NoWrap b) :
    b.attempt a.memory a.op = .ok (b.perform a.op) ∨
      ∃ f, b.attempt a.memory a.op = .error f ∧ ¬a.Affordable b := by
  obtain ⟨op, memory⟩ := a
  have hthrown : ∀ {len : Nat}, op.asked = len →
      b.getTailIdleSpaceSize + b.getHeadIdleSpaceSize < len →
      (memory = false ∨ maxSize < b.writeIndex + len) → ¬(Attempt.mk op memory).Affordable b := by
    rintro len rfl hgrow (hmemory | hmax) ⟨hhad, hroom⟩
    · cases hmemory.symm.trans hhad
    · have hle : b.writeIndex + op.asked ≤ maxSize := hroom hgrow
      omega
  have hread : memory = false → ¬(Attempt.mk op memory).Affordable b := by
    rintro hmemory ⟨hhad, -⟩
    cases hmemory.symm.trans hhad
  have hwrite : ∀ data : Bytes, op.asked = data.length →
      (b.tryWriteAndAdd memory data).map (Option.map fun b' => (b', ([] : Bytes))) =
          .ok ((b.writeAndAdd data).map (·, [])) ∨
        ∃ f, (b.tryWriteAndAdd memory data).map (Option.map fun b' => (b', ([] : Bytes))) =
          .error f ∧
          ¬(Attempt.mk op memory).Affordable b := by
    intro data hasked
    rcases b.tryWriteAndAdd_eq memory data with he | ⟨f, he, hgrow, hwhy⟩
    · exact .inl (by rw [he]; rfl)
    · exact .inr ⟨f, by rw [he]; rfl, hthrown hasked hgrow hwhy⟩
  cases op with
  | writeAndAdd data => exact hwrite data rfl
  | wtStringAndAdd s => exact hwrite s rfl
  | writeAsBufferAndAdd other =>
    have hother := hwrite other.unread (length_unread other).symm
    rwa [writeAndAdd, length_unread] at hother
  | ensureWriteSpaceSize len =>
    rw [attempt, ensureWriteSpaceSize64_makeRoom memory hwrap]
    rcases b.makeRoom_eq memory len.toNat with he | ⟨f, he, hgrow, hwhy⟩
    · exact .inl (by rw [he]; rfl)
    · exact .inr ⟨f, by rw [he]; rfl, hthrown rfl hgrow hwhy⟩
  | readAndPop len => exact .inl rfl
  | rdStringAndPop len =>
    rw [attempt]
    rcases b.tryRdStringAndPop_eq memory len with he | ⟨hmemory, he⟩
    · exact .inl (by rw [he]; rfl)
    · exact .inr ⟨_, by rw [he]; rfl, hread hmemory⟩
  | getLineAndAdd =>
    rw [attempt]
    rcases b.tryGetLineAndAdd_eq memory with he | ⟨hmemory, he⟩
    · exact .inl (by rw [he]; rfl)
    · exact .inr ⟨_, by rw [he]; rfl, hread hmemory⟩
  | moveReadPosition len => exact .inl rfl
  | clear => exact .inl rfl

/-! ## The queue -/

theorem readAndPop_eq (b : Buffer) (len : Nat) (h : len ≤ b.currentEnableReadSpaceSize) :
    ∃ b', b.readAndPop len = some (b.unread.take len, b') ∧ b'.unread = b.unread.drop len := by
  obtain ⟨b', he, hu⟩ := b.moveReadPosition_eq len (by rwa [length_unread])
  exact ⟨b', by simp [readAndPop, read, h, he], hu⟩

theorem rdStringAndPop_eq (b : Buffer) (len : Nat) (h : len ≤ b.currentEnableReadSpaceSize) :
    ∃ b', b.rdStringAndPop len = some (b.unread.take len, b') ∧ b'.unread = b.unread.drop len := by
  obtain ⟨b', he, hu⟩ := b.moveReadPosition_eq len (by rwa [length_unread])
  exact ⟨b', by simp [rdStringAndPop, readAsString, h, he], hu⟩

/-- One operation, on the buffer and on the queue. -/
theorem perform_queue (b : Buffer) (op : Op) (hrange : op.InRange b) :
    ∃ b' out, b.perform op = some (b', out) ∧
    FifoQueue.step b.unread op.queue = some (b'.unread, out) := by
  cases op with
  | writeAndAdd data =>
    obtain ⟨b', he, hu⟩ := b.writeAndAdd_eq data
    exact ⟨b', [], by simp [perform, he], by simp [Op.queue, FifoQueue.step, hu]⟩
  | wtStringAndAdd s =>
    obtain ⟨b', he, hu⟩ := b.write_moveWritePosition s
    exact ⟨b', [], by simp [perform, wtStringAndAdd, writeAsString, he], by simp [Op.queue, FifoQueue.step, hu]⟩
  | writeAsBufferAndAdd other =>
    obtain ⟨b', he, hu⟩ := b.writeAsBufferAndAdd_eq other
    exact ⟨b', [], by simp [perform, he], by simp [Op.queue, FifoQueue.step, hu]⟩
  | ensureWriteSpaceSize len =>
    exact ⟨_, [], rfl, by simp [Op.queue, FifoQueue.step]⟩
  | readAndPop len =>
    obtain ⟨b', he, hu⟩ := b.readAndPop_eq len hrange
    refine ⟨b', b.unread.take len, by simp [perform, he], ?_⟩
    rw [Op.queue, FifoQueue.step, if_pos (by rwa [length_unread]), hu]
  | rdStringAndPop len =>
    obtain ⟨b', he, hu⟩ := b.rdStringAndPop_eq len hrange
    refine ⟨b', b.unread.take len, by simp [perform, he], ?_⟩
    rw [Op.queue, FifoQueue.step, if_pos (by rwa [length_unread]), hu]
  | getLineAndAdd =>
    rcases b.getLineAndAdd_cases with ⟨hno, he⟩ | ⟨l, rest, b', hl, hb, he, hu⟩
    · have hnone := FifoQueue.through_none (p := (· == newline)) (q := b.unread)
        (fun x hx => beq_eq_false_iff_ne.mpr fun h => hno (h ▸ hx))
      exact ⟨b, [], by simp [perform, he], by simp [Op.queue, FifoQueue.step, hnone]⟩
    · have hsome : FifoQueue.through (· == newline) (l ++ newline :: rest) =
          some (l ++ [newline], rest) :=
        FifoQueue.through_some (fun x hx => beq_eq_false_iff_ne.mpr fun h => hl (h ▸ hx))
          (beq_self_eq_true newline)
      exact ⟨b', l ++ [newline], by simp [perform, he], by simp [Op.queue, FifoQueue.step, hb, hsome, hu]⟩
  | moveReadPosition len =>
    obtain ⟨b', he, hu⟩ := b.moveReadPosition_eq len (by rwa [length_unread])
    refine ⟨b', b.unread.take len, by simp [perform, he], ?_⟩
    rw [Op.queue, FifoQueue.step, if_pos (by rwa [length_unread]), hu]
  | clear => exact ⟨b.clear, [], rfl, by simp [Op.queue, FifoQueue.step, unread, clear]⟩

/-- What an operation comes to: a result of the queue, or an exception that leaves the
buffer as it was. -/
theorem step_queue (b : Buffer) (a : Attempt) (hrange : a.op.InRange b) (hwrap : a.op.NoWrap b) :
    ∃ b' r, b.step a = some (b', r) ∧
    FifoQueue.step b.unread (a.queue r) = some (b'.unread, returned r) ∧
      (a.Affordable b → ∃ out, r = .ok out) := by
  obtain ⟨b', out, hb, hq⟩ := b.perform_queue a.op hrange
  rcases b.attempt_eq a hwrap with he | ⟨f, he, hwhy⟩
  · exact ⟨b', .ok out, by rw [step, he, hb], hq, fun _ => ⟨out, rfl⟩⟩
  · exact ⟨b, .error f, by rw [step, he], rfl, fun h => absurd h hwhy⟩

/-- Every sequence of operations whose reads are in range and whose sums do not wrap runs through,
hands out what a queue hands out and leaves what a queue leaves. An operation that finds memory, and
needs no storage past `max_size()`, does not throw, and one that throws is none to the queue. -/
theorem buffer_refines_queue (ops : List Attempt)
    (hops : Along stepLogged (fun s a => a.op.InRange s.1 ∧ a.op.NoWrap s.1) (empty, []) ops) :
    ∃ b results, exec stepLogged (empty, []) ops = some (b, results) ∧
      exec FifoQueue.stepLogged ([], []) (List.zipWith Attempt.queue ops results) =
        some (b.unread, results.map returned) ∧
      Along stepLogged (fun s a => a.Affordable s.1 → ∃ b' out, s.1.step a = some (b', .ok out))
      (empty, []) ops ∧
      b.readIndex ≤ b.writeIndex ∧ b.writeIndex ≤ b.storage.length := by
  obtain ⟨⟨b, results⟩, hrun, -⟩ := exec_total (fun _ => True) (fun s a _ ha => by
    obtain ⟨b', r, he, -, -⟩ := s.1.step_queue a ha.1 ha.2
    exact ⟨(b', s.2 ++ [r]), by simp only [stepLogged, he, Option.map_some], trivial⟩) trivial hops
  have hqueue : results.length = ops.length ∧
      exec FifoQueue.stepLogged ([], []) (List.zipWith Attempt.queue ops results) =
        some (b.unread, results.map returned) := by
    refine exec_history_along (fun ops (s : Buffer × List (Except Fault Bytes)) => s.2.length = ops.length ∧
      exec FifoQueue.stepLogged ([], []) (List.zipWith Attempt.queue ops s.2) =
        some (s.1.unread, s.2.map returned)) ⟨rfl, rfl⟩ ?_ hops hrun
    rintro ops ⟨b, results⟩ a s' ⟨hlength, hq⟩ ⟨hrange, hwrap⟩ hstep
    obtain ⟨b', r, he, hq', -⟩ := b.step_queue a hrange hwrap
    simp only [stepLogged, he, Option.map_some, Option.some.injEq] at hstep
    subst hstep
    refine ⟨by simp only [List.length_append, hlength]; rfl, ?_⟩
    simp only [List.zipWith_append hlength.symm, List.zipWith_cons_cons, List.zipWith_nil_left,
      exec_concat, hq,
      Option.bind_some, FifoQueue.stepLogged, hq', Option.map_some, List.map_append,
        List.map_cons, List.map_nil]
  refine ⟨b, results, hrun, hqueue.2, along_mono (fun s a ha hafford => ?_) hops,
    b.read_le, b.write_le⟩
  obtain ⟨b', r, he, -, hreturns⟩ := s.1.step_queue a ha.1 ha.2
  obtain ⟨out, rfl⟩ := hreturns hafford
  exact ⟨b', out, he⟩

/-- A write, a line, room that is not to be had, more room, and reads. -/
def lineOps : List Attempt :=
  [⟨.writeAndAdd (ascii "ab\ncd"), true⟩, ⟨.getLineAndAdd, true⟩,
    ⟨.ensureWriteSpaceSize (2 ^ 63), true⟩,
    ⟨.ensureWriteSpaceSize 2000, false⟩, ⟨.ensureWriteSpaceSize 2000, true⟩, ⟨.readAndPop 1, true⟩,
    ⟨.getLineAndAdd, true⟩]

theorem buffer_refines_queue_line :
    ∃ b results, exec stepLogged (empty, []) lineOps = some (b, results) ∧
      exec FifoQueue.stepLogged ([], []) (List.zipWith Attempt.queue lineOps results) =
        some (b.unread, results.map returned) ∧
      Along stepLogged (fun s a => a.Affordable s.1 → ∃ b' out, s.1.step a = some (b', .ok out))
      (empty, []) lineOps ∧
      b.readIndex ≤ b.writeIndex ∧ b.writeIndex ≤ b.storage.length :=
  buffer_refines_queue lineOps (by decide +kernel)

/-- With one byte unread, the largest `uint64_t` wraps to a storage of no bytes, which
needs no memory. -/
theorem buffer_index_past_storage :
    ∃ b results, exec stepLogged (empty, []) [⟨.writeAndAdd (ascii "a"), true⟩] =
    some (b, results) ∧
      (Op.ensureWriteSpaceSize (-1)).InRange b ∧
      (b.writeIndex + (-1 : UInt64).toNat) % 2 ^ 64 < b.writeIndex ∧
      ∀ memory, b.step ⟨.ensureWriteSpaceSize (-1), memory⟩ = none := by
  have hrun : ((exec stepLogged (empty, []) [⟨.writeAndAdd (ascii "a"), true⟩]).map fun s =>
      (decide ((s.1.writeIndex + (-1 : UInt64).toNat) % 2 ^ 64 < s.1.writeIndex),
        (s.1.step ⟨.ensureWriteSpaceSize (-1), true⟩).isNone,
        (s.1.step ⟨.ensureWriteSpaceSize (-1), false⟩).isNone)) = some (true, true, true) := by
    decide +kernel
  obtain ⟨⟨b, results⟩, hs, hrest⟩ := Option.map_eq_some_iff.mp hrun
  simp only [Prod.mk.injEq, decide_eq_true_eq, Option.isNone_iff_eq_none] at hrest
  obtain ⟨hlt, hhad, hnone⟩ := hrest
  exact ⟨b, results, hs, trivial, hlt, fun memory => by cases memory with
    | false => exact hnone
    | true => exact hhad⟩

end Buffer
end MuduoServer
