import MuduoServer.StdString

/-!
# The connection buffer

One storage vector with a read and a write index. Bytes between the two indices
are unread; a write appends, slides the unread bytes to the front, or grows the
storage, where the vector may throw. A failed `assert` is `none`, and the order of
the indices is carried by the structure, so no operation can leave it.
-/
namespace MuduoServer

open StdString

def bufferSize : Nat := 1024

def newline : UInt8 := 10

structure Buffer where
  storage : Bytes
  readIndex : Nat
  writeIndex : Nat
  read_le : readIndex ≤ writeIndex
  write_le : writeIndex ≤ storage.length
  deriving DecidableEq

namespace Buffer

def empty : Buffer where
  storage := List.replicate bufferSize 0
  readIndex := 0
  writeIndex := 0
  read_le := Nat.le_refl 0
  write_le := Nat.zero_le _

def getTailIdleSpaceSize (b : Buffer) : Nat := b.storage.length - b.writeIndex
def getHeadIdleSpaceSize (b : Buffer) : Nat := b.readIndex
def currentEnableReadSpaceSize (b : Buffer) : Nat := b.writeIndex - b.readIndex

/-- The bytes from the read position to the write position. -/
def unread (b : Buffer) : Bytes := (b.storage.take b.writeIndex).drop b.readIndex

@[simp] theorem length_unread (b : Buffer) : b.unread.length = b.currentEnableReadSpaceSize := by
  have := b.write_le
  simp only [unread, currentEnableReadSpaceSize, List.length_drop, List.length_take]
  omega

def moveWritePosition (b : Buffer) (len : Nat) : Option Buffer :=
  if h : len ≤ b.getTailIdleSpaceSize then
    some { b with
      writeIndex := b.writeIndex + len
      read_le := Nat.le_add_right_of_le b.read_le
      write_le := by have := b.write_le; simp only [getTailIdleSpaceSize] at h; omega }
  else none

def moveReadPosition (b : Buffer) (len : Nat) : Option Buffer :=
  if h : len ≤ b.currentEnableReadSpaceSize then
    some { b with
      readIndex := b.readIndex + len
      read_le := by have := b.read_le; simp only [currentEnableReadSpaceSize] at h; omega }
  else none

/-- Do nothing, slide the unread bytes to the front, or grow behind the write index. The
memory is there. -/
def ensureWriteSpaceSize (b : Buffer) (len : Nat) : Buffer :=
  if len ≤ b.getTailIdleSpaceSize then b
  else if len ≤ b.getTailIdleSpaceSize + b.getHeadIdleSpaceSize then
    { storage := b.unread ++ b.storage.drop b.currentEnableReadSpaceSize
      readIndex := 0
      writeIndex := b.currentEnableReadSpaceSize
      read_le := Nat.zero_le _
      write_le := by simp }
  else
    { b with
      storage := b.storage ++ List.replicate (b.writeIndex + len - b.storage.length) 0
      write_le := by have := b.write_le; simp only [List.length_append]; omega }

theorem ensureWriteSpaceSize_room (b : Buffer) (len : Nat) :
    len ≤ (b.ensureWriteSpaceSize len).getTailIdleSpaceSize := by
  have hr := b.read_le
  have hw := b.write_le
  unfold ensureWriteSpaceSize
  split
  · assumption
  · split
    · rename_i h
      simp only [getTailIdleSpaceSize, getHeadIdleSpaceSize, currentEnableReadSpaceSize,
        List.length_append, length_unread, List.length_drop] at h ⊢
      omega
    · simp only [getTailIdleSpaceSize, List.length_append, List.length_replicate]
      omega

/-- `std::copy` of `data` to the write position, where there must be room for it. -/
def copyIn (b : Buffer) (data : Bytes) (_room : data.length ≤ b.getTailIdleSpaceSize) : Buffer :=
  { b with
    storage := b.storage.take b.writeIndex ++ data ++ b.storage.drop (b.writeIndex + data.length)
    write_le := by have := b.write_le; simp only [List.length_append, List.length_take]; omega }

def write (b : Buffer) (data : Bytes) : Buffer :=
  if data = [] then b
  else (b.ensureWriteSpaceSize data.length).copyIn data (b.ensureWriteSpaceSize_room data.length)

def readAsString (b : Buffer) (len : Nat) : Option Bytes :=
  if len ≤ b.currentEnableReadSpaceSize then some (b.unread.take len) else none

/-- Distance of the first line feed from the read position. -/
def getCRLF (b : Buffer) : Option Nat := b.unread.findIdx? (· == newline)

def getLine (b : Buffer) : Option Bytes :=
  match b.getCRLF with
  | none => some []
  | some i => b.readAsString (i + 1)

def getLineAndAdd (b : Buffer) : Option (Bytes × Buffer) := do
  let ret ← b.getLine
  let b ← b.moveReadPosition ret.length
  return (ret, b)

def writeAndAdd (b : Buffer) (data : Bytes) : Option Buffer :=
  (b.write data).moveWritePosition data.length

def writeAsBufferAndAdd (b other : Buffer) : Option Buffer :=
  (b.write other.unread).moveWritePosition other.currentEnableReadSpaceSize

def rdStringAndPop (b : Buffer) (len : Nat) : Option (Bytes × Buffer) := do
  let ret ← b.readAsString len
  let b ← b.moveReadPosition len
  return (ret, b)

def clear (b : Buffer) : Buffer :=
  { b with readIndex := 0, writeIndex := 0, read_le := Nat.le_refl 0, write_le := Nat.zero_le _ }

/-- `Read`: copies the oldest `len` unread bytes. -/
def read (b : Buffer) (len : Nat) : Option Bytes :=
  if len ≤ b.currentEnableReadSpaceSize then some (b.unread.take len) else none

def readAndPop (b : Buffer) (len : Nat) : Option (Bytes × Buffer) := do
  let data ← b.read len
  let b ← b.moveReadPosition len
  return (data, b)

def writeAsString (b : Buffer) (s : Bytes) : Buffer := b.write s

def wtStringAndAdd (b : Buffer) (s : Bytes) : Option Buffer :=
  (b.writeAsString s).moveWritePosition s.length

/-! ## Memory

The operations above find the memory they ask for. Below `memory` says whether an allocation
of the call succeeds, `.ok none` is a failed assertion or storage that ends before the write
index, and an exception leaves the buffer as it was. -/

/-- `_buffer.max_size()` -/
def maxSize : Nat := 2 ^ 63 - 1

/-- What `_buffer.resize(size)` throws. -/
def resizeFault (b : Buffer) (memory : Bool) (size : Nat) : Option Fault :=
  if size ≤ b.storage.length then none
  else if maxSize < size then some .lengthError
  else if memory then none
  else some .badAlloc

/-- `_buffer.resize(size)` -/
def resize (b : Buffer) (memory : Bool) (size : Nat) : Except Fault (Option Buffer) :=
  match b.resizeFault memory size with
  | some f => .error f
  | none =>
    if h : b.writeIndex ≤ size then
      .ok (some { b with
        storage := b.storage.take size ++ List.replicate (size - b.storage.length) 0
        write_le := by have := b.write_le; simp only [List.length_append, List.length_take,
          List.length_replicate]; omega })
    else .ok none

/-- `EnsureWriteSpaceSize(len)`, whose last branch resizes to `size`. -/
def makeRoom (b : Buffer) (memory : Bool) (len size : Nat) : Except Fault (Option Buffer) :=
  if len ≤ b.getTailIdleSpaceSize + b.getHeadIdleSpaceSize
    then .ok (some (b.ensureWriteSpaceSize len))
  else b.resize memory size

/-- `EnsureWriteSpaceSize` with any `uint64_t`: the sum of its last branch can wrap. -/
def ensureWriteSpaceSize64 (b : Buffer) (memory : Bool) (len : UInt64) :
    Except Fault (Option Buffer) :=
  b.makeRoom memory len.toNat ((b.writeIndex + len.toNat) % 2 ^ 64)

/-- `Write`. Here the sum does not wrap: the bytes of a write are in memory. -/
def tryWrite (b : Buffer) (memory : Bool) (data : Bytes) : Except Fault (Option Buffer) :=
  if data = [] then .ok (some b)
  else (b.makeRoom memory data.length (b.writeIndex + data.length)).map fun r => r.bind fun b =>
    if h : data.length ≤ b.getTailIdleSpaceSize then some (b.copyIn data h) else none

/-- `WriteAndAdd` -/
def tryWriteAndAdd (b : Buffer) (memory : Bool) (data : Bytes) : Except Fault (Option Buffer) :=
  (b.tryWrite memory data).map fun r => r.bind (·.moveWritePosition data.length)

/-- `ReadAsString`, whose string may need memory. -/
def tryReadAsString (b : Buffer) (memory : Bool) (len : Nat) : Except Fault (Option Bytes) :=
  if memory = false ∧ len ≤ b.currentEnableReadSpaceSize then .error .badAlloc
    else .ok (b.readAsString len)

/-- `RdStringAndPop` -/
def tryRdStringAndPop (b : Buffer) (memory : Bool) (len : Nat) :
    Except Fault (Option (Bytes × Buffer)) :=
  (b.tryReadAsString memory len).map fun r => r.bind fun ret =>
    (b.moveReadPosition len).map (ret, ·)

/-- `GetLine` -/
def tryGetLine (b : Buffer) (memory : Bool) : Except Fault (Option Bytes) :=
  match b.getCRLF with
  | none => .ok (some [])
  | some i => b.tryReadAsString memory (i + 1)

/-- `GetLineAndAdd` -/
def tryGetLineAndAdd (b : Buffer) (memory : Bool) : Except Fault (Option (Bytes × Buffer)) :=
  (b.tryGetLine memory).map fun r => r.bind fun ret => (b.moveReadPosition ret.length).map (ret, ·)

/-! ## What the operations do to the unread bytes -/

@[simp] theorem unread_empty : empty.unread = [] := rfl

theorem moveReadPosition_eq (b : Buffer) (len : Nat) (h : len ≤ b.unread.length) :
    ∃ b', b.moveReadPosition len = some b' ∧ b'.unread = b.unread.drop len := by
  rw [length_unread] at h
  refine ⟨_, dif_pos h, ?_⟩
  simp [unread, List.drop_drop]

theorem unread_moveReadPosition {b b' : Buffer} {len : Nat} (h : b.moveReadPosition len = some b') :
    b'.unread = b.unread.drop len := by
  by_cases hlen : len ≤ b.currentEnableReadSpaceSize
  · obtain ⟨b₁, he, hu⟩ := b.moveReadPosition_eq len (by rwa [length_unread])
    cases he.symm.trans h
    exact hu
  · rw [moveReadPosition, dif_neg hlen] at h
    cases h

theorem moveWritePosition_eq (b : Buffer) (len : Nat) (h : len ≤ b.getTailIdleSpaceSize) :
    ∃ b', b.moveWritePosition len = some b' ∧
      b'.unread = b.unread ++ (b.storage.drop b.writeIndex).take len := by
  refine ⟨_, dif_pos h, ?_⟩
  have hr := b.read_le
  have hw := b.write_le
  simp only [unread, List.take_add]
  rw [List.drop_append_of_le_length]
  simp only [List.length_take]
  omega

/-- Making room moves bytes around without changing the queue. -/
@[simp] theorem unread_ensureWriteSpaceSize (b : Buffer) (len : Nat) :
    (b.ensureWriteSpaceSize len).unread = b.unread := by
  have hr := b.read_le
  have hw := b.write_le
  unfold ensureWriteSpaceSize
  split
  · rfl
  · split
    · exact List.take_left' (length_unread b)
    · simp only [unread]
      rw [List.take_append_of_le_length hw]

theorem copyIn_moveWritePosition (b : Buffer) (data : Bytes)
    (h : data.length ≤ b.getTailIdleSpaceSize) :
    ∃ b', (b.copyIn data h).moveWritePosition data.length = some b' ∧
      b'.unread = b.unread ++ data := by
  have hr := b.read_le
  have hw := b.write_le
  have hlen : (b.storage.take b.writeIndex).length = b.writeIndex := by
    rw [List.length_take]; omega
  have hroom : data.length ≤ (b.copyIn data h).getTailIdleSpaceSize := by
    simp only [getTailIdleSpaceSize, copyIn, List.length_append, List.length_take,
      List.length_drop] at h ⊢
    omega
  obtain ⟨b', he, hu⟩ := moveWritePosition_eq (b.copyIn data h) data.length hroom
  refine ⟨b', he, ?_⟩
  rw [hu]
  simp only [unread, copyIn, List.append_assoc]
  congr 1
  · rw [List.take_append_of_le_length (by omega), List.take_take, Nat.min_self]
  · rw [List.drop_append_of_le_length (by omega), List.drop_of_length_le (by omega),
      List.nil_append,
      List.take_left' rfl]

/-- A write followed by the matching move of the write index appends to the queue. -/
theorem write_moveWritePosition (b : Buffer) (data : Bytes) :
    ∃ b', (b.write data).moveWritePosition data.length = some b' ∧
      b'.unread = b.unread ++ data := by
  by_cases hd : data = []
  · subst hd
    obtain ⟨b', he, hu⟩ := moveWritePosition_eq b 0 (Nat.zero_le _)
    exact ⟨b', by simpa [write] using he, by simpa using hu⟩
  · obtain ⟨b', he, hu⟩ := copyIn_moveWritePosition (b.ensureWriteSpaceSize data.length) data
      (ensureWriteSpaceSize_room b data.length)
    exact ⟨b', by simpa [write, hd] using he, by rw [hu, unread_ensureWriteSpaceSize]⟩

theorem writeAndAdd_eq (b : Buffer) (data : Bytes) :
    ∃ b', b.writeAndAdd data = some b' ∧ b'.unread = b.unread ++ data :=
  write_moveWritePosition b data

theorem writeAsBufferAndAdd_eq (b other : Buffer) :
    ∃ b', b.writeAsBufferAndAdd other = some b' ∧ b'.unread = b.unread ++ other.unread := by
  obtain ⟨b', he, hu⟩ := write_moveWritePosition b other.unread
  exact ⟨b', by simpa [writeAsBufferAndAdd] using he, hu⟩

/-- Without a line feed the buffer yields the empty string and keeps everything. -/
theorem getLineAndAdd_none (b : Buffer) (h : newline ∉ b.unread) :
    b.getLineAndAdd = some ([], b) := by
  have hc : b.getCRLF = none := by
    rw [getCRLF, List.findIdx?_eq_none_iff]
    intro x hx
    simp only [beq_eq_false_iff_ne]
    intro he
    exact h (he ▸ hx)
  simp [getLineAndAdd, getLine, hc, moveReadPosition]

/-- Otherwise it pops the shortest unread prefix that ends in a line feed. -/
theorem getLineAndAdd_some (b : Buffer) (l rest : Bytes) (hl : newline ∉ l)
    (h : b.unread = l ++ newline :: rest) :
    ∃ b', b.getLineAndAdd = some (l ++ [newline], b') ∧ b'.unread = rest := by
  have hc : b.getCRLF = some l.length := by
    rw [getCRLF, h, List.findIdx?_append]
    have hn : l.findIdx? (· == newline) = none := by
      rw [List.findIdx?_eq_none_iff]
      intro x hx
      simp only [beq_eq_false_iff_ne]
      intro he
      exact hl (he ▸ hx)
    simp [hn, List.findIdx?_cons]
  have hlen : l.length + 1 ≤ b.unread.length := by simp [h]
  have htake : b.unread.take (l.length + 1) = l ++ [newline] := by
    rw [h, List.take_append]
    simp
  obtain ⟨b', he, hu⟩ := moveReadPosition_eq b (l.length + 1) hlen
  refine ⟨b', ?_, ?_⟩
  · have hrd : b.readAsString (l.length + 1) = some (l ++ [newline]) := by
      rw [readAsString, if_pos (by rwa [← length_unread]), htake]
    simp [getLineAndAdd, getLine, hc, hrd, he]
  · rw [hu, h, List.drop_append]
    simp

/-- The two outcomes of asking for a line. -/
theorem getLineAndAdd_cases (b : Buffer) :
    (newline ∉ b.unread ∧ b.getLineAndAdd = some ([], b)) ∨
    ∃ l rest b', newline ∉ l ∧ b.unread = l ++ newline :: rest ∧
      b.getLineAndAdd = some (l ++ [newline], b') ∧ b'.unread = rest := by
  by_cases h : newline ∈ b.unread
  · obtain ⟨l, rest, hu, hl⟩ := List.eq_append_cons_of_mem h
    obtain ⟨b', he, hr⟩ := getLineAndAdd_some b l rest hl hu
    exact .inr ⟨l, rest, b', hl, hu, he, hr⟩
  · exact .inl ⟨h, getLineAndAdd_none b h⟩

/-- A buffer that holds exactly the unread bytes `u`. -/
def ofBytes (u : Bytes) : Buffer where
  storage := u
  readIndex := 0
  writeIndex := u.length
  read_le := Nat.zero_le _
  write_le := Nat.le_refl _

@[simp] theorem unread_ofBytes (u : Bytes) : (ofBytes u).unread = u := by
  simp [unread, ofBytes]

end Buffer
end MuduoServer
