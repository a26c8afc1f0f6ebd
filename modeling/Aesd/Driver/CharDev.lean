/-
  Aesd.Driver.CharDev

  `main.c`: the file operations of the character device, on the device record
  and the kernel heap.

  A call runs under `device_mutex` from its first statement to its last, so it
  is one step of the model.  Its answer is `none` when the C code would leave
  the buffers it owns (an index outside an array, a dead or unwritten cell, a
  second `kfree`) or wait for a mutex that nobody gives back.
-/
import Aesd.Driver.CircularBuffer

namespace Aesd.Driver

open Aesd.Lib

variable {α : Type _}

/-- `struct aesd_dev`, less the `cdev`; the mutex is `true` while it is held. -/
structure AesdDev where
  circularBuffer : AesdCircularBuffer
  currentEntry : AesdBufferEntry
  deviceMutex : Bool

/-- The device and the memory its buffers live in. -/
structure DriverState where
  device : AesdDev
  heap : Heap Byte

/-- `aesd_init_module`: a zeroed device and an initialised mutex. -/
def aesdInitModule : DriverState :=
  { device := { circularBuffer := aesdCircularBufferInit, currentEntry := .zero,
                deviceMutex := false }
    heap := Heap.empty }

/-! ## Kernel services -/

/-- `mutex_lock_interruptible`. -/
def mutexLockInterruptible (env : CallEnv) (s : DriverState) : Option (Int × DriverState) :=
  if env.interrupted then some (-EINTR, s)
  else if s.device.deviceMutex then none
  else some (0, { s with device := { s.device with deviceMutex := true } })

/-- `mutex_unlock`. -/
def mutexUnlock (s : DriverState) : DriverState :=
  { s with device := { s.device with deviceMutex := false } }

/-- `kmalloc`; NULL is `none`. -/
def kmalloc (K : Kernel) (env : CallEnv) (heap : Heap Byte) (n : Nat) :
    Option (Ptr × Heap Byte) :=
  if K.grants env n then some (heap.alloc n) else none

/-- `kfree`, which ignores NULL. -/
def kfree (heap : Heap Byte) : Option Ptr → Option (Heap Byte)
  | none => some heap
  | some p => heap.free p

/-- `copy_to_user`: the bytes that reach the user and the number that do not. -/
def copyToUser (env : CallEnv) (heap : Heap Byte) (src : Ptr) (off n : Nat) :
    Option (List Byte × Nat) := do
  let bytes ← heap.load src off n
  let left := min env.uncopied n
  return (bytes.take (n - left), left)

/-- `copy_from_user`: the number of bytes not copied; the kernel zeroes their place. -/
def copyFromUser (env : CallEnv) (heap : Heap Byte) (dst : Ptr) (off : Nat) (buf : List Byte) :
    Option (Nat × Heap Byte) := do
  let left := min env.uncopied buf.length
  let heap ← heap.store dst off (buf.take (buf.length - left) ++ List.replicate left 0)
  return (left, heap)

/-! ## `aesd_read` -/

/-- The return value, the bytes stored in the user's buffer and the new `*f_pos`. -/
structure ReadResult (α : Type _) where
  ret : Int
  data : List α
  fPos : Int
  deriving DecidableEq, Repr

/-- Lines 75 to 81, with the `err` of the user copy. -/
def readRet (err : Int) (data : List α) (numChars : Nat) (fPos : Int) : ReadResult α :=
  if err ≠ 0 then ⟨err, data, fPos⟩ else ⟨numChars, data, fPos + numChars⟩

def aesdRead (env : CallEnv) (s : DriverState) (count : Nat) (fPos : Int) :
    Option (ReadResult Byte × DriverState) := do
  let (err, s) ← mutexLockInterruptible env s
  -- a signal came first: the answer is the error of the lock
  if err ≠ 0 then return (⟨err, [], fPos⟩, s)
  else
    let buffer := s.device.circularBuffer
    -- the `loff_t` position becomes the `size_t` argument of the search
    match ← aesdCircularBufferFindEntryOffsetForFpos buffer (toSizeT fPos) with
    | none => return (⟨0, [], fPos⟩, mutexUnlock s)
    | some (index, offset) =>
      let newEntry ← buffer.entry[index]?
      let buffptr ← newEntry.buffptr
      -- at most the rest of the entry found, never the one behind it
      let numChars := newEntry.size - offset
      let numChars := if count < numChars then count else numChars
      let (data, left) ← copyToUser env s.heap buffptr offset numChars
      return (readRet (toInt left) data numChars fPos, mutexUnlock s)

/-! ## `aesd_write` -/

/-- Lines 111 to 115: the pending bytes move to `temp_buff` and their old
    buffer is freed. -/
def moveCurrent (heap : Heap Byte) (tempBuff : Ptr) (cur : AesdBufferEntry) :
    Option (Heap Byte) :=
  match cur.buffptr with
  | none => some heap
  | some old => do
    -- `memcpy`, into a buffer allocated for the pending and the new bytes
    let bytes ← heap.load old 0 cur.size
    let heap ← heap.store tempBuff 0 bytes
    heap.free old

/-- Lines 126 to 131: the oldest buffer of a full ring is freed, the pending
    entry is added and its place in the device zeroed. -/
def commitCurrent (s : DriverState) : Option DriverState := do
  let buffer := s.device.circularBuffer
  -- line 128: the slot about to be overwritten holds the oldest entry
  let heap ←
    if buffer.full then do
      let evicted ← buffer.entry[buffer.inOffs]?
      kfree s.heap evicted.buffptr
    else some s.heap
  let buffer ← aesdCircularBufferAddEntry buffer s.device.currentEntry
  return { device := { s.device with circularBuffer := buffer, currentEntry := .zero }, heap }

/-- Lines 123 to 132: the new bytes count, and a newline at the end commits the entry. -/
def advanceCurrent (s : DriverState) (tempBuff : Ptr) (count : Nat) : Option DriverState := do
  let size : Nat := (s.device.currentEntry.size + count) % 2 ^ 64
  let cur := { s.device.currentEntry with size }
  let s : DriverState := { s with device := { s.device with currentEntry := cur } }
  -- only the last byte is looked at: a newline inside the text commits nothing
  let last ← s.heap.load tempBuff (toSizeT ((size : Int) - 1)) 1
  if last = [newline] then commitCurrent s else some s

/-- Lines 118 to 136, with the `err` of the user copy. -/
def afterCopy (s : DriverState) (err : Int) (tempBuff : Ptr) (count : Nat) :
    Option (Int × DriverState) := do
  if err ≠ 0 then return (err, mutexUnlock s)
  else
    let s ← advanceCurrent s tempBuff count
    return (count, mutexUnlock s)

def aesdWrite (K : Kernel) (env : CallEnv) (s : DriverState) (buf : List Byte) :
    Option (Int × DriverState) := do
  let (err, s) ← mutexLockInterruptible env s
  if err ≠ 0 then return (err, s)
  else
    let cur := s.device.currentEntry
    match kmalloc K env s.heap ((cur.size + buf.length) % 2 ^ 64) with
    | none => return (-ENOMEM, mutexUnlock s)
    | some (tempBuff, heap) =>
      let heap ← moveCurrent heap tempBuff cur
      let cur := { cur with buffptr := some tempBuff }
      -- the copy goes behind the pending bytes; `current_entry.size` still counts only those
      let (left, heap) ← copyFromUser env heap tempBuff cur.size buf
      afterCopy { device := { s.device with currentEntry := cur }, heap } (toInt left) tempBuff
        buf.length

/-! ## `aesd_llseek` and `aesd_unlocked_ioctl` -/

def SEEK_SET : Int := 0
def SEEK_CUR : Int := 1
def SEEK_END : Int := 2

/-- The counted walk of both functions: `n` steps from slot `index`, adding up
    the sizes passed. Gives the sum and the slot reached. -/
def walkSizes (buffer : AesdCircularBuffer) : Nat → Nat → Int → Option (Int × Nat)
  | 0, index, sum => some (sum, index)
  | n + 1, index, sum =>
    match buffer.entry[index]? with
    | none => none
    | some e =>
      let index := index + 1
      -- the slot behind the last is slot 0
      let index := if AESDCHAR_MAX_WRITE_OPERATIONS_SUPPORTED ≤ index then 0 else index
      walkSizes buffer n index (toLoff (sum + e.size))

/-- The return value and the new `filp->f_pos`. -/
structure SeekResult where
  ret : Int
  fPos : Int
  deriving DecidableEq, Repr

/-- The `switch` on `whence`; a bad one gives `some none`. -/
def llseekTarget (buffer : AesdCircularBuffer) (fPos offset whence : Int) :
    Option (Option Int) :=
  if whence = SEEK_SET then some (some offset)
  else if whence = SEEK_CUR then some (some (toLoff (fPos + offset)))
  else if whence = SEEK_END then do
    let (bufferSize, _) ← walkSizes buffer buffer.numEntries.toNat buffer.outOffs 0
    return some (toLoff (bufferSize + offset))
  else some none

/-- The `loff_t` offset is given as an integer and converted on entry. -/
def aesdLlseek (env : CallEnv) (s : DriverState) (fPos offset whence : Int) :
    Option (SeekResult × DriverState) := do
  let (err, s) ← mutexLockInterruptible env s
  if err ≠ 0 then return (⟨-EINVAL, fPos⟩, s)
  else
    match ← llseekTarget s.device.circularBuffer fPos (toLoff offset) whence with
    | none => return (⟨-EINVAL, fPos⟩, mutexUnlock s)
    | some newpos =>
      -- no upper bound: a position behind the last entry is accepted
      if newpos < 0 then return (⟨-EINVAL, fPos⟩, mutexUnlock s)
      else return (⟨newpos, newpos⟩, mutexUnlock s)

/-- `struct aesd_seekto`. -/
structure AesdSeekto where
  writeCmd : UInt32
  writeCmdOffset : UInt32
  deriving DecidableEq, Repr

/-- `_IOWR(0x16, 1, struct aesd_seekto)`. -/
def AESDCHAR_IOCSEEKTO : UInt32 := 0xC0081601

/-- `sizeof(struct aesd_seekto)`. -/
def sizeofSeekto : Nat := 8

/-- The new position for a seek request in a readable argument; `some none`
    for a request out of range. -/
def seektoTarget (buffer : AesdCircularBuffer) (seekto : AesdSeekto) : Option (Option Int) :=
  if buffer.numEntries ≤ seekto.writeCmd.toNat then some none
  else do
    let (newpos, index) ← walkSizes buffer seekto.writeCmd.toNat buffer.outOffs 0
    -- `index` is now the slot of entry `write_cmd`
    let e ← buffer.entry[index]?
    if e.size ≤ seekto.writeCmdOffset.toNat then return none
    else return some (toLoff (newpos + seekto.writeCmdOffset.toNat))

def aesdUnlockedIoctl (env : CallEnv) (s : DriverState) (fPos : Int) (cmd : UInt32)
    (arg : AesdSeekto) : Option (SeekResult × DriverState) := do
  let (err, s) ← mutexLockInterruptible env s
  if err ≠ 0 then return (⟨-EINVAL, fPos⟩, s)
  else if cmd = AESDCHAR_IOCSEEKTO then
    -- the argument is read before anything is known about the entries
    if min env.uncopied sizeofSeekto ≠ 0 then return (⟨-EINVAL, fPos⟩, mutexUnlock s)
    else
      match ← seektoTarget s.device.circularBuffer arg with
      | none => return (⟨-EINVAL, fPos⟩, mutexUnlock s)
      | some newpos => return (⟨newpos, newpos⟩, mutexUnlock s)
  else return (⟨-EINVAL, fPos⟩, mutexUnlock s)

/-! ## `aesd_cleanup_module` -/

/-- The memory after the module is unloaded. -/
def aesdCleanupModule (s : DriverState) : Option (Heap Byte) := do
  let heap ← aesdCircularBufferForeach s.device.circularBuffer
    (fun heap entry => if entry.buffptr ≠ none then kfree heap entry.buffptr else some heap) s.heap
  -- the pending entry is not tested: `kfree` ignores NULL
  kfree heap s.device.currentEntry.buffptr

end Aesd.Driver
