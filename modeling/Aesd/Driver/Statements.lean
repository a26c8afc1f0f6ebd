/-
  Aesd.Driver.Statements

  `main.c` once more, one statement at a time.  `CharDev` runs a file operation
  as one step because it holds `device_mutex` from its first statement to its
  last.  Here the operations are code in atomic statements, each of which
  reads or writes the device, the heap or the position of the file on its own;
  the two loops take one slot at a time.

  Run without interruption the code does what `Driver.step` does
  (`exec_callCode`), and it touches nothing outside the mutex
  (`guarded_callCode`).
-/
import Aesd.Lib.Code
import Aesd.Driver.System

namespace Aesd.Driver

open Aesd.Lib

variable {β : Type}

/-- Code on the device, its memory, and the positions of the open files. -/
abbrev DriverCode (ρ : Type) := Code System ρ

/-! ## Kernel services -/

/-- A statement on the device and the heap. -/
def onDriver (f : DriverState → Option (β × DriverState)) (s : System) : Option (β × System) :=
  (f s.driver).map fun r => (r.1, { s with driver := r.2 })

/-- `mutex_lock_interruptible(&device->device_mutex)`. -/
def lockDevice (env : CallEnv) : DriverCode Int :=
  if env.interrupted then return -EINTR
  else do
    Code.acquire (onDriver fun d => (mutexLockInterruptible env d).map fun r => ((), r.2))
    return 0

/-- `mutex_unlock(&device->device_mutex); return` with the answer `r`. -/
def unlockAndReturn (r : Answer) : DriverCode Answer := do
  Code.release (onDriver fun d => some ((), mutexUnlock d))
  return r

/-- A field of the circular buffer. -/
def readBuffer (get : AesdCircularBuffer → Option β) : DriverCode β :=
  .read fun s => get s.driver.device.circularBuffer

/-- A field of the pending entry. -/
def readCurrent (get : AesdBufferEntry → β) : DriverCode β :=
  .read fun s => some (get s.driver.device.currentEntry)

def modifyCurrent (set : AesdBufferEntry → AesdBufferEntry) : DriverCode Unit :=
  .modify fun s =>
    let device := { s.driver.device with currentEntry := set s.driver.device.currentEntry }
    some { s with driver := { s.driver with device } }

def modifyHeap (f : DriverState → Option (Heap Byte)) : DriverCode Unit :=
  .modify fun s => (f s.driver).map fun heap => { s with driver := { s.driver with heap } }

/-- `*f_pos`, or `filp->f_pos`: the position of the file.  In a read or a write the kernel puts
    a copy in its place (`Driver.Syscalls`). -/
def readPos (f : File) : DriverCode Int := .read fun s => some (s.fPos f)

def writePos (f : File) (p : Int) : DriverCode Unit :=
  .modify fun s => some { s with fPos := setPos s.fPos f p }

/-! ## `aesd_read` -/

/-- The passes of `aesd_circular_buffer_find_entry_offset_for_fpos`. -/
def findLoopCode : Nat → Nat → Nat → DriverCode (Option (Nat × Nat))
  | 0, _, _ => .read fun _ => none
  | fuel + 1, remainingOffset, currentOutOffsOffset => do
    let index ← readBuffer fun buffer =>
      some ((buffer.outOffs + currentOutOffsOffset) % 2 ^ 64)
    let e ← readBuffer fun buffer => buffer.entry[index]?
    if e.buffptr = none then return none
    else if e.size ≤ remainingOffset then
      let next ← readBuffer fun buffer =>
        let next := (currentOutOffsOffset + 1) % 2 ^ 64
        some (if AESDCHAR_MAX_WRITE_OPERATIONS_SUPPORTED ≤ (buffer.outOffs + next) % 2 ^ 64 then
          toSizeT (-1 * buffer.outOffs) else next)
      if next = 0 then return none
      else findLoopCode fuel (remainingOffset - e.size) next
    else return some (index, remainingOffset)

/-- Lines 75 to 84, with the `err` of the user copy. -/
def readRetCode (f : File) (err : Int) (data : List Byte) (numChars : Nat) : DriverCode Answer :=
  if err ≠ 0 then unlockAndReturn ⟨err, data⟩
  else do
    let fPos ← readPos f
    writePos f (fPos + numChars)
    unlockAndReturn ⟨numChars, data⟩

def aesdReadCode (env : CallEnv) (f : File) (count : Nat) : DriverCode Answer := do
  let err ← lockDevice env
  if err ≠ 0 then return ⟨err, []⟩
  else
    let fPos ← readPos f
    match ← findLoopCode AESDCHAR_MAX_WRITE_OPERATIONS_SUPPORTED (toSizeT fPos) 0 with
    | none => unlockAndReturn ⟨0, []⟩
    | some (index, offset) =>
      let newEntry ← readBuffer fun buffer => buffer.entry[index]?
      let numChars := newEntry.size - offset
      let numChars := if count < numChars then count else numChars
      let (data, left) ← .read fun s => do
        let newEntry ← s.driver.device.circularBuffer.entry[index]?
        let buffptr ← newEntry.buffptr
        copyToUser env s.driver.heap buffptr offset numChars
      readRetCode f (toInt left) data numChars

/-! ## `aesd_write` -/

/-- Lines 111 to 115. -/
def moveCurrentCode (tempBuff : Ptr) : DriverCode Unit := do
  match ← readCurrent AesdBufferEntry.buffptr with
  | none => return ()
  | some old =>
    modifyHeap fun d => do
      let bytes ← d.heap.load old 0 d.device.currentEntry.size
      d.heap.store tempBuff 0 bytes
    modifyHeap fun d => d.heap.free old

/-- Lines 126 to 129. -/
def freeEvictedCode : DriverCode Unit := do
  let full ← readBuffer fun buffer => some buffer.full
  if full then
    modifyHeap fun d => do
      let evicted ← d.device.circularBuffer.entry[d.device.circularBuffer.inOffs]?
      kfree d.heap evicted.buffptr
  else return ()

/-- Lines 130 and 131. -/
def addCurrentCode : DriverCode Unit := do
  Code.modify fun s => do
    let d := s.driver.device
    let buffer ← aesdCircularBufferAddEntry d.circularBuffer d.currentEntry
    some { s with driver := { s.driver with device := { d with circularBuffer := buffer } } }
  modifyCurrent fun _ => .zero

def commitCurrentCode : DriverCode Unit := do
  freeEvictedCode
  addCurrentCode

/-- Lines 123 to 132. -/
def advanceCurrentCode (tempBuff : Ptr) (count : Nat) : DriverCode Unit := do
  modifyCurrent fun cur => { cur with size := (cur.size + count) % 2 ^ 64 }
  let last ← .read fun s =>
    s.driver.heap.load tempBuff (toSizeT ((s.driver.device.currentEntry.size : Int) - 1)) 1
  if last = [newline] then commitCurrentCode else return ()

/-- Lines 118 to 136, with the `err` of the user copy. -/
def afterCopyCode (err : Int) (tempBuff : Ptr) (count : Nat) : DriverCode Answer :=
  if err ≠ 0 then unlockAndReturn ⟨err, []⟩
  else do
    advanceCurrentCode tempBuff count
    unlockAndReturn ⟨count, []⟩

def aesdWriteCode (K : Kernel) (env : CallEnv) (buf : List Byte) : DriverCode Answer := do
  let err ← lockDevice env
  if err ≠ 0 then return ⟨err, []⟩
  else
    let size ← readCurrent AesdBufferEntry.size
    let tempBuff ← .keep (onDriver fun d =>
      match kmalloc K env d.heap ((size + buf.length) % 2 ^ 64) with
      | none => some (none, d)
      | some (tempBuff, heap) => some (some tempBuff, { d with heap }))
    match tempBuff with
    | none => unlockAndReturn ⟨-ENOMEM, []⟩
    | some tempBuff =>
      moveCurrentCode tempBuff
      modifyCurrent fun cur => { cur with buffptr := some tempBuff }
      let left ← .keep (onDriver fun d => do
        let dst ← d.device.currentEntry.buffptr
        let (left, heap) ← copyFromUser env d.heap dst d.device.currentEntry.size buf
        some (left, { d with heap }))
      afterCopyCode (toInt left) tempBuff buf.length

/-! ## `aesd_llseek` and `aesd_unlocked_ioctl` -/

/-- The counted walk of both functions. -/
def walkSizesCode : Nat → Nat → Int → DriverCode (Int × Nat)
  | 0, index, sum => return (sum, index)
  | n + 1, index, sum => do
    let e ← readBuffer fun buffer => buffer.entry[index]?
    let index := index + 1
    let index := if AESDCHAR_MAX_WRITE_OPERATIONS_SUPPORTED ≤ index then 0 else index
    walkSizesCode n index (toLoff (sum + e.size))

/-- The `switch` on `whence`. -/
def llseekTargetCode (f : File) (offset whence : Int) : DriverCode (Option Int) :=
  if whence = SEEK_SET then return some offset
  else if whence = SEEK_CUR then do
    let fPos ← readPos f
    return some (toLoff (fPos + offset))
  else if whence = SEEK_END then do
    let numEntries ← readBuffer fun buffer => some buffer.numEntries
    let index ← readBuffer fun buffer => some buffer.outOffs
    let (bufferSize, _) ← walkSizesCode numEntries.toNat index 0
    return some (toLoff (bufferSize + offset))
  else return none

def aesdLlseekCode (env : CallEnv) (f : File) (offset whence : Int) : DriverCode Answer := do
  let err ← lockDevice env
  if err ≠ 0 then return ⟨-EINVAL, []⟩
  else
    match ← llseekTargetCode f (toLoff offset) whence with
    | none => unlockAndReturn ⟨-EINVAL, []⟩
    | some newpos =>
      if newpos < 0 then unlockAndReturn ⟨-EINVAL, []⟩
      else
        writePos f newpos
        unlockAndReturn ⟨newpos, []⟩

/-- The new position for a seek request in a readable argument. -/
def seektoTargetCode (seekto : AesdSeekto) : DriverCode (Option Int) := do
  let numEntries ← readBuffer fun buffer => some buffer.numEntries
  if numEntries ≤ seekto.writeCmd.toNat then return none
  else
    let index ← readBuffer fun buffer => some buffer.outOffs
    let (newpos, index) ← walkSizesCode seekto.writeCmd.toNat index 0
    let e ← readBuffer fun buffer => buffer.entry[index]?
    if e.size ≤ seekto.writeCmdOffset.toNat then return none
    else return some (toLoff (newpos + seekto.writeCmdOffset.toNat))

def aesdUnlockedIoctlCode (env : CallEnv) (f : File) (cmd : UInt32) (arg : AesdSeekto) :
    DriverCode Answer := do
  let err ← lockDevice env
  if err ≠ 0 then return ⟨-EINVAL, []⟩
  else if cmd = AESDCHAR_IOCSEEKTO then
    if min env.uncopied sizeofSeekto ≠ 0 then unlockAndReturn ⟨-EINVAL, []⟩
    else
      match ← seektoTargetCode arg with
      | none => unlockAndReturn ⟨-EINVAL, []⟩
      | some newpos =>
        writePos f newpos
        unlockAndReturn ⟨newpos, []⟩
  else unlockAndReturn ⟨-EINVAL, []⟩

/-- The code of a call. -/
def callCode (K : Kernel) (c : Call) : DriverCode Answer :=
  match c.request with
  | .read f count => aesdReadCode c.env f count.val
  | .write _ buf => aesdWriteCode K c.env buf.val
  | .llseek f offset whence => aesdLlseekCode c.env f offset whence
  | .ioctl f cmd arg => aesdUnlockedIoctlCode c.env f cmd arg

/-! ## Without interruption -/

section Exec
variable (s : System)

@[simp] theorem exec_readBuffer (get : AesdCircularBuffer → Option β) :
    (readBuffer get).exec s = (get s.driver.device.circularBuffer).map (·, s) :=
  Code.exec_read ..

@[simp] theorem exec_readCurrent (get : AesdBufferEntry → β) :
    (readCurrent get).exec s = some (get s.driver.device.currentEntry, s) :=
  Code.exec_read ..

@[simp] theorem exec_readPos (f : File) : (readPos f).exec s = some (s.fPos f, s) :=
  Code.exec_read ..

@[simp] theorem exec_writePos (f : File) (p : Int) :
    (writePos f p).exec s = some ((), { s with fPos := setPos s.fPos f p }) :=
  Code.exec_modify ..

@[simp] theorem exec_unlockAndReturn (r : Answer) :
    (unlockAndReturn r).exec s = some (r, { s with driver := mutexUnlock s.driver }) := by
  rw [unlockAndReturn, Code.exec_bind, Code.exec_release]
  rfl

@[simp] theorem exec_lockDevice (env : CallEnv) :
    (lockDevice env).exec s = onDriver (mutexLockInterruptible env) s := by
  rw [lockDevice]
  by_cases hint : env.interrupted = true
  · rw [if_pos hint, onDriver, mutexLockInterruptible, if_pos hint]
    rfl
  · rw [if_neg hint, Code.exec_bind, Code.exec_acquire, onDriver, onDriver, mutexLockInterruptible,
      if_neg hint]
    cases s.driver.device.deviceMutex <;> rfl

theorem exec_findLoopCode (fuel remainingOffset currentOutOffsOffset : Nat) :
    (findLoopCode fuel remainingOffset currentOutOffsOffset).exec s =
      (findLoop s.driver.device.circularBuffer fuel remainingOffset currentOutOffsOffset).map
        (·, s) := by
  induction fuel generalizing remainingOffset currentOutOffsOffset with
  | zero => rfl
  | succ fuel ih =>
    rw [findLoopCode, findLoop]
    simp only [Code.exec_bind, exec_readBuffer, Option.map_some, Option.bind_some]
    cases h : s.driver.device.circularBuffer.entry[
      (s.driver.device.circularBuffer.outOffs + currentOutOffsOffset) % 2 ^ 64]? with
    | none => rfl
    | some e =>
      simp only [Option.map_some, Option.bind_some]
      by_cases hptr : e.buffptr = none
      · rw [if_pos hptr, if_pos hptr]
        rfl
      · rw [if_neg hptr, if_neg hptr]
        by_cases hsize : e.size ≤ remainingOffset
        · rw [if_pos hsize, if_pos hsize]
          simp only [Code.exec_bind, exec_readBuffer, Option.map_some, Option.bind_some]
          generalize (if AESDCHAR_MAX_WRITE_OPERATIONS_SUPPORTED ≤
            (s.driver.device.circularBuffer.outOffs + (currentOutOffsOffset + 1) % 2 ^ 64) % 2 ^ 64
            then toSizeT (-1 * (s.driver.device.circularBuffer.outOffs : Int))
            else (currentOutOffsOffset + 1) % 2 ^ 64) = next
          by_cases hnext : next = 0
          · rw [if_pos hnext, if_pos hnext]
            rfl
          · rw [if_neg hnext, if_neg hnext]
            exact ih _ _
        · rw [if_neg hsize, if_neg hsize]
          rfl

theorem exec_walkSizesCode (n index : Nat) (sum : Int) :
    (walkSizesCode n index sum).exec s =
      (walkSizes s.driver.device.circularBuffer n index sum).map (·, s) := by
  induction n generalizing index sum with
  | zero => rfl
  | succ n ih =>
    rw [walkSizesCode, walkSizes]
    simp only [Code.exec_bind, exec_readBuffer]
    cases h : s.driver.device.circularBuffer.entry[index]? with
    | none => rfl
    | some e => exact ih _ _

theorem exec_readRetCode (f : File) (err : Int) (data : List Byte) (numChars : Nat) :
    (readRetCode f err data numChars).exec s =
      some (⟨(readRet err data numChars (s.fPos f)).ret,
          (readRet err data numChars (s.fPos f)).data⟩,
        ⟨mutexUnlock s.driver, setPos s.fPos f (readRet err data numChars (s.fPos f)).fPos⟩) := by
  rw [readRetCode, readRet]
  by_cases herr : err ≠ 0
  · rw [if_pos herr, if_pos herr]
    simp [setPos]
  · rw [if_neg herr, if_neg herr]
    simp [Code.exec_bind]

theorem exec_aesdReadCode (env : CallEnv) (f : File) (count : Nat) :
    (aesdReadCode env f count).exec s =
      (aesdRead env s.driver count (s.fPos f)).map fun r =>
        (⟨r.1.ret, r.1.data⟩, ⟨r.2, setPos s.fPos f r.1.fPos⟩) := by
  rw [aesdReadCode, aesdRead, Code.exec_bind, exec_lockDevice, onDriver]
  cases hlock : mutexLockInterruptible env s.driver with
  | none => rfl
  | some x =>
    obtain ⟨err, d⟩ := x
    simp only [Option.map_some, Option.bind_some, Option.bind_eq_bind]
    by_cases herr : err ≠ 0
    · rw [if_pos herr, if_pos herr]
      simp [setPos]
    · rw [if_neg herr, if_neg herr]
      simp only [Code.exec_bind, exec_readPos, Option.bind_some, exec_findLoopCode,
        aesdCircularBufferFindEntryOffsetForFpos]
      cases hfind : findLoop d.device.circularBuffer AESDCHAR_MAX_WRITE_OPERATIONS_SUPPORTED
          (toSizeT (s.fPos f)) 0 with
      | none => rfl
      | some found =>
        cases found with
        | none => simp [setPos]
        | some p =>
          obtain ⟨index, offset⟩ := p
          simp only [Option.map_some, Option.bind_some, Code.exec_bind, exec_readBuffer,
            Code.exec_read]
          cases hslot : d.device.circularBuffer.entry[index]? with
          | none => rfl
          | some e =>
            simp only [Option.map_some, Option.bind_some, hslot]
            cases hptr : e.buffptr with
            | none => simp only [Option.bind_none, Option.map_none]
            | some buffptr =>
              simp only [Option.bind_some]
              cases copyToUser env d.heap buffptr offset
                (if count < e.size - offset then count else e.size - offset) with
              | none => simp only [Option.bind_none, Option.map_none]
              | some x =>
                simp only [Option.bind_some, Option.map_some, exec_readRetCode]
                rfl

/-! ### `aesd_write` -/

@[simp] theorem exec_modifyCurrent (set : AesdBufferEntry → AesdBufferEntry) :
    (modifyCurrent set).exec s = some ((), { s with driver := { s.driver with
      device := { s.driver.device with currentEntry := set s.driver.device.currentEntry } } }) :=
  Code.exec_modify ..

@[simp] theorem exec_modifyHeap (f : DriverState → Option (Heap Byte)) :
    (modifyHeap f).exec s =
      (f s.driver).map fun heap => ((), { s with driver := { s.driver with heap } }) := by
  rw [modifyHeap, Code.exec_modify, Option.map_map]
  rfl

theorem exec_moveCurrentCode (tempBuff : Ptr) :
    (moveCurrentCode tempBuff).exec s =
      (moveCurrent s.driver.heap tempBuff s.driver.device.currentEntry).map fun heap =>
        ((), { s with driver := { s.driver with heap } }) := by
  rw [moveCurrentCode, moveCurrent, Code.exec_bind, exec_readCurrent, Option.bind_some]
  cases hptr : s.driver.device.currentEntry.buffptr with
  | none => rfl
  | some old =>
    simp only [Code.exec_bind, exec_modifyHeap, Option.bind_eq_bind]
    cases hload : s.driver.heap.load old 0 s.driver.device.currentEntry.size with
    | none => rfl
    | some bytes =>
      simp only [Option.bind_some]
      cases hstore : s.driver.heap.store tempBuff 0 bytes with
      | none => rfl
      | some heap => rfl

theorem exec_freeEvictedCode :
    freeEvictedCode.exec s = (if s.driver.device.circularBuffer.full then do
        let evicted ← s.driver.device.circularBuffer.entry[s.driver.device.circularBuffer.inOffs]?
        kfree s.driver.heap evicted.buffptr
      else some s.driver.heap).map fun heap =>
        ((), { s with driver := { s.driver with heap } }) := by
  rw [freeEvictedCode, Code.exec_bind, exec_readBuffer, Option.map_some, Option.bind_some]
  by_cases hfull : s.driver.device.circularBuffer.full = true
  · rw [if_pos hfull, if_pos hfull, exec_modifyHeap]
  · rw [if_neg hfull, if_neg hfull]
    rfl

theorem exec_addCurrentCode :
    addCurrentCode.exec s =
      (aesdCircularBufferAddEntry s.driver.device.circularBuffer
        s.driver.device.currentEntry).map fun buffer =>
        ((), { s with driver := { s.driver with
          device := { s.driver.device with
            circularBuffer := buffer, currentEntry := .zero } } }) := by
  simp only [addCurrentCode, Code.exec_bind, Code.exec_modify, exec_modifyCurrent]
  cases aesdCircularBufferAddEntry s.driver.device.circularBuffer s.driver.device.currentEntry with
  | none => rfl
  | some buffer => rfl

theorem exec_commitCurrentCode :
    commitCurrentCode.exec s =
      (commitCurrent s.driver).map fun d => ((), { s with driver := d }) := by
  rw [commitCurrentCode, commitCurrent, Code.exec_bind, exec_freeEvictedCode]
  simp only [exec_addCurrentCode, Option.bind_eq_bind]
  -- whatever the first half has made of the heap, the second goes on from there
  have hadd : ∀ heap, (aesdCircularBufferAddEntry s.driver.device.circularBuffer
        s.driver.device.currentEntry).map (fun buffer => ((), { s with driver :=
          { device := { s.driver.device with circularBuffer := buffer, currentEntry := .zero },
            heap } })) =
      ((aesdCircularBufferAddEntry s.driver.device.circularBuffer
        s.driver.device.currentEntry).bind fun buffer => some
          { device := { s.driver.device with circularBuffer := buffer, currentEntry := .zero },
            heap }).map fun d => ((), { s with driver := d }) := by
    intro heap
    cases aesdCircularBufferAddEntry s.driver.device.circularBuffer
      s.driver.device.currentEntry <;> rfl
  by_cases hfull : s.driver.device.circularBuffer.full = true
  · rw [if_pos hfull, if_pos hfull]
    cases s.driver.device.circularBuffer.entry[s.driver.device.circularBuffer.inOffs]? with
    | none => rfl
    | some evicted =>
      simp only [Option.bind_some]
      cases kfree s.driver.heap evicted.buffptr with
      | none => rfl
      | some heap => exact hadd heap
  · rw [if_neg hfull, if_neg hfull]
    exact hadd s.driver.heap

theorem exec_advanceCurrentCode (tempBuff : Ptr) (count : Nat) :
    (advanceCurrentCode tempBuff count).exec s =
      (advanceCurrent s.driver tempBuff count).map fun d => ((), { s with driver := d }) := by
  rw [advanceCurrentCode, advanceCurrent]
  simp only [Code.exec_bind, exec_modifyCurrent, Code.exec_read, Option.bind_some,
    Option.bind_eq_bind]
  cases s.driver.heap.load tempBuff (toSizeT
      (((s.driver.device.currentEntry.size + count) % 2 ^ 64 : Nat) - 1)) 1 with
  | none => rfl
  | some last =>
    simp only [Option.map_some, Option.bind_some]
    by_cases hlast : last = [newline]
    · rw [if_pos hlast, if_pos hlast, exec_commitCurrentCode]
    · rw [if_neg hlast, if_neg hlast]
      rfl

theorem exec_afterCopyCode (err : Int) (tempBuff : Ptr) (count : Nat) :
    (afterCopyCode err tempBuff count).exec s =
      (afterCopy s.driver err tempBuff count).map fun r =>
        (⟨r.1, []⟩, { s with driver := r.2 }) := by
  rw [afterCopyCode, afterCopy]
  by_cases herr : err ≠ 0
  · rw [if_pos herr, if_pos herr]
    rfl
  · rw [if_neg herr, if_neg herr, Code.exec_bind, exec_advanceCurrentCode]
    cases hadv : advanceCurrent s.driver tempBuff count with
    | none => rfl
    | some d => rfl

theorem exec_aesdWriteCode (K : Kernel) (env : CallEnv) (buf : List Byte) :
    (aesdWriteCode K env buf).exec s =
      (aesdWrite K env s.driver buf).map fun r => (⟨r.1, []⟩, { s with driver := r.2 }) := by
  rw [aesdWriteCode, aesdWrite, Code.exec_bind, exec_lockDevice, onDriver]
  cases hlock : mutexLockInterruptible env s.driver with
  | none => rfl
  | some x =>
    obtain ⟨err, d⟩ := x
    simp only [Option.map_some, Option.bind_some, Option.bind_eq_bind]
    by_cases herr : err ≠ 0
    · rw [if_pos herr, if_pos herr]
      rfl
    · rw [if_neg herr, if_neg herr]
      simp only [Code.exec_bind, exec_readCurrent, Option.bind_some, Code.exec_keep, onDriver]
      cases halloc : kmalloc K env d.heap ((d.device.currentEntry.size + buf.length) % 2 ^ 64) with
      | none => rfl
      | some y =>
        obtain ⟨tempBuff, heap⟩ := y
        simp only [Option.map_some, Option.bind_some, Code.exec_bind, exec_moveCurrentCode,
          exec_modifyCurrent, Code.exec_keep]
        cases hmove : moveCurrent heap tempBuff d.device.currentEntry with
        | none => rfl
        | some heap₁ =>
          simp only [Option.map_some, Option.bind_some, onDriver]
          cases copyFromUser env heap₁ tempBuff d.device.currentEntry.size buf with
          | none => simp only [Option.bind_none, Option.map_none]
          | some z => rw [Option.bind_some, Option.map_some, Option.bind_some, Option.bind_some,
              exec_afterCopyCode]

/-! ### `aesd_llseek` and `aesd_unlocked_ioctl` -/

theorem exec_llseekTargetCode (f : File) (offset whence : Int) :
    (llseekTargetCode f offset whence).exec s =
      (llseekTarget s.driver.device.circularBuffer (s.fPos f) offset whence).map (·, s) := by
  rw [llseekTargetCode, llseekTarget]
  by_cases hset : whence = SEEK_SET
  · rw [if_pos hset, if_pos hset]
    rfl
  · rw [if_neg hset, if_neg hset]
    by_cases hcur : whence = SEEK_CUR
    · rw [if_pos hcur, if_pos hcur, Code.exec_bind, exec_readPos, Option.bind_some]
      simp only [Code.exec_pure, Option.map_some]
    · rw [if_neg hcur, if_neg hcur]
      by_cases hend : whence = SEEK_END
      · rw [if_pos hend, if_pos hend]
        simp only [Code.exec_bind, exec_readBuffer, Option.map_some, Option.bind_some,
          exec_walkSizesCode, Option.bind_eq_bind]
        cases walkSizes s.driver.device.circularBuffer
          s.driver.device.circularBuffer.numEntries.toNat
          s.driver.device.circularBuffer.outOffs 0 with
        | none => rfl
        | some x => simp only [Option.map_some, Option.bind_some, Code.exec_pure, Option.pure_def]
      · rw [if_neg hend, if_neg hend]
        rfl

theorem exec_aesdLlseekCode (env : CallEnv) (f : File) (offset whence : Int) :
    (aesdLlseekCode env f offset whence).exec s =
      (aesdLlseek env s.driver (s.fPos f) offset whence).map fun r =>
        (⟨r.1.ret, []⟩, ⟨r.2, setPos s.fPos f r.1.fPos⟩) := by
  rw [aesdLlseekCode, aesdLlseek, Code.exec_bind, exec_lockDevice, onDriver]
  cases hlock : mutexLockInterruptible env s.driver with
  | none => rfl
  | some x =>
    obtain ⟨err, d⟩ := x
    simp only [Option.map_some, Option.bind_some, Option.bind_eq_bind]
    by_cases herr : err ≠ 0
    · rw [if_pos herr, if_pos herr]
      simp [setPos]
    · rw [if_neg herr, if_neg herr, Code.exec_bind, exec_llseekTargetCode]
      generalize toLoff offset = offset
      cases llseekTarget d.device.circularBuffer (s.fPos f) offset whence with
      | none => rfl
      | some target =>
        cases target with
        | none => simp [setPos]
        | some newpos =>
          simp only [Option.map_some, Option.bind_some]
          by_cases hneg : newpos < 0
          · rw [if_pos hneg, if_pos hneg]
            simp [setPos]
          · rw [if_neg hneg, if_neg hneg]
            simp [Code.exec_bind]

theorem exec_seektoTargetCode (seekto : AesdSeekto) :
    (seektoTargetCode seekto).exec s =
      (seektoTarget s.driver.device.circularBuffer seekto).map (·, s) := by
  rw [seektoTargetCode, seektoTarget, Code.exec_bind, exec_readBuffer, Option.map_some,
    Option.bind_some]
  by_cases hn : s.driver.device.circularBuffer.numEntries ≤ seekto.writeCmd.toNat
  · rw [if_pos hn, if_pos hn]
    rfl
  · rw [if_neg hn, if_neg hn]
    simp only [Code.exec_bind, exec_readBuffer, Option.map_some, Option.bind_some,
      exec_walkSizesCode, Option.bind_eq_bind]
    cases walkSizes s.driver.device.circularBuffer seekto.writeCmd.toNat
      s.driver.device.circularBuffer.outOffs 0 with
    | none => rfl
    | some x =>
      obtain ⟨newpos, index⟩ := x
      simp only [Option.map_some, Option.bind_some]
      cases s.driver.device.circularBuffer.entry[index]? with
      | none => rfl
      | some e =>
        simp only [Option.map_some, Option.bind_some]
        by_cases hsize : e.size ≤ seekto.writeCmdOffset.toNat
        · rw [if_pos hsize, if_pos hsize]
          rfl
        · rw [if_neg hsize, if_neg hsize]
          rfl

theorem exec_aesdUnlockedIoctlCode (env : CallEnv) (f : File) (cmd : UInt32) (arg : AesdSeekto) :
    (aesdUnlockedIoctlCode env f cmd arg).exec s =
      (aesdUnlockedIoctl env s.driver (s.fPos f) cmd arg).map fun r =>
        (⟨r.1.ret, []⟩, ⟨r.2, setPos s.fPos f r.1.fPos⟩) := by
  rw [aesdUnlockedIoctlCode, aesdUnlockedIoctl, Code.exec_bind, exec_lockDevice, onDriver]
  cases hlock : mutexLockInterruptible env s.driver with
  | none => rfl
  | some x =>
    obtain ⟨err, d⟩ := x
    simp only [Option.map_some, Option.bind_some, Option.bind_eq_bind]
    by_cases herr : err ≠ 0
    · rw [if_pos herr, if_pos herr]
      simp [setPos]
    · rw [if_neg herr, if_neg herr]
      by_cases hcmd : cmd = AESDCHAR_IOCSEEKTO
      · rw [if_pos hcmd, if_pos hcmd]
        by_cases hcopy : min env.uncopied sizeofSeekto ≠ 0
        · rw [if_pos hcopy, if_pos hcopy]
          simp [setPos]
        · rw [if_neg hcopy, if_neg hcopy, Code.exec_bind, exec_seektoTargetCode]
          cases seektoTarget d.device.circularBuffer arg with
          | none => rfl
          | some target =>
            cases target with
            | none => simp [setPos]
            | some newpos => simp [Code.exec_bind]
      · rw [if_neg hcmd, if_neg hcmd]
        simp [setPos]

end Exec

/-- Run without interruption, the code of a call does what the call does in one step. -/
theorem exec_callCode (K : Kernel) (s : System) (c : Call) :
    (callCode K c).exec s = step K s c := by
  obtain ⟨request, env⟩ := c
  cases request with
  | read f count => exact exec_aesdReadCode s env f count.val
  | write f buf => exact exec_aesdWriteCode s K env buf.val
  | llseek f offset whence => exact exec_aesdLlseekCode s env f offset whence
  | ioctl f cmd arg => exact exec_aesdUnlockedIoctlCode s env f cmd arg

/-! ## The mutex -/

theorem plain_findLoopCode (fuel remainingOffset currentOutOffsOffset : Nat) :
    (findLoopCode fuel remainingOffset currentOutOffsOffset).Plain := by
  induction fuel generalizing remainingOffset currentOutOffsOffset with
  | zero => exact Code.plain_read _
  | succ fuel ih =>
    refine (Code.plain_read _).bind fun index => (Code.plain_read _).bind fun e => ?_
    split
    · exact Code.plain_pure _
    · split
      · refine (Code.plain_read _).bind fun next => ?_
        split
        · exact Code.plain_pure _
        · exact ih _ _
      · exact Code.plain_pure _

theorem plain_walkSizesCode (n index : Nat) (sum : Int) : (walkSizesCode n index sum).Plain := by
  induction n generalizing index sum with
  | zero => exact Code.plain_pure _
  | succ n ih => exact (Code.plain_read _).bind fun e => ih _ _

theorem guarded_unlockAndReturn (r : Answer) : (unlockAndReturn r).Guarded true :=
  Code.guarded_release _ r

/-- A call takes the mutex first, or is interrupted and does nothing. -/
theorem guarded_lockDevice (env : CallEnv) {answer : Int → Answer} {body : DriverCode Answer}
    (hbody : body.Guarded true) :
    (lockDevice env >>= fun err => if err ≠ 0 then pure (answer err) else body).Guarded false := by
  rw [lockDevice]
  by_cases hint : env.interrupted = true
  · rw [if_pos hint]
    exact .ret _
  · rw [if_neg hint]
    refine Code.guarded_acquire _ fun _ => ?_
    show Code.Guarded true (if (0 : Int) ≠ 0 then pure (answer 0) else body)
    rw [if_neg (by simp)]
    exact hbody

theorem guarded_aesdReadCode (env : CallEnv) (f : File) (count : Nat) :
    (aesdReadCode env f count).Guarded false := by
  apply guarded_lockDevice
  refine (Code.plain_read _).guarded fun fPos => (plain_findLoopCode _ _ _).guarded fun found => ?_
  cases found with
  | none => exact guarded_unlockAndReturn _
  | some p =>
    refine (Code.plain_read _).guarded fun e => (Code.plain_read _).guarded fun copied => ?_
    show (readRetCode _ _ _ _).Guarded true
    rw [readRetCode]
    split
    · exact guarded_unlockAndReturn _
    · exact (Code.plain_read _).guarded fun fPos =>
        (Code.plain_modify _).guarded fun _ => guarded_unlockAndReturn _

theorem plain_moveCurrentCode (tempBuff : Ptr) : (moveCurrentCode tempBuff).Plain := by
  refine (Code.plain_read _).bind fun old => ?_
  cases old with
  | none => exact Code.plain_pure _
  | some old => exact (Code.plain_modify _).bind fun _ => Code.plain_modify _

theorem plain_commitCurrentCode : commitCurrentCode.Plain := by
  refine Code.Plain.bind ?_ fun _ => (Code.plain_modify _).bind fun _ => Code.plain_modify _
  refine (Code.plain_read _).bind fun full => ?_
  split
  · exact Code.plain_modify _
  · exact Code.plain_pure _

theorem plain_advanceCurrentCode (tempBuff : Ptr) (count : Nat) :
    (advanceCurrentCode tempBuff count).Plain := by
  refine (Code.plain_modify _).bind fun _ => (Code.plain_read _).bind fun last => ?_
  split
  · exact plain_commitCurrentCode
  · exact Code.plain_pure _

theorem guarded_aesdWriteCode (K : Kernel) (env : CallEnv) (buf : List Byte) :
    (aesdWriteCode K env buf).Guarded false := by
  apply guarded_lockDevice
  refine (Code.plain_read _).guarded fun size => (Code.plain_keep _).guarded fun tempBuff => ?_
  cases tempBuff with
  | none => exact guarded_unlockAndReturn _
  | some tempBuff =>
    refine (plain_moveCurrentCode tempBuff).guarded fun _ => (Code.plain_modify _).guarded fun _ =>
      (Code.plain_keep _).guarded fun left => ?_
    show (afterCopyCode _ _ _).Guarded true
    rw [afterCopyCode]
    split
    · exact guarded_unlockAndReturn _
    · exact (plain_advanceCurrentCode _ _).guarded fun _ => guarded_unlockAndReturn _

theorem plain_llseekTargetCode (f : File) (offset whence : Int) :
    (llseekTargetCode f offset whence).Plain := by
  rw [llseekTargetCode]
  split
  · exact Code.plain_pure _
  · split
    · exact (Code.plain_read _).bind fun fPos => Code.plain_pure _
    · split
      · exact (Code.plain_read _).bind fun numEntries => (Code.plain_read _).bind fun index =>
          (plain_walkSizesCode _ _ _).bind fun sum => Code.plain_pure _
      · exact Code.plain_pure _

theorem guarded_aesdLlseekCode (env : CallEnv) (f : File) (offset whence : Int) :
    (aesdLlseekCode env f offset whence).Guarded false := by
  apply guarded_lockDevice
  refine (plain_llseekTargetCode _ _ _).guarded fun target => ?_
  cases target with
  | none => exact guarded_unlockAndReturn _
  | some newpos =>
    dsimp only
    split
    · exact guarded_unlockAndReturn _
    · exact (Code.plain_modify _).guarded fun _ => guarded_unlockAndReturn _

theorem plain_seektoTargetCode (seekto : AesdSeekto) : (seektoTargetCode seekto).Plain := by
  refine (Code.plain_read _).bind fun numEntries => ?_
  split
  · exact Code.plain_pure _
  · refine (Code.plain_read _).bind fun index => (plain_walkSizesCode _ _ _).bind fun reached =>
      (Code.plain_read _).bind fun e => ?_
    split
    · exact Code.plain_pure _
    · exact Code.plain_pure _

theorem guarded_aesdUnlockedIoctlCode (env : CallEnv) (f : File) (cmd : UInt32)
    (arg : AesdSeekto) : (aesdUnlockedIoctlCode env f cmd arg).Guarded false := by
  apply guarded_lockDevice
  split
  · split
    · exact guarded_unlockAndReturn _
    · refine (plain_seektoTargetCode arg).guarded fun target => ?_
      cases target with
      | none => exact guarded_unlockAndReturn _
      | some newpos => exact (Code.plain_modify _).guarded fun _ => guarded_unlockAndReturn _
  · exact guarded_unlockAndReturn _

/-- A call takes the mutex before it touches anything, gives it back last on every path,
    and does so once. -/
theorem guarded_callCode (K : Kernel) (c : Call) : (callCode K c).Guarded false := by
  obtain ⟨request, env⟩ := c
  cases request with
  | read f count => exact guarded_aesdReadCode env f count.val
  | write f buf => exact guarded_aesdWriteCode K env buf.val
  | llseek f offset whence => exact guarded_aesdLlseekCode env f offset whence
  | ioctl f cmd arg => exact guarded_aesdUnlockedIoctlCode env f cmd arg

end Aesd.Driver
