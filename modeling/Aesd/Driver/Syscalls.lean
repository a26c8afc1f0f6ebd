/-
  Aesd.Driver.Syscalls

  The calls as the kernel makes them.  `ksys_read` and `ksys_write` do not pass
  `filp->f_pos` to the driver but a copy, loaded before the driver's function
  takes `device_mutex` and stored after it has given it back; a char device has
  no lock for the position.  `llseek` and `unlocked_ioctl` work on
  `filp->f_pos` itself, under the mutex.

  `Driver.Statements` has the functions of the driver, in which `*f_pos` is a
  position to read and write; which one is decided here.
-/
import Aesd.Driver.Statements
import Aesd.Lib.Copies

namespace Aesd.Driver

open Aesd.Lib

/-- The positions of the open files are the cells of the system. -/
def positions : Cells System DriverState File Int where
  rest := System.driver
  cell := System.fPos
  make := System.mk
  rest_make _ _ := rfl
  cell_make _ _ := rfl
  make_eta _ := rfl

/-- The kernel calls the driver with a copy of the position. -/
def Request.copiesPos : Request → Bool
  | .read _ _ => true
  | .write _ _ => true
  | .llseek _ _ _ => false
  | .ioctl _ _ _ => false

/-- `if (ret >= 0)`: the copy is stored. -/
def storesPos (r : Answer) : Bool := decide (0 ≤ r.ret)

/-- The code of a system call: of `ksys_read` and `ksys_write` with the copy of the position
    around the driver's function, of `llseek` and `ioctl` the driver's function alone. -/
def syscallCode (K : Kernel) (c : Call) : DriverCode Answer :=
  if c.request.copiesPos then (callCode K c).copied positions c.request.file storesPos
  else callCode K c

/-! ## What the functions touch -/

section Local

variable {β : Type} {f : File} {P : β → Prop}

/-- A statement on the device and the heap. -/
theorem local_onDriver (lock : Monitor.LockOp) (F : DriverState → Option (β × DriverState)) :
    (Code.stmt lock (onDriver F) .ret).Local positions f P false :=
  .look (fun d _ => F d) (fun _ => rfl) Code.local_pure

theorem local_readDriver (get : DriverState → Option β) :
    (Code.read fun s : System => get s.driver).Local positions f P false := by
  refine .look (fun d _ => (get d).map (·, d)) (fun s => ?_) Code.local_pure
  rw [Option.map_map]
  rfl

theorem local_modifyDriver {P : Unit → Prop} (put : DriverState → Option DriverState) :
    (Code.modify fun s : System => (put s.driver).map fun d => ⟨d, s.fPos⟩).Local positions f P
      false := by
  refine .look (fun d _ => (put d).map ((), ·)) (fun s => ?_) Code.local_pure
  rw [Option.map_map, Option.map_map]
  rfl

theorem local_readBuffer (get : AesdCircularBuffer → Option β) :
    (readBuffer get).Local positions f P false :=
  local_readDriver fun d => get d.device.circularBuffer

theorem local_readCurrent (get : AesdBufferEntry → β) :
    (readCurrent get).Local positions f P false :=
  local_readDriver fun d => some (get d.device.currentEntry)

theorem local_readPos {P : Int → Prop} : (readPos f).Local positions f P false :=
  .look (fun d p => some (p, d)) (fun _ => rfl) Code.local_pure

theorem local_modifyCurrent {P : Unit → Prop} (set : AesdBufferEntry → AesdBufferEntry) :
    (modifyCurrent set).Local positions f P false :=
  local_modifyDriver fun d =>
    some { d with device := { d.device with currentEntry := set d.device.currentEntry } }

theorem local_modifyHeap {P : Unit → Prop} (F : DriverState → Option (Heap Byte)) :
    (modifyHeap F).Local positions f P false := by
  have h := local_modifyDriver (f := f) (P := P) fun d => (F d).map fun heap => { d with heap }
  simp only [Option.map_map] at h
  exact h

theorem local_addCurrentCode {P : Unit → Prop} : addCurrentCode.Local positions f P false := by
  refine Code.Local.bind ?_ fun _ => local_modifyCurrent _
  refine .look (fun d _ => (aesdCircularBufferAddEntry d.device.circularBuffer
    d.device.currentEntry).map fun buffer =>
      ((), { d with device := { d.device with circularBuffer := buffer } })) (fun s => ?_)
    Code.local_pure
  dsimp only
  cases h : aesdCircularBufferAddEntry s.driver.device.circularBuffer
    s.driver.device.currentEntry <;> simp [positions, h]

theorem local_findLoopCode {P : Option (Nat × Nat) → Prop}
    (fuel remainingOffset currentOutOffsOffset : Nat) :
    (findLoopCode fuel remainingOffset currentOutOffsOffset).Local positions f P false := by
  induction fuel generalizing remainingOffset currentOutOffsOffset with
  | zero => exact local_readDriver fun _ => none
  | succ fuel ih =>
    refine (local_readBuffer _).bind fun index => (local_readBuffer _).bind fun e => ?_
    split
    · exact Code.local_pure _
    · split
      · refine (local_readBuffer _).bind fun next => ?_
        split
        · exact Code.local_pure _
        · exact ih _ _
      · exact Code.local_pure _

theorem local_walkSizesCode {P : Int × Nat → Prop} (n index : Nat) (sum : Int) :
    (walkSizesCode n index sum).Local positions f P false := by
  induction n generalizing index sum with
  | zero => exact Code.local_pure _
  | succ n ih => exact (local_readBuffer _).bind fun e => ih _ _

theorem local_moveCurrentCode {P : Unit → Prop} (tempBuff : Ptr) :
    (moveCurrentCode tempBuff).Local positions f P false := by
  refine (local_readCurrent _).bind fun old => ?_
  cases old with
  | none => exact Code.local_pure _
  | some old => exact (local_modifyHeap _).bind fun _ => local_modifyHeap _

theorem local_advanceCurrentCode {P : Unit → Prop} (tempBuff : Ptr) (count : Nat) :
    (advanceCurrentCode tempBuff count).Local positions f P false := by
  refine (local_modifyCurrent _).bind fun _ => (local_readDriver fun d =>
    d.heap.load tempBuff (toSizeT ((d.device.currentEntry.size : Int) - 1)) 1).bind fun last => ?_
  split
  · refine Code.Local.bind ?_ fun _ => local_addCurrentCode
    refine (local_readBuffer _).bind fun full => ?_
    split
    · exact local_modifyHeap _
    · exact Code.local_pure _
  · exact Code.local_pure _

end Local

section Calls

variable {f : File} {P : Answer → Prop}

theorem local_unlockAndReturn {w : Bool} (r : Answer) (hr : w = true → P r) :
    (unlockAndReturn r).Local positions f P w :=
  .look (fun d _ => some ((), mutexUnlock d)) (fun _ => rfl) fun _ => .ret r hr

/-- Nothing has been written yet. -/
theorem local_unlock (r : Answer) : (unlockAndReturn r).Local positions f P false :=
  local_unlockAndReturn r fun h => by cases h

/-- The position is written last, in front of an answer in `P`. -/
theorem local_writePos (p : Int) (r : Answer) (hr : P r) :
    (writePos f p >>= fun _ => unlockAndReturn r).Local positions f P false :=
  .put (fun d _ => some ((), d, p)) (fun _ => rfl) fun _ => local_unlockAndReturn r fun _ => hr

theorem local_lockDevice (env : CallEnv) {answer : Int → Answer} {body : DriverCode Answer}
    (hbody : body.Local positions f P false) :
    (lockDevice env >>= fun err => if err ≠ 0 then pure (answer err) else body).Local positions f P
      false := by
  refine Code.Local.bind ?_ fun err => ?_
  · rw [lockDevice]
    split
    · exact Code.local_pure _
    · exact (local_onDriver _ _).bind fun _ => Code.local_pure _
  · split
    · exact Code.local_pure _
    · exact hbody

/-- A read moves the position only in front of the number of bytes it has read. -/
theorem local_aesdReadCode (env : CallEnv) (count : Nat) (hP : ∀ (n : Nat) data, P ⟨n, data⟩) :
    (aesdReadCode env f count).Local positions f P false := by
  apply local_lockDevice
  refine local_readPos.bind fun fPos => (local_findLoopCode _ _ _).bind fun found => ?_
  cases found with
  | none => exact local_unlock _
  | some p =>
    obtain ⟨index, offset⟩ := p
    refine (local_readBuffer _).bind fun e => (local_readDriver fun d => do
      let newEntry ← d.device.circularBuffer.entry[index]?
      let buffptr ← newEntry.buffptr
      copyToUser env d.heap buffptr offset _).bind fun copied => ?_
    show (readRetCode _ _ _ _).Local positions f P false
    rw [readRetCode]
    split
    · exact local_unlock _
    · exact local_readPos.bind fun fPos => local_writePos _ _ (hP _ _)

/-- A write leaves the position alone. -/
theorem local_aesdWriteCode (K : Kernel) (env : CallEnv) (buf : List Byte) :
    (aesdWriteCode K env buf).Local positions f P false := by
  apply local_lockDevice
  refine (local_readCurrent _).bind fun size => (local_onDriver _ _).bind fun tempBuff => ?_
  cases tempBuff with
  | none => exact local_unlock _
  | some tempBuff =>
    refine (local_moveCurrentCode tempBuff).bind fun _ => (local_modifyCurrent _).bind fun _ =>
      (local_onDriver _ _).bind fun left => ?_
    show (afterCopyCode _ _ _).Local positions f P false
    rw [afterCopyCode]
    split
    · exact local_unlock _
    · exact (local_advanceCurrentCode _ _).bind fun _ => local_unlock _

theorem local_llseekTargetCode (offset whence : Int) {P : Option Int → Prop} :
    (llseekTargetCode f offset whence).Local positions f P false := by
  rw [llseekTargetCode]
  split
  · exact Code.local_pure _
  · split
    · exact local_readPos.bind fun fPos => Code.local_pure _
    · split
      · exact (local_readBuffer _).bind fun numEntries => (local_readBuffer _).bind fun index =>
          (local_walkSizesCode _ _ _).bind fun sum => Code.local_pure _
      · exact Code.local_pure _

theorem local_aesdLlseekCode (env : CallEnv) (offset whence : Int) (hP : ∀ r, P r) :
    (aesdLlseekCode env f offset whence).Local positions f P false := by
  apply local_lockDevice
  refine (local_llseekTargetCode _ _).bind fun target => ?_
  cases target with
  | none => exact local_unlock _
  | some newpos =>
    dsimp only
    split
    · exact local_unlock _
    · exact local_writePos _ _ (hP _)

theorem local_seektoTargetCode (seekto : AesdSeekto) {P : Option Int → Prop} :
    (seektoTargetCode seekto).Local positions f P false := by
  refine (local_readBuffer _).bind fun numEntries => ?_
  split
  · exact Code.local_pure _
  · refine (local_readBuffer _).bind fun index => (local_walkSizesCode _ _ _).bind fun reached =>
      (local_readBuffer _).bind fun e => ?_
    split
    · exact Code.local_pure _
    · exact Code.local_pure _

theorem local_aesdUnlockedIoctlCode (env : CallEnv) (cmd : UInt32) (arg : AesdSeekto)
    (hP : ∀ r, P r) : (aesdUnlockedIoctlCode env f cmd arg).Local positions f P false := by
  apply local_lockDevice
  split
  · split
    · exact local_unlock _
    · refine (local_seektoTargetCode arg).bind fun target => ?_
      cases target with
      | none => exact local_unlock _
      | some newpos => exact local_writePos _ _ (hP _)
  · exact local_unlock _

end Calls

/-- A call touches no position but that of its file; read and write leave that alone unless
    the kernel stores the copy. -/
theorem local_callCode (K : Kernel) (c : Call) :
    (callCode K c).Local positions c.request.file
      (fun r => c.request.copiesPos = true → storesPos r = true) false := by
  obtain ⟨request, env⟩ := c
  cases request with
  | read f count =>
    refine local_aesdReadCode env count.val fun n data _ => ?_
    exact decide_eq_true (Int.natCast_nonneg n)
  | write f buf => exact local_aesdWriteCode K env buf.val
  | llseek f offset whence =>
    exact local_aesdLlseekCode env offset whence fun r (h : false = true) => by cases h
  | ioctl f cmd arg =>
    exact local_aesdUnlockedIoctlCode env cmd arg fun r (h : false = true) => by cases h

/-- The functions of the driver, and which of them are given a copy; what is called (`outer`) is
    `syscallCode`. -/
def fileOperations (K : Kernel) : Methods System DriverState File Int Call Answer where
  toCells := positions
  code := callCode K
  on c := c.request.file
  copies c := c.request.copiesPos
  back := storesPos
  touches := local_callCode K

/-- Run without interruption, a system call does what the driver does with the position
    itself. -/
theorem exec_syscallCode (K : Kernel) (s : System) (c : Call) :
    (syscallCode K c).exec s = step K s c := by
  rw [← exec_callCode, syscallCode]
  by_cases hc : c.request.copiesPos = true
  · rw [if_pos hc]
    exact Code.exec_copied _ _ (local_callCode K c) (fun r hr => hr hc) s
  · rw [if_neg hc]

end Aesd.Driver
