/-
  Aesd.Server.Device

  The three device calls of a connection, on the abstract device.  The device
  of a shared state `Stands` for a journal; it `Tracks` its own history if that
  is the journal of the bytes in `origin`.  With that, what each call does is
  an equation on journals and positions, and no driver code is looked at again.
-/
import Aesd.Server.Connection
import Aesd.Driver.WriteRuns

namespace Aesd.Server

open Aesd.Lib
open Aesd.Lib.Monitor (Move)
open Aesd.Driver (Byte newline isNewline Kernel CallEnv AesdSeekto vfsBuf)

/-- The bytes the device took, without their origins. -/
def Shared.journal (r : Shared) : Journal Byte := r.origin.map Prod.fst

/-- The device stands for the journal `J`. -/
def Stands (K : Kernel) (J : Journal Byte) (r : Shared) : Prop :=
  Driver.SystemRep K r.system ⟨J, r.system.fPos⟩

/-- The device stands for the bytes of `origin`. -/
def Tracks (K : Kernel) (r : Shared) : Prop := Stands K r.journal r

theorem tracks_init (K : Kernel) : Tracks K .init := Driver.systemRep_init K

/-! ## Bytes and tagged bytes -/

@[simp] theorem map_fst_tagged (t : Tid) (bytes : List Byte) :
    (tagged t bytes).map Prod.fst = bytes := by
  rw [tagged, List.map_map]
  exact List.map_id bytes

@[simp] theorem length_tagged (t : Tid) (bytes : List Byte) :
    (tagged t bytes).length = bytes.length := List.length_map ..

theorem writeOk_tagged (K : Kernel) (env : CallEnv) (J : Journal (Byte × Tid)) (t : Tid)
    (bytes : List Byte) :
    Driver.writeOk K env J (tagged t bytes) = Driver.writeOk K env (J.map Prod.fst) bytes := by
  simp [Driver.writeOk, Journal.map]

/-- A write does to the tagged journal what it does to the journal. -/
theorem absWriteNext_tagged (K : Kernel) (env : CallEnv) (J : Journal (Byte × Tid)) (t : Tid)
    (bytes : List Byte) :
    (Driver.absWriteNext isNewlineTagged K env J (tagged t bytes)).map Prod.fst =
      Driver.absWriteNext isNewline K env (J.map Prod.fst) bytes := by
  rw [Driver.absWriteNext, Driver.absWriteNext, writeOk_tagged]
  by_cases hok : Driver.writeOk K env (J.map Prod.fst) bytes = true
  · rw [if_pos hok, if_pos hok, isNewlineTagged, Journal.map_append, map_fst_tagged]
  · rw [if_neg hok, if_neg hok]

/-! ## The calls -/

section Calls

variable {K : Kernel} {J : Journal Byte} {r : Shared}

/-- The `open` of a connection leaves the journal and starts its file at 0. -/
theorem Stands.openOutput (h : Stands K J r) (t : Tid) : Stands K J (openOutput t r) := by
  -- position 0 is a position on any device
  have hpos : Driver.IsPos 0 := ⟨Int.le_refl 0, Int.pow_pos (by decide)⟩
  exact Driver.SystemRep.setPos h t hpos

/-- A seek request moves at most the position of its file. -/
theorem Stands.ioctlMove_eq (h : Stands K J r) (t : Tid) (w : Worker) (env : CallEnv)
    (seekto : AesdSeekto) (size : Nat) :
    ∃ system, ioctlMove K t r w env seekto size =
        some ⟨.keep, .ioctl seekto, { r with system := system },
          let next := afterIoctl (Driver.absIoctl env J (r.system.fPos t)
            Driver.AESDCHAR_IOCSEEKTO seekto).ret size
          { w with pc := afterPass next, recvRet := next }⟩ ∧
      system.fPos = Driver.setPos r.system.fPos t (Driver.absIoctl env J
        (r.system.fPos t) Driver.AESDCHAR_IOCSEEKTO seekto).fPos ∧
      Stands K J { r with system := system } := by
  obtain ⟨system, hstep, hrep⟩ :=
    Driver.step_refines ⟨.ioctl t Driver.AESDCHAR_IOCSEEKTO seekto, env⟩ h trivial
  have hfPos := hrep.fPos_eq
  refine ⟨system, ?_, hfPos, ?_⟩
  · rw [ioctlMove, hstep]
    rfl
  · rw [Stands, hfPos]
    exact hrep

/-- A read of the buffer's size moves at most the position of its file. -/
theorem Stands.readMove_eq (h : Stands K J r) (t : Tid) (w : Worker) (env : CallEnv) :
    ∃ system, readMove K t r w env =
        some ⟨.keep, .read, { r with system := system },
          let res := Driver.absRead env J BUFFER_SIZE (r.system.fPos t)
          { w with
            pc := onRead res.ret
            sendBuffer := res.data ++ w.sendBuffer.drop res.data.length }⟩ ∧
      system.fPos = Driver.setPos r.system.fPos t
        (Driver.absRead env J BUFFER_SIZE (r.system.fPos t)).fPos ∧
      Stands K J { r with system := system } := by
  obtain ⟨system, hstep, hrep⟩ := Driver.step_refines ⟨.read t bufferCount, env⟩ h trivial
  have hfPos := hrep.fPos_eq
  refine ⟨system, ?_, hfPos, ?_⟩
  · rw [readMove, hstep]
    rfl
  · rw [Stands, hfPos]
    exact hrep

/-- A write of at least one byte answers as the journal does. -/
theorem Stands.write_eq (h : Stands K J r) (t : Tid) (env : CallEnv) {bytes : List Byte}
    (hne : bytes ≠ []) (hle : bytes.length ≤ BUFFER_SIZE) :
    (vfsBuf bytes).val = bytes ∧
      ∃ system, Driver.step K r.system ⟨.write t (vfsBuf bytes), env⟩ =
          some (⟨Driver.absWriteRet K env J bytes, []⟩, system) ∧
        system.fPos = r.system.fPos ∧
        Driver.SystemRep K system
          ⟨Driver.absWriteNext isNewline K env J bytes, r.system.fPos⟩ := by
  have hmax : BUFFER_SIZE ≤ Driver.MAX_RW_COUNT := by decide
  -- a buffer of the server is never cut
  have hbuf : (vfsBuf bytes).val = bytes := List.take_of_length_le (by omega)
  have hdef : Driver.Defined K ⟨J, r.system.fPos⟩ ⟨.write t (vfsBuf bytes), env⟩ := by
    intro hlast
    exact hne (hbuf ▸ hlast.2.1)
  obtain ⟨system, hstep, hrep⟩ := Driver.step_refines ⟨.write t (vfsBuf bytes), env⟩ h hdef
  simp only [Driver.absStep, hbuf] at hstep hrep
  exact ⟨hbuf, system, hstep, hrep.fPos_eq, hrep⟩

/-- It adds to the journal, or leaves it. -/
theorem Tracks.writeMove_eq (h : Tracks K r) (t : Tid) (w : Worker) (env : CallEnv)
    {bytes : List Byte} (hne : bytes ≠ []) (hle : bytes.length ≤ BUFFER_SIZE) (size : Nat) :
    ∃ system, writeMove K t r w env bytes size =
        some ⟨.keep, .write bytes,
          { r with
            system := system
            origin := Driver.absWriteNext isNewlineTagged K env r.origin (tagged t bytes) },
          let next := afterWrite (Driver.absWriteRet K env r.journal bytes) size
          { w with
            pc := afterPass next
            recvRet := next
            stored := if Driver.writeOk K env r.journal bytes then w.stored ++ [bytes]
              else w.stored }⟩ ∧
      system.fPos = r.system.fPos ∧
      Tracks K { r with
        system := system
        origin := Driver.absWriteNext isNewlineTagged K env r.origin (tagged t bytes) } := by
  obtain ⟨hbuf, system, hstep, hfPos, hrep⟩ := Stands.write_eq h t env hne hle
  -- the history takes the bytes exactly if the device does
  have hnext := absWriteNext_tagged K env r.origin t bytes
  have hok := writeOk_tagged K env r.origin t bytes
  refine ⟨system, ?_, hfPos, ?_⟩
  · rw [writeMove, hstep]
    simp only [Option.map_some, hbuf, hok]
    rfl
  · rw [Tracks, Stands, Shared.journal, hnext, hfPos]
    exact hrep

/-- A step that does not write leaves what the device stands for. -/
theorem frame_of_not_write {t : Tid} {w : Worker} {e : Event} {m : Move Shared Worker Op}
    (hJ : Stands K J r) (hact : connectionThread K t r w e = some m)
    (hnot : ∀ bytes size, w.pc ≠ .write bytes size) :
    Stands K J m.shared ∧ m.shared.origin = r.origin ∧ m.own.stored = w.stored := by
  cases connectionThread_cases hact with
  | begin hpc => exact ⟨hJ, rfl, rfl⟩
  | lock hpc => exact ⟨hJ, rfl, rfl⟩
  | «open» hpc => exact ⟨hJ.openOutput t, rfl, rfl⟩
  | openFails hpc => exact ⟨hJ, rfl, rfl⟩
  | recvEnds hpc hnext => exact ⟨hJ, rfl, rfl⟩
  | recvIoctl hpc hnext => exact ⟨hJ, rfl, rfl⟩
  | recvWrite hpc hnext => exact ⟨hJ, rfl, rfl⟩
  | ioctl hpc hm =>
    obtain ⟨system, heq, -, hJ'⟩ := hJ.ioctlMove_eq t w _ _ _
    obtain rfl := Option.some.inj (hm.symm.trans heq)
    exact ⟨hJ', rfl, rfl⟩
  -- the one step that the lemma is not about
  | write hpc hm => exact absurd hpc (hnot _ _)
  | read hpc hm =>
    obtain ⟨system, heq, -, hJ'⟩ := hJ.readMove_eq t w _
    obtain rfl := Option.some.inj (hm.symm.trans heq)
    exact ⟨hJ', rfl, rfl⟩
  | send hpc res => exact ⟨hJ, rfl, rfl⟩
  | @exit op todo hpc => cases op <;> exact ⟨hJ, rfl, rfl⟩

/-- The same, for a device that stands for its own history. -/
theorem Tracks.of_not_write {t : Tid} {w : Worker} {e : Event} {m : Move Shared Worker Op}
    (h : Tracks K r) (hact : connectionThread K t r w e = some m)
    (hnot : ∀ bytes size, w.pc ≠ .write bytes size) :
    Tracks K m.shared ∧ m.shared.origin = r.origin ∧ m.own.stored = w.stored := by
  obtain ⟨hJ, horigin, hstored⟩ := frame_of_not_write h hact hnot
  refine ⟨?_, horigin, hstored⟩
  rw [Tracks, Shared.journal, horigin]
  exact hJ

end Calls

end Aesd.Server
