/-
  Aesd.Server.Connection

  `connection_thread`: what a connection does from its first statement to its
  return, one system call or store at a time, with the device of `Driver.System`
  behind its calls.  Any number of threads run it under one `file_mutex`; a
  thread waits at `lock_mutex` and, in `recv`, for its client.

  Two fields are histories that no code reads: `origin` names, for every byte
  the device took, the connection it was received on, and `order` lists the
  connections as they acquired `file_mutex`.
-/
import Aesd.Lib.Monitor
import Aesd.Driver.System
import Aesd.Server.Recv

namespace Aesd.Server

open Aesd.Lib
open Aesd.Lib.Monitor (LockOp Move Program)
open Aesd.Driver (Byte newline isNewline Kernel CallEnv AesdSeekto vfsBuf)

/-- A connection, and its open file of the device. -/
abbrev Tid := Driver.File

/-! ## The program counter -/

/-- The statements with which `connection_thread` ends. -/
inductive ExitOp where
  | closeClient
  | setSuccess (success : Bool)
  | setComplete
  | closeOutput
  | unlock
  deriving DecidableEq, Repr

/-- Where a connection is: at the call named, or on its way out. -/
inductive Pc where
  | begin
  | lock
  | open
  | recv
  | ioctl (seekto : AesdSeekto) (receivedSize : Nat)
  | write (bytes : List Byte) (receivedSize : Nat)
  | read
  | send (bytesRead : Nat)
  | exit (todo : List ExitOp)
  deriving DecidableEq, Repr

/-- Lines 166 to 168: `open` failed. -/
def openFailed : Pc := .exit [.unlock]

/-- Lines 173 to 178 and 183 to 188: `recv_messages` or `send_messages` returned -1. -/
def failed : Pc := .exit [.closeClient, .setSuccess false, .setComplete, .closeOutput, .unlock]

/-- Lines 191 to 203. -/
def succeeded : Pc := .exit [.closeOutput, .unlock, .closeClient, .setSuccess true, .setComplete]

/-- Line 171, once `recv_messages` has or has not returned. -/
def afterPass : Option Int → Pc
  | none => .recv
  -- only -1 is looked at
  | some ret => if ret = -1 then failed else .read

/-- Lines 46 to 85 up to the next system call. -/
def onRecv (next : RecvNext) : Pc :=
  match next with
  | .ret ret => afterPass (some ret)
  | .ioctl seekto receivedSize => .ioctl seekto receivedSize
  | .write bytes receivedSize => .write bytes receivedSize

/-- Lines 136 to 141, with the answer of `read`. -/
def onRead (ret : Int) : Pc := if libcRet ret < 0 then failed else .send (libcRet ret).toNat

/-- What `send` answers: an error, or all the bytes but the last `unsent`.  The error is one that
    leaves the process alive: a send to a peer that has reset the connection raises `SIGPIPE`,
    which ends the program, and that end is left out. -/
inductive SendResult where
  | error
  | short (unsent : Nat)

/-- The bytes of `bytes` that the socket accepts. -/
def SendResult.accepted (bytes : List Byte) : SendResult → List Byte
  | .error => []
  | .short unsent => bytes.take (bytes.length - unsent)

/-- Lines 143 to 151 and 181, with the answer of `send`: both loops go on unless
    nothing was read. -/
def onSend (bytesRead : Nat) : SendResult → Pc
  | .error => failed
  | .short _ => if 0 < bytesRead then .read else succeeded

/-! ## Threads and what they share -/

/-- A connection. `stored` are the pieces that the device took from it, `recvRet`
    is what its `recv_messages` returned, and `client` is all its client got. -/
structure Worker where
  pc : Pc
  sendBuffer : List Byte
  threadComplete : Bool
  threadCompleteSuccess : Bool
  stored : List (List Byte)
  recvRet : Option Int
  client : List Byte

/-- A thread that has been created; its stack holds what it holds. -/
def Worker.start (stack : List Byte) : Worker :=
  { pc := .begin, sendBuffer := stack, threadComplete := false, threadCompleteSuccess := false,
    stored := [], recvRet := none, client := [] }

structure Shared where
  system : Driver.System
  origin : Journal (Byte × Tid)
  order : List Tid

/-- What the environment decides at a step. -/
inductive Event where
  | go
  | opened (ok : Bool)
  | received (res : RecvResult) (oob : Option AesdSeekto)
  | device (env : CallEnv)
  | sent (res : SendResult)

/-- The call or store that a step performs. -/
inductive Op where
  | setComplete (complete : Bool)
  | setSuccess (success : Bool)
  | lock
  | unlock
  | open (ok : Bool)
  | recv
  | ioctl (seekto : AesdSeekto)
  | write (bytes : List Byte)
  | read
  | send (bytes : List Byte)
  | closeOutput
  | closeClient
  deriving DecidableEq, Repr

/-- The bytes with the connection they were received on. -/
def tagged (t : Tid) (bytes : List Byte) : List (Byte × Tid) := bytes.map (·, t)

/-- The test of `aesd_write`, on bytes that carry a tag. -/
def isNewlineTagged : Byte × Tid → Bool := isNewline ∘ Prod.fst

/-- `BUFFER_SIZE` as the count of a read. -/
def bufferCount : Driver.RwCount := ⟨BUFFER_SIZE, by decide⟩

/-! ## The steps -/

/-- `open` makes a new open file, at position 0. -/
def openOutput (t : Tid) (r : Shared) : Shared :=
  { r with system := { r.system with fPos := Driver.setPos r.system.fPos t 0 } }

def ioctlMove (K : Kernel) (t : Tid) (r : Shared) (w : Worker) (env : CallEnv)
    (seekto : AesdSeekto) (receivedSize : Nat) : Option (Move Shared Worker Op) :=
  (Driver.step K r.system ⟨.ioctl t Driver.AESDCHAR_IOCSEEKTO seekto, env⟩).map fun x =>
    let next := afterIoctl x.1.ret receivedSize
    ⟨.keep, .ioctl seekto, { r with system := x.2 },
      { w with pc := afterPass next, recvRet := next }⟩

def writeMove (K : Kernel) (t : Tid) (r : Shared) (w : Worker) (env : CallEnv)
    (bytes : List Byte) (receivedSize : Nat) : Option (Move Shared Worker Op) :=
  (Driver.step K r.system ⟨.write t (vfsBuf bytes), env⟩).map fun x =>
    let next := afterWrite x.1.ret receivedSize
    -- the histories: whose bytes the device took, and which pieces it took whole
    let piece := tagged t (vfsBuf bytes).val
    ⟨.keep, .write bytes,
      { r with system := x.2, origin := Driver.absWriteNext isNewlineTagged K env r.origin piece },
      { w with
        pc := afterPass next
        recvRet := next
        stored := if Driver.writeOk K env r.origin piece then w.stored ++ [bytes] else w.stored }⟩

/-- The bytes delivered overwrite the start of `send_buffer`. -/
def readMove (K : Kernel) (t : Tid) (r : Shared) (w : Worker) (env : CallEnv) :
    Option (Move Shared Worker Op) :=
  (Driver.step K r.system ⟨.read t bufferCount, env⟩).map fun x =>
    ⟨.keep, .read, { r with system := x.2 },
      { w with
        pc := onRead x.1.ret
        sendBuffer := x.1.data ++ w.sendBuffer.drop x.1.data.length }⟩

def sendMove (r : Shared) (w : Worker) (res : SendResult) (bytesRead : Nat) :
    Move Shared Worker Op :=
  let bytes := w.sendBuffer.take bytesRead
  ⟨.keep, .send bytes, r,
    { w with pc := onSend bytesRead res, client := w.client ++ res.accepted bytes }⟩

def exitMove (r : Shared) (w : Worker) (todo : List ExitOp) : ExitOp → Move Shared Worker Op
  | .closeClient => ⟨.keep, .closeClient, r, { w with pc := .exit todo }⟩
  | .setSuccess success =>
    ⟨.keep, .setSuccess success, r, { w with pc := .exit todo, threadCompleteSuccess := success }⟩
  | .setComplete =>
    ⟨.keep, .setComplete true, r, { w with pc := .exit todo, threadComplete := true }⟩
  | .closeOutput => ⟨.keep, .closeOutput, r, { w with pc := .exit todo }⟩
  | .unlock => ⟨.release, .unlock, r, { w with pc := .exit todo }⟩

/-- The next step of connection `t`; `none` if the event does not fit it. -/
def connectionThread (K : Kernel) : Program Tid Shared Worker Event Op := fun t r w e =>
  match w.pc, e with
  | .begin, .go =>
    some ⟨.keep, .setComplete false, r, { w with pc := .lock, threadComplete := false }⟩
  | .lock, .go => some ⟨.acquire, .lock, { r with order := r.order ++ [t] }, { w with pc := .open }⟩
  | .open, .opened true => some ⟨.keep, .open true, openOutput t r, { w with pc := .recv }⟩
  | .open, .opened false => some ⟨.keep, .open false, r, { w with pc := openFailed }⟩
  | .recv, .received res oob =>
    let next := afterRecv oob res
    some ⟨.keep, .recv, r,
      { w with
        pc := onRecv next
        recvRet := match next with
          | .ret ret => some ret
          | _ => none }⟩
  | .ioctl seekto receivedSize, .device env => ioctlMove K t r w env seekto receivedSize
  | .write bytes receivedSize, .device env => writeMove K t r w env bytes receivedSize
  | .read, .device env => readMove K t r w env
  | .send bytesRead, .sent res => some (sendMove r w res bytesRead)
  | .exit (op :: todo), .go => some (exitMove r w todo op)
  | _, _ => none

/-- The threads and the device, under `file_mutex`. -/
abbrev State := Monitor.State Tid Shared Worker

/-- One step of one connection. -/
def step (K : Kernel) : State → Tid × Event → Option ((Tid × Op) × State) :=
  Monitor.step (connectionThread K)

/-- No connection has started, on a device that holds `shared`. -/
def State.start (shared : Shared) (stack : Tid → List Byte) : State :=
  { owner := none, shared := shared, locals := fun t => Worker.start (stack t) }

/-- The freshly loaded module. -/
def Shared.init : Shared := { system := .init, origin := .empty, order := [] }

/-- The server on an empty device. -/
def State.init (stack : Tid → List Byte) : State := .start .init stack

/-! ## Inversion of a step -/

/-- Everything a connection can do next. -/
inductive Acts (K : Kernel) (t : Tid) (r : Shared) (w : Worker) :
    Event → Move Shared Worker Op → Prop where
  | begin (hpc : w.pc = .begin) :
    Acts K t r w .go
      ⟨.keep, .setComplete false, r, { w with pc := .lock, threadComplete := false }⟩
  | lock (hpc : w.pc = .lock) :
    Acts K t r w .go
      ⟨.acquire, .lock, { r with order := r.order ++ [t] }, { w with pc := .open }⟩
  | open (hpc : w.pc = .open) :
    Acts K t r w (.opened true) ⟨.keep, .open true, openOutput t r, { w with pc := .recv }⟩
  | openFails (hpc : w.pc = .open) :
    Acts K t r w (.opened false) ⟨.keep, .open false, r, { w with pc := openFailed }⟩
  | recvEnds (hpc : w.pc = .recv) {res : RecvResult} {oob : Option AesdSeekto} {ret : Int}
    (hnext : afterRecv oob res = .ret ret) :
    Acts K t r w (.received res oob)
      ⟨.keep, .recv, r, { w with pc := afterPass (some ret), recvRet := some ret }⟩
  | recvIoctl (hpc : w.pc = .recv) {res : RecvResult} {oob : Option AesdSeekto}
    {seekto : AesdSeekto} {receivedSize : Nat}
    (hnext : afterRecv oob res = .ioctl seekto receivedSize) :
    Acts K t r w (.received res oob)
      ⟨.keep, .recv, r, { w with pc := .ioctl seekto receivedSize, recvRet := none }⟩
  | recvWrite (hpc : w.pc = .recv) {res : RecvResult} {oob : Option AesdSeekto}
    {bytes : List Byte} {receivedSize : Nat}
    (hnext : afterRecv oob res = .write bytes receivedSize) :
    Acts K t r w (.received res oob)
      ⟨.keep, .recv, r, { w with pc := .write bytes receivedSize, recvRet := none }⟩
  | ioctl {seekto : AesdSeekto} {receivedSize : Nat} (hpc : w.pc = .ioctl seekto receivedSize)
    {env : CallEnv} {m : Move Shared Worker Op}
    (hm : ioctlMove K t r w env seekto receivedSize = some m) : Acts K t r w (.device env) m
  | write {bytes : List Byte} {receivedSize : Nat} (hpc : w.pc = .write bytes receivedSize)
    {env : CallEnv} {m : Move Shared Worker Op}
    (hm : writeMove K t r w env bytes receivedSize = some m) : Acts K t r w (.device env) m
  | read (hpc : w.pc = .read) {env : CallEnv} {m : Move Shared Worker Op}
    (hm : readMove K t r w env = some m) : Acts K t r w (.device env) m
  | send {bytesRead : Nat} (hpc : w.pc = .send bytesRead) (res : SendResult) :
    Acts K t r w (.sent res) (sendMove r w res bytesRead)
  | exit {op : ExitOp} {todo : List ExitOp} (hpc : w.pc = .exit (op :: todo)) :
    Acts K t r w .go (exitMove r w todo op)

theorem connectionThread_cases {K : Kernel} {t : Tid} {r : Shared} {w : Worker} {e : Event}
    {m : Move Shared Worker Op} (h : connectionThread K t r w e = some m) : Acts K t r w e m := by
  unfold connectionThread at h
  split at h
  case h_1 hpc => cases h; exact .begin hpc
  case h_2 hpc => cases h; exact .lock hpc
  case h_3 hpc => cases h; exact .open hpc
  case h_4 hpc => cases h; exact .openFails hpc
  case h_5 res oob hpc =>
    cases h
    cases hnext : afterRecv oob res with
    | ret ret => exact .recvEnds hpc hnext
    | ioctl seekto receivedSize => exact .recvIoctl hpc hnext
    | write bytes receivedSize => exact .recvWrite hpc hnext
  case h_6 hpc => exact .ioctl hpc h
  case h_7 hpc => exact .write hpc h
  case h_8 hpc => exact .read hpc h
  case h_9 hpc => cases h; exact .send hpc _
  case h_10 hpc => cases h; exact .exit hpc
  case h_11 => cases h

/-! ## Writes -/

/-- Where the end of a pass of `recv_messages` can lead. -/
theorem afterPass_of {P : Pc → Prop} (hrecv : P .recv) (hread : P .read) (hfailed : P failed)
    (next : Option Int) : P (afterPass next) := by
  cases next with
  | none => exact hrecv
  | some ret =>
    show P (if ret = -1 then failed else .read)
    split
    · exact hfailed
    · exact hread

/-- Where a `read` can lead. -/
theorem onRead_of {P : Pc → Prop} (hsend : ∀ bytesRead, P (.send bytesRead)) (hfailed : P failed)
    (ret : Int) : P (onRead ret) := by
  rw [onRead]
  split
  · exact hfailed
  · exact hsend _

/-- Where a `send` can lead. -/
theorem onSend_of {P : Pc → Prop} (hread : P .read) (hsucceeded : P succeeded)
    (hfailed : P failed) (bytesRead : Nat) (res : SendResult) : P (onSend bytesRead res) := by
  cases res with
  | error => exact hfailed
  | short unsent =>
    show P (if 0 < bytesRead then .read else succeeded)
    split
    · exact hread
    · exact hsucceeded

theorem afterPass_ne_write (next : Option Int) (bytes : List Byte) (size : Nat) :
    afterPass next ≠ .write bytes size :=
  afterPass_of (P := (· ≠ .write bytes size)) Pc.noConfusion Pc.noConfusion Pc.noConfusion next

theorem onRead_ne_write (ret : Int) (bytes : List Byte) (size : Nat) :
    onRead ret ≠ .write bytes size :=
  onRead_of (P := (· ≠ .write bytes size)) (fun _ => Pc.noConfusion) Pc.noConfusion ret

theorem onSend_ne_write (bytesRead : Nat) (res : SendResult) (bytes : List Byte) (size : Nat) :
    onSend bytesRead res ≠ .write bytes size :=
  onSend_of (P := (· ≠ .write bytes size)) Pc.noConfusion Pc.noConfusion Pc.noConfusion
    bytesRead res

/-- A write waits only after the `recv` that led to it. -/
theorem write_of_recv {K : Kernel} {t : Tid} {r : Shared} {w : Worker} {e : Event}
    {m : Move Shared Worker Op} (hact : connectionThread K t r w e = some m) {bytes : List Byte}
    {size : Nat} (hown : m.own.pc = .write bytes size) :
    ∃ res oob, e = .received res oob ∧ afterRecv oob res = .write bytes size := by
  cases connectionThread_cases hact with
  | recvWrite hpc hnext =>
    obtain ⟨rfl, rfl⟩ := Pc.write.inj hown
    exact ⟨_, _, rfl, hnext⟩
  | @recvEnds hpc res oob ret hnext => exact absurd hown (afterPass_ne_write (some ret) _ _)
  | ioctl hpc hm =>
    obtain ⟨x, -, rfl⟩ := Option.map_eq_some_iff.mp hm
    exact absurd hown (afterPass_ne_write _ _ _)
  | write hpc hm =>
    obtain ⟨x, -, rfl⟩ := Option.map_eq_some_iff.mp hm
    exact absurd hown (afterPass_ne_write _ _ _)
  | read hpc hm =>
    obtain ⟨x, -, rfl⟩ := Option.map_eq_some_iff.mp hm
    exact absurd hown (onRead_ne_write _ _ _)
  | send hpc res => exact absurd hown (onSend_ne_write _ _ _ _)
  -- the way out leads only further out
  | @exit op todo hpc => cases op <;> cases hown
  | begin hpc => cases hown
  | lock hpc => cases hown
  | «open» hpc => cases hown
  | openFails hpc => cases hown
  | recvIoctl hpc hnext => cases hown

/-- Where a write waits, the step makes it. -/
theorem move_of_write {K : Kernel} {t : Tid} {r : Shared} {w : Worker} {e : Event}
    {m : Move Shared Worker Op} (hact : connectionThread K t r w e = some m) {bytes : List Byte}
    {size : Nat} (hpc : w.pc = .write bytes size) :
    ∃ env, e = .device env ∧ writeMove K t r w env bytes size = some m := by
  unfold connectionThread at hact
  rw [hpc] at hact
  cases e with
  | device env => exact ⟨env, rfl, hact⟩
  | go => cases hact
  | opened ok => cases hact
  | received res oob => cases hact
  | sent res => cases hact

/-! ## The mutex

A connection takes `file_mutex` once and gives it back once; outside the two it
does nothing but store its own flags and close its socket. -/

/-- What the next step of a connection does to the mutex. -/
def lockOf : Pc → LockOp
  | .lock => .acquire
  | .exit (.unlock :: _) => .release
  | _ => .keep

/-- How often a connection at this place has still to unlock what it has locked. -/
def toUnlock : Pc → Nat
  | .begin => 0
  | .lock => 0
  | .exit todo => todo.count .unlock
  | _ => 1

theorem eq_lock_of_acquire {pc : Pc} (h : lockOf pc = .acquire) : pc = .lock := by
  unfold lockOf at h
  split at h
  · rfl
  · cases h
  · cases h

theorem eq_exit_of_release {pc : Pc} (h : lockOf pc = .release) :
    ∃ todo, pc = .exit (.unlock :: todo) := by
  unfold lockOf at h
  split at h
  · cases h
  · exact ⟨_, rfl⟩
  · cases h

@[simp] theorem toUnlock_afterPass (next : Option Int) : toUnlock (afterPass next) = 1 :=
  afterPass_of (P := (toUnlock · = 1)) rfl rfl rfl next

@[simp] theorem toUnlock_onRead (ret : Int) : toUnlock (onRead ret) = 1 :=
  onRead_of (P := (toUnlock · = 1)) (fun _ => rfl) rfl ret

@[simp] theorem toUnlock_onSend (bytesRead : Nat) (res : SendResult) :
    toUnlock (onSend bytesRead res) = 1 :=
  onSend_of (P := (toUnlock · = 1)) rfl rfl rfl bytesRead res

section Discipline

variable {K : Kernel} {t : Tid} {r : Shared} {w : Worker} {e : Event} {m : Move Shared Worker Op}

theorem lock_eq (hact : connectionThread K t r w e = some m) : m.lock = lockOf w.pc := by
  cases connectionThread_cases hact with
  | begin hpc => rw [hpc]; rfl
  | lock hpc => rw [hpc]; rfl
  | «open» hpc => rw [hpc]; rfl
  | openFails hpc => rw [hpc]; rfl
  | recvEnds hpc hnext => rw [hpc]; rfl
  | recvIoctl hpc hnext => rw [hpc]; rfl
  | recvWrite hpc hnext => rw [hpc]; rfl
  | ioctl hpc hm =>
    obtain ⟨x, -, rfl⟩ := Option.map_eq_some_iff.mp hm
    rw [hpc]
    rfl
  | write hpc hm =>
    obtain ⟨x, -, rfl⟩ := Option.map_eq_some_iff.mp hm
    rw [hpc]
    rfl
  | read hpc hm =>
    obtain ⟨x, -, rfl⟩ := Option.map_eq_some_iff.mp hm
    rw [hpc]
    rfl
  | send hpc res => rw [hpc]; rfl
  | @exit op todo hpc =>
    rw [hpc]
    cases op <;> rfl

/-- At these places a thread waits for nothing. -/
theorem event_eq_go (hact : connectionThread K t r w e = some m)
    (hgo : w.pc = .begin ∨ w.pc = .lock ∨ ∃ todo, w.pc = .exit todo) : e = .go := by
  cases connectionThread_cases hact with
  | begin hpc => rfl
  | lock hpc => rfl
  | exit hpc => rfl
  | «open» hpc => simp [hpc] at hgo
  | openFails hpc => simp [hpc] at hgo
  | recvEnds hpc hnext => simp [hpc] at hgo
  | recvIoctl hpc hnext => simp [hpc] at hgo
  | recvWrite hpc hnext => simp [hpc] at hgo
  | ioctl hpc hm => simp [hpc] at hgo
  | write hpc hm => simp [hpc] at hgo
  | read hpc hm => simp [hpc] at hgo
  | send hpc res => simp [hpc] at hgo

theorem connectionThread_begin (K : Kernel) (t : Tid) (r : Shared) (hpc : w.pc = .begin) :
    connectionThread K t r w .go =
      some ⟨.keep, .setComplete false, r, { w with pc := .lock, threadComplete := false }⟩ := by
  unfold connectionThread
  rw [hpc]

theorem connectionThread_lock (K : Kernel) (t : Tid) (r : Shared) (hpc : w.pc = .lock) :
    connectionThread K t r w .go =
      some ⟨.acquire, .lock, { r with order := r.order ++ [t] }, { w with pc := .open }⟩ := by
  unfold connectionThread
  rw [hpc]

theorem connectionThread_exit (K : Kernel) (t : Tid) (r : Shared) {op : ExitOp}
    {todo : List ExitOp} (hpc : w.pc = .exit (op :: todo)) :
    connectionThread K t r w .go = some (exitMove r w todo op) := by
  unfold connectionThread
  rw [hpc]

/-- The one step that takes the mutex. -/
theorem eq_of_acquire (hact : connectionThread K t r w e = some m) (hlock : m.lock = .acquire) :
    w.pc = .lock ∧
      m = ⟨.acquire, .lock, { r with order := r.order ++ [t] }, { w with pc := .open }⟩ := by
  have hpc := eq_lock_of_acquire ((lock_eq hact).symm.trans hlock)
  obtain rfl := event_eq_go hact (.inr (.inl hpc))
  rw [connectionThread_lock K t r hpc] at hact
  exact ⟨hpc, (Option.some.inj hact).symm⟩

/-- The one step that gives it back. -/
theorem eq_of_release (hact : connectionThread K t r w e = some m) (hlock : m.lock = .release) :
    ∃ todo, w.pc = .exit (.unlock :: todo) ∧
      m = ⟨.release, .unlock, r, { w with pc := .exit todo }⟩ := by
  obtain ⟨todo, hpc⟩ := eq_exit_of_release ((lock_eq hact).symm.trans hlock)
  obtain rfl := event_eq_go hact (.inr (.inr ⟨_, hpc⟩))
  rw [connectionThread_exit K t r hpc] at hact
  exact ⟨todo, hpc, (Option.some.inj hact).symm⟩

/-- Only the acquisition of the mutex changes the order. -/
theorem order_of_keep (hact : connectionThread K t r w e = some m) (hlock : m.lock = .keep) :
    m.shared.order = r.order := by
  cases connectionThread_cases hact with
  | lock hpc => cases hlock
  | ioctl hpc hm =>
    obtain ⟨x, -, rfl⟩ := Option.map_eq_some_iff.mp hm
    rfl
  | write hpc hm =>
    obtain ⟨x, -, rfl⟩ := Option.map_eq_some_iff.mp hm
    rfl
  | read hpc hm =>
    obtain ⟨x, -, rfl⟩ := Option.map_eq_some_iff.mp hm
    rfl
  | @exit op todo hpc => cases op <;> rfl
  | begin hpc => rfl
  | «open» hpc => rfl
  | openFails hpc => rfl
  | recvEnds hpc hnext => rfl
  | recvIoctl hpc hnext => rfl
  | recvWrite hpc hnext => rfl
  | send hpc res => rfl

/-- A step that neither takes nor gives back the mutex leaves it in the same hands. -/
theorem toUnlock_keep (hact : connectionThread K t r w e = some m) (hlock : m.lock = .keep) :
    toUnlock m.own.pc = toUnlock w.pc := by
  cases connectionThread_cases hact with
  | begin hpc => rw [hpc]; rfl
  | lock hpc => cases hlock
  | «open» hpc => rw [hpc]; rfl
  | openFails hpc => rw [hpc]; rfl
  | @recvEnds hpc res oob ret hnext => rw [hpc]; exact toUnlock_afterPass (some ret)
  | recvIoctl hpc hnext => rw [hpc]; rfl
  | recvWrite hpc hnext => rw [hpc]; rfl
  | ioctl hpc hm =>
    obtain ⟨x, -, rfl⟩ := Option.map_eq_some_iff.mp hm
    rw [hpc]
    exact toUnlock_afterPass _
  | write hpc hm =>
    obtain ⟨x, -, rfl⟩ := Option.map_eq_some_iff.mp hm
    rw [hpc]
    exact toUnlock_afterPass _
  | read hpc hm =>
    obtain ⟨x, -, rfl⟩ := Option.map_eq_some_iff.mp hm
    rw [hpc]
    exact toUnlock_onRead _
  | send hpc res =>
    rw [hpc]
    exact toUnlock_onSend _ res
  | @exit op todo hpc =>
    rw [hpc]
    cases op with
    | unlock => cases hlock
    | closeClient => rfl
    | setSuccess success => rfl
    | setComplete => rfl
    | closeOutput => rfl

/-- On its way out a thread touches neither the device nor what its client got. -/
theorem eq_of_exit (hact : connectionThread K t r w e = some m) (hlock : m.lock = .keep)
    {todo : List ExitOp} (hpc : w.pc = .exit todo) :
    ∃ op rest, todo = op :: rest ∧ rest.count .unlock = todo.count .unlock ∧ m.shared = r ∧
      m.own.client = w.client ∧ m.own.recvRet = w.recvRet ∧ m.own.pc = .exit rest := by
  -- the mutex is kept, so the statement left out is not the unlock
  have hcount := toUnlock_keep hact hlock
  obtain rfl := event_eq_go hact (.inr (.inr ⟨todo, hpc⟩))
  cases todo with
  | nil =>
    unfold connectionThread at hact
    rw [hpc] at hact
    cases hact
  | cons op rest =>
    rw [hpc] at hcount
    rw [connectionThread_exit K t r hpc] at hact
    obtain rfl := Option.some.inj hact
    cases op with
    | unlock => cases hlock
    | closeClient => exact ⟨_, rest, rfl, hcount, rfl, rfl, rfl, rfl⟩
    | setSuccess success => exact ⟨_, rest, rfl, hcount, rfl, rfl, rfl, rfl⟩
    | setComplete => exact ⟨_, rest, rfl, hcount, rfl, rfl, rfl, rfl⟩
    | closeOutput => exact ⟨_, rest, rfl, hcount, rfl, rfl, rfl, rfl⟩

/-- The places outside the mutex. -/
theorem cases_outside {pc : Pc} (hout : toUnlock pc = 0) :
    pc = .begin ∨ pc = .lock ∨ ∃ todo, pc = .exit todo ∧ todo.count .unlock = 0 := by
  cases pc with
  | begin => exact .inl rfl
  | lock => exact .inr (.inl rfl)
  | exit todo => exact .inr (.inr ⟨todo, rfl, hout⟩)
  | «open» => cases hout
  | recv => cases hout
  | ioctl seekto size => cases hout
  | write bytes size => cases hout
  | read => cases hout
  | send bytesRead => cases hout

/-- Nor does it before it has taken the mutex. -/
theorem eq_of_outside (hact : connectionThread K t r w e = some m) (hlock : m.lock = .keep)
    (hout : toUnlock w.pc = 0) :
    m.shared = r ∧ m.own.client = w.client ∧ m.own.recvRet = w.recvRet ∧
      (w.pc = .begin ∧ m.own.pc = .lock ∨
        ∃ op todo, w.pc = .exit (op :: todo) ∧ m.own.pc = .exit todo) := by
  obtain hpc | hpc | ⟨todo, hpc, -⟩ := cases_outside hout
  · obtain rfl := event_eq_go hact (.inl hpc)
    rw [connectionThread_begin K t r hpc] at hact
    obtain rfl := Option.some.inj hact
    exact ⟨rfl, rfl, rfl, .inl ⟨hpc, rfl⟩⟩
  · -- `lock_mutex` would have taken the mutex
    have hacq := lock_eq hact
    rw [hpc, hlock] at hacq
    cases hacq
  · obtain ⟨op, rest, rfl, -, hshared, hclient, hret, hown⟩ := eq_of_exit hact hlock hpc
    exact ⟨hshared, hclient, hret, .inr ⟨op, rest, hpc, hown⟩⟩

/-- The connection has returned. -/
def Finished (w : Worker) : Prop := w.pc = .exit []

/-- Outside the mutex a connection can go on until it has returned. -/
theorem go_of_outside (K : Kernel) (t : Tid) (r : Shared) (hout : toUnlock w.pc = 0)
    (hleft : ¬ Finished w) :
    ∃ m, connectionThread K t r w .go = some m ∧ m.lock ≠ .release := by
  have hgo : ∃ m, connectionThread K t r w .go = some m := by
    obtain hpc | hpc | ⟨todo, hpc, -⟩ := cases_outside hout
    · exact ⟨_, connectionThread_begin K t r hpc⟩
    · exact ⟨_, connectionThread_lock K t r hpc⟩
    · cases todo with
      | nil => exact absurd hpc hleft
      | cons op todo => exact ⟨_, connectionThread_exit K t r hpc⟩
  obtain ⟨m, hact⟩ := hgo
  refine ⟨m, hact, fun hrel => ?_⟩
  -- there is nothing left to unlock
  obtain ⟨todo, hpc, -⟩ := eq_of_release hact hrel
  rw [hpc, toUnlock, List.count_cons_self] at hout
  cases hout

end Discipline

end Aesd.Server
