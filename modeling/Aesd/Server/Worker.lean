/-
  Aesd.Server.Worker

  `connection_thread` alone: its control flow, with every system call
  answering whatever it likes, no device behind the calls and no bytes in the
  buffers.  It is the thread of `Server.Connection` with the data left out
  (`connectionThread_control`), so what holds for all answers here holds for
  the answers of any device.

  A run of it is the same three statements, any number of calls, and one of
  three ways out (`Stage`).
-/
import Aesd.Lib.Run
import Aesd.Server.Send

namespace Aesd.Server

open Aesd.Lib
open Aesd.Lib.Monitor (Move)
open Aesd.Driver (newline Kernel AesdSeekto)

/-! ## The control flow -/

/-- What the statement that a thread is at answers. -/
inductive Outcome where
  | go
  | opened (ok : Bool)
  | received (res : RecvResult) (oob : Option AesdSeekto)
  -- of `ioctl`, `write` or `read`
  | returned (ret : Int)
  | sent (res : SendResult)

/-- What a step does, but for the data. -/
inductive Action where
  | setComplete (complete : Bool)
  | setSuccess (success : Bool)
  | lock
  | unlock
  | open (ok : Bool)
  -- a call on the client's socket or on the device
  | io
  | closeOutput
  | closeClient
  deriving DecidableEq, Repr

/-- The thread: where it is, the two flags of its arguments, and what
    `recv_messages` and `send_messages` returned. -/
structure Control where
  pc : Pc
  threadComplete : Bool
  threadCompleteSuccess : Bool
  recvRet : Option Int
  sendRet : Option Int
  deriving DecidableEq, Repr

/-- A thread that has been created: lines 144 and 145 of `run_server` cleared its flags. -/
def Control.start : Control := ⟨.begin, false, false, none, none⟩

def ExitOp.action : ExitOp → Action
  | .closeClient => .closeClient
  | .setSuccess success => .setSuccess success
  | .setComplete => .setComplete true
  | .closeOutput => .closeOutput
  | .unlock => .unlock

/-- One statement of the way out. -/
def Control.exit (c : Control) (todo : List ExitOp) : ExitOp → Control
  | .setSuccess success => { c with pc := .exit todo, threadCompleteSuccess := success }
  | .setComplete => { c with pc := .exit todo, threadComplete := true }
  | _ => { c with pc := .exit todo }

/-- The next step; `none` if the answer does not fit the statement. -/
def Control.step (c : Control) (o : Outcome) : Option (Action × Control) :=
  match c.pc, o with
  | .begin, .go => some (.setComplete false, { c with pc := .lock, threadComplete := false })
  | .lock, .go => some (.lock, { c with pc := .open })
  | .open, .opened true => some (.open true, { c with pc := .recv })
  | .open, .opened false => some (.open false, { c with pc := openFailed })
  | .recv, .received res oob =>
    let next := afterRecv oob res
    some (.io, { c with
      pc := onRecv next
      recvRet := match next with
        | .ret ret => some ret
        | _ => none })
  | .ioctl _ receivedSize, .returned ret =>
    let next := afterIoctl ret receivedSize
    some (.io, { c with pc := afterPass next, recvRet := next })
  | .write _ receivedSize, .returned ret =>
    let next := afterWrite ret receivedSize
    some (.io, { c with pc := afterPass next, recvRet := next })
  | .read, .returned ret =>
    some (.io, { c with
      pc := onRead ret
      sendRet := if (afterRead ret).isNone then some (-1) else none })
  | .send bytesRead, .sent res =>
    some (.io, { c with pc := onSend bytesRead res, sendRet := afterSend bytesRead res })
  | .exit (op :: todo), .go => some (op.action, c.exit todo op)
  | _, _ => none

/-- Everything a step can be. -/
inductive ControlActs (c : Control) : Outcome → Action → Control → Prop where
  | begins (hpc : c.pc = .begin) :
    ControlActs c .go (.setComplete false) { c with pc := .lock, threadComplete := false }
  | locks (hpc : c.pc = .lock) : ControlActs c .go .lock { c with pc := .open }
  | opens (hpc : c.pc = .open) : ControlActs c (.opened true) (.open true) { c with pc := .recv }
  | openFails (hpc : c.pc = .open) :
    ControlActs c (.opened false) (.open false) { c with pc := openFailed }
  | receives {res : RecvResult} {oob : Option AesdSeekto} (hpc : c.pc = .recv) :
    ControlActs c (.received res oob) .io { c with
      pc := onRecv (afterRecv oob res)
      recvRet := match afterRecv oob res with
        | .ret ret => some ret
        | _ => none }
  | seeks {seekto : AesdSeekto} {receivedSize : Nat} {ret : Int}
    (hpc : c.pc = .ioctl seekto receivedSize) :
    ControlActs c (.returned ret) .io { c with
      pc := afterPass (afterIoctl ret receivedSize), recvRet := afterIoctl ret receivedSize }
  | writes {bytes : List Driver.Byte} {receivedSize : Nat} {ret : Int}
    (hpc : c.pc = .write bytes receivedSize) :
    ControlActs c (.returned ret) .io { c with
      pc := afterPass (afterWrite ret receivedSize), recvRet := afterWrite ret receivedSize }
  | reads {ret : Int} (hpc : c.pc = .read) :
    ControlActs c (.returned ret) .io { c with
      pc := onRead ret
      sendRet := if (afterRead ret).isNone then some (-1) else none }
  | sends {bytesRead : Nat} {res : SendResult} (hpc : c.pc = .send bytesRead) :
    ControlActs c (.sent res) .io { c with
      pc := onSend bytesRead res, sendRet := afterSend bytesRead res }
  | leaves {op : ExitOp} {todo : List ExitOp} (hpc : c.pc = .exit (op :: todo)) :
    ControlActs c .go op.action (c.exit todo op)

theorem control_cases {c c' : Control} {o : Outcome} {a : Action}
    (h : c.step o = some (a, c')) : ControlActs c o a c' := by
  unfold Control.step at h
  split at h
  case h_1 hpc => cases h; exact .begins hpc
  case h_2 hpc => cases h; exact .locks hpc
  case h_3 hpc => cases h; exact .opens hpc
  case h_4 hpc => cases h; exact .openFails hpc
  case h_5 hpc => cases h; exact .receives hpc
  case h_6 hpc => cases h; exact .seeks hpc
  case h_7 hpc => cases h; exact .writes hpc
  case h_8 hpc => cases h; exact .reads hpc
  case h_9 hpc => cases h; exact .sends hpc
  case h_10 hpc => cases h; exact .leaves hpc
  case h_11 => cases h

/-- And each of them is a step. -/
theorem ControlActs.step_eq {c c' : Control} {o : Outcome} {a : Action}
    (h : ControlActs c o a c') : c.step o = some (a, c') := by
  unfold Control.step
  cases h with
  | begins hpc | locks hpc | opens hpc | openFails hpc | receives hpc | seeks hpc | writes hpc
  | reads hpc | sends hpc | leaves hpc => rw [hpc]

/-- The thread has returned. -/
def Control.Returned (c : Control) : Prop := c.pc = .exit []

instance (c : Control) : Decidable c.Returned := inferInstanceAs (Decidable (c.pc = .exit []))

/-! ## The thread with its data follows it -/

/-- The connection is where the thread is, with the same flags. -/
structure Agrees (w : Worker) (c : Control) : Prop where
  pc_eq : w.pc = c.pc
  complete_eq : w.threadComplete = c.threadComplete
  success_eq : w.threadCompleteSuccess = c.threadCompleteSuccess
  recvRet_eq : w.recvRet = c.recvRet

theorem agrees_start (stack : List Driver.Byte) : Agrees (Worker.start stack) .start :=
  ⟨rfl, rfl, rfl, rfl⟩

/-- What an operation is, but for the data. -/
def Op.action : Op → Action
  | .setComplete complete => .setComplete complete
  | .setSuccess success => .setSuccess success
  | .lock => .lock
  | .unlock => .unlock
  | .open ok => .open ok
  | .recv => .io
  | .ioctl _ => .io
  | .write _ => .io
  | .read => .io
  | .send _ => .io
  | .closeOutput => .closeOutput
  | .closeClient => .closeClient

/-- Every step of a connection is a step of its control flow, for some answer. -/
theorem connectionThread_control {K : Kernel} {t : Tid} {r : Shared} {w : Worker} {e : Event}
    {m : Move Shared Worker Op} {c : Control} (hact : connectionThread K t r w e = some m)
    (h : Agrees w c) : ∃ o c', c.step o = some (m.out.action, c') ∧ Agrees m.own c' := by
  obtain ⟨hsame, hcomplete, hsuccess, hret⟩ := h
  have hat : ∀ {pc}, w.pc = pc → c.pc = pc := fun hpc => hsame.symm.trans hpc
  cases connectionThread_cases hact with
  | begin hpc =>
    exact ⟨.go, _, (ControlActs.begins (hat hpc)).step_eq, rfl, rfl, hsuccess, hret⟩
  | lock hpc =>
    exact ⟨.go, _, (ControlActs.locks (hat hpc)).step_eq, rfl, hcomplete, hsuccess, hret⟩
  | «open» hpc =>
    exact ⟨.opened true, _, (ControlActs.opens (hat hpc)).step_eq, rfl, hcomplete, hsuccess, hret⟩
  | openFails hpc =>
    exact ⟨.opened false, _, (ControlActs.openFails (hat hpc)).step_eq, rfl, hcomplete, hsuccess,
      hret⟩
  | @recvEnds hpc res oob ret hnext =>
    refine ⟨.received res oob, _, (ControlActs.receives (hat hpc)).step_eq, ?_⟩
    rw [hnext]
    exact ⟨rfl, hcomplete, hsuccess, rfl⟩
  | @recvIoctl hpc res oob seekto size hnext =>
    refine ⟨.received res oob, _, (ControlActs.receives (hat hpc)).step_eq, ?_⟩
    rw [hnext]
    exact ⟨rfl, hcomplete, hsuccess, rfl⟩
  | @recvWrite hpc res oob bytes size hnext =>
    refine ⟨.received res oob, _, (ControlActs.receives (hat hpc)).step_eq, ?_⟩
    rw [hnext]
    exact ⟨rfl, hcomplete, hsuccess, rfl⟩
  -- the answer of the device is the one that the step has got
  | ioctl hpc hm =>
    obtain ⟨x, -, rfl⟩ := Option.map_eq_some_iff.mp hm
    exact ⟨.returned x.1.ret, _, (ControlActs.seeks (hat hpc)).step_eq, rfl, hcomplete, hsuccess,
      rfl⟩
  | write hpc hm =>
    obtain ⟨x, -, rfl⟩ := Option.map_eq_some_iff.mp hm
    exact ⟨.returned x.1.ret, _, (ControlActs.writes (hat hpc)).step_eq, rfl, hcomplete, hsuccess,
      rfl⟩
  | read hpc hm =>
    obtain ⟨x, -, rfl⟩ := Option.map_eq_some_iff.mp hm
    exact ⟨.returned x.1.ret, _, (ControlActs.reads (hat hpc)).step_eq, rfl, hcomplete, hsuccess,
      hret⟩
  | send hpc res =>
    exact ⟨.sent res, _, (ControlActs.sends (hat hpc)).step_eq, rfl, hcomplete, hsuccess, hret⟩
  | @exit op todo hpc =>
    refine ⟨.go, c.exit todo op, ?_, ?_⟩
    · have hstep := (ControlActs.leaves (hat hpc)).step_eq
      cases op <;> exact hstep
    · cases op with
      | closeClient => exact ⟨rfl, hcomplete, hsuccess, hret⟩
      | setSuccess success => exact ⟨rfl, hcomplete, rfl, hret⟩
      | setComplete => exact ⟨rfl, rfl, hsuccess, hret⟩
      | closeOutput => exact ⟨rfl, hcomplete, hsuccess, hret⟩
      | unlock => exact ⟨rfl, hcomplete, hsuccess, hret⟩

/-- A connection by itself; what it shares is handed in at every step. -/
def threadStep (K : Kernel) (t : Tid) (w : Worker) (re : Shared × Event) : Option (Op × Worker) :=
  (connectionThread K t re.1 w re.2).map fun m => (m.out, m.own)

/-- Whatever the others do to what they share, a connection follows its control flow. -/
theorem threadStep_run {K : Kernel} {t : Tid} {w w' : Worker} {res : List (Shared × Event)}
    {ops : List Op} {c : Control} (hrun : run (threadStep K t) w res = some (ops, w'))
    (h : Agrees w c) :
    ∃ outcomes c', run Control.step c outcomes = some (ops.map Op.action, c') ∧ Agrees w' c' := by
  induction res generalizing w ops c with
  | nil =>
    obtain ⟨rfl, rfl⟩ := Prod.mk.inj (Option.some.inj hrun)
    exact ⟨[], c, rfl, h⟩
  | cons re res ih =>
    obtain ⟨op, w₁, ops', hstep, hrest, rfl⟩ := run_cons_eq_some.mp hrun
    obtain ⟨m, hact, heq⟩ := Option.map_eq_some_iff.mp hstep
    obtain ⟨rfl, rfl⟩ := Prod.mk.inj heq
    obtain ⟨o, c₁, hc, hagree⟩ := connectionThread_control hact h
    obtain ⟨outcomes, c', hcs, hend⟩ := ih hrest hagree
    exact ⟨o :: outcomes, c', run_cons_eq_some.mpr ⟨_, c₁, _, hc, hcs, rfl⟩, hend⟩

/-! ## Where a thread can be, and what it has done -/

/-- The three ways out: `open` failed; one of the two loops did not return 0; or
    both did. -/
inductive WayOut (recvRet sendRet : Option Int) : Bool → List ExitOp → Prop where
  | notOpened : WayOut recvRet sendRet false [.unlock]
  | failed (h : ¬ (recvRet = some 0 ∧ sendRet = some 0)) :
    WayOut recvRet sendRet true
      [.closeClient, .setSuccess false, .setComplete, .closeOutput, .unlock]
  | succeeded (h : recvRet = some 0 ∧ sendRet = some 0) :
    WayOut recvRet sendRet true
      [.closeOutput, .unlock, .closeClient, .setSuccess true, .setComplete]

/-- The first three statements, with the answer of `open`, and `n` calls. -/
def callsMade (ok : Bool) (n : Nat) : List Action :=
  [.setComplete false, .lock, .open ok] ++ List.replicate n .io

/-- The flags as `run_server` left them. -/
def Control.Unset (c : Control) : Prop :=
  c.threadComplete = false ∧ c.threadCompleteSuccess = false

/-- A thread at this place has done `acts`. -/
def Stage (acts : List Action) (c : Control) : Prop :=
  match c.pc with
  | .begin => acts = [] ∧ c.Unset
  | .lock => acts = [.setComplete false] ∧ c.Unset
  | .open => acts = [.setComplete false, .lock] ∧ c.Unset
  | .recv => (∃ n, acts = callsMade true n) ∧ c.Unset
  | .ioctl _ _ => (∃ n, acts = callsMade true n) ∧ c.Unset
  | .write _ _ => (∃ n, acts = callsMade true n) ∧ c.Unset
  | .read => (∃ n, acts = callsMade true n) ∧ c.Unset ∧ c.recvRet = some 0
  | .send _ => (∃ n, acts = callsMade true n) ∧ c.Unset ∧ c.recvRet = some 0
  | .exit todo => ∃ ok n made, WayOut c.recvRet c.sendRet ok (made ++ todo) ∧
      acts = callsMade ok n ++ made.map ExitOp.action ∧
      c.threadComplete = decide (.setComplete ∈ made) ∧
      c.threadCompleteSuccess = decide (.setSuccess true ∈ made)

/-- `thread_complete_success` is stored once. -/
theorem WayOut.setSuccess_notMem {recvRet sendRet : Option Int} {ok : Bool}
    {made todo : List ExitOp}
    (hway : WayOut recvRet sendRet ok (made ++ .setSuccess false :: todo)) :
    .setSuccess true ∉ made := by
  intro hmade
  have hfalse : ExitOp.setSuccess false ∈ made ++ .setSuccess false :: todo := by simp
  have htrue : ExitOp.setSuccess true ∈ made ++ .setSuccess false :: todo := by simp [hmade]
  generalize made ++ .setSuccess false :: todo = full at hway hfalse htrue
  cases hway with
  | notOpened => simp at htrue
  | failed h => simp at htrue
  | succeeded h => simp at hfalse

theorem callsMade_succ (ok : Bool) (n : Nat) : callsMade ok n ++ [.io] = callsMade ok (n + 1) := by
  rw [callsMade, callsMade, List.replicate_succ', List.append_assoc]

/-- A pass of `recv_messages` goes on, returns -1 or returns 0. -/
def PassReturns (next : Option Int) : Prop := next = none ∨ next = some (-1) ∨ next = some 0

theorem loopGuard_returns (size : Nat) : PassReturns (loopGuard size) := by
  rw [loopGuard]
  split
  · exact .inl rfl
  · exact .inr (.inr rfl)

theorem afterIoctl_returns (ret : Int) (size : Nat) : PassReturns (afterIoctl ret size) := by
  rw [afterIoctl]
  split
  · exact .inr (.inl rfl)
  · exact loopGuard_returns size

theorem afterWrite_returns (ret : Int) (size : Nat) : PassReturns (afterWrite ret size) := by
  rw [afterWrite]
  split
  · exact .inr (.inl rfl)
  · exact loopGuard_returns size

theorem afterRecv_returns {oob : Option AesdSeekto} {res : RecvResult} {ret : Int}
    (h : afterRecv oob res = .ret ret) : ret = -1 := by
  cases res with
  | closed => exact (RecvNext.ret.inj h).symm
  | error => exact (RecvNext.ret.inj h).symm
  | chunk c =>
    rw [afterRecv] at h
    split at h
    · cases h
    · cases h

section Steps

variable {acts : List Action} {c c' : Control} {n : Nat}

/-- At the start of the way out nothing of it is made yet. -/
theorem stage_exit {ok : Bool} {full : List ExitOp} (hpc : c.pc = .exit full)
    (hway : WayOut c.recvRet c.sendRet ok full) (hunset : c.Unset) :
    Stage (callsMade ok n) c := by
  rw [Stage, hpc]
  exact ⟨ok, n, [], hway, by simp, by simp [hunset.1], by simp [hunset.2]⟩

/-- After a pass of `recv_messages`. -/
theorem stage_afterPass {next : Option Int} (hpc : c.pc = afterPass next)
    (hret : c.recvRet = next) (hnext : PassReturns next) (hunset : c.Unset) :
    Stage (callsMade true n) c := by
  rcases hnext with rfl | rfl | rfl
  · rw [Stage, hpc]
    exact ⟨⟨n, rfl⟩, hunset⟩
  · refine stage_exit hpc (.failed fun h => ?_) hunset
    rw [hret] at h
    exact absurd h.1 (by decide)
  · rw [Stage, hpc]
    exact ⟨⟨n, rfl⟩, hunset, hret⟩

/-- After a `read`. -/
theorem stage_onRead {ret : Int} (hpc : c.pc = onRead ret)
    (hsend : c.sendRet = if (afterRead ret).isNone then some (-1) else none)
    (hrecv : c.recvRet = some 0) (hunset : c.Unset) : Stage (callsMade true n) c := by
  rw [onRead_eq] at hpc
  cases hread : afterRead ret with
  | none =>
    rw [hread] at hpc hsend
    refine stage_exit hpc (.failed fun h => ?_) hunset
    rw [hsend] at h
    exact absurd h.2 (by decide)
  | some bytesRead =>
    rw [hread] at hpc
    rw [Stage, hpc]
    exact ⟨⟨n, rfl⟩, hunset, hrecv⟩

/-- After a `send`. -/
theorem stage_onSend {bytesRead : Nat} {res : SendResult} (hpc : c.pc = onSend bytesRead res)
    (hsend : c.sendRet = afterSend bytesRead res) (hrecv : c.recvRet = some 0)
    (hunset : c.Unset) : Stage (callsMade true n) c := by
  cases res with
  | error =>
    have herror : afterSend bytesRead .error = some (-1) := rfl
    rw [herror] at hsend
    refine stage_exit hpc (.failed fun h => ?_) hunset
    rw [hsend] at h
    exact absurd h.2 (by decide)
  | short unsent =>
    rcases Nat.eq_zero_or_pos bytesRead with rfl | hpos
    · -- nothing was read: the call returns 0
      exact stage_exit hpc (.succeeded ⟨hrecv, hsend⟩) hunset
    · rw [onSend_eq, afterSend_of_pos hpos] at hpc
      rw [Stage, hpc]
      exact ⟨⟨n, rfl⟩, hunset, hrecv⟩

/-- One statement of the way out. -/
theorem stage_exit_step {op : ExitOp} {todo : List ExitOp} (h : Stage acts c)
    (hpc : c.pc = .exit (op :: todo)) : Stage (acts ++ [op.action]) (c.exit todo op) := by
  rw [Stage, hpc] at h
  obtain ⟨ok, n, made, hway, rfl, hcomplete, hsuccess⟩ := h
  have hway' : WayOut c.recvRet c.sendRet ok ((made ++ [op]) ++ todo) := by
    rw [List.append_assoc]
    exact hway
  have hacts : callsMade ok n ++ made.map ExitOp.action ++ [op.action] =
      callsMade ok n ++ (made ++ [op]).map ExitOp.action := by simp
  rw [hacts]
  cases op with
  | closeClient =>
    refine ⟨ok, n, _, hway', rfl, ?_, ?_⟩
    · simp [Control.exit, hcomplete]
    · simp [Control.exit, hsuccess]
  | setSuccess success =>
    refine ⟨ok, n, _, hway', rfl, ?_, ?_⟩
    · simp [Control.exit, hcomplete]
    · cases success with
      | true => simp [Control.exit]
      | false => simp [Control.exit, hway.setSuccess_notMem]
  | setComplete =>
    refine ⟨ok, n, _, hway', rfl, ?_, ?_⟩
    · simp [Control.exit]
    · simp [Control.exit, hsuccess]
  | closeOutput =>
    refine ⟨ok, n, _, hway', rfl, ?_, ?_⟩
    · simp [Control.exit, hcomplete]
    · simp [Control.exit, hsuccess]
  | unlock =>
    refine ⟨ok, n, _, hway', rfl, ?_, ?_⟩
    · simp [Control.exit, hcomplete]
    · simp [Control.exit, hsuccess]

/-- Every step leads from one stage to the next. -/
theorem stage_step {o : Outcome} {a : Action} (h : Stage acts c)
    (hstep : c.step o = some (a, c')) : Stage (acts ++ [a]) c' := by
  cases control_cases hstep with
  | begins hpc =>
    rw [Stage, hpc] at h
    obtain ⟨rfl, hunset⟩ := h
    exact ⟨rfl, rfl, hunset.2⟩
  | locks hpc =>
    rw [Stage, hpc] at h
    obtain ⟨rfl, hunset⟩ := h
    exact ⟨rfl, hunset⟩
  | opens hpc =>
    rw [Stage, hpc] at h
    obtain ⟨rfl, hunset⟩ := h
    exact ⟨⟨0, rfl⟩, hunset⟩
  | openFails hpc =>
    rw [Stage, hpc] at h
    obtain ⟨rfl, hunset⟩ := h
    show Stage (callsMade false 0) _
    exact stage_exit rfl .notOpened hunset
  | @receives res oob hpc =>
    rw [Stage, hpc] at h
    obtain ⟨⟨n, rfl⟩, hunset⟩ := h
    rw [callsMade_succ]
    cases hnext : afterRecv oob res with
    | ret ret =>
      obtain rfl := afterRecv_returns hnext
      have hfails : PassReturns (some (-1)) := .inr (.inl rfl)
      exact stage_afterPass rfl rfl hfails hunset
    | ioctl seekto size => exact ⟨⟨_, rfl⟩, hunset⟩
    | write bytes size => exact ⟨⟨_, rfl⟩, hunset⟩
  | seeks hpc =>
    rw [Stage, hpc] at h
    obtain ⟨⟨n, rfl⟩, hunset⟩ := h
    rw [callsMade_succ]
    exact stage_afterPass rfl rfl (afterIoctl_returns _ _) hunset
  | writes hpc =>
    rw [Stage, hpc] at h
    obtain ⟨⟨n, rfl⟩, hunset⟩ := h
    rw [callsMade_succ]
    exact stage_afterPass rfl rfl (afterWrite_returns _ _) hunset
  | reads hpc =>
    rw [Stage, hpc] at h
    obtain ⟨⟨n, rfl⟩, hunset, hrecv⟩ := h
    rw [callsMade_succ]
    exact stage_onRead rfl rfl hrecv hunset
  | sends hpc =>
    rw [Stage, hpc] at h
    obtain ⟨⟨n, rfl⟩, hunset, hrecv⟩ := h
    rw [callsMade_succ]
    exact stage_onSend rfl rfl hrecv hunset
  | leaves hpc => exact stage_exit_step h hpc

end Steps

theorem stage_start : Stage [] .start := ⟨rfl, rfl, rfl⟩

/-- What a thread has done, wherever its run has led it. -/
theorem run_stage {outcomes : List Outcome} {acts : List Action} {c : Control}
    (hrun : run Control.step .start outcomes = some (acts, c)) : Stage acts c :=
  run_inv_outputs (fun _ _ _ _ _ h hstep => stage_step h hstep) stage_start hrun

/-! ## Which `open` it was -/

/-- The step that opens the device is the one that is told whether it did. -/
theorem open_iff_opened {c c' : Control} {o : Outcome} {a : Action} {ok : Bool}
    (hstep : c.step o = some (a, c')) : a = .open ok ↔ o = .opened ok := by
  cases control_cases hstep with
  | @leaves op => cases op <;> simp [ExitOp.action]
  | _ => simp

theorem open_mem_iff {c c' : Control} {outcomes : List Outcome} {acts : List Action} {ok : Bool}
    (hrun : run Control.step c outcomes = some (acts, c')) :
    .open ok ∈ acts ↔ .opened ok ∈ outcomes := by
  induction outcomes generalizing c acts with
  | nil =>
    obtain ⟨rfl, -⟩ := Prod.mk.inj (Option.some.inj hrun)
    simp
  | cons o outcomes ih =>
    obtain ⟨a, c₁, acts', hstep, hrest, rfl⟩ := run_cons_eq_some.mp hrun
    rw [List.mem_cons, List.mem_cons, ih hrest, eq_comm, open_iff_opened hstep, eq_comm]

/-! ## Cleaning up -/

/-- What the thread leaves behind: `file_mutex` taken once and given back once,
    the device closed if it was opened, the client's socket closed, the thread
    marked for the main loop, and the result in `thread_complete_success`. -/
structure CleansUp (acts : List Action) (c : Control) : Prop where
  locked : acts.count .lock = 1
  unlocked : acts.count .unlock = 1
  output_closed : acts.count .closeOutput = acts.count (.open true)
  client_closed : acts.count .closeClient = 1
  complete : c.threadComplete = true
  success_iff : c.threadCompleteSuccess = true ↔
    .open true ∈ acts ∧ c.recvRet = some 0 ∧ c.sendRet = some 0

instance (acts : List Action) (c : Control) : Decidable (CleansUp acts c) :=
  decidable_of_iff
    (acts.count .lock = 1 ∧ acts.count .unlock = 1 ∧
      acts.count .closeOutput = acts.count (.open true) ∧ acts.count .closeClient = 1 ∧
      c.threadComplete = true ∧ (c.threadCompleteSuccess = true ↔
        .open true ∈ acts ∧ c.recvRet = some 0 ∧ c.sendRet = some 0))
    ⟨fun ⟨h₁, h₂, h₃, h₄, h₅, h₆⟩ => ⟨h₁, h₂, h₃, h₄, h₅, h₆⟩,
      fun ⟨h₁, h₂, h₃, h₄, h₅, h₆⟩ => ⟨h₁, h₂, h₃, h₄, h₅, h₆⟩⟩

/-- A returned thread has cleaned up unless `open` failed. -/
theorem stage_returned {acts : List Action} {c : Control} (h : Stage acts c)
    (hret : c.Returned) : CleansUp acts c ↔ .open false ∉ acts := by
  rw [Stage, show c.pc = .exit [] from hret] at h
  obtain ⟨ok, n, made, hway, rfl, hcomplete, hsuccess⟩ := h
  rw [List.append_nil] at hway
  cases hway with
  | notOpened =>
    -- neither the client nor the flag
    have hopened : Action.open false ∈ callsMade false n ++ [ExitOp.unlock].map ExitOp.action := by
      simp [callsMade]
    refine iff_of_false (fun hclean => ?_) (not_not_intro hopened)
    have hflag := hclean.complete
    rw [hcomplete] at hflag
    exact absurd hflag (by decide)
  | failed hfail =>
    refine iff_of_true ⟨?_, ?_, ?_, ?_, ?_, ?_⟩ ?_
    all_goals simp [callsMade, ExitOp.action, List.count_replicate, hcomplete, hsuccess]
    exact fun hrecv hsend => hfail ⟨hrecv, hsend⟩
  | succeeded hok =>
    refine iff_of_true ⟨?_, ?_, ?_, ?_, ?_, ?_⟩ ?_
    all_goals simp [callsMade, ExitOp.action, List.count_replicate, hcomplete, hsuccess, hok]

/-- However its calls answer, a thread that returns has cleaned up if and only if
    `open` did not fail. -/
theorem connection_thread_cleansUp_iff {outcomes : List Outcome} {acts : List Action} {c : Control}
    (hrun : run Control.step .start outcomes = some (acts, c)) (hret : c.Returned) :
    CleansUp acts c ↔ .opened false ∉ outcomes := by
  rw [stage_returned (run_stage hrun) hret, open_mem_iff hrun]

theorem action_eq_open {op : Op} {ok : Bool} : op.action = .open ok ↔ op = .open ok := by
  cases op <;> simp [Op.action]

/-- So has a connection with its data, whatever the others do meanwhile. -/
theorem threadStep_cleansUp {K : Kernel} {t : Tid} {stack : List Driver.Byte}
    {res : List (Shared × Event)} {ops : List Op} {w : Worker}
    (hrun : run (threadStep K t) (.start stack) res = some (ops, w)) (hret : Finished w) :
    ∃ c, Agrees w c ∧ (CleansUp (ops.map Op.action) c ↔ .open false ∉ ops) := by
  obtain ⟨outcomes, c, hcontrol, hagree⟩ := threadStep_run hrun (agrees_start stack)
  have hreturned : c.Returned := hagree.pc_eq.symm.trans hret
  refine ⟨c, hagree, ?_⟩
  rw [stage_returned (run_stage hcontrol) hreturned, List.mem_map]
  simp only [action_eq_open, exists_eq_right]

/-- A client sends one line and gets two bytes back. -/
def oneReply : List Outcome :=
  [.go, .go, .opened true, .received (.chunk (.of 65 [newline])) none, .returned 2,
    .returned 2, .sent (.short 0), .returned 0, .sent (.short 0), .go, .go, .go, .go, .go]

/-- What the thread does there. -/
def replyActions : List Action :=
  [.setComplete false, .lock, .open true, .io, .io, .io, .io, .io, .io,
    .closeOutput, .unlock, .closeClient, .setSuccess true, .setComplete true]

/-- The thread that `oneReply` leaves. -/
def replied : Control := ⟨.exit [], true, true, some 0, some 0⟩

theorem oneReply_cleansUp :
    run Control.step .start oneReply = some (replyActions, replied) ∧
      CleansUp replyActions replied := by
  have hrun : run Control.step .start oneReply = some (replyActions, replied) := rfl
  have hopened : .opened false ∉ oneReply := by simp [oneReply]
  exact ⟨hrun, (connection_thread_cleansUp_iff hrun rfl).mpr hopened⟩

/-- `open` fails: the client's socket stays open, and the main loop never sees the
    thread complete. -/
theorem openFails_leaves_client :
    ∃ acts c, run Control.step .start [.go, .go, .opened false, .go] = some (acts, c) ∧
      c.Returned ∧ .closeClient ∉ acts ∧ c.threadComplete = false ∧ ¬ CleansUp acts c := by
  refine ⟨_, _, rfl, rfl, ?_, rfl, ?_⟩
  · decide
  · exact fun h => absurd h.complete (by decide)

end Aesd.Server
