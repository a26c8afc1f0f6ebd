/-
  Aesd.Server.Sequential

  The server against the sequential one it stands for.  First, no run of the
  connections is more than a serial one: whatever a connection does while
  another holds `file_mutex` it could have done before (`server_run_serial`).
  Second, what a serial server does is written down without threads, buffers
  or driver (`receive`, `Received.reply`): one connection after the other, in
  the order of the mutex, each reading its chunks and seek commands into the
  journal and taking the readable bytes from its position as its reply.

  The messages are arbitrary here, and so are the failures of `open`, `recv`,
  `write` and `ioctl`; only the reply is taken to be undisturbed.
-/
import Mathlib.Data.List.ModifyLast
import Aesd.Lib.Serial
import Aesd.Lib.Logged
import Aesd.Server.Lines
import Aesd.Server.Reply

namespace Aesd.Server

open Aesd.Lib
open Aesd.Lib.Monitor (LockOp Move Protocol Inv sysOk Disciplined Placed Alone ofThread)
open Aesd.Driver (Byte newline isNewline Kernel CallEnv AesdSeekto content)

/-! ## Serial runs -/

/-- Out of the mutex a connection has nothing to do with the device. -/
theorem connectionThread_disciplined (K : Kernel) :
    Disciplined (connectionThread K) (fun w => toUnlock w.pc = 0) (fun w => toUnlock w.pc = 1) := by
  refine { acquire := ?_, inside := ?_, release := ?_, outside := ?_ }
  · intro t r w e m _ hact hlock
    obtain ⟨-, rfl⟩ := eq_of_acquire hact hlock
    rfl
  · intro t r w e m hin hact hlock
    exact (toUnlock_keep hact hlock).trans hin
  · intro t r w e m hin hact hlock
    obtain ⟨todo, hpc, rfl⟩ := eq_of_release hact hlock
    -- the mutex is given back only once
    rw [hpc, toUnlock, List.count_cons_self] at hin
    exact Nat.succ.inj hin
  · intro t r w e m hout hact hlock
    refine ⟨(eq_of_outside hact hlock hout).1, (toUnlock_keep hact hlock).trans hout, fun r' => ?_⟩
    obtain hpc | hpc | ⟨todo, hpc, -⟩ := cases_outside hout
    · obtain rfl := event_eq_go hact (.inl hpc)
      rw [connectionThread_begin K t r hpc] at hact
      obtain rfl := Option.some.inj hact
      exact connectionThread_begin K t r' hpc
    · have hacq := lock_eq hact
      rw [hpc, hlock] at hacq
      cases hacq
    · obtain ⟨op, rest, rfl, -⟩ := eq_of_exit hact hlock hpc
      obtain rfl := event_eq_go hact (.inr (.inr ⟨_, hpc⟩))
      rw [connectionThread_exit K t r hpc] at hact
      obtain rfl := Option.some.inj hact
      rw [connectionThread_exit K t r' hpc]
      cases op <;> rfl

theorem placed_start (shared : Shared) (stack : Tid → List Byte) :
    Placed (fun w => toUnlock w.pc = 0) (fun w => toUnlock w.pc = 1)
      (State.start shared stack) where
  owner t ht := by cases ht
  others _ _ := rfl

/-- Every run of the server, whatever the clients do and whatever fails, ends where a
    serial run ends: one in which nobody else moves while a connection holds the
    mutex, and in which every connection meets the same events and makes the same calls. -/
theorem server_run_serial {K : Kernel} {shared : Shared} {stack : Tid → List Byte}
    {events : List (Tid × Event)} {outs : List (Tid × Op)} {s : State}
    (hrun : run (step K) (.start shared stack) events = some (outs, s)) :
    ∃ events' outs', run (step K) (.start shared stack) events' = some (outs', s) ∧
      Meets (step K) Alone (.start shared stack) events' ∧
      ∀ t, ofThread t events' = ofThread t events ∧ ofThread t outs' = ofThread t outs :=
  (connectionThread_disciplined K).serializable (placed_start shared stack) rfl hrun

/-- Connection 1 starts while connection 0 has the mutex, and connection 0 ends while
    connection 1 has it; both write a line. -/
def overlapping : List (Tid × Event) :=
  [(0, .go), (0, .go), (0, .opened true), (1, .go),
    (0, .received (.chunk (.of 97 [newline])) none), (0, .device .calm), (0, .device .calm),
    (0, .sent (.short 0)), (0, .device .calm), (0, .sent (.short 0)), (0, .go), (0, .go), (1, .go),
    (0, .go), (1, .opened true), (1, .received (.chunk (.of 98 [newline])) none), (0, .go),
    (1, .device .calm), (0, .go)]

theorem overlapping_serial :
    ∃ events' outs outs' s, run (step .page) (.init fun _ => []) overlapping = some (outs, s) ∧
      Driver.committedTexts s.shared.system.driver = some [[97, newline], [98, newline]] ∧
      run (step .page) (.init fun _ => []) events' = some (outs', s) ∧
      Meets (step .page) Alone (.init fun _ => []) events' ∧
      ∀ t, ofThread t events' = ofThread t overlapping ∧ ofThread t outs' = ofThread t outs := by
  have hmap : (run (step .page) (.init fun _ => []) overlapping).map (fun x =>
      Driver.committedTexts x.2.shared.system.driver) =
        some (some [[97, newline], [98, newline]]) := by decide
  obtain ⟨⟨outs, s⟩, hrun, htexts⟩ := Option.map_eq_some_iff.mp hmap
  obtain ⟨events', outs', h⟩ := server_run_serial hrun
  exact ⟨events', outs, outs', s, hrun, htexts, h⟩

/-! ## The sequential server -/

/-- One pass of `recv_messages`: what `recv` answers, what the scans of the parser find
    beyond the buffer, and what the device call that follows meets, once it is made. -/
structure Pass where
  recv : RecvResult
  oob : Option AesdSeekto
  env : Option CallEnv

/-- The journal, the position of the connection's file, and what `recv_messages` has
    returned, if it has. -/
structure Received where
  journal : Journal Byte
  pos : Int
  ret : Option Int

/-- One pass, on the journal. -/
def Received.pass (K : Kernel) (x : Received) (p : Pass) : Received :=
  match x.ret, afterRecv p.oob p.recv, p.env with
  | none, .ret ret, _ => { x with ret := some ret }
  | none, .ioctl seekto size, some env =>
    let r := Driver.absIoctl env x.journal x.pos Driver.AESDCHAR_IOCSEEKTO seekto
    { x with pos := r.fPos, ret := afterIoctl r.ret size }
  | none, .write bytes size, some env =>
    { x with
      journal := Driver.absWriteNext isNewline K env x.journal bytes
      ret := afterWrite (Driver.absWriteRet K env x.journal bytes) size }
  | _, _, _ => x

/-- A connection on its own: a file at position 0, and the passes one after the other. -/
def receive (K : Kernel) (J : Journal Byte) (passes : List Pass) : Received :=
  passes.foldl (Received.pass K) ⟨J, 0, none⟩

/-- What its client gets: all that can be read from the position on, unless
    `recv_messages` has failed or was never called. -/
def Received.reply (x : Received) : List Byte :=
  match x.ret with
  | none => []
  | some ret => if ret = -1 then [] else (content x.journal).drop x.pos.toNat

theorem Received.reply_failed {x : Received} (h : x.ret = some (-1)) : x.reply = [] := by
  rw [reply, h]
  exact if_pos rfl

theorem Received.reply_returned {x : Received} {ret : Int} (h : x.ret = some ret)
    (hret : ¬ ret = -1) : x.reply = (content x.journal).drop x.pos.toNat := by
  rw [reply, h]
  exact if_neg hret

/-- The calls of `recv_messages`. -/
def receives : Op → Bool
  | .recv => true
  | .ioctl _ => true
  | .write _ => true
  | _ => false

/-- One more event of a connection, with the call it answers. -/
def notePass (passes : List Pass) : Event × Op → List Pass
  | (.received res oob, .recv) => passes ++ [⟨res, oob, none⟩]
  | (.device env, .ioctl _) => passes.modifyLast fun p => { p with env := some env }
  | (.device env, .write _) => passes.modifyLast fun p => { p with env := some env }
  | _ => passes

/-- The passes of a connection, from its events. -/
def passesOf (log : List (Event × Op)) : List Pass := log.foldl notePass []

/-- The journal after the connections `ts` have been served, one after the other. -/
def servedBy (K : Kernel) (log : Tid → List (Event × Op)) (ts : List Tid) : Journal Byte :=
  ts.foldl (fun J t => (receive K J (passesOf (log t))).journal) .empty

/-- What the client of `t` gets if `ts` have been served before. -/
def replyTo (K : Kernel) (log : Tid → List (Event × Op)) (ts : List Tid) (t : Tid) : List Byte :=
  (receive K (servedBy K log ts) (passesOf (log t))).reply

section Lists

variable {K : Kernel} {log log' : Tid → List (Event × Op)} {ts : List Tid} {t : Tid}

theorem receive_concat (J : Journal Byte) (ps : List Pass) (p : Pass) :
    receive K J (ps ++ [p]) = (receive K J ps).pass K p := by
  rw [receive, List.foldl_append]
  rfl

section Pass

variable {J : Journal Byte} {pos : Int} {res : RecvResult} {oob : Option AesdSeekto}

theorem pass_ret {ret : Int} (h : afterRecv oob res = .ret ret) (env : Option CallEnv) :
    Received.pass K ⟨J, pos, none⟩ ⟨res, oob, env⟩ = ⟨J, pos, some ret⟩ := by
  rw [Received.pass, h]

theorem pass_ioctl {seekto : AesdSeekto} {size : Nat} (h : afterRecv oob res = .ioctl seekto size)
    (env : CallEnv) :
    Received.pass K ⟨J, pos, none⟩ ⟨res, oob, some env⟩ =
      ⟨J, (Driver.absIoctl env J pos Driver.AESDCHAR_IOCSEEKTO seekto).fPos,
        afterIoctl (Driver.absIoctl env J pos Driver.AESDCHAR_IOCSEEKTO seekto).ret size⟩ := by
  rw [Received.pass, h]

theorem pass_write {bytes : List Byte} {size : Nat} (h : afterRecv oob res = .write bytes size)
    (env : CallEnv) :
    Received.pass K ⟨J, pos, none⟩ ⟨res, oob, some env⟩ =
      ⟨Driver.absWriteNext isNewline K env J bytes, pos,
        afterWrite (Driver.absWriteRet K env J bytes) size⟩ := by
  rw [Received.pass, h]

end Pass

theorem passesOf_concat (l : List (Event × Op)) (z : Event × Op) :
    passesOf (l ++ [z]) = notePass (passesOf l) z := by
  rw [passesOf, List.foldl_append]
  rfl

/-- Only the calls of `recv_messages` make passes. -/
theorem notePass_of_not {passes : List Pass} {z : Event × Op} (h : receives z.2 = false) :
    notePass passes z = passes := by
  unfold notePass
  split
  case h_1 => cases h
  case h_2 => cases h
  case h_3 => cases h
  case h_4 => rfl

theorem passesOf_filter (l : List (Event × Op)) :
    passesOf (l.filter fun z => receives z.2) = passesOf l := by
  have hskip : (fun (ps : List Pass) (z : Event × Op) =>
      if receives z.2 = true then notePass ps z else ps) = notePass := by
    funext ps z
    split
    · rfl
    · exact (notePass_of_not (by simpa using ‹¬ receives z.2 = true›)).symm
  rw [passesOf, List.foldl_filter, hskip, passesOf]

theorem servedBy_concat : servedBy K log (ts ++ [t]) =
    (receive K (servedBy K log ts) (passesOf (log t))).journal := by
  rw [servedBy, List.foldl_append]
  rfl

theorem servedBy_congr (h : ∀ t ∈ ts, passesOf (log t) = passesOf (log' t)) :
    servedBy K log ts = servedBy K log' ts := by
  unfold servedBy
  apply List.foldl_ext
  intro J t ht
  rw [h t ht]

theorem replyTo_congr (h : ∀ u ∈ ts, passesOf (log u) = passesOf (log' u))
    (ht : passesOf (log t) = passesOf (log' t)) : replyTo K log ts t = replyTo K log' ts t := by
  rw [replyTo, replyTo, servedBy_congr h, ht]

end Lists

/-! ## The phases of a session -/

/-- The shared state, with what the connections have received. -/
abbrev LoggedShared := Shared × (Tid → List (Event × Op))

/-- The connections, with a log of the calls of `recv_messages`. -/
def loggedThread (K : Kernel) : Monitor.Program Tid LoggedShared Worker Event Op :=
  Monitor.logged receives (connectionThread K)

/-- The event does not cut the reply short: `read` meets nothing, and `send` takes all. -/
def inFull : Pc → Event → Bool
  | .read, .device env => env = .calm
  | .send _, .sent .error => false
  | .send _, .sent (.short unsent) => unsent = 0
  | _, _ => true

/-- The replies are undisturbed; nothing else is promised. -/
def repliesOk (_ : Tid) (_ : Shared) (w : Worker) (e : Event) : Prop := inFull w.pc e = true

/-- A connection with the mutex, on a device that held `J₀` when it took it, after the
    passes `ps`: it is behind the sequential server by at most the call it is about to
    make, and once `recv_messages` has returned it is giving the reply. -/
def Session (K : Kernel) (J₀ : Journal Byte) (ps : List Pass) (t : Tid) (r : Shared) (w : Worker) :
    Prop :=
  let now : Received := ⟨r.journal, r.system.fPos t, none⟩
  match w.pc with
  | .begin => False
  | .lock => False
  | .open => w.client = [] ∧ ps = [] ∧ r.journal = J₀
  | .recv => w.client = [] ∧ receive K J₀ ps = now
  | .ioctl seekto size => w.client = [] ∧ ∃ before res oob, ps = before ++ [⟨res, oob, none⟩] ∧
    receive K J₀ before = now ∧ afterRecv oob res = .ioctl seekto size
  | .write bytes size => w.client = [] ∧ ∃ before res oob, ps = before ++ [⟨res, oob, none⟩] ∧
    receive K J₀ before = now ∧ afterRecv oob res = .write bytes size
  | _ => r.journal = (receive K J₀ ps).journal ∧
    Replying r.journal (receive K J₀ ps).reply (r.system.fPos t) w

section Session

variable {K : Kernel} {J₀ : Journal Byte} {ps : List Pass} {t : Tid} {r : Shared} {w : Worker}
  {e : Event} {m : Move Shared Worker Op}

theorem Stands.fPos_nonneg {J : Journal Byte} (h : Stands K J r) (t : Tid) :
    0 ≤ r.system.fPos t := (h.isPos t).1

/-- A connection that is replying has the reply of the sequential server to give. -/
theorem session_of_replying (hJ : r.journal = (receive K J₀ ps).journal)
    (h : Replying r.journal (receive K J₀ ps).reply (r.system.fPos t) w) :
    Session K J₀ ps t r w := by
  unfold Session
  cases hpc : w.pc with
  | read => exact ⟨hJ, h⟩
  | send bytesRead => exact ⟨hJ, h⟩
  | exit todo => exact ⟨hJ, h⟩
  | begin => rw [Replying, hpc] at h; exact h
  | lock => rw [Replying, hpc] at h; exact h
  | «open» => rw [Replying, hpc] at h; exact h.elim
  | recv => rw [Replying, hpc] at h; exact h.elim
  | ioctl seekto size => rw [Replying, hpc] at h; exact h.elim
  | write bytes size => rw [Replying, hpc] at h; exact h.elim

/-- Where the end of a pass leads, the sequential server is in step. -/
theorem session_afterPass {next : Option Int} (hpc : w.pc = afterPass next)
    (hclient : w.client = []) (hpos : 0 ≤ r.system.fPos t)
    (heq : receive K J₀ ps = ⟨r.journal, r.system.fPos t, next⟩) : Session K J₀ ps t r w := by
  have hJ : r.journal = (receive K J₀ ps).journal := by rw [heq]
  cases next with
  | none =>
    have hrecv : w.pc = .recv := hpc
    rw [Session, hrecv]
    exact ⟨hclient, heq⟩
  | some ret =>
    have hret : (receive K J₀ ps).ret = some ret := by rw [heq]
    rw [afterPass] at hpc
    apply session_of_replying hJ
    by_cases hfail : ret = -1
    · rw [if_pos hfail] at hpc
      rw [Replying, hpc, Received.reply_failed (hfail ▸ hret)]
      exact ⟨hclient, rfl⟩
    · rw [if_neg hfail] at hpc
      rw [Replying, hpc, Received.reply_returned hret hfail, hclient, heq]
      exact ⟨_, (Int.toNat_of_nonneg hpos).symm, rfl⟩

/-- A step of the reply, which makes no pass. -/
theorem reply_step (htracks : Tracks K r) (hJ : r.journal = (receive K J₀ ps).journal)
    (h : Replying r.journal (receive K J₀ ps).reply (r.system.fPos t) w) (hev : Delivers [] e)
    (hact : connectionThread K t r w e = some m) (hlock : m.lock = .keep)
    (hnote : notePass ps (e, m.out) = ps) :
    Tracks K m.shared ∧ Session K J₀ (notePass ps (e, m.out)) t m.shared m.own := by
  obtain ⟨hstands, ⟨horigin, -, -⟩, hreply, -⟩ := replying_step htracks h hev hact hlock 0
  have hsame : m.shared.journal = r.journal := by rw [Shared.journal, Shared.journal, horigin]
  rw [← hsame] at hstands hreply hJ
  rw [hnote]
  exact ⟨hstands, session_of_replying hJ hreply⟩

/-- What one step of the session keeps. -/
theorem session_step (htracks : Tracks K r) (h : Session K J₀ ps t r w) (hok : repliesOk t r w e)
    (hact : connectionThread K t r w e = some m) (hlock : m.lock = .keep) :
    Tracks K m.shared ∧ Session K J₀ (notePass ps (e, m.out)) t m.shared m.own := by
  unfold Session at h
  cases connectionThread_cases hact with
  | begin hpc => rw [hpc] at h; exact h.elim
  | lock hpc => cases hlock
  | «open» hpc =>
    rw [hpc] at h
    obtain ⟨hclient, rfl, hJ⟩ := h
    refine ⟨htracks.openOutput t, hclient, ?_⟩
    -- the new file starts at 0
    have hpos : (openOutput t r).system.fPos t = 0 := Function.update_self ..
    show receive K J₀ [] = ⟨r.journal, (openOutput t r).system.fPos t, none⟩
    rw [hpos, hJ]
    rfl
  | openFails hpc =>
    rw [hpc] at h
    obtain ⟨hclient, rfl, hJ⟩ := h
    exact ⟨htracks, session_of_replying hJ ⟨hclient, rfl⟩⟩
  | @recvEnds hpc res oob ret hnext =>
    rw [hpc] at h
    obtain ⟨hclient, hrec⟩ := h
    have hrec' : receive K J₀ (ps ++ [⟨res, oob, none⟩]) =
        ⟨r.journal, r.system.fPos t, some ret⟩ := by
      rw [receive_concat, hrec, pass_ret hnext]
    refine ⟨htracks, session_afterPass ?_ hclient (htracks.fPos_nonneg t) hrec'⟩
    rfl
  | @recvIoctl hpc res oob seekto size hnext =>
    rw [hpc] at h
    obtain ⟨hclient, hrec⟩ := h
    exact ⟨htracks, hclient, ps, res, oob, rfl, hrec, hnext⟩
  | @recvWrite hpc res oob bytes size hnext =>
    rw [hpc] at h
    obtain ⟨hclient, hrec⟩ := h
    exact ⟨htracks, hclient, ps, res, oob, rfl, hrec, hnext⟩
  | @ioctl seekto size hpc env m hm =>
    rw [hpc] at h
    obtain ⟨hclient, before, res, oob, rfl, hrec, hnext⟩ := h
    obtain ⟨system, heq, hfPos, hstands⟩ := htracks.ioctlMove_eq t w env seekto size
    obtain rfl := Option.some.inj (hm.symm.trans heq)
    refine ⟨hstands, session_afterPass rfl hclient (hstands.fPos_nonneg t) ?_⟩
    show receive K J₀ (List.modifyLast _ (before ++ [_])) = ⟨r.journal, system.fPos t, _⟩
    rw [List.modifyLast_concat, receive_concat, hrec, pass_ioctl hnext, hfPos, Driver.setPos,
      Function.update_self]
  | @write bytes size hpc env m hm =>
    rw [hpc] at h
    obtain ⟨hclient, before, res, oob, rfl, hrec, hnext⟩ := h
    have hpiece := piece_of_afterRecv hnext
    obtain ⟨system, heq, hfPos, htracks'⟩ := htracks.writeMove_eq t w env
      (List.ne_nil_of_length_pos hpiece.length_pos) hpiece.length_le size
    obtain rfl := Option.some.inj (hm.symm.trans heq)
    refine ⟨htracks', session_afterPass rfl hclient (htracks'.fPos_nonneg t) ?_⟩
    show receive K J₀ (List.modifyLast _ (before ++ [_])) = _
    rw [List.modifyLast_concat, receive_concat, hrec, pass_write hnext, Received.mk.injEq]
    exact ⟨(absWriteNext_tagged K env r.origin t bytes).symm, (congrFun hfPos t).symm, rfl⟩
  | @read hpc env m hm =>
    have hev : env = .calm := by
      rw [repliesOk, hpc] at hok
      exact of_decide_eq_true hok
    rw [hpc] at h
    obtain ⟨x, -, rfl⟩ := Option.map_eq_some_iff.mp hm
    exact reply_step htracks h.1 h.2 hev hact hlock rfl
  | @send bytesRead hpc res =>
    have hev : res = .short 0 := by
      rw [repliesOk, hpc] at hok
      cases res with
      | error => cases hok
      | short unsent => rw [of_decide_eq_true hok]
    rw [hpc] at h
    exact reply_step htracks h.1 h.2 hev hact hlock rfl
  | @exit op todo hpc =>
    rw [hpc] at h
    exact reply_step htracks h.1 h.2 trivial hact hlock (by cases op <;> rfl)

end Session

/-! ## The invariant -/

section Protocol

variable {K : Kernel}

structure SequentialFree (K : Kernel) (r : LoggedShared) : Prop where
  tracks : Tracks K r.1
  nodup : r.1.order.Nodup
  exact : r.1.journal = servedBy K r.2 r.1.order

structure SequentialHold (K : Kernel) (t : Tid) (r : LoggedShared) (w : Worker) : Prop where
  tracks : Tracks K r.1
  nodup : r.1.order.Nodup
  session : ∃ before, r.1.order = before ++ [t] ∧
    Session K (servedBy K r.2 before) (passesOf (r.2 t)) t r.1 w

/-- A connection that does not hold the mutex has not begun to receive, or its client has
    got what the sequential server replies at its place. -/
def SequentialIdle (K : Kernel) (t : Tid) (r : LoggedShared) (w : Worker) : Prop :=
  Outside (fun client _ => t ∉ r.1.order ∧ client = [] ∧ r.2 t = [])
    (fun client _ => ∃ before after, r.1.order = before ++ t :: after ∧
      client = replyTo K r.2 before t) w

/-- The step conditions, on the logged connections. -/
def loggedOk (t : Tid) (r : LoggedShared) (w : Worker) (e : Event) : Prop := repliesOk t r.1 w e

/-- The log of a connection after a step, as passes. -/
theorem passesOf_note (log : Tid → List (Event × Op)) (t : Tid) (e : Event) (op : Op) :
    passesOf (Monitor.note receives log t e op t) = notePass (passesOf (log t)) (e, op) := by
  cases hop : receives op with
  | true => rw [Monitor.note_self hop, passesOf_concat]
  | false => rw [Monitor.note_of_not hop, notePass_of_not hop]

/-- Out of the mutex no call of `recv_messages` is made. -/
theorem receives_of_outside {t : Tid} {r : Shared} {w : Worker} {e : Event}
    {m : Move Shared Worker Op} (hact : connectionThread K t r w e = some m)
    (hout : m.lock = .keep → toUnlock w.pc = 0) : receives m.out = false := by
  cases hlock : m.lock with
  | acquire =>
    obtain ⟨-, rfl⟩ := eq_of_acquire hact hlock
    rfl
  | release =>
    obtain ⟨todo, -, rfl⟩ := eq_of_release hact hlock
    rfl
  | keep =>
    obtain hpc | hpc | ⟨todo, hpc, -⟩ := cases_outside (hout hlock)
    · obtain rfl := event_eq_go hact (.inl hpc)
      rw [connectionThread_begin K t r hpc] at hact
      obtain rfl := Option.some.inj hact
      rfl
    · have hacq := lock_eq hact
      rw [hpc, hlock] at hacq
      cases hacq
    · obtain ⟨op, rest, rfl, -⟩ := eq_of_exit hact hlock hpc
      obtain rfl := event_eq_go hact (.inr (.inr ⟨_, hpc⟩))
      rw [connectionThread_exit K t r hpc] at hact
      obtain rfl := Option.some.inj hact
      cases op <;> rfl

/-- What an idle connection knows survives a longer order, and a longer log of those that
    are not before it in the order. -/
theorem SequentialIdle.append {t : Tid} {r r' : LoggedShared} {w : Worker}
    (h : SequentialIdle K t r w) {later : List Tid} (horder : r'.1.order = r.1.order ++ later)
    (hnot : t ∉ later) (hself : r'.2 t = r.2 t)
    (hlog : ∀ before after, r.1.order = before ++ t :: after → ∀ u ∈ before, r'.2 u = r.2 u) :
    SequentialIdle K t r' w := by
  refine Outside.imp h ?_ ?_
  · rintro client _ ⟨hnew, hclient, hnone⟩
    rw [horder, List.mem_append, not_or, hself]
    exact ⟨⟨hnew, hnot⟩, hclient, hnone⟩
  · rintro client _ ⟨before, after, heq, hclient⟩
    refine ⟨before, after ++ later, ?_, ?_⟩
    · rw [horder, heq, List.append_assoc, List.cons_append]
    · rw [hclient]
      apply replyTo_congr
      · intro u hu
        rw [hlog before after heq u hu]
      · rw [hself]

/-- The last of an order without repetitions is not before another. -/
theorem last_not_before {t u : Tid} {before₀ before after : List Tid}
    (hnodup : (before₀ ++ [t]).Nodup) (h : before₀ ++ [t] = before ++ u :: after) :
    t ∉ before := by
  have hmem : t ∈ u :: after := by
    rcases List.append_eq_append_iff.mp h with ⟨l, -, hl⟩ | ⟨l, -, hl⟩
    · cases l with
      | nil =>
        rw [List.nil_append] at hl
        rw [← hl]
        exact List.mem_singleton_self t
      | cons v l =>
        have hnil := congrArg List.length hl
        simp at hnil
    · rw [hl]
      simp
  intro hbefore
  rw [h] at hnodup
  exact (List.nodup_append.mp hnodup).2.2 t hbefore t hmem rfl

/-- The connections keep to the monitor rule. -/
theorem sequential_protocol :
    Protocol (loggedThread K) loggedOk (SequentialFree K) (SequentialHold K)
      (SequentialIdle K) := by
  refine { acquire := ?_, hold := ?_, release := ?_, idle := ?_, stable := ?_ }
  · intro t r w e m hfree hidle hok hlogged hlock
    obtain ⟨m, hact, rfl⟩ := Monitor.logged_eq_some hlogged
    have hsel := receives_of_outside hact fun hkeep => by rw [hlock] at hkeep; cases hkeep
    obtain ⟨hpc, rfl⟩ := eq_of_acquire hact hlock
    obtain ⟨hnew, hclient, hnone⟩ := Outside.of_lock hidle hpc
    rw [Monitor.note_of_not hsel]
    refine ⟨hfree.tracks, ?_, r.1.order, rfl, hclient, ?_, hfree.exact⟩
    · exact List.nodup_append.mpr ⟨hfree.nodup, List.nodup_singleton t, by
        rintro u hu v hv rfl
        exact hnew (List.mem_singleton.mp hv ▸ hu)⟩
    · rw [hnone]
      rfl
  · intro t r w e m hhold hok hlogged hlock
    obtain ⟨m, hact, rfl⟩ := Monitor.logged_eq_some hlogged
    obtain ⟨htracks, hnodup, before, hbefore, hsession⟩ := hhold
    obtain ⟨htracks', hsession'⟩ := session_step htracks hsession hok hact hlock
    have horder := order_of_keep hact hlock
    have hnot : t ∉ before := by
      rw [hbefore] at hnodup
      exact fun hmem => (List.nodup_append.mp hnodup).2.2 t hmem t (List.mem_singleton_self t) rfl
    refine ⟨htracks', by rw [horder]; exact hnodup, before, horder.trans hbefore, ?_⟩
    -- the log of the connections served before has not changed
    have hsame : servedBy K (Monitor.note receives r.2 t e m.out) before =
        servedBy K r.2 before := by
      apply servedBy_congr
      intro u hu
      have hut : u ≠ t := fun heq => hnot (heq ▸ hu)
      rw [Monitor.note_of_ne hut]
    dsimp only
    rw [hsame, passesOf_note]
    exact hsession'
  · intro t r w e m hhold _ hlogged hlock
    obtain ⟨m, hact, rfl⟩ := Monitor.logged_eq_some hlogged
    have hsel := receives_of_outside hact fun hkeep => by rw [hlock] at hkeep; cases hkeep
    obtain ⟨todo, hpc, rfl⟩ := eq_of_release hact hlock
    obtain ⟨htracks, hnodup, before, hbefore, hsession⟩ := hhold
    rw [Session, hpc] at hsession
    obtain ⟨hJ, hreply⟩ := hsession
    obtain ⟨hclient, hcount⟩ := hreply.of_exit hpc
    rw [List.count_cons_self] at hcount
    rw [Monitor.note_of_not hsel]
    refine ⟨⟨htracks, hnodup, ?_⟩, Nat.succ.inj hcount, before, [], hbefore, hclient⟩
    rw [hJ, hbefore, servedBy_concat]
  · intro t r w e m hidle _ hlogged hlock
    obtain ⟨m, hact, rfl⟩ := Monitor.logged_eq_some hlogged
    have hsel := receives_of_outside hact fun _ => Outside.outside hidle
    obtain ⟨hshared, hout⟩ := Outside.step hidle hact hlock
    rw [Monitor.note_of_not hsel]
    exact ⟨Prod.ext hshared rfl, hout⟩
  · intro t r w e m u v hut hidle hpre _ hlogged
    obtain ⟨m, hact, rfl⟩ := Monitor.logged_eq_some hlogged
    have hself : Monitor.note receives r.2 t e m.out u = r.2 u := Monitor.note_of_ne hut
    cases hlock : m.lock with
    | acquire =>
      have hsel := receives_of_outside hact fun hkeep => by rw [hlock] at hkeep; cases hkeep
      obtain ⟨-, rfl⟩ := eq_of_acquire hact hlock
      rw [Monitor.note_of_not hsel]
      exact hidle.append rfl (by simpa using hut) rfl fun _ _ _ _ _ => rfl
    | release =>
      have hsel := receives_of_outside hact fun hkeep => by rw [hlock] at hkeep; cases hkeep
      obtain ⟨todo, -, rfl⟩ := eq_of_release hact hlock
      rw [Monitor.note_of_not hsel]
      exact hidle
    | keep =>
      have horder := order_of_keep hact hlock
      rw [← List.append_nil r.1.order] at horder
      refine hidle.append horder List.not_mem_nil hself fun before after heq v hv => ?_
      rcases hpre with hhold | ⟨-, hpre⟩
      · -- `t` has the mutex, so it is the last of the order
        obtain ⟨-, hnodup, before₀, hlast, -⟩ := hhold
        rw [hlast] at hnodup heq
        have hvt : v ≠ t := fun hvt => last_not_before hnodup heq (hvt ▸ hv)
        exact Monitor.note_of_ne hvt
      · have hsel := receives_of_outside hact fun _ => Outside.outside hpre
        exact congrFun (Monitor.note_of_not hsel) v

theorem sequential_init (K : Kernel) (stack : Tid → List Byte) :
    Inv (SequentialFree K) (SequentialHold K) (SequentialIdle K)
      ((State.init stack).withLog fun _ => []) :=
  { idle := fun _ _ => ⟨List.not_mem_nil, rfl, rfl⟩
    free := fun _ => ⟨tracks_init K, List.nodup_nil, rfl⟩
    hold := fun _ hown => absurd hown (by simp [State.init, State.start, Monitor.State.withLog]) }

/-- A session is inside the mutex. -/
theorem Session.inside {J₀ : Journal Byte} {ps : List Pass} {t : Tid} {r : Shared} {w : Worker}
    (h : Session K J₀ ps t r w) : toUnlock w.pc = 1 := by
  unfold Session at h
  cases hpc : w.pc with
  | begin => rw [hpc] at h; exact h.elim
  | lock => rw [hpc] at h; exact h.elim
  | «open» => rfl
  | recv => rfl
  | ioctl seekto size => rfl
  | write bytes size => rfl
  | read => rfl
  | send bytesRead => rfl
  | exit todo =>
    rw [hpc] at h
    exact (h.2.of_exit hpc).2

/-- If it is about to write, then a piece of what it has received. -/
theorem Session.piece {J₀ : Journal Byte} {ps : List Pass} {t : Tid} {r : Shared} {w : Worker}
    (h : Session K J₀ ps t r w) {bytes : List Byte} {size : Nat} (hpc : w.pc = .write bytes size) :
    Piece bytes := by
  rw [Session, hpc] at h
  obtain ⟨-, before, res, oob, -, -, hnext⟩ := h
  exact piece_of_afterRecv hnext

/-- What happens next if nothing fails does not cut the reply short. -/
theorem inFull_calmEvent (res : RecvResult) (pc : Pc) : inFull pc (calmEvent res pc) = true := by
  cases pc <;> rfl

/-- Nor does anything that happens to a connection outside the mutex. -/
theorem inFull_of_outside {pc : Pc} (hout : toUnlock pc = 0) (e : Event) : inFull pc e = true := by
  obtain rfl | rfl | ⟨todo, rfl, -⟩ := cases_outside hout
  · rfl
  · rfl
  · rfl

/-- As long as a connection has not returned, it or the holder of the mutex can take a step. -/
theorem sequential_progress {s : State} {log : Tid → List (Event × Op)}
    (hs : Inv (SequentialFree K) (SequentialHold K) (SequentialIdle K) (s.withLog log)) {t : Tid}
    (hleft : ¬ Finished (s.locals t)) :
    ∃ x : Tid × Event, (x.1 = t ∨ s.owner = some x.1) ∧ sysOk repliesOk s x ∧
      (step K s x).isSome = true := by
  cases howner : s.owner with
  | some u =>
    obtain ⟨htracks, -, before, -, hsession⟩ := hs.hold u howner
    obtain ⟨m, hact, hlock⟩ := calm_of_inside htracks hsession.inside (fun bytes size hpc =>
      ⟨List.ne_nil_of_length_pos (hsession.piece hpc).length_pos,
        (hsession.piece hpc).length_le⟩) .closed
    have hcalm : repliesOk u s.shared (s.locals u) (calmEvent .closed (s.locals u).pc) :=
      inFull_calmEvent .closed _
    exact ⟨(u, _), .inr rfl, hcalm,
      Monitor.step_isSome hact (fun h => absurd h hlock) fun _ => howner⟩
  | none =>
    have hidle := hs.idle t (by simp [Monitor.State.withLog, howner])
    have hout := Outside.outside hidle
    obtain ⟨m, hact, hlock⟩ := go_of_outside K t s.shared hout hleft
    exact ⟨(t, .go), .inl rfl, inFull_of_outside hout .go,
      Monitor.step_isSome hact (fun _ => howner) fun h => absurd h hlock⟩

end Protocol

/-- Any number of connections with any messages, chunk by chunk, in any interleaving, with
    any failure before the reply.  With the mutex free the device holds what the
    sequential server has made of the connections in the order in which they acquired
    it; a client whose connection has returned got what that server replies at its
    place; and until all have returned, somebody can go on. -/
theorem server_follows_sequential {K : Kernel} {stack : Tid → List Byte}
    {events : List (Tid × Event)} {outs : List (Tid × Op)} {s : State}
    (hrun : run (step K) (.init stack) events = some (outs, s))
    (hok : Meets (step K) (sysOk repliesOk) (.init stack) events) :
    let log := fun t => Monitor.doneBy t events outs
    s.shared.order.Nodup ∧
      (s.owner = none → Stands K (servedBy K log s.shared.order) s.shared) ∧
      (∀ t, Finished (s.locals t) → ∃ before after, s.shared.order = before ++ t :: after ∧
        (s.locals t).client = replyTo K log before t) ∧
      ∀ t, ¬ Finished (s.locals t) → ∃ x : Tid × Event, (x.1 = t ∨ s.owner = some x.1) ∧
        sysOk repliesOk s x ∧ (step K s x).isSome = true := by
  intro log
  obtain ⟨log', hlogged, hlog⟩ := Monitor.run_logged receives hrun fun _ => []
  have hs := sequential_protocol.inv_run (sequential_init K stack) hlogged
    (Monitor.meets_logged hrun hok _)
  -- the log kept on the way has the passes of the events
  have hpasses : ∀ t, passesOf (log' t) = passesOf (log t) := by
    intro t
    rw [hlog t, List.nil_append, passesOf_filter]
  refine ⟨?_, fun hfree => ?_, fun t hfin => ?_, fun t hleft => sequential_progress hs hleft⟩
  · cases howner : s.owner with
    | none => exact (hs.free howner).nodup
    | some u => exact (hs.hold u howner).nodup
  · obtain ⟨htracks, -, hexact⟩ := hs.free hfree
    have hJ : s.shared.journal = servedBy K log' s.shared.order := hexact
    rw [← servedBy_congr fun t _ => hpasses t, ← hJ]
    exact htracks
  · have hnot : s.owner ≠ some t := by
      intro howner
      obtain ⟨-, -, before, -, hsession⟩ := hs.hold t howner
      have hinside := hsession.inside
      rw [show ((s.withLog log').locals t).pc = .exit [] from hfin] at hinside
      cases hinside
    obtain ⟨before, after, heq, hclient⟩ := (Outside.of_exit (hs.idle t hnot) hfin).2
    refine ⟨before, after, heq, ?_⟩
    rw [← replyTo_congr (fun u _ => hpasses u) (hpasses t)]
    exact hclient

/-- Connection 1 leaves half a line, and connection 0 completes it. -/
def halfLine : List (Tid × Event) :=
  [(1, .go), (1, .go), (0, .go), (1, .opened true), (1, .received (.chunk (.of 98 [])) none),
    (1, .device .calm), (1, .device .calm), (1, .sent (.short 0)), (1, .go), (1, .go), (0, .go),
    (1, .go), (1, .go), (1, .go), (0, .opened true),
    (0, .received (.chunk (.of 97 [newline])) none), (0, .device .calm), (0, .device .calm),
    (0, .sent (.short 0)), (0, .device .calm), (0, .sent (.short 0)), (0, .go), (0, .go), (0, .go),
    (0, .go), (0, .go)]

theorem halfLine_follows_sequential :
    ∃ outs s, run (step .page) (.init fun _ => []) halfLine = some (outs, s) ∧
      s.shared.order = [1, 0] ∧
      Stands .page (servedBy .page (fun t => Monitor.doneBy t halfLine outs) [1, 0]) s.shared ∧
      ∃ before after, s.shared.order = before ++ 0 :: after ∧
        (s.locals 0).client =
          replyTo .page (fun t => Monitor.doneBy t halfLine outs) before 0 := by
  have hmap : (run (step .page) (.init fun _ => []) halfLine).map (fun x =>
      (x.2.owner, x.2.shared.order, (x.2.locals 0).pc)) = some (none, [1, 0], .exit []) := by decide
  have hok : Meets (step .page) (sysOk repliesOk) (.init fun _ => []) halfLine := by
    unfold sysOk repliesOk
    decide
  obtain ⟨⟨outs, s⟩, hrun, heq⟩ := Option.map_eq_some_iff.mp hmap
  obtain ⟨hfree, heq⟩ := Prod.mk.inj heq
  obtain ⟨horder, hpc⟩ := Prod.mk.inj heq
  obtain ⟨-, hstands, hreply, -⟩ := server_follows_sequential hrun hok
  have hdevice := hstands hfree
  rw [horder] at hdevice
  exact ⟨outs, s, hrun, horder, hdevice, hreply 0 hpc⟩

end Aesd.Server
