/-
  Aesd.Server.Seek

  A connection that sends `AESDCHAR_IOCSEEKTO:X,Y` and nothing else, from its
  first statement to its last: parser, `ioctl`, and the reply loop from the
  position that the `ioctl` has set.  The device may have any history; other
  connections may do all they can do except write.

  `Answering` joins the two ends of the command: a request in range is
  replied to from its position on, any other makes `recv_messages` return -1.
-/
import Aesd.Server.Reply

namespace Aesd.Server

open Aesd.Lib
open Aesd.Lib.CString (Numeral decimal)
open Aesd.Lib.Monitor (LockOp Move Protocol Inv sysOk)
open Aesd.Driver (Byte newline Kernel CallEnv AesdSeekto content committed)

/-! ## The request -/

/-- What the parser makes of the two numerals. -/
def seekRequest (X Y : List Byte) : AesdSeekto :=
  ⟨UInt32.ofNat (decimal X), UInt32.ofNat (decimal Y)⟩

/-- The position the request asks for. -/
def seekTarget (J : Journal Byte) (X Y : List Byte) : Option Nat :=
  Driver.absSeekto J (decimal X) (decimal Y)

theorem toNat_decimal {ds : List Byte} (h : Numeral 9 ds) :
    (UInt32.ofNat (decimal ds)).toNat = decimal ds := by
  have hlt := h.decimal_lt
  have hsize : UInt32.size = 4294967296 := rfl
  exact UInt32.toNat_ofNat_of_lt' (by omega)

theorem length_seekCommand_lt {X Y : List Byte} (hX : Numeral 9 X) (hY : Numeral 9 Y) :
    (seekCommand X Y).length < BUFFER_SIZE := by
  have hX9 := hX.length_le
  have hY9 := hY.length_le
  have hname : commandName.length = 18 := rfl
  have hbuf : BUFFER_SIZE = 1024 := rfl
  simp only [seekCommand, List.length_append, List.length_cons, List.length_nil]
  omega

theorem length_seekCommand_pos (X Y : List Byte) : 1 ≤ (seekCommand X Y).length := by
  rw [seekCommand, List.length_append, List.length_cons]
  omega

/-- The command, as what one `recv` delivers. -/
def seekChunk {X Y : List Byte} (hX : Numeral 9 X) (hY : Numeral 9 Y) : Chunk :=
  ⟨seekCommand X Y, length_seekCommand_pos X Y, Nat.le_of_lt (length_seekCommand_lt hX hY)⟩

/-- The command becomes an `ioctl`. -/
theorem afterRecv_seekCommand {X Y : List Byte} (hX : Numeral 9 X) (hY : Numeral 9 Y) {c : Chunk}
    (hc : c.val = seekCommand X Y) (oob : Option AesdSeekto) :
    afterRecv oob (.chunk c) = .ioctl (seekRequest X Y) (seekCommand X Y).length := by
  rw [afterRecv, checked, hc, checkForIoctlCommand_seekCommand hX hY]
  rfl

/-- The device's answer to the request: the target position, or `-EINVAL`. -/
theorem absIoctl_seekRequest {X Y : List Byte} (hX : Numeral 9 X) (hY : Numeral 9 Y)
    (J : Journal Byte) (pos : Int) :
    Driver.absIoctl .calm J pos Driver.AESDCHAR_IOCSEEKTO (seekRequest X Y) =
      match seekTarget J X Y with
      | none => ⟨-Driver.EINVAL, pos⟩
      | some p => ⟨p, p⟩ := by
  have hcmd : Driver.AESDCHAR_IOCSEEKTO = Driver.AESDCHAR_IOCSEEKTO ∧
      min CallEnv.calm.uncopied Driver.sizeofSeekto = 0 := ⟨rfl, Nat.zero_min _⟩
  have hcalm : ¬ CallEnv.calm.interrupted = true := Bool.false_ne_true
  rw [Driver.absIoctl, if_neg hcalm, if_pos hcmd, seekRequest, toNat_decimal hX, toNat_decimal hY]
  rfl

/-! ## The phases of the connection -/

/-- Once the `ioctl` has answered: a reply from the target on, or the way out. -/
def Answering (J : Journal Byte) (X Y : List Byte) (pos : Int) (w : Worker) : Prop :=
  match seekTarget J X Y with
  | some p => w.recvRet = some 0 ∧ Replying J ((content J).drop p) pos w
  | none => w.recvRet = some (-1) ∧ w.client = [] ∧
    ∃ todo, w.pc = .exit todo ∧ todo.count .unlock = 1

/-- What the client has in the end, and what `recv_messages` returned. -/
def Answered (J : Journal Byte) (X Y : List Byte) (client : List Byte) (recvRet : Option Int) :
    Prop :=
  match seekTarget J X Y with
  | some p => recvRet = some 0 ∧ client = (content J).drop p
  | none => recvRet = some (-1) ∧ client = []

/-- Until then: the connection holds the mutex, and its client has nothing. -/
def Asking (X Y : List Byte) (w : Worker) : Prop :=
  w.client = [] ∧
    match w.pc with
    | .open => True
    | .recv => True
    | .ioctl seekto size => seekto = seekRequest X Y ∧ size = (seekCommand X Y).length
    | _ => False

/-- A connection that does not hold the mutex has not begun, or has its answer. -/
def SeekIdle (J : Journal Byte) (X Y : List Byte) (w : Worker) : Prop :=
  Outside (fun client _ => client = []) (Answered J X Y) w

/-- The answer is there when the connection is on its way out. -/
theorem Answering.answered {J : Journal Byte} {X Y : List Byte} {pos : Int} {w : Worker}
    {todo : List ExitOp} (h : Answering J X Y pos w) (hpc : w.pc = .exit todo) :
    todo.count .unlock = 1 ∧ Answered J X Y w.client w.recvRet := by
  unfold Answering at h
  unfold Answered
  cases htarget : seekTarget J X Y with
  | none =>
    rw [htarget] at h
    obtain ⟨hret, hclient, rest, hrest, hcount⟩ := h
    obtain rfl := Pc.exit.inj (hpc.symm.trans hrest)
    exact ⟨hcount, hret, hclient⟩
  | some p =>
    rw [htarget] at h
    obtain ⟨hret, hreply⟩ := h
    obtain ⟨hclient, hcount⟩ := hreply.of_exit hpc
    exact ⟨hcount, hret, hclient⟩

theorem Answering.ret {J : Journal Byte} {X Y : List Byte} {pos : Int} {w : Worker}
    (h : Answering J X Y pos w) : ∃ ret, w.recvRet = some ret := by
  unfold Answering at h
  split at h
  · exact ⟨0, h.1⟩
  · exact ⟨-1, h.1⟩

/-- Where `recv_messages` returns, at most the reply is left. -/
theorem stepsLeft_afterPass (ret : Int) {rest total : Nat} (hle : rest ≤ total) :
    stepsLeft total rest (afterPass (some ret)) + 1 ≤ 2 * total + 12 := by
  by_cases hfails : ret = -1
  · have hpc : afterPass (some ret) = failed := if_pos hfails
    have hsteps : stepsLeft total rest failed = 5 := rfl
    rw [hpc, hsteps]
    omega
  · have hpc : afterPass (some ret) = .read := if_neg hfails
    rw [hpc, stepsLeft]
    omega

section SeekStep

variable {K : Kernel} {J : Journal Byte} {X Y : List Byte}
variable {t : Tid} {r : Shared} {w : Worker} {e : Event} {m : Move Shared Worker Op}

/-- A bound on the steps the connection has left. -/
def seekLeft (J : Journal Byte) (t : Tid) (r : Shared) (w : Worker) : Nat :=
  stepsLeft (content J).length (unread J (r.system.fPos t)) w.pc

/-- A refused request ends `recv_messages`. -/
theorem afterIoctl_einval (size : Nat) : afterIoctl (-Driver.EINVAL) size = some (-1) := by
  have hneg : libcRet (-Driver.EINVAL) < 0 := by decide
  rw [afterIoctl, if_pos hneg]

/-- A position that fits `int` ends it as well after a short command, but with success. -/
theorem afterIoctl_position {p size : Nat} (hp : p < 2 ^ 31) (hsize : size < BUFFER_SIZE) :
    afterIoctl p size = some 0 := by
  have hret : libcRet p = p := libcRet_of_lt hp
  rw [afterIoctl, hret, if_neg (by omega), loopGuard, if_neg (Nat.not_le.mpr hsize)]

/-- The connection has its answer ahead of it, whatever the device says to the request. -/
theorem answering_of_ioctl (hX : Numeral 9 X) (hY : Numeral 9 Y)
    (hsmall : (content J).length < 2 ^ 31) (hclient : w.client = []) {pos : Int} {next : Option Int}
    {res : Driver.SeekResult}
    (hres : Driver.absIoctl .calm J pos Driver.AESDCHAR_IOCSEEKTO (seekRequest X Y) = res)
    (hnext : afterIoctl res.ret (seekCommand X Y).length = next) :
    Answering J X Y res.fPos { w with pc := afterPass next, recvRet := next } := by
  have hsize := length_seekCommand_lt hX hY
  rw [absIoctl_seekRequest hX hY] at hres
  unfold Answering
  cases htarget : seekTarget J X Y with
  | none =>
    rw [htarget] at hres
    subst hres
    rw [afterIoctl_einval] at hnext
    subst hnext
    exact ⟨rfl, hclient, _, rfl, rfl⟩
  | some p =>
    rw [htarget] at hres
    subst hres
    have hlt := Driver.absSeekto_lt htarget
    rw [afterIoctl_position (by omega) hsize] at hnext
    subst hnext
    refine ⟨rfl, p, rfl, ?_⟩
    rw [hclient, List.nil_append]

/-- One step of the answer. -/
theorem answering_step (hJ : Stands K J r) (h : Answering J X Y (r.system.fPos t) w)
    (hev : Delivers (seekCommand X Y) e) (hact : connectionThread K t r w e = some m)
    (hlock : m.lock = .keep) :
    Stands K J m.shared ∧ Answering J X Y (m.shared.system.fPos t) m.own ∧
      seekLeft J t m.shared m.own + 1 ≤ seekLeft J t r w := by
  unfold Answering at h ⊢
  cases htarget : seekTarget J X Y with
  | none =>
    rw [htarget] at h
    obtain ⟨hret, hclient, todo, hpc, hcount⟩ := h
    obtain ⟨op, rest, rfl, hrest, hshared, hclient', hret', hpc'⟩ := eq_of_exit hact hlock hpc
    rw [seekLeft, seekLeft, hpc, hpc', hshared]
    exact ⟨hJ, ⟨hret'.trans hret, hclient'.trans hclient, rest, rfl, hrest.trans hcount⟩,
      Nat.le_refl _⟩
  | some p =>
    rw [htarget] at h
    obtain ⟨hret, hreply⟩ := h
    obtain ⟨hJ', ⟨-, -, hret'⟩, hreply', hless⟩ :=
      replying_step hJ hreply hev hact hlock (content J).length
    exact ⟨hJ', ⟨hret'.trans hret, hreply'⟩, hless⟩

/-- One step before the answer. -/
theorem asking_step (hX : Numeral 9 X) (hY : Numeral 9 Y) (hsmall : (content J).length < 2 ^ 31)
    (hJ : Stands K J r) (h : Asking X Y w) (hev : Delivers (seekCommand X Y) e)
    (hact : connectionThread K t r w e = some m) (hlock : m.lock = .keep) :
    Stands K J m.shared ∧
      (Asking X Y m.own ∨ Answering J X Y (m.shared.system.fPos t) m.own) ∧
      seekLeft J t m.shared m.own + 1 ≤ seekLeft J t r w := by
  obtain ⟨hclient, hphase⟩ := h
  cases connectionThread_cases hact with
  | begin hpc => rw [hpc] at hphase; exact hphase.elim
  | lock hpc => cases hlock
  | «open» hpc =>
    rw [seekLeft, seekLeft, hpc]
    refine ⟨hJ.openOutput t, .inl ⟨hclient, trivial⟩, ?_⟩
    show 2 * (content J).length + 13 + 1 ≤ 2 * (content J).length + 14
    exact Nat.le_refl _
  | openFails hpc => cases hev
  | recvEnds hpc hnext =>
    obtain ⟨c, rfl, hc⟩ := hev
    rw [afterRecv_seekCommand hX hY hc] at hnext
    cases hnext
  | recvWrite hpc hnext =>
    obtain ⟨c, rfl, hc⟩ := hev
    rw [afterRecv_seekCommand hX hY hc] at hnext
    cases hnext
  | recvIoctl hpc hnext =>
    obtain ⟨c, rfl, hc⟩ := hev
    rw [afterRecv_seekCommand hX hY hc] at hnext
    obtain ⟨rfl, rfl⟩ := RecvNext.ioctl.inj hnext
    rw [seekLeft, seekLeft, hpc]
    refine ⟨hJ, .inl ⟨hclient, rfl, rfl⟩, ?_⟩
    show 2 * (content J).length + 12 + 1 ≤ 2 * (content J).length + 13
    exact Nat.le_refl _
  | @ioctl seekto size hpc env m hm =>
    rw [hpc] at hphase
    obtain ⟨rfl, rfl⟩ := hphase
    obtain rfl : env = .calm := hev
    obtain ⟨system, heq, hfPos, hJ'⟩ := hJ.ioctlMove_eq t w .calm (seekRequest X Y)
      (seekCommand X Y).length
    -- what the device answers is looked at once, in `answering_of_ioctl`
    generalize hres : Driver.absIoctl .calm J (r.system.fPos t) Driver.AESDCHAR_IOCSEEKTO
      (seekRequest X Y) = res at heq hfPos
    obtain ⟨ret, hret⟩ : ∃ ret, afterIoctl res.ret (seekCommand X Y).length = some ret :=
      (answering_of_ioctl hX hY hsmall hclient hres rfl).ret
    have hanswer := answering_of_ioctl hX hY hsmall hclient hres hret
    rw [hret] at heq
    have heqm := Option.some.inj (hm.symm.trans heq)
    have hshared : m.shared = { r with system := system } := by rw [heqm]
    have hown : m.own = { w with pc := afterPass (some ret), recvRet := some ret } := by rw [heqm]
    have hpos : system.fPos t = res.fPos := by
      rw [hfPos, Driver.setPos, Function.update_self]
    rw [hshared, hown, seekLeft, seekLeft, hpc]
    refine ⟨hJ', .inr ?_, stepsLeft_afterPass ret (Nat.sub_le _ _)⟩
    show Answering J X Y (system.fPos t) _
    rw [hpos]
    exact hanswer
  | write hpc hm => rw [hpc] at hphase; exact hphase.elim
  | read hpc hm => rw [hpc] at hphase; exact hphase.elim
  | send hpc res => rw [hpc] at hphase; exact hphase.elim
  | exit hpc => rw [hpc] at hphase; exact hphase.elim

/-- In both phases the connection holds the mutex, and it never writes. -/
theorem Asking.quiet (h : Asking X Y w) : Quiet w := by
  obtain ⟨-, hphase⟩ := h
  split at hphase
  case h_1 hpc => rw [Quiet, hpc]; exact ⟨rfl, fun _ _ => Pc.noConfusion⟩
  case h_2 hpc => rw [Quiet, hpc]; exact ⟨rfl, fun _ _ => Pc.noConfusion⟩
  case h_3 hpc => rw [Quiet, hpc]; exact ⟨rfl, fun _ _ => Pc.noConfusion⟩
  case h_4 => exact hphase.elim

theorem Answering.quiet {pos : Int} (h : Answering J X Y pos w) : Quiet w := by
  unfold Answering at h
  split at h
  · exact h.2.quiet
  · -- refused: on the way out
    obtain ⟨-, -, todo, hpc, hcount⟩ := h
    rw [Quiet, hpc]
    exact ⟨hcount, fun _ _ => Pc.noConfusion⟩

end SeekStep

/-! ## The other connections -/

/-- What a connection receives is no text. -/
def NoText : Event → Prop
  | .received res oob => ∀ bytes size, afterRecv oob res ≠ .write bytes size
  | _ => True

instance decidableNoText : ∀ e, Decidable (NoText e)
  | .go => isTrue trivial
  | .opened _ => isTrue trivial
  | .received res oob =>
    match hnext : afterRecv oob res with
    | .ret _ => isTrue (by simp [NoText, hnext])
    | .ioctl _ _ => isTrue (by simp [NoText, hnext])
    | .write _ _ => isFalse (by simp [NoText, hnext])
  | .device _ => isTrue trivial
  | .sent _ => isTrue trivial

section Quiet

variable {K : Kernel} {J : Journal Byte}
variable {t : Tid} {r : Shared} {w : Worker} {e : Event} {m : Move Shared Worker Op}

/-- The steps of such a connection leave the journal. -/
theorem quiet_step (hJ : Stands K J r) (h : Quiet w) (hev : NoText e)
    (hact : connectionThread K t r w e = some m) (hlock : m.lock = .keep) :
    Stands K J m.shared ∧ Quiet m.own := by
  obtain ⟨hinside, hnot⟩ := h
  obtain ⟨hJ', -, -⟩ := frame_of_not_write hJ hact hnot
  refine ⟨hJ', (toUnlock_keep hact hlock).trans hinside, ?_⟩
  intro bytes size hown
  -- a write would have come from a text
  obtain ⟨res, oob, rfl, hnext⟩ := write_of_recv hact hown
  exact hev bytes size hnext

theorem noText_calmEvent (pc : Pc) : NoText (calmEvent .closed pc) := by
  cases pc with
  | recv => exact fun _ _ => RecvNext.noConfusion
  | begin => trivial
  | lock => trivial
  | «open» => trivial
  | ioctl seekto size => trivial
  | write bytes size => trivial
  | read => trivial
  | send bytesRead => trivial
  | exit todo => trivial

end Quiet

/-! ## The invariant -/

section Seeks

variable {K : Kernel} {J : Journal Byte} {X Y : List Byte} {t : Tid}

/-- Connection `t` delivers the command and meets no failure; no other connection writes. -/
def seekOk (X Y : List Byte) (t u : Tid) (_ : Shared) (_ : Worker) (e : Event) : Prop :=
  if u = t then Delivers (seekCommand X Y) e else NoText e

structure SeekHold (K : Kernel) (J : Journal Byte) (X Y : List Byte) (t u : Tid) (r : Shared)
    (w : Worker) : Prop where
  stands : Stands K J r
  mine : u = t → Asking X Y w ∨ Answering J X Y (r.system.fPos t) w
  other : u ≠ t → Quiet w

structure SeekOutside (J : Journal Byte) (X Y : List Byte) (t u : Tid) (_ : Shared) (w : Worker) :
    Prop where
  outside : toUnlock w.pc = 0
  mine : u = t → SeekIdle J X Y w

/-- The steps of `t` inside the mutex. -/
theorem seekHold_step (hX : Numeral 9 X) (hY : Numeral 9 Y) (hsmall : (content J).length < 2 ^ 31)
    {r : Shared} {w : Worker} {e : Event} {m : Move Shared Worker Op}
    (h : SeekHold K J X Y t t r w) (hok : seekOk X Y t t r w e)
    (hact : connectionThread K t r w e = some m) (hlock : m.lock = .keep) :
    SeekHold K J X Y t t m.shared m.own ∧
      seekLeft J t m.shared m.own + 1 ≤ seekLeft J t r w := by
  have hev : Delivers (seekCommand X Y) e := by rwa [seekOk, if_pos rfl] at hok
  rcases h.mine rfl with hasking | hanswering
  · obtain ⟨hJ', hphase, hless⟩ := asking_step hX hY hsmall h.stands hasking hev hact hlock
    exact ⟨⟨hJ', fun _ => hphase, fun hne => absurd rfl hne⟩, hless⟩
  · obtain ⟨hJ', hphase, hless⟩ := answering_step h.stands hanswering hev hact hlock
    exact ⟨⟨hJ', fun _ => .inr hphase, fun hne => absurd rfl hne⟩, hless⟩

/-- The connections keep to the monitor rule. -/
theorem seek_protocol (hX : Numeral 9 X) (hY : Numeral 9 Y) (hsmall : (content J).length < 2 ^ 31) :
    Protocol (connectionThread K) (seekOk X Y t) (Stands K J) (SeekHold K J X Y t)
      (SeekOutside J X Y t) := by
  refine { acquire := ?_, hold := ?_, release := ?_, idle := ?_, stable := ?_ }
  · intro u r w e m hJ hidle _ hact hlock
    obtain ⟨hpc, rfl⟩ := eq_of_acquire hact hlock
    refine ⟨hJ, fun hu => .inl ?_, fun _ => ⟨rfl, fun _ _ => Pc.noConfusion⟩⟩
    -- a connection that waits for the mutex has not begun
    have hmine := hidle.mine hu
    exact ⟨Outside.of_lock hmine hpc, trivial⟩
  · intro u r w e m hhold hok hact hlock
    by_cases hu : u = t
    · subst hu
      exact (seekHold_step hX hY hsmall hhold hok hact hlock).1
    · rw [seekOk, if_neg hu] at hok
      obtain ⟨hJ', hquiet⟩ := quiet_step hhold.stands (hhold.other hu) hok hact hlock
      exact ⟨hJ', fun heq => absurd heq hu, fun _ => hquiet⟩
  · intro u r w e m hhold _ hact hlock
    obtain ⟨todo, hpc, rfl⟩ := eq_of_release hact hlock
    by_cases hu : u = t
    · -- `t` gives the mutex back only with its answer
      rcases hhold.mine hu with ⟨-, hphase⟩ | hanswering
      · rw [hpc] at hphase
        exact hphase.elim
      · obtain ⟨hcount, hanswered⟩ := hanswering.answered hpc
        rw [List.count_cons_self] at hcount
        have hzero := Nat.succ.inj hcount
        exact ⟨hhold.stands, hzero, fun _ => ⟨hzero, hanswered⟩⟩
    · -- another connection has nothing to show
      have hcount := (hhold.other hu).1
      rw [hpc, toUnlock, List.count_cons_self] at hcount
      exact ⟨hhold.stands, Nat.succ.inj hcount, fun heq => absurd heq hu⟩
  · intro u r w e m hidle _ hact hlock
    obtain ⟨hshared, -⟩ := eq_of_outside hact hlock hidle.outside
    exact ⟨hshared, (toUnlock_keep hact hlock).trans hidle.outside,
      fun hu => ((hidle.mine hu).step hact hlock).2⟩
  · intro u r w e m v x _ hidle _ _ _
    exact ⟨hidle.outside, hidle.mine⟩

/-- A connection that has returned has its answer. -/
theorem answered_of_finished {s : State}
    (hs : Inv (Stands K J) (SeekHold K J X Y t) (SeekOutside J X Y t) s)
    (hfin : Finished (s.locals t)) : Answered J X Y (s.locals t).client (s.locals t).recvRet := by
  have hnot : s.owner ≠ some t := by
    intro howner
    rcases (hs.hold t howner).mine rfl with ⟨-, hphase⟩ | hanswering
    · rw [hfin] at hphase
      exact hphase
    · have hcount := (hanswering.answered hfin).1
      cases hcount
  have hmine := (hs.idle t hnot).mine rfl
  exact (Outside.of_exit hmine hfin).2

/-- Every step of `t` brings it nearer to its end. -/
theorem seekLeft_step (hX : Numeral 9 X) (hY : Numeral 9 Y) (hsmall : (content J).length < 2 ^ 31)
    {r : Shared} {w : Worker} {e : Event} {m : Move Shared Worker Op}
    (h : SeekHold K J X Y t t r w ∨ SeekOutside J X Y t t r w) (hok : seekOk X Y t t r w e)
    (hact : connectionThread K t r w e = some m) :
    seekLeft J t m.shared m.own + 1 ≤ seekLeft J t r w := by
  by_cases hin : m.lock = .keep ∧ SeekHold K J X Y t t r w
  · exact (seekHold_step hX hY hsmall hin.2 hok hact hin.1).2
  · apply stepsLeft_of_lock hact
    intro hlock
    rcases h with hhold | hidle
    · exact absurd ⟨hlock, hhold⟩ hin
    · exact hidle.outside

/-- A holder of the mutex, be it `t` or not, does not write. -/
theorem SeekHold.quiet {u : Tid} {r : Shared} {w : Worker} (h : SeekHold K J X Y t u r w) :
    Quiet w := by
  by_cases hu : u = t
  · rcases h.mine hu with hasking | hanswering
    · exact hasking.quiet
    · exact hanswering.quiet
  · exact h.other hu

/-- As long as `t` has not returned, it or the holder of the mutex can take a step. -/
theorem seek_progress (hX : Numeral 9 X) (hY : Numeral 9 Y) {s : State}
    (hs : Inv (Stands K J) (SeekHold K J X Y t) (SeekOutside J X Y t) s)
    (hleft : ¬ Finished (s.locals t)) :
    ∃ x : Tid × Event, (x.1 = t ∨ s.owner = some x.1) ∧ sysOk (seekOk X Y t) s x ∧
      (step K s x).isSome = true := by
  refine hs.progress Finished ?_ ?_ hleft
  · intro u r w hhold
    obtain ⟨hinside, hquiet⟩ := hhold.quiet
    have hgo := calm_of_inside (t := u) hhold.stands hinside
      (fun bytes size hpc => absurd hpc (hquiet bytes size))
    by_cases hu : u = t
    · obtain ⟨m, hact, hlock⟩ := hgo (.chunk (seekChunk hX hY))
      refine ⟨_, m, ?_, hact, hlock⟩
      rw [seekOk, if_pos hu]
      exact delivers_calmEvent (seekChunk hX hY) w.pc
    · obtain ⟨m, hact, hlock⟩ := hgo .closed
      refine ⟨_, m, ?_, hact, hlock⟩
      rw [seekOk, if_neg hu]
      exact noText_calmEvent w.pc
  · intro r w hidle hnot
    obtain ⟨m, hact, hlock⟩ := go_of_outside K t r hidle.outside hnot
    refine ⟨.go, m, ?_, hact, hlock⟩
    rw [seekOk, if_pos rfl]
    trivial

end Seeks

/-! ## What the client sees -/

/-- The pair points at a byte: there is an entry `x`, and it has a byte `y`. -/
def PointsAt (texts : List (List Byte)) (x y : Nat) : Prop :=
  ∃ text, texts[x]? = some text ∧ y < text.length

/-- The entries, from byte `y` of entry `x` through the end. -/
def bytesFrom (texts : List (List Byte)) (x y : Nat) : List Byte :=
  texts.flatten.drop ((texts.take x).flatten.length + y)

theorem absSeekto_of_pointsAt {J : Journal Byte} {x y : Nat} (h : PointsAt (committed J) x y) :
    Driver.absSeekto J x y = some (((committed J).take x).flatten.length + y) := by
  obtain ⟨text, hget, hlt⟩ := h
  rw [Driver.absSeekto, hget]
  exact if_neg (Nat.not_le.mpr hlt)

theorem absSeekto_of_not_pointsAt {J : Journal Byte} {x y : Nat}
    (h : ¬ PointsAt (committed J) x y) : Driver.absSeekto J x y = none := by
  rw [Driver.absSeekto]
  cases hget : (committed J)[x]? with
  | none => rfl
  | some text =>
    by_cases hle : text.length ≤ y
    · exact if_pos hle
    · exact absurd ⟨text, hget, Nat.not_le.mp hle⟩ h

/-- What becomes of a connection that sends `AESDCHAR_IOCSEEKTO:X,Y` to a device with
    these entries. -/
structure SeekAnswer (texts : List (List Byte)) (X Y : List Byte) (w : Worker) : Prop where
  in_range : PointsAt texts (decimal X) (decimal Y) →
    w.recvRet = some 0 ∧ w.client = bytesFrom texts (decimal X) (decimal Y)
  out_of_range : ¬ PointsAt texts (decimal X) (decimal Y) → w.recvRet = some (-1) ∧ w.client = []

theorem Answered.seekAnswer {J : Journal Byte} {X Y : List Byte} {w : Worker}
    (h : Answered J X Y w.client w.recvRet) : SeekAnswer (committed J) X Y w := by
  unfold Answered seekTarget at h
  refine ⟨?_, ?_⟩
  · intro hin
    rw [absSeekto_of_pointsAt hin] at h
    exact h
  · intro hout
    rw [absSeekto_of_not_pointsAt hout] at h
    exact h

/-- Nobody has started. -/
theorem seek_start {K : Kernel} {J : Journal Byte} (X Y : List Byte) (t : Tid) {shared : Shared}
    (hJ : Stands K J shared) (stack : Tid → List Byte) :
    Inv (Stands K J) (SeekHold K J X Y t) (SeekOutside J X Y t) (State.start shared stack) :=
  { idle := fun _ _ => ⟨rfl, fun _ => rfl⟩
    free := fun _ => hJ
    hold := fun _ hown => absurd hown (by simp [State.start]) }

/-- In every state of a run the device stands for the journal it stood for. -/
theorem stands_of_inv {K : Kernel} {J : Journal Byte} {X Y : List Byte} {t : Tid} {s : State}
    (hs : Inv (Stands K J) (SeekHold K J X Y t) (SeekOutside J X Y t) s) : Stands K J s.shared := by
  cases howner : s.owner with
  | none => exact hs.free howner
  | some u => exact (hs.hold u howner).stands

/-- Ten blocks of `kmalloc` do not hold more than an `int` counts. -/
theorem texts_small {K : Kernel} (hK : 10 * K.kmallocMax < 2 ^ 31) {calls : List Driver.Call}
    {answers : List Driver.Answer} {system : Driver.System}
    (hreach : run (Driver.step K) .init calls = some (answers, system)) (texts : List (List Byte))
    (htexts : Driver.committedTexts system.driver = some texts) :
    texts.flatten.length < 2 ^ 31 := by
  obtain ⟨-, -, hrep⟩ := Driver.run_refines hreach
  obtain ⟨hcommitted, -, -⟩ := hrep.driver.texts
  obtain rfl := Option.some.inj (hcommitted.symm.trans htexts)
  obtain ⟨es, ws, hat⟩ := hrep.driver
  exact Nat.lt_of_le_of_lt hat.content_le hK

/-- On a device with any history and no more text in its entries than an `int` counts (with
    the usual `kmalloc` there never is, `texts_small`), a connection `t` that delivers one
    seek command, among any number of connections that do not write, in any interleaving.
    The entries and the pending text stay as they are; if the command points outside them
    the `ioctl` fails; when `t` has returned it has its answer; and it does return: it takes a
    bounded number of steps, and until then it or the holder of the mutex can step. -/
theorem seekCommand_served {K : Kernel} {calls : List Driver.Call}
    {answers : List Driver.Answer} {system : Driver.System}
    (hreach : run (Driver.step K) .init calls = some (answers, system))
    (hsmall : ∀ texts, Driver.committedTexts system.driver = some texts →
      texts.flatten.length < 2 ^ 31) {X Y : List Byte}
    (hX : Numeral 9 X) (hY : Numeral 9 Y) (t : Tid) {origin : Journal (Byte × Tid)}
    {order : List Tid} {stack : Tid → List Byte} {events : List (Tid × Event)}
    {outs : List (Tid × Op)} {s : State}
    (hrun : run (step K) (.start ⟨system, origin, order⟩ stack) events = some (outs, s))
    (hok : Meets (step K) (sysOk (seekOk X Y t)) (.start ⟨system, origin, order⟩ stack) events) :
    ∃ texts pending,
      (Driver.committedTexts system.driver = some texts ∧
        Driver.pendingText system.driver = some pending) ∧
      (Driver.committedTexts s.shared.system.driver = some texts ∧
        Driver.pendingText s.shared.system.driver = some pending) ∧
      (¬ PointsAt texts (decimal X) (decimal Y) → ∀ pos,
        (Driver.aesdUnlockedIoctl .calm s.shared.system.driver pos Driver.AESDCHAR_IOCSEEKTO
          (seekRequest X Y)).map (fun x => x.1.ret) = some (-Driver.EINVAL)) ∧
      (Finished (s.locals t) → SeekAnswer texts X Y (s.locals t)) ∧
      events.countP (fun x => decide (x.1 = t)) ≤ 2 * texts.flatten.length + 16 ∧
      (¬ Finished (s.locals t) → ∃ x : Tid × Event, (x.1 = t ∨ s.owner = some x.1) ∧
        sysOk (seekOk X Y t) s x ∧ (step K s x).isSome = true) := by
  obtain ⟨-, -, hrep⟩ := Driver.run_refines hreach
  have hJ : Stands K (Driver.absAfter K calls).journal ⟨system, origin, order⟩ := by
    rw [Stands, hrep.fPos_eq]
    exact hrep
  -- from here on the history of the device does not matter
  generalize (Driver.absAfter K calls).journal = J at hJ
  obtain ⟨htexts, hpending, -⟩ := hJ.driver.texts
  have hint : (content J).length < 2 ^ 31 := hsmall (committed J) htexts
  have hinit := seek_start X Y t hJ stack
  have hs := (seek_protocol hX hY hint).inv_run hinit hrun hok
  have hJ' := stands_of_inv hs
  obtain ⟨htexts', hpending', -⟩ := hJ'.driver.texts
  refine ⟨committed J, J.pending, ⟨htexts, hpending⟩, ⟨htexts', hpending'⟩, ?_, ?_, ?_,
    seek_progress hX hY hs⟩
  · intro hout pos
    have htarget : seekTarget J X Y = none := absSeekto_of_not_pointsAt hout
    rw [Driver.aesdUnlockedIoctl_refines .calm hJ'.driver, absIoctl_seekRequest hX hY, htarget]
    rfl
  · intro hfin
    exact (answered_of_finished hs hfin).seekAnswer
  · have hcount := (seek_protocol hX hY hint).count_le (t := t) (μ := seekLeft J t)
      (fun r w e m h hone hact => seekLeft_step hX hY hint h hone hact)
      (fun r w r' h => stepsLeft_outside h.outside _ _ _) hinit hrun hok
    exact Nat.le_trans (Nat.le_add_left _ _) hcount

/-- `ab` and a newline, then the start of another line. -/
def lineAndStart : List Driver.Call :=
  [⟨.write 5 (Driver.vfsBuf [97, 98, newline]), .calm⟩, ⟨.write 5 (Driver.vfsBuf [99]), .calm⟩]

theorem zero_numeral : Numeral 9 [48] :=
  ⟨List.all_eq_true.mp rfl, List.cons_ne_nil _ _, by decide⟩

theorem zeroOne_numeral : Numeral 9 [48, 49] :=
  ⟨List.all_eq_true.mp rfl, List.cons_ne_nil _ _, by decide⟩

theorem three_numeral : Numeral 9 [51] :=
  ⟨List.all_eq_true.mp rfl, List.cons_ne_nil _ _, by decide⟩

theorem lineAndStart_isSome : (run (Driver.step .page) .init lineAndStart).isSome = true := by
  decide

/-- A server on the device that those calls leave. -/
def lineAndStartServer : State :=
  .start ⟨((run (Driver.step .page) .init lineAndStart).get lineAndStart_isSome).2, .empty, []⟩
    fun _ => []

/-- Connection 0 asks for byte `01` of entry `0`; connection 1 has hung up. -/
def seekOne : List (Tid × Event) :=
  [(1, .go), (0, .go), (0, .go), (0, .opened true),
    (0, .received (.chunk (seekChunk zero_numeral zeroOne_numeral)) none), (0, .device .calm),
    (0, .device .calm), (0, .sent (.short 0)), (0, .device .calm), (0, .sent (.short 0)), (0, .go),
    (0, .go), (1, .go), (0, .go), (1, .opened true), (1, .received .closed none), (0, .go),
    (0, .go)]

/-- Connection 0 asks for byte `3` of entry `0`, which has the bytes 0 to 2. -/
def seekPast : List (Tid × Event) :=
  [(0, .go), (0, .go), (0, .opened true),
    (0, .received (.chunk (seekChunk zero_numeral three_numeral)) none), (0, .device .calm),
    (0, .go), (0, .go), (0, .go), (0, .go), (0, .go)]

theorem seekOne_served :
    (∃ outs s, run (step .page) lineAndStartServer seekOne = some (outs, s) ∧
      (s.locals 0).recvRet = some 0 ∧ (s.locals 0).client = [98, newline]) ∧
      ∃ outs s, run (step .page) lineAndStartServer seekPast = some (outs, s) ∧
        (s.locals 0).recvRet = some (-1) ∧ (s.locals 0).client = [] := by
  have hreach := (Option.some_get lineAndStart_isSome).symm
  have hsmall := texts_small (by decide) hreach
  have htexts : Driver.committedTexts lineAndStartServer.shared.system.driver =
      some [[97, 98, newline]] := by decide
  refine ⟨?_, ?_⟩
  · have hmap : (run (step .page) lineAndStartServer seekOne).map (fun x => (x.2.locals 0).pc) =
        some (.exit []) := by decide
    have hok : Meets (step .page) (sysOk (seekOk [48] [48, 49] 0)) lineAndStartServer seekOne := by
      unfold sysOk seekOk
      decide
    obtain ⟨⟨outs, s⟩, hrun, hfin⟩ := Option.map_eq_some_iff.mp hmap
    obtain ⟨texts, pending, ⟨htexts', -⟩, -, -, hanswer, -, -⟩ :=
      seekCommand_served hreach hsmall zero_numeral zeroOne_numeral 0 hrun hok
    obtain rfl := Option.some.inj (htexts.symm.trans htexts')
    exact ⟨outs, s, hrun, (hanswer hfin).in_range ⟨[97, 98, newline], rfl, by decide⟩⟩
  · have hmap : (run (step .page) lineAndStartServer seekPast).map (fun x => (x.2.locals 0).pc) =
        some (.exit []) := by decide
    have hok : Meets (step .page) (sysOk (seekOk [48] [51] 0)) lineAndStartServer seekPast := by
      unfold sysOk seekOk
      decide
    obtain ⟨⟨outs, s⟩, hrun, hfin⟩ := Option.map_eq_some_iff.mp hmap
    obtain ⟨texts, pending, ⟨htexts', -⟩, -, -, hanswer, -, -⟩ :=
      seekCommand_served hreach hsmall zero_numeral three_numeral 0 hrun hok
    obtain rfl := Option.some.inj (htexts.symm.trans htexts')
    have hpast : ¬ PointsAt [[97, 98, newline]] (decimal [48]) (decimal [51]) := by
      rintro ⟨text, hget, hlt⟩
      obtain rfl := Option.some.inj hget
      exact absurd hlt (by decide)
    exact ⟨outs, s, hrun, (hanswer hfin).out_of_range hpast⟩

end Aesd.Server
