/-
  Aesd.Server.Reply

  The second half of a connection, `send_messages`, when nothing fails: what
  the client has got, what is in the buffer and what is still to be read make
  up the goal all the time, so the client has the goal when the loop ends.  It
  ends because every read that returns anything brings the position forward;
  `stepsLeft` counts down over the whole connection.
-/
import Aesd.Server.Device

namespace Aesd.Server

open Aesd.Lib
open Aesd.Lib.Monitor (LockOp Move)
open Aesd.Driver (Byte newline isNewline Kernel CallEnv AesdSeekto content visible)

/-! ## Undisturbed connections -/

/-- Nothing fails, every `send` accepts all it is offered, and `recv` delivers
    the whole message at once. -/
def Delivers (msg : List Byte) : Event → Prop
  | .go => True
  | .opened ok => ok = true
  | .received res _ => ∃ c : Chunk, res = .chunk c ∧ c.val = msg
  | .device env => env = .calm
  | .sent res => res = .short 0

instance decidableDelivers (msg : List Byte) : ∀ e, Decidable (Delivers msg e)
  | .go => isTrue trivial
  | .opened ok => inferInstanceAs (Decidable (ok = true))
  | .received (.chunk c) _ => decidable_of_iff (c.val = msg) (by simp [Delivers])
  | .received .closed _ => isFalse (by simp [Delivers])
  | .received .error _ => isFalse (by simp [Delivers])
  | .device env => inferInstanceAs (Decidable (env = .calm))
  | .sent .error => isFalse (by simp [Delivers])
  | .sent (.short unsent) => decidable_of_iff (unsent = 0) (by simp [Delivers])

/-- What happens next if nothing fails, and `recv` answers `res`. -/
def calmEvent (res : RecvResult) : Pc → Event
  | .open => .opened true
  | .recv => .received res none
  | .ioctl _ _ => .device .calm
  | .write _ _ => .device .calm
  | .read => .device .calm
  | .send _ => .sent (.short 0)
  | _ => .go

theorem delivers_calmEvent (c : Chunk) (pc : Pc) : Delivers c.val (calmEvent (.chunk c) pc) := by
  cases pc with
  | recv => exact ⟨c, rfl, rfl⟩
  | begin => trivial
  | lock => trivial
  | «open» => rfl
  | ioctl seekto size => rfl
  | write bytes size => rfl
  | read => rfl
  | send bytesRead => rfl
  | exit todo => trivial

/-- A connection that holds the mutex and is not about to write. -/
def Quiet (w : Worker) : Prop := toUnlock w.pc = 1 ∧ ∀ bytes size, w.pc ≠ .write bytes size

/-- A connection that holds the mutex can always go on. -/
theorem calm_of_inside {K : Kernel} {J : Journal Byte} {t : Tid} {r : Shared} {w : Worker}
    (hJ : Stands K J r) (hinside : toUnlock w.pc = 1)
    (hwrite : ∀ bytes size, w.pc = .write bytes size → bytes ≠ [] ∧ bytes.length ≤ BUFFER_SIZE)
    (res : RecvResult) :
    ∃ m, connectionThread K t r w (calmEvent res w.pc) = some m ∧ m.lock ≠ .acquire := by
  have hgo : ∃ m, connectionThread K t r w (calmEvent res w.pc) = some m := by
    unfold connectionThread
    cases hpc : w.pc with
    | begin => rw [hpc] at hinside; cases hinside
    | lock => rw [hpc] at hinside; cases hinside
    | «open» => exact ⟨_, rfl⟩
    | recv => exact ⟨_, rfl⟩
    | ioctl seekto size =>
      obtain ⟨system, heq, -⟩ := hJ.ioctlMove_eq t w .calm seekto size
      exact ⟨_, heq⟩
    | write bytes size =>
      obtain ⟨hne, hle⟩ := hwrite bytes size hpc
      obtain ⟨-, system, hstep, -⟩ := hJ.write_eq t .calm hne hle
      show ∃ m, writeMove K t r w .calm bytes size = some m
      rw [writeMove, hstep]
      exact ⟨_, rfl⟩
    | read =>
      obtain ⟨system, heq, -⟩ := hJ.readMove_eq t w .calm
      exact ⟨_, heq⟩
    | send bytesRead => exact ⟨_, rfl⟩
    | exit todo =>
      cases todo with
      | nil => rw [hpc] at hinside; cases hinside
      | cons op todo => exact ⟨_, rfl⟩
  obtain ⟨m, hact⟩ := hgo
  refine ⟨m, hact, fun hacq => ?_⟩
  -- the mutex is not taken twice
  rw [(eq_of_acquire hact hacq).1] at hinside
  cases hinside

/-! ## Outside the mutex -/

/-- A connection that has yet to take the mutex, or has given it back, with a
    condition for each on what its client got and `recv_messages` returned. -/
def Outside (before after : List Byte → Option Int → Prop) (w : Worker) : Prop :=
  match w.pc with
  | .begin => before w.client w.recvRet
  | .lock => before w.client w.recvRet
  | .exit todo => todo.count .unlock = 0 ∧ after w.client w.recvRet
  | _ => False

section Outside

variable {before after before' after' : List Byte → Option Int → Prop} {w : Worker}

theorem Outside.outside (h : Outside before after w) : toUnlock w.pc = 0 := by
  unfold Outside at h
  split at h
  case h_1 hpc => rw [hpc]; rfl
  case h_2 hpc => rw [hpc]; rfl
  case h_3 todo hpc => rw [hpc]; exact h.1
  case h_4 => exact h.elim

theorem Outside.imp (h : Outside before after w) (hbefore : ∀ c x, before c x → before' c x)
    (hafter : ∀ c x, after c x → after' c x) : Outside before' after' w := by
  unfold Outside at h ⊢
  split at h
  case h_1 hpc => exact hbefore _ _ h
  case h_2 hpc => exact hbefore _ _ h
  case h_3 todo hpc => exact ⟨h.1, hafter _ _ h.2⟩
  case h_4 => exact h.elim

theorem Outside.of_lock (h : Outside before after w) (hpc : w.pc = .lock) :
    before w.client w.recvRet := by
  rw [Outside, hpc] at h
  exact h

theorem Outside.of_exit (h : Outside before after w) {todo : List ExitOp}
    (hpc : w.pc = .exit todo) : todo.count .unlock = 0 ∧ after w.client w.recvRet := by
  rw [Outside, hpc] at h
  exact h

/-- Its own steps keep it so. -/
theorem Outside.step {K : Kernel} {t : Tid} {r : Shared} {e : Event} {m : Move Shared Worker Op}
    (h : Outside before after w) (hact : connectionThread K t r w e = some m)
    (hlock : m.lock = .keep) : m.shared = r ∧ Outside before after m.own := by
  have hcount := (toUnlock_keep hact hlock).trans h.outside
  obtain ⟨hshared, hclient, hret, hplace⟩ := eq_of_outside hact hlock h.outside
  refine ⟨hshared, ?_⟩
  unfold Outside at h ⊢
  rw [hclient, hret]
  rcases hplace with ⟨hpc, hpc'⟩ | ⟨op, todo, hpc, hpc'⟩
  · rw [hpc] at h
    rw [hpc']
    exact h
  · rw [hpc] at h
    rw [hpc'] at hcount ⊢
    exact ⟨hcount, h.2⟩

end Outside

/-! ## The reply loop -/

/-- A connection that is replying, or has replied and still holds the mutex: the
    text `goal` is what the client has, then what is buffered, then the readable
    bytes from position `pos` on. -/
def Replying (J : Journal Byte) (goal : List Byte) (pos : Int) (w : Worker) : Prop :=
  match w.pc with
  | .read => ∃ p : Nat, pos = p ∧ w.client ++ (content J).drop p = goal
  | .send bytesRead =>
    ∃ p : Nat, pos = p ∧ w.client ++ w.sendBuffer.take bytesRead ++ (content J).drop p = goal ∧
      (bytesRead = 0 → (content J).length ≤ p)
  | .exit todo => w.client = goal ∧ todo.count .unlock = 1
  | _ => False

/-- How many readable bytes a file at position `pos` has not read. -/
def unread (J : Journal Byte) (pos : Int) : Nat := (content J).length - pos.toNat

/-- A bound on the steps a connection has left, with `rest` bytes unread; `total`
    bounds the bytes unread when it starts to reply. -/
def stepsLeft (total rest : Nat) : Pc → Nat
  | .begin => 2 * total + 16
  | .lock => 2 * total + 15
  | .open => 2 * total + 14
  | .recv => 2 * total + 13
  | .ioctl _ _ => 2 * total + 12
  | .write _ _ => 2 * total + 12
  | .read => 2 * rest + 8
  | .send bytesRead => if bytesRead = 0 then 6 else 2 * rest + 9
  | .exit todo => todo.length

/-- A calm read of the buffer's size, and what it leaves unread. -/
theorem absRead_calm (J : Journal Byte) (p : Nat) :
    ∃ data, Driver.absRead .calm J BUFFER_SIZE p = ⟨data.length, data, p + data.length⟩ ∧
      (content J).drop p = data ++ (content J).drop (p + data.length) ∧
      (data.length = 0 ↔ (content J).length ≤ p) ∧ data.length ≤ BUFFER_SIZE := by
  have hcalm : CallEnv.calm.interrupted = false := rfl
  have hread := Driver.absRead_of_copied (J := J) BUFFER_SIZE p hcalm (Nat.zero_min _)
  rw [Int.toNat_natCast] at hread
  obtain ⟨later, hlater⟩ := Driver.visible_append J p
  refine ⟨_, hread, ?_, ?_, ?_⟩
  · -- the rest of the entry that holds `p`, cut at the size of the buffer
    rw [← List.drop_drop, hlater, List.drop_append, List.length_take]
    by_cases hle : (visible J p).length ≤ BUFFER_SIZE
    · rw [List.take_of_length_le hle, Nat.min_eq_right hle, List.drop_length, Nat.sub_self,
        List.nil_append, List.drop_zero]
    · rw [Nat.min_eq_left (by omega), show BUFFER_SIZE - (visible J p).length = 0 by omega,
        List.drop_zero, ← List.append_assoc, List.take_append_drop]
  · rw [← Driver.visible_eq_nil_iff, List.length_take, ← List.length_eq_zero_iff]
    have hbuf : 0 < BUFFER_SIZE := by decide
    omega
  · rw [List.length_take]
    omega

/-- A read that went well is followed by a `send` of what it delivered. -/
theorem onRead_length {data : List Byte} (h : data.length ≤ BUFFER_SIZE) :
    onRead data.length = .send data.length := by
  have hbuf : BUFFER_SIZE = 1024 := rfl
  have hret : libcRet data.length = data.length := libcRet_of_lt (by omega)
  rw [onRead, hret, if_neg (by omega), Int.toNat_natCast]

/-- Outside the mutex the number of steps left is a matter of the place alone. -/
theorem stepsLeft_outside {pc : Pc} (h : toUnlock pc = 0) (total rest rest' : Nat) :
    stepsLeft total rest pc = stepsLeft total rest' pc := by
  cases pc <;> first | rfl | cases h

/-- A step that takes or gives back the mutex, or is made outside it, brings the
    connection nearer to its end. -/
theorem stepsLeft_of_lock {K : Kernel} {t : Tid} {r : Shared} {w : Worker} {e : Event}
    {m : Move Shared Worker Op} (hact : connectionThread K t r w e = some m)
    (hkeep : m.lock = .keep → toUnlock w.pc = 0) (total rest rest' : Nat) :
    stepsLeft total rest' m.own.pc + 1 ≤ stepsLeft total rest w.pc := by
  cases hlock : m.lock with
  | acquire =>
    obtain ⟨hpc, rfl⟩ := eq_of_acquire hact hlock
    rw [hpc]
    show 2 * total + 14 + 1 ≤ 2 * total + 15
    exact Nat.le_refl _
  | release =>
    obtain ⟨todo, hpc, rfl⟩ := eq_of_release hact hlock
    rw [hpc]
    show todo.length + 1 ≤ (ExitOp.unlock :: todo).length
    exact Nat.le_refl _
  | keep =>
    obtain ⟨-, -, -, ⟨hpc, hpc'⟩ | ⟨op, todo, hpc, hpc'⟩⟩ :=
      eq_of_outside hact hlock (hkeep hlock)
    · rw [hpc, hpc']
      show 2 * total + 15 + 1 ≤ 2 * total + 16
      exact Nat.le_refl _
    · rw [hpc, hpc']
      show todo.length + 1 ≤ (op :: todo).length
      exact Nat.le_refl _

section ReplyStep

variable {K : Kernel} {t : Tid} {r : Shared} {w : Worker} {e : Event} {m : Move Shared Worker Op}
variable {J : Journal Byte} {goal : List Byte}

/-- One step of the reply: the goal stays, the device stays, and less is left to do. -/
theorem replying_step (hJ : Stands K J r) (h : Replying J goal (r.system.fPos t) w)
    {msg : List Byte} (hev : Delivers msg e) (hact : connectionThread K t r w e = some m)
    (hlock : m.lock = .keep) (total : Nat) :
    Stands K J m.shared ∧
      (m.shared.origin = r.origin ∧ m.shared.order = r.order ∧ m.own.recvRet = w.recvRet) ∧
      Replying J goal (m.shared.system.fPos t) m.own ∧
      stepsLeft total (unread J (m.shared.system.fPos t)) m.own.pc + 1 ≤
        stepsLeft total (unread J (r.system.fPos t)) w.pc := by
  unfold Replying at h
  cases connectionThread_cases hact with
  | begin hpc => rw [hpc] at h; exact h.elim
  | lock hpc => cases hlock
  | «open» hpc => rw [hpc] at h; exact h.elim
  | openFails hpc => rw [hpc] at h; exact h.elim
  | recvEnds hpc hnext => rw [hpc] at h; exact h.elim
  | recvIoctl hpc hnext => rw [hpc] at h; exact h.elim
  | recvWrite hpc hnext => rw [hpc] at h; exact h.elim
  | ioctl hpc hm => rw [hpc] at h; exact h.elim
  | write hpc hm => rw [hpc] at h; exact h.elim
  | read hpc hm =>
    rw [hpc] at h
    obtain ⟨p, hp, hgoal⟩ := h
    obtain rfl : _ = CallEnv.calm := hev
    obtain ⟨system, heq, hfPos, hJ'⟩ := hJ.readMove_eq t w .calm
    have heqm := Option.some.inj (hm.symm.trans heq)
    obtain ⟨data, hread, hdrop, hzero, hle⟩ := absRead_calm J p
    rw [hp, hread] at hfPos heqm
    -- what the read does to the thread and to the position of its file
    have hshared : m.shared = { r with system := system } := by rw [heqm]
    have hown : m.own = { w with
        pc := .send data.length
        sendBuffer := data ++ w.sendBuffer.drop data.length } := by
      rw [heqm, ← onRead_length hle]
    have hpos : system.fPos t = ((p + data.length : Nat) : Int) := by
      rw [hfPos, Driver.setPos, Function.update_self]
      exact (Int.natCast_add p data.length).symm
    have hunread : unread J (r.system.fPos t) = (content J).length - p := by
      rw [unread, hp, Int.toNat_natCast]
    have hunread' : unread J (system.fPos t) = (content J).length - (p + data.length) := by
      rw [unread, hpos, Int.toNat_natCast]
    rw [hshared, hown, hpc, hunread, hunread']
    refine ⟨hJ', ⟨rfl, rfl, rfl⟩, ⟨p + data.length, hpos, ?_, fun h0 => ?_⟩, ?_⟩
    · rw [List.take_left, List.append_assoc, ← hdrop, hgoal]
    · have hend := hzero.mp h0
      omega
    · -- the read took at least one byte, unless it was the last one
      rw [stepsLeft, stepsLeft]
      by_cases h0 : data.length = 0
      · rw [if_pos h0]
        omega
      · have hinside := hzero.not.mp h0
        rw [if_neg h0]
        omega
  | @send bytesRead hpc res =>
    rw [hpc] at h
    -- all of the buffer moves to the client
    obtain ⟨p, hp, hgoal, hlast⟩ := h
    obtain rfl : res = .short 0 := hev
    have haccept : SendResult.accepted (w.sendBuffer.take bytesRead) (.short 0) =
        w.sendBuffer.take bytesRead := List.take_of_length_le (Nat.le_refl _)
    have hclient : (sendMove r w (.short 0) bytesRead).own.client =
        w.client ++ w.sendBuffer.take bytesRead := by
      rw [sendMove, haccept]
    have hshared : (sendMove r w (.short 0) bytesRead).shared = r := rfl
    rw [hshared]
    refine ⟨hJ, ⟨rfl, rfl, rfl⟩, ?_, ?_⟩
    · unfold Replying
      by_cases h0 : 0 < bytesRead
      · have hnext : (sendMove r w (.short 0) bytesRead).own.pc = .read := if_pos h0
        rw [hnext, hclient]
        exact ⟨p, hp, hgoal⟩
      · have hnext : (sendMove r w (.short 0) bytesRead).own.pc = succeeded := if_neg h0
        -- nothing was read, so nothing is left and the client has the goal
        have hend := hlast (by omega)
        rw [List.drop_of_length_le hend, List.append_nil] at hgoal
        rw [hnext, hclient]
        exact ⟨hgoal, rfl⟩
    · rw [hpc]
      by_cases h0 : 0 < bytesRead
      · have hnext : (sendMove r w (.short 0) bytesRead).own.pc = .read := if_pos h0
        rw [hnext, stepsLeft, stepsLeft, if_neg (by omega)]
      · have hnext : (sendMove r w (.short 0) bytesRead).own.pc = succeeded := if_neg h0
        rw [hnext, stepsLeft, if_pos (by omega)]
        exact Nat.le_refl _
  -- the client has the goal; the way out touches none of it
  | @exit op todo hpc =>
    obtain ⟨_, rest, heq, hcount, hshared, hclient, hret, hown⟩ := eq_of_exit hact hlock hpc
    obtain ⟨rfl, rfl⟩ := List.cons.inj heq
    rw [hpc] at h ⊢
    unfold Replying
    rw [hown, hshared, hclient, hret]
    exact ⟨hJ, ⟨rfl, rfl, rfl⟩, ⟨h.1, hcount.trans h.2⟩, Nat.le_refl _⟩

theorem Replying.of_exit {pos : Int} (h : Replying J goal pos w) {todo : List ExitOp}
    (hpc : w.pc = .exit todo) : w.client = goal ∧ todo.count .unlock = 1 := by
  rw [Replying, hpc] at h
  exact h

theorem Replying.quiet {pos : Int} (h : Replying J goal pos w) : Quiet w := by
  unfold Replying at h
  split at h
  case h_1 hpc => rw [Quiet, hpc]; exact ⟨rfl, fun _ _ => Pc.noConfusion⟩
  case h_2 hpc => rw [Quiet, hpc]; exact ⟨rfl, fun _ _ => Pc.noConfusion⟩
  case h_3 hpc => rw [Quiet, hpc]; exact ⟨h.2, fun _ _ => Pc.noConfusion⟩
  case h_4 => exact h.elim

end ReplyStep

end Aesd.Server
