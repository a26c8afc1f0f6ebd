/-
  Aesd.Server.Serial

  Connections that each send one line, whole and undisturbed, are served as if
  one after the other, in the order in which they acquired `file_mutex`: the
  device ends up with the last ten lines in that order, and each client gets
  the last ten up to and including its own.

  `served` is the journal that order prescribes.  The holder of the mutex is
  either still behind it by its own line (`Receiving`) or replying from it
  (`Replying`); when the mutex is free the journal is exact.
-/
import Mathlib.Data.List.Range
import Mathlib.Data.List.Nodup
import Mathlib.Data.List.Perm.Basic
import Aesd.Server.Lines
import Aesd.Server.Reply

namespace Aesd.Server

open Aesd.Lib
open Aesd.Lib.Monitor (LockOp Move Protocol Inv sysOk)
open Aesd.Driver (Byte newline isNewline Kernel CallEnv AesdSeekto content)

/-! ## Messages -/

/-- A message of one line that fits a `recv`, leaves a NUL behind it in the buffer
    and is no seek command. -/
structure IsLine (msg : List Byte) : Prop where
  length_lt : msg.length < BUFFER_SIZE
  line : ∃ text, msg = text ++ [newline] ∧ newline ∉ text
  not_command : checkForIoctlCommand (recvBuffer msg) = some none

theorem IsLine.length_pos {msg : List Byte} (h : IsLine msg) : 1 ≤ msg.length := by
  obtain ⟨text, rfl, -⟩ := h.line
  simp

/-- The message, as what one `recv` delivers. -/
def IsLine.chunk {msg : List Byte} (h : IsLine msg) : Chunk :=
  ⟨msg, h.length_pos, Nat.le_of_lt h.length_lt⟩

/-- The readable bytes after the connections `ts` have been served. -/
def lastTen (m : Tid → List Byte) (ts : List Tid) : List Byte := ((ts.map m).rtake 10).flatten

/-- The journal after the connections `ts` have been served. -/
def served (m : Tid → List Byte) (ts : List Tid) : Journal Byte := ⟨ts.map m, []⟩

theorem content_served (m : Tid → List Byte) (ts : List Tid) :
    content (served m ts) = lastTen m ts := rfl

/-- A line is written as it is. -/
theorem afterRecv_line {c : Chunk} (h : IsLine c.val) (oob : Option AesdSeekto) :
    afterRecv oob (.chunk c) = .write c.val c.val.length := by
  obtain ⟨text, heq, hno⟩ := h.line
  have hpiece : linePiece c.val = c.val := by
    rw [heq]
    exact linePiece_append hno []
  rw [afterRecv, checked, h.not_command, Option.getD_some, hpiece]

/-- A calm write of a line behind whole lines is a commit. -/
theorem absWrite_line {msg : List Byte} (h : IsLine msg) (K : Kernel) {J : Journal Byte}
    (hJ : J.pending = []) :
    Driver.absWriteRet K .calm J msg = msg.length ∧
      Driver.absWriteNext isNewline K .calm J msg = ⟨J.entries ++ [msg], []⟩ := by
  obtain ⟨text, heq, -⟩ := h.line
  have hK := K.page_le
  have hlt := h.length_lt
  have hbuf : BUFFER_SIZE = 1024 := rfl
  -- a line fits a page, which every kernel grants
  have hgr : K.grants .calm (J.pending.length + msg.length) = true := by
    rw [hJ, List.length_nil, Nat.zero_add, Driver.Kernel.grants, Bool.and_eq_true,
      decide_eq_true_eq]
    exact ⟨rfl, by omega⟩
  have hok : Driver.writeOk K .calm J msg = true := by
    rw [Driver.writeOk, hgr]
    simp [CallEnv.calm]
  have hends : Journal.ends isNewline (J.pending ++ msg) = true := by
    rw [hJ, List.nil_append, heq, Journal.ends_append_singleton]
    rfl
  refine ⟨?_, ?_⟩
  · rw [Driver.absWriteRet, hgr]
    simp [CallEnv.calm]
  · rw [Driver.absWriteNext, if_pos hok, Journal.append_of_ends hends, hJ, List.nil_append]

/-- After that write the reply begins. -/
theorem afterPass_line {msg : List Byte} (h : IsLine msg) :
    afterPass (afterWrite msg.length msg.length) = .read := by
  have hlt := h.length_lt
  have hbuf : BUFFER_SIZE = 1024 := rfl
  have hret : libcRet msg.length = msg.length := libcRet_of_lt (by omega)
  have hok : ¬ libcRet msg.length = -1 := by
    rw [hret]
    omega
  rw [afterWrite, if_neg hok, loopGuard, if_neg (Nat.not_le.mpr hlt), afterPass]
  rfl

/-! ## The invariant -/

section Serial

variable {K : Kernel} {n : Nat} {m : Tid → List Byte}

/-- Connection `t` of the `n` delivers its line and meets no failure. -/
def serialOk (n : Nat) (m : Tid → List Byte) (t : Tid) (_ : Shared) (_ : Worker) (e : Event) :
    Prop :=
  t < n ∧ Delivers (m t) e

/-- The holder of the mutex has not stored its line yet. -/
def Receiving (m : Tid → List Byte) (t : Tid) (r : Shared) (w : Worker) : Prop :=
  w.client = [] ∧
    match w.pc with
    | .open => True
    | .recv => r.system.fPos t = 0
    | .write bytes receivedSize =>
      r.system.fPos t = 0 ∧ bytes = m t ∧ receivedSize = (m t).length
    | _ => False

/-- What holds of the shared state all the time. -/
structure Ordered (K : Kernel) (n : Nat) (r : Shared) : Prop where
  tracks : Tracks K r
  nodup : r.order.Nodup
  bound : ∀ t ∈ r.order, t < n

structure SerialFree (K : Kernel) (n : Nat) (m : Tid → List Byte) (r : Shared) : Prop where
  ordered : Ordered K n r
  exact : r.journal = served m r.order

structure SerialHold (K : Kernel) (n : Nat) (m : Tid → List Byte) (t : Tid) (r : Shared)
    (w : Worker) : Prop where
  ordered : Ordered K n r
  phase : ∃ before, r.order = before ++ [t] ∧
    (r.journal = served m before ∧ Receiving m t r w ∨
      r.journal = served m r.order ∧ Replying r.journal (lastTen m r.order) (r.system.fPos t) w)

/-- A connection that does not hold the mutex has not been served yet, or has got its reply. -/
def SerialIdle (m : Tid → List Byte) (t : Tid) (r : Shared) (w : Worker) : Prop :=
  Outside (fun client _ => t ∉ r.order ∧ client = [])
    (fun client _ => ∃ before after, r.order = before ++ t :: after ∧
      client = lastTen m (before ++ [t])) w

/-- The bytes unread are those of at most ten lines. -/
theorem unread_le (hm : ∀ t < n, IsLine (m t)) {r : Shared} (hbound : ∀ t ∈ r.order, t < n)
    (hJ : r.journal = served m r.order) (pos : Int) : unread r.journal pos ≤ 10 * BUFFER_SIZE := by
  have hlines : ∀ x ∈ (r.order.map m).rtake 10, x.length ≤ BUFFER_SIZE := by
    intro x hx
    obtain ⟨u, hu, rfl⟩ := List.mem_map.mp (mem_of_mem_rtake hx)
    exact Nat.le_of_lt (hm u (hbound u hu)).length_lt
  have hlen := length_flatten_le hlines
  have hten : ((r.order.map m).rtake 10).length ≤ 10 := by
    rw [length_rtake]
    omega
  have hmul := Nat.mul_le_mul_right BUFFER_SIZE hten
  rw [unread, hJ, content_served, lastTen]
  omega

/-- One step of a connection that has not stored its line. -/
theorem receiving_step (hm : ∀ t < n, IsLine (m t)) {t : Tid} {r : Shared} {w : Worker} {e : Event}
    {mv : Move Shared Worker Op} {before : List Tid} (hord : Ordered K n r)
    (hbefore : r.order = before ++ [t]) (hJ : r.journal = served m before)
    (h : Receiving m t r w) (hok : serialOk n m t r w e)
    (hact : connectionThread K t r w e = some mv) (hlock : mv.lock = .keep) :
    SerialHold K n m t mv.shared mv.own ∧
      stepsLeft (10 * BUFFER_SIZE) (unread mv.shared.journal (mv.shared.system.fPos t))
          mv.own.pc + 1 ≤
        stepsLeft (10 * BUFFER_SIZE) (unread r.journal (r.system.fPos t)) w.pc := by
  obtain ⟨htracks, hnodup, hbound⟩ := hord
  obtain ⟨hclient, hphase⟩ := h
  obtain ⟨htn, hev⟩ := hok
  have hline := hm t htn
  cases connectionThread_cases hact with
  | begin hpc => rw [hpc] at hphase; exact hphase.elim
  | lock hpc => cases hlock
  | «open» hpc =>
    -- the new file starts at 0
    have hpos : (openOutput t r).system.fPos t = 0 := Function.update_self ..
    refine ⟨⟨⟨htracks.openOutput t, hnodup, hbound⟩, before, hbefore, .inl ⟨hJ, hclient, hpos⟩⟩, ?_⟩
    rw [hpc]
    show 2 * (10 * BUFFER_SIZE) + 13 + 1 ≤ 2 * (10 * BUFFER_SIZE) + 14
    exact Nat.le_refl _
  | openFails hpc => cases hev
  | recvEnds hpc hnext =>
    obtain ⟨c, rfl, hc⟩ := hev
    rw [afterRecv_line (hc ▸ hline)] at hnext
    cases hnext
  | recvIoctl hpc hnext =>
    obtain ⟨c, rfl, hc⟩ := hev
    rw [afterRecv_line (hc ▸ hline)] at hnext
    cases hnext
  | recvWrite hpc hnext =>
    obtain ⟨c, rfl, hc⟩ := hev
    rw [hpc] at hphase
    rw [afterRecv_line (hc ▸ hline), hc] at hnext
    obtain ⟨rfl, rfl⟩ := RecvNext.write.inj hnext
    refine ⟨⟨⟨htracks, hnodup, hbound⟩, before, hbefore,
      .inl ⟨hJ, hclient, hphase, rfl, rfl⟩⟩, ?_⟩
    rw [hpc]
    show 2 * (10 * BUFFER_SIZE) + 12 + 1 ≤ 2 * (10 * BUFFER_SIZE) + 13
    exact Nat.le_refl _
  | ioctl hpc hmv => rw [hpc] at hphase; exact hphase.elim
  | @write bytes size hpc env mv hmv =>
    rw [hpc] at hphase
    obtain ⟨hpos, rfl, rfl⟩ := hphase
    obtain rfl : env = .calm := hev
    have hne : m t ≠ [] := List.ne_nil_of_length_pos hline.length_pos
    obtain ⟨system, heq, hfPos, htracks'⟩ := htracks.writeMove_eq t w .calm hne
      (Nat.le_of_lt hline.length_lt) (m t).length
    obtain rfl := Option.some.inj (hmv.symm.trans heq)
    obtain ⟨hret, hnext⟩ := absWrite_line hline K (J := r.journal) (by rw [hJ]; rfl)
    -- the journal catches up with the order
    have hJ' : Shared.journal { r with
        system := system
        origin := Driver.absWriteNext isNewlineTagged K .calm r.origin (tagged t (m t)) } =
          served m r.order := by
      rw [Shared.journal, absWriteNext_tagged]
      rw [Shared.journal] at hnext hJ
      rw [hnext, hJ, hbefore, served, served, List.map_append]
      rfl
    have hpc' := afterPass_line hline
    rw [← hret] at hpc'
    refine ⟨⟨⟨htracks', hnodup, hbound⟩, before, hbefore, .inr ⟨hJ', ?_⟩⟩, ?_⟩
    · -- the reply starts at position 0, with nothing sent
      unfold Replying
      dsimp only
      rw [hpc', hJ', content_served]
      refine ⟨0, ?_, ?_⟩
      · rw [hfPos, hpos]
        rfl
      · rw [hclient, List.drop_zero, List.nil_append]
    · have hle := unread_le hm (r := { r with
        system := system
        origin := Driver.absWriteNext isNewlineTagged K .calm r.origin (tagged t (m t)) })
        hbound hJ' (system.fPos t)
      dsimp only
      rw [hpc, hpc', stepsLeft, stepsLeft]
      omega
  | read hpc hmv => rw [hpc] at hphase; exact hphase.elim
  | send hpc res => rw [hpc] at hphase; exact hphase.elim
  | exit hpc => rw [hpc] at hphase; exact hphase.elim

/-- One step of the holder of the mutex that keeps it. -/
theorem serialHold_step (hm : ∀ t < n, IsLine (m t)) {t : Tid} {r : Shared} {w : Worker} {e : Event}
    {mv : Move Shared Worker Op} (h : SerialHold K n m t r w) (hok : serialOk n m t r w e)
    (hact : connectionThread K t r w e = some mv) (hlock : mv.lock = .keep) :
    SerialHold K n m t mv.shared mv.own ∧
      stepsLeft (10 * BUFFER_SIZE) (unread mv.shared.journal (mv.shared.system.fPos t))
          mv.own.pc + 1 ≤
        stepsLeft (10 * BUFFER_SIZE) (unread r.journal (r.system.fPos t)) w.pc := by
  obtain ⟨hord, before, hbefore, ⟨hJ, hrecv⟩ | ⟨hJ, hreply⟩⟩ := h
  · exact receiving_step hm hord hbefore hJ hrecv hok hact hlock
  · obtain ⟨hstands, ⟨horigin, horder, -⟩, hreply', hless⟩ :=
      replying_step hord.tracks hreply hok.2 hact hlock (10 * BUFFER_SIZE)
    have hsame : mv.shared.journal = r.journal := by rw [Shared.journal, Shared.journal, horigin]
    rw [← hsame] at hstands hreply'
    refine ⟨⟨⟨hstands, ?_, ?_⟩, before, ?_, .inr ⟨?_, ?_⟩⟩, by rw [hsame]; exact hless⟩
    · rw [horder]
      exact hord.nodup
    · rw [horder]
      exact hord.bound
    · rw [horder, hbefore]
    · rw [hsame, horder, hJ]
    · rw [horder]
      exact hreply'

/-- A connection that holds the mutex is inside it. -/
theorem SerialHold.inside {t : Tid} {r : Shared} {w : Worker} (h : SerialHold K n m t r w) :
    toUnlock w.pc = 1 := by
  obtain ⟨-, before, -, ⟨-, -, hphase⟩ | ⟨-, hreply⟩⟩ := h
  · cases hpc : w.pc <;> rw [hpc] at hphase <;> first | exact hphase.elim | rfl
  · exact hreply.quiet.1

/-- If it is about to write, then its line. -/
theorem SerialHold.write {t : Tid} {r : Shared} {w : Worker} (h : SerialHold K n m t r w)
    {bytes : List Byte} {size : Nat} (hpc : w.pc = .write bytes size) : bytes = m t := by
  obtain ⟨-, before, -, ⟨-, -, hphase⟩ | ⟨-, hreply⟩⟩ := h
  · rw [hpc] at hphase
    exact hphase.2.1
  · exact absurd hpc (hreply.quiet.2 bytes size)

/-- What an idle connection knows survives a longer order. -/
theorem SerialIdle.append {t : Tid} {r r' : Shared} {w : Worker} (h : SerialIdle m t r w)
    {later : List Tid} (horder : r'.order = r.order ++ later) (hnot : t ∉ later) :
    SerialIdle m t r' w := by
  refine Outside.imp h ?_ ?_
  · intro client _ hbefore
    rw [horder, List.mem_append, not_or]
    exact ⟨⟨hbefore.1, hnot⟩, hbefore.2⟩
  · rintro client _ ⟨before, after, heq, hclient⟩
    refine ⟨before, after ++ later, ?_, hclient⟩
    rw [horder, heq, List.append_assoc, List.cons_append]

/-- The connections keep to the monitor rule. -/
theorem serial_protocol (hm : ∀ t < n, IsLine (m t)) :
    Protocol (connectionThread K) (serialOk n m) (SerialFree K n m) (SerialHold K n m)
      (SerialIdle m) := by
  refine { acquire := ?_, hold := ?_, release := ?_, idle := ?_, stable := ?_ }
  · intro t r w e mv hfree hidle hok hact hlock
    obtain ⟨hpc, rfl⟩ := eq_of_acquire hact hlock
    obtain ⟨⟨htracks, hnodup, hbound⟩, hexact⟩ := hfree
    -- a connection that waits for the mutex has not been in the order
    obtain ⟨hnew, hclient⟩ := Outside.of_lock hidle hpc
    refine ⟨⟨htracks, ?_, ?_⟩, r.order, rfl, .inl ⟨hexact, hclient, trivial⟩⟩
    · exact List.nodup_append.mpr ⟨hnodup, List.nodup_singleton t, by
        rintro u hu v hv rfl
        exact hnew (List.mem_singleton.mp hv ▸ hu)⟩
    · intro u hu
      rcases List.mem_append.mp hu with hu | hu
      · exact hbound u hu
      · rw [List.mem_singleton.mp hu]
        exact hok.1
  · intro t r w e mv hhold hok hact hlock
    exact (serialHold_step hm hhold hok hact hlock).1
  · intro t r w e mv hhold _ hact hlock
    obtain ⟨todo, hpc, rfl⟩ := eq_of_release hact hlock
    obtain ⟨hord, before, hbefore, ⟨-, -, hphase⟩ | ⟨hJ, hreply⟩⟩ := hhold
    · rw [hpc] at hphase
      exact hphase.elim
    · obtain ⟨hclient, hcount⟩ := hreply.of_exit hpc
      rw [List.count_cons_self] at hcount
      refine ⟨⟨hord, hJ⟩, Nat.succ.inj hcount, before, [], hbefore, ?_⟩
      rw [← hbefore]
      exact hclient
  · intro t r w e mv hidle _ hact hlock
    exact Outside.step hidle hact hlock
  · intro t r w e mv u v hut hidle hpre _ hact
    -- only the acquisition of the mutex changes the order
    cases hlock : mv.lock with
    | acquire =>
      obtain ⟨-, rfl⟩ := eq_of_acquire hact hlock
      exact hidle.append rfl (by simpa using hut)
    | release =>
      obtain ⟨todo, -, rfl⟩ := eq_of_release hact hlock
      exact hidle
    | keep =>
      have horder := order_of_keep hact hlock
      rw [← List.append_nil r.order] at horder
      exact hidle.append horder List.not_mem_nil

theorem serial_init (K : Kernel) (n : Nat) (m : Tid → List Byte) (stack : Tid → List Byte) :
    Inv (SerialFree K n m) (SerialHold K n m) (SerialIdle m) (State.init stack) :=
  { idle := fun _ _ => ⟨List.not_mem_nil, rfl⟩
    free := fun _ => ⟨⟨tracks_init K, List.nodup_nil, fun _ ht => absurd ht List.not_mem_nil⟩, rfl⟩
    hold := fun _ hown => absurd hown (by simp [State.init, State.start]) }

/-! ## Every connection comes to its end -/

/-- Every step of a connection brings it nearer to its end. -/
theorem stepsLeft_step (hm : ∀ t < n, IsLine (m t)) {t : Tid} {r : Shared} {w : Worker} {e : Event}
    {mv : Move Shared Worker Op} (h : SerialHold K n m t r w ∨ SerialIdle m t r w)
    (hok : serialOk n m t r w e) (hact : connectionThread K t r w e = some mv) :
    stepsLeft (10 * BUFFER_SIZE) (unread mv.shared.journal (mv.shared.system.fPos t))
        mv.own.pc + 1 ≤
      stepsLeft (10 * BUFFER_SIZE) (unread r.journal (r.system.fPos t)) w.pc := by
  by_cases hin : mv.lock = .keep ∧ SerialHold K n m t r w
  · exact (serialHold_step hm hin.2 hok hact hin.1).2
  · apply stepsLeft_of_lock hact
    intro hlock
    rcases h with hhold | hidle
    · exact absurd ⟨hlock, hhold⟩ hin
    · exact hidle.outside

/-- The holder of the mutex can always go on. -/
theorem serialHold_progress (hm : ∀ t < n, IsLine (m t)) {t : Tid} {r : Shared} {w : Worker}
    (h : SerialHold K n m t r w) :
    ∃ e mv, serialOk n m t r w e ∧ connectionThread K t r w e = some mv ∧ mv.lock ≠ .acquire := by
  obtain ⟨before, hbefore, -⟩ := h.phase
  -- the holder is the last of the order, so one of the `n`
  have htn : t < n := h.ordered.bound t (by rw [hbefore]; simp)
  have hline := hm t htn
  have hwrite : ∀ bytes size, w.pc = .write bytes size →
      bytes ≠ [] ∧ bytes.length ≤ BUFFER_SIZE := by
    intro bytes size hpc
    rw [h.write hpc]
    exact ⟨List.ne_nil_of_length_pos hline.length_pos, Nat.le_of_lt hline.length_lt⟩
  obtain ⟨mv, hact, hlock⟩ :=
    calm_of_inside h.ordered.tracks h.inside hwrite (.chunk hline.chunk)
  exact ⟨_, mv, ⟨htn, delivers_calmEvent hline.chunk w.pc⟩, hact, hlock⟩

/-- As long as a connection has not returned, some connection can take a step. -/
theorem serial_progress (hm : ∀ t < n, IsLine (m t)) {s : State}
    (hs : Inv (SerialFree K n m) (SerialHold K n m) (SerialIdle m) s)
    (hleft : ∃ t < n, ¬ Finished (s.locals t)) :
    ∃ x, sysOk (serialOk n m) s x ∧ (step K s x).isSome = true := by
  obtain ⟨t, htn, hnot⟩ := hleft
  obtain ⟨x, -, hok, hstep⟩ := hs.progress Finished
    (fun u r w h => serialHold_progress hm h)
    (fun r w h hnot => by
      obtain ⟨mv, hact, hlock⟩ := go_of_outside K t r h.outside hnot
      exact ⟨.go, mv, ⟨htn, trivial⟩, hact, hlock⟩) hnot
  exact ⟨x, hok, hstep⟩

/-! ## The runs -/

/-- A connection that has returned was served at its place in the order. -/
theorem reply_of_finished {s : State}
    (hs : Inv (SerialFree K n m) (SerialHold K n m) (SerialIdle m) s) {t : Tid}
    (hfin : Finished (s.locals t)) :
    ∃ before after, s.shared.order = before ++ t :: after ∧
      (s.locals t).client = lastTen m (before ++ [t]) := by
  have hnot : s.owner ≠ some t := by
    intro howner
    have hinside := (hs.hold t howner).inside
    rw [hfin] at hinside
    cases hinside
  -- it is outside the mutex, and past it
  have hidle := hs.idle t hnot
  exact (Outside.of_exit hidle hfin).2

/-- When all have returned, the order has each of them once and the device holds
    the last ten lines. -/
theorem all_finished {s : State}
    (hs : Inv (SerialFree K n m) (SerialHold K n m) (SerialIdle m) s)
    (hfin : ∀ t < n, Finished (s.locals t)) :
    s.shared.order.Perm (List.range n) ∧
      Driver.committedTexts s.shared.system.driver = some ((s.shared.order.map m).rtake 10) := by
  -- nobody holds the mutex, for its holder would be one of the `n`
  have hfree : SerialFree K n m s.shared := by
    cases howner : s.owner with
    | none => exact hs.free howner
    | some u =>
      have hhold := hs.hold u howner
      have hinside := hhold.inside
      obtain ⟨hord, before, hbefore, -⟩ := hhold
      rw [hfin u (hord.bound u (by rw [hbefore]; simp))] at hinside
      cases hinside
  obtain ⟨⟨htracks, hnodup, hbound⟩, hexact⟩ := hfree
  refine ⟨?_, ?_⟩
  · rw [List.perm_ext_iff_of_nodup hnodup List.nodup_range]
    intro t
    rw [List.mem_range]
    refine ⟨?_, ?_⟩
    · exact hbound t
    · intro htn
      obtain ⟨before, after, heq, -⟩ := reply_of_finished hs (hfin t htn)
      rw [heq]
      simp
  · obtain ⟨htexts, -, -⟩ := htracks.driver.texts
    rw [htexts, hexact]
    rfl

end Serial

/-- Any number `n` of connections that each deliver one line, in any interleaving.
    `order` is the order in which they acquired `file_mutex`.  A connection that has
    returned got the last ten lines up to its own in that order; when all have,
    the device holds the last ten; and all do: each takes a bounded number of steps,
    and as long as one has not returned one of them can take a step. -/
theorem server_serializable {K : Kernel} {n : Nat} {m : Tid → List Byte}
    {stack : Tid → List Byte} {events : List (Tid × Event)} {outs : List (Tid × Op)} {s : State}
    (hm : ∀ t < n, IsLine (m t)) (hrun : run (step K) (.init stack) events = some (outs, s))
    (hok : Meets (step K) (sysOk (serialOk n m)) (.init stack) events) :
    s.shared.order.Nodup ∧
      (∀ t < n, Finished (s.locals t) → ∃ before after, s.shared.order = before ++ t :: after ∧
        (s.locals t).client = lastTen m (before ++ [t])) ∧
      ((∀ t < n, Finished (s.locals t)) → s.shared.order.Perm (List.range n) ∧
        Driver.committedTexts s.shared.system.driver = some ((s.shared.order.map m).rtake 10)) ∧
      (∀ t, events.countP (fun x => decide (x.1 = t)) ≤ 2 * (10 * BUFFER_SIZE) + 16) ∧
      ((∃ t < n, ¬ Finished (s.locals t)) →
        ∃ x, sysOk (serialOk n m) s x ∧ (step K s x).isSome = true) := by
  have hinit := serial_init K n m stack
  have hs := (serial_protocol hm).inv_run hinit hrun hok
  refine ⟨?_, fun t _ hfin => reply_of_finished hs hfin, all_finished hs, fun t => ?_,
    serial_progress hm hs⟩
  · cases howner : s.owner with
    | none => exact (hs.free howner).ordered.nodup
    | some u => exact (hs.hold u howner).ordered.nodup
  · have hcount := (serial_protocol hm).count_le
      (μ := fun r w => stepsLeft (10 * BUFFER_SIZE) (unread r.journal (r.system.fPos t)) w.pc)
      (fun r w e mv h hone hact => stepsLeft_step hm h hone hact)
      (fun r w r' h => stepsLeft_outside h.outside _ _ _) hinit hrun hok
    exact Nat.le_trans (Nat.le_add_left _ _) hcount

/-- Connection 0 sends `a`, connection 1 sends `b`; each line ends with a newline. -/
def twoLines (t : Tid) : List Byte := if t = 0 then [97, newline] else [98, newline]

/-- Connection 1 is first at the mutex, and they are served one after the other. -/
def twoClients : List (Tid × Event) :=
  [(0, .go), (1, .go), (1, .go), (1, .opened true),
    (1, .received (.chunk (.of 98 [newline])) none), (1, .device .calm), (1, .device .calm),
    (1, .sent (.short 0)), (1, .device .calm), (1, .sent (.short 0)), (1, .go), (1, .go), (0, .go),
    (1, .go), (0, .opened true), (0, .received (.chunk (.of 97 [newline])) none),
    (1, .go), (0, .device .calm), (1, .go), (0, .device .calm), (0, .sent (.short 0)),
    (0, .device .calm), (0, .sent (.short 0)), (0, .device .calm), (0, .sent (.short 0)), (0, .go),
    (0, .go), (0, .go), (0, .go), (0, .go)]

theorem twoLines_isLine : ∀ t < 2, IsLine (twoLines t)
  | 0, _ => ⟨by decide, ⟨[97], rfl, by decide⟩, by decide⟩
  | 1, _ => ⟨by decide, ⟨[98], rfl, by decide⟩, by decide⟩

theorem twoClients_serializable :
    ∃ outs s, run (step .page) (.init fun _ => []) twoClients = some (outs, s) ∧
      (s.shared.order = [1, 0] ∧ (∀ t < 2, Finished (s.locals t))) ∧
      (∃ before after, s.shared.order = before ++ 0 :: after ∧
        (s.locals 0).client = lastTen twoLines (before ++ [0])) ∧
      Driver.committedTexts s.shared.system.driver =
        some ((s.shared.order.map twoLines).rtake 10) := by
  have hmap : (run (step .page) (.init fun _ => []) twoClients).map (fun x =>
      (x.2.shared.order, (x.2.locals 0).pc, (x.2.locals 1).pc)) =
        some ([1, 0], .exit [], .exit []) := by decide
  have hok : Meets (step .page) (sysOk (serialOk 2 twoLines)) (.init fun _ => []) twoClients := by
    unfold sysOk serialOk
    decide
  obtain ⟨⟨outs, s⟩, hrun, heq⟩ := Option.map_eq_some_iff.mp hmap
  obtain ⟨horder, hpcs⟩ := Prod.mk.inj heq
  obtain ⟨hpc₀, hpc₁⟩ := Prod.mk.inj hpcs
  have hfin : ∀ t < 2, Finished (s.locals t)
    | 0, _ => hpc₀
    | 1, _ => hpc₁
  obtain ⟨-, hreply, hall, -, -⟩ := server_serializable twoLines_isLine hrun hok
  exact ⟨outs, s, hrun, ⟨horder, hfin⟩, hreply 0 (by decide) hpc₀, (hall hfin).2⟩

end Aesd.Server
