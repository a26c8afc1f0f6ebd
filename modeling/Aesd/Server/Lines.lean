/-
  Aesd.Server.Lines

  On a device that only the server writes, every committed entry is one line,
  whatever the clients send, however it is cut into chunks, and whichever
  calls fail.  The driver only looks at the last byte of what it has; the rest
  is the server's doing: a piece it writes has no newline but its last byte
  (`linePiece_line`), and it is never empty.

  No step here needs the mutex: a piece is a piece whoever writes it.
-/
import Aesd.Server.Device

namespace Aesd.Server

open Aesd.Lib
open Aesd.Lib.Monitor (Move)
open Aesd.Driver (Byte newline isNewline Kernel CallEnv AesdSeekto)

/-! ## The pieces -/

/-- A piece that can be written: part of a buffer, and no newline but at its end. -/
structure Piece (bytes : List Byte) : Prop where
  length_pos : 1 ≤ bytes.length
  length_le : bytes.length ≤ BUFFER_SIZE
  line : Journal.LinePiece isNewline bytes

theorem isNewline_eq_false_of_not_mem {t : List Byte} (h : newline ∉ t) {b : Byte} (hb : b ∈ t) :
    isNewline b = false := by
  rw [isNewline, beq_eq_false_iff_ne]
  rintro rfl
  exact h hb

theorem linePiece_piece (c : Chunk) : Piece (linePiece c.val) := by
  obtain ⟨hpos, hle⟩ := c.property
  have hlen : (linePiece c.val).length ≤ c.val.length := by
    rw [linePiece, List.length_take]
    omega
  by_cases hmem : newline ∈ c.val
  · -- cut behind the first newline
    obtain ⟨line, rest, heq, hline⟩ := List.eq_append_cons_of_mem hmem
    rw [heq, linePiece_append hline] at hlen ⊢
    rw [← heq] at hlen
    refine { length_pos := by simp, length_le := by omega, line := ?_ }
    intro b hb
    rw [List.dropLast_concat] at hb
    exact isNewline_eq_false_of_not_mem hline hb
  · -- no newline to cut at, and none to find
    rw [linePiece_of_not_mem hmem]
    exact
      { length_pos := hpos, length_le := hle
        line := fun b hb => isNewline_eq_false_of_not_mem hmem (List.dropLast_subset _ hb) }

/-- The only write that `recv` leads to is that of a piece. -/
theorem piece_of_afterRecv {oob : Option AesdSeekto} {res : RecvResult} {bytes : List Byte}
    {size : Nat} (h : afterRecv oob res = .write bytes size) : Piece bytes := by
  unfold afterRecv at h
  cases res with
  | closed => cases h
  | error => cases h
  | chunk c =>
    dsimp only at h
    split at h
    · cases h
    · obtain ⟨rfl, -⟩ := RecvNext.write.inj h
      exact linePiece_piece c

/-- A write that is waiting to be made is that of a piece. -/
def PcPiece (pc : Pc) : Prop := ∀ bytes size, pc = .write bytes size → Piece bytes

theorem pcPiece_step {K : Kernel} {t : Tid} {r : Shared} {w : Worker} {e : Event}
    {m : Move Shared Worker Op} (hact : connectionThread K t r w e = some m) :
    PcPiece m.own.pc := by
  intro bytes size hown
  obtain ⟨res, oob, -, hnext⟩ := write_of_recv hact hown
  exact piece_of_afterRecv hnext

/-! ## Every run -/

/-- A write of a piece keeps a journal of lines one. -/
theorem lines_absWriteNext {K : Kernel} {env : CallEnv} {J : Journal Byte} {bytes : List Byte}
    (hJ : J.Lines isNewline) (hb : Piece bytes) :
    (Driver.absWriteNext isNewline K env J bytes).Lines isNewline := by
  unfold Driver.absWriteNext
  split
  · exact hJ.append hb.line
  · exact hJ

/-- What one thread keeps: the device stands for a journal of lines, and its own
    next write is that of a piece. -/
structure LinesKept (K : Kernel) (r : Shared) (w : Worker) : Prop where
  tracks : Tracks K r
  lines : r.journal.Lines isNewline
  piece : PcPiece w.pc

/-- One step of a thread; the pieces of the others are not touched. -/
theorem linesKept_step {K : Kernel} {t : Tid} {r : Shared} {w : Worker} {e : Event}
    {m : Move Shared Worker Op} (h : LinesKept K r w)
    (hact : connectionThread K t r w e = some m) : LinesKept K m.shared m.own := by
  obtain ⟨htracks, hlines, hpiece⟩ := h
  by_cases hwrite : ∃ bytes size, w.pc = .write bytes size
  · -- a write: a piece behind lines and an open line
    obtain ⟨bytes, size, hpc⟩ := hwrite
    have hbytes := hpiece bytes size hpc
    have hne : bytes ≠ [] := List.ne_nil_of_length_pos hbytes.length_pos
    obtain ⟨env, rfl, hm⟩ := move_of_write hact hpc
    obtain ⟨system, heq, -, htracks'⟩ := htracks.writeMove_eq t w env hne hbytes.length_le size
    have hown := pcPiece_step hact
    obtain rfl := Option.some.inj (hm.symm.trans heq)
    refine ⟨htracks', ?_, hown⟩
    rw [Shared.journal, absWriteNext_tagged]
    exact lines_absWriteNext hlines hbytes
  · have hnot : ∀ bytes size, w.pc ≠ .write bytes size := fun bytes size hpc =>
      hwrite ⟨bytes, size, hpc⟩
    obtain ⟨htracks', horigin, -⟩ := htracks.of_not_write hact hnot
    refine ⟨htracks', ?_, pcPiece_step hact⟩
    rw [Shared.journal, horigin]
    exact hlines

/-- The pieces of the other threads are not touched by a step. -/
theorem linesKept_sys {K : Kernel} {s s' : State} {x : Tid × Event} {o : Tid × Op}
    (hs : ∀ t, LinesKept K s.shared (s.locals t)) (hstep : step K s x = some (o, s')) :
    ∀ t, LinesKept K s'.shared (s'.locals t) := by
  intro u
  obtain ⟨t, e⟩ := x
  obtain ⟨m, hact, -, hshared, hlocals, -⟩ := Monitor.step_cases hstep
  have hone := linesKept_step (hs t) hact
  rw [hshared, hlocals]
  -- only the thread that stepped has a new place
  by_cases hu : u = t
  · rw [hu, Function.update_self]
    exact hone
  · rw [Function.update_of_ne hu]
    exact ⟨hone.tracks, hone.lines, (hs u).piece⟩

theorem linesKept_init (K : Kernel) (stack : Tid → List Byte) (t : Tid) :
    LinesKept K (State.init stack).shared ((State.init stack).locals t) :=
  ⟨tracks_init K, Journal.lines_empty, fun _ _ => Pc.noConfusion⟩

/-- A write that is made is that of a piece. -/
theorem piece_of_out {K : Kernel} {t : Tid} {r : Shared} {w : Worker} {e : Event}
    {m : Move Shared Worker Op} (h : LinesKept K r w)
    (hact : connectionThread K t r w e = some m) {bytes : List Byte} (hout : m.out = .write bytes) :
    Piece bytes := by
  cases connectionThread_cases hact with
  | write hpc hm =>
    obtain ⟨x, -, rfl⟩ := Option.map_eq_some_iff.mp hm
    obtain rfl := Op.write.inj hout
    exact h.piece _ _ hpc
  | ioctl hpc hm =>
    obtain ⟨x, -, rfl⟩ := Option.map_eq_some_iff.mp hm
    cases hout
  | read hpc hm =>
    obtain ⟨x, -, rfl⟩ := Option.map_eq_some_iff.mp hm
    cases hout
  | @exit op todo hpc => cases op <;> cases hout
  | begin hpc => cases hout
  | lock hpc => cases hout
  | «open» hpc => cases hout
  | openFails hpc => cases hout
  | recvEnds hpc hnext => cases hout
  | recvIoctl hpc hnext => cases hout
  | recvWrite hpc hnext => cases hout
  | send hpc res => cases hout

/-- In every run of the server on an empty device, the device holds lines: every
    committed entry has one newline, its last byte, and the pending text has
    none; and every write made has at least one byte. -/
theorem server_entries_are_lines {K : Kernel} {stack : Tid → List Byte}
    {events : List (Tid × Event)} {outs : List (Tid × Op)} {s : State}
    (hrun : run (step K) (.init stack) events = some (outs, s)) :
    (∃ texts pending, Driver.committedTexts s.shared.system.driver = some texts ∧
      Driver.pendingText s.shared.system.driver = some pending ∧
      (∀ e ∈ texts, e.count newline = 1 ∧ e.getLast? = some newline) ∧ newline ∉ pending) ∧
    ∀ t bytes, (t, Op.write bytes) ∈ outs → 1 ≤ bytes.length := by
  have hinit := linesKept_init K stack
  have hkept := run_inv (I := fun s => ∀ t, LinesKept K s.shared (s.locals t))
    (fun _ _ _ _ hs hstep => linesKept_sys hs hstep) hinit hrun
  -- the device is the same one for all threads; that of connection 0 will do
  obtain ⟨htracks, hlines, -⟩ := hkept 0
  obtain ⟨htexts, hpending, -⟩ := htracks.driver.texts
  refine ⟨⟨_, _, htexts, hpending, fun e he => ?_, fun hmem => ?_⟩, fun t bytes hmem => ?_⟩
  · obtain ⟨hcount, hends⟩ := hlines.entries_line e (Driver.mem_entries_of_mem_committed he)
    exact ⟨hcount, (Driver.ends_isNewline_iff e).mp hends⟩
  · have hno := hlines.pending_line newline hmem
    exact absurd hno (by decide)
  · have hout := run_out (I := fun s => ∀ t, LinesKept K s.shared (s.locals t))
      (Q := fun o : Tid × Op => ∀ bytes, o.2 = .write bytes → 1 ≤ bytes.length) ?_ hinit hrun
      (t, Op.write bytes) hmem
    · exact hout bytes rfl
    · intro s x o s' hs hstep
      refine ⟨linesKept_sys hs hstep, fun bytes heq => ?_⟩
      obtain ⟨t, e⟩ := x
      obtain ⟨m, hact, rfl, -⟩ := Monitor.step_cases hstep
      exact (piece_of_out (hs t) hact heq).length_pos

/-- Connection 0 writes `ab` and leaves; connection 1 writes `c` and a newline. -/
def sharedLine : List (Tid × Event) :=
  [(0, .go), (1, .go), (0, .go), (0, .opened true),
    (0, .received (.chunk (.of 97 [98])) none), (0, .device .calm), (0, .device .calm),
    (0, .sent (.short 0)), (0, .go), (0, .go), (1, .go), (0, .go), (1, .opened true),
    (1, .received (.chunk (.of 99 [newline])) none), (1, .device .calm)]

theorem sharedLine_entries_are_lines :
    ∃ outs s, run (step .page) (.init fun _ => []) sharedLine = some (outs, s) ∧
      (∃ texts pending, Driver.committedTexts s.shared.system.driver = some texts ∧
        Driver.pendingText s.shared.system.driver = some pending ∧
        (∀ e ∈ texts, e.count newline = 1 ∧ e.getLast? = some newline) ∧ newline ∉ pending) ∧
      ∀ t bytes, (t, Op.write bytes) ∈ outs → 1 ≤ bytes.length := by
  have hsome : (run (step .page) (.init fun _ => []) sharedLine).isSome = true := by decide
  obtain ⟨⟨outs, s⟩, hrun⟩ := Option.isSome_iff_exists.mp hsome
  exact ⟨outs, s, hrun, server_entries_are_lines hrun⟩

end Aesd.Server
