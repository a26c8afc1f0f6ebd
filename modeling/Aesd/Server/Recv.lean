/-
  Aesd.Server.Recv

  `recv_messages`: receive a chunk, hand it to the device as a seek command or
  as the text up to its first newline, and go round again as long as the chunk
  filled the buffer.

  The loop is cut into the decisions the code takes (`afterRecv`,
  `afterIoctl`, `afterWrite`); the connection threads take the same ones.
  `recvMessages` runs the loop against a script of what the environment
  answers.  The last two sections are about its two ends: it may return before
  the line is complete, and it may go on after the line is complete.
-/
import Aesd.Server.Command

namespace Aesd.Server

open Aesd.Lib
open Aesd.Driver (Byte newline isNewline toInt AesdSeekto)

/-! ## The decisions of the loop -/

/-- What `recv` answers. -/
inductive RecvResult where
  | chunk (c : Chunk)
  | closed
  | error

/-- `int` result of a C library wrapper for the kernel's answer `ret`. -/
def libcRet (ret : Int) : Int := if -4095 ≤ ret ∧ ret < 0 then -1 else toInt ret

/-- Lines 60 to 69: the index of the first newline, or of the last byte. -/
def lineIndex (chunk : List Byte) : Nat :=
  match chunk.findIdx? isNewline with
  | some i => i
  | none => chunk.length - 1

/-- The bytes passed to `write`. -/
def linePiece (chunk : List Byte) : List Byte := chunk.take (lineIndex chunk + 1)

/-- The answer of the parser; `oob` is what its scans find when they leave the buffer. -/
def checked (oob : Option AesdSeekto) (chunk : List Byte) : Option AesdSeekto :=
  (checkForIoctlCommand (recvBuffer chunk)).getD oob

/-- What the loop does next: return, or issue a call on the device. -/
inductive RecvNext where
  | ret (r : Int)
  | ioctl (seekto : AesdSeekto) (receivedSize : Nat)
  | write (bytes : List Byte) (receivedSize : Nat)

/-- Lines 46 to 76 and 84, once `recv` has answered. -/
def afterRecv (oob : Option AesdSeekto) : RecvResult → RecvNext
  | .closed => .ret (-1)
  | .error => .ret (-1)
  | .chunk c =>
    -- the index of the newline is worked out first, but a command is not written
    match checked oob c.val with
    | some seekto => .ioctl seekto c.val.length
    | none => .write (linePiece c.val) c.val.length

/-- The loop guard: go round again (`none`) or return 0. -/
def loopGuard (receivedSize : Nat) : Option Int :=
  if BUFFER_SIZE ≤ receivedSize then none else some 0

/-- The rest of the pass once `ioctl` has returned. -/
def afterIoctl (ret : Int) (receivedSize : Nat) : Option Int :=
  if libcRet ret < 0 then some (-1) else loopGuard receivedSize

/-- The rest of the pass once `write` has returned. -/
def afterWrite (ret : Int) (receivedSize : Nat) : Option Int :=
  if libcRet ret = -1 then some (-1) else loopGuard receivedSize

/-! ## The loop -/

/-- What the environment answers in one pass: to `recv`, to the scans of the
    parser beyond the buffer, and to the `ioctl` or `write`. -/
structure Round where
  recv : RecvResult
  oob : Option AesdSeekto
  ret : Int

/-- The return value (`none` while the call waits for the next `recv`), the
    pieces written without an error, and the number of answers taken from `recv`. -/
structure RecvRun where
  ret : Option Int
  written : List (List Byte)
  recvs : Nat
  deriving DecidableEq, Repr

/-- One pass in front of the rest of the run. -/
def RecvRun.pass (wrote : List (List Byte)) (next : Option Int) (rest : RecvRun) : RecvRun :=
  match next with
  | some r => ⟨some r, wrote, 1⟩
  | none => ⟨rest.ret, wrote ++ rest.written, rest.recvs + 1⟩

/-- `recv_messages` on a script. -/
def recvMessages : List Round → RecvRun
  | [] => ⟨none, [], 0⟩
  | r :: rs =>
    match afterRecv r.oob r.recv with
    | .ret x => ⟨some x, [], 1⟩
    -- a seek request writes nothing to the device
    | .ioctl _ size => .pass [] (afterIoctl r.ret size) (recvMessages rs)
    | .write bytes size =>
      .pass (if libcRet r.ret = -1 then [] else [bytes]) (afterWrite r.ret size) (recvMessages rs)

/-! ## Text without commands or failures -/

/-- The pass received a chunk that is no command, and the device took all of its piece. -/
structure Plain (r : Round) (chunk : List Byte) : Prop where
  recv : ∃ c : Chunk, r.recv = .chunk c ∧ c.val = chunk
  not_command : checked r.oob chunk = none
  stored : r.ret = (linePiece chunk).length

/-- The passes received the chunks of a stream, one after the other. -/
def PlainRun : List Round → List (List Byte) → Prop := List.Forall₂ Plain

theorem Plain.length_pos {r : Round} {chunk : List Byte} (h : Plain r chunk) :
    1 ≤ chunk.length := by
  obtain ⟨c, -, rfl⟩ := h.recv
  exact c.property.1

theorem Plain.length_le {r : Round} {chunk : List Byte} (h : Plain r chunk) :
    chunk.length ≤ BUFFER_SIZE := by
  obtain ⟨c, -, rfl⟩ := h.recv
  exact c.property.2

theorem libcRet_of_lt {n : Nat} (h : n < 2 ^ 31) : libcRet n = n := by
  have h0 : ¬ (-4095 ≤ (n : Int) ∧ (n : Int) < 0) := by omega
  rw [libcRet, if_neg h0]
  exact Driver.toInt_of_lt (by omega) (by omega)

/-- A plain pass writes its piece and goes on while the chunk is full. -/
theorem recvMessages_plain {r : Round} {chunk : List Byte} (h : Plain r chunk) (rs : List Round) :
    recvMessages (r :: rs) =
      .pass [linePiece chunk] (loopGuard chunk.length) (recvMessages rs) := by
  obtain ⟨c, hrecv, rfl⟩ := h.recv
  have hsize : (linePiece c.val).length ≤ c.val.length := by
    rw [linePiece, List.length_take]
    omega
  have hle := c.property.2
  have hbuf : BUFFER_SIZE = 1024 := rfl
  have hret : libcRet r.ret = (linePiece c.val).length := by
    rw [h.stored]
    exact libcRet_of_lt (by omega)
  have hok : libcRet r.ret ≠ -1 := by
    rw [hret]
    omega
  rw [recvMessages, hrecv, afterRecv, h.not_command]
  dsimp only
  rw [afterWrite, if_neg hok, if_neg hok]

/-! ## The piece of a chunk -/

/-- A chunk without a newline is written whole. -/
theorem linePiece_of_not_mem {chunk : List Byte} (h : newline ∉ chunk) :
    linePiece chunk = chunk := by
  have hidx : chunk.findIdx? isNewline = none := by
    rw [List.findIdx?_eq_none_iff]
    intro b hb
    rw [isNewline, beq_eq_false_iff_ne]
    rintro rfl
    exact h hb
  rw [linePiece, lineIndex, hidx]
  exact List.take_of_length_le (by dsimp only; omega)

/-- A chunk with a newline is written up to the first one. -/
theorem linePiece_append {t : List Byte} (h : newline ∉ t) (rest : List Byte) :
    linePiece (t ++ newline :: rest) = t ++ [newline] := by
  have hidx : (t ++ newline :: rest).findIdx? isNewline = some t.length := by
    induction t with
    | nil => rfl
    | cons b t ih =>
      rw [List.mem_cons, not_or] at h
      have hb : isNewline b = false := by
        rw [isNewline, beq_eq_false_iff_ne]
        exact Ne.symm h.1
      rw [List.cons_append, List.findIdx?_cons, hb, ih h.2]
      rfl
  rw [linePiece, lineIndex, hidx]
  dsimp only
  rw [List.take_append, List.take_of_length_le (by omega), Nat.add_sub_cancel_left]
  rfl

/-- A chunk without a newline starts the first line of the text it starts. -/
theorem line_behind {chunk t line rest : List Byte} (hno : newline ∉ chunk)
    (h : chunk ++ t = line ++ newline :: rest) : ∃ line', line = chunk ++ line' := by
  rcases List.append_eq_append_iff.mp h with ⟨t, rfl, -⟩ | ⟨t, rfl, ht⟩
  · exact ⟨t, rfl⟩
  · cases t with
    | nil => exact ⟨[], by simp⟩
    | cons b t =>
      obtain ⟨rfl, -⟩ := List.cons.inj ht
      exact absurd (by simp) hno

/-- A text has one first line. -/
theorem first_line_unique {line line' rest rest' : List Byte}
    (h : line ++ newline :: rest = line' ++ newline :: rest') (hno : newline ∉ line)
    (hno' : newline ∉ line') : line = line' := by
  obtain ⟨t, rfl⟩ := line_behind hno h
  obtain ⟨t', ht'⟩ := line_behind hno' h.symm
  have hlen := congrArg List.length ht'
  rw [List.length_append, List.length_append] at hlen
  rw [List.eq_nil_of_length_eq_zero (show t.length = 0 by omega), List.append_nil]

theorem newline_not_mem_of_prefix {t line : List Byte} (h : newline ∉ t) :
    ¬ line ++ [newline] <+: t := by
  intro hpre
  exact h (hpre.subset (List.mem_append_right _ List.mem_cons_self))

/-! ## The passes of a plain run -/

section PlainPasses

variable {r : Round} {chunk : List Byte} {rs : List Round}

/-- A short chunk ends the call. -/
theorem recvMessages_short (rs : List Round) (h : Plain r chunk)
    (hshort : chunk.length < BUFFER_SIZE) :
    recvMessages (r :: rs) = ⟨some 0, [linePiece chunk], 1⟩ := by
  rw [recvMessages_plain h, loopGuard, if_neg (Nat.not_le.mpr hshort), RecvRun.pass]

/-- A full chunk is followed by another pass. -/
theorem recvMessages_full (rs : List Round) (h : Plain r chunk)
    (hfull : ¬ chunk.length < BUFFER_SIZE) :
    recvMessages (r :: rs) =
      ⟨(recvMessages rs).ret, linePiece chunk :: (recvMessages rs).written,
        (recvMessages rs).recvs + 1⟩ := by
  rw [recvMessages_plain h, loopGuard, if_pos (Nat.not_lt.mp hfull), RecvRun.pass]
  rfl

end PlainPasses

/-! ## Is the line complete when the call returns? -/

/-- If the call returns 0, then what it wrote starts with the first line of the
    stream, newline included. -/
def CompleteLine (rounds : List Round) (chunks : List (List Byte)) : Prop :=
  (recvMessages rounds).ret = some 0 →
    ∃ line rest, chunks.flatten = line ++ newline :: rest ∧ newline ∉ line ∧
      line ++ [newline] <+: (recvMessages rounds).written.flatten

/-- Up to the first chunk with a newline, every chunk fills the buffer. -/
def FullUntilLine : List (List Byte) → Prop
  | [] => True
  | c :: cs => newline ∈ c ∨ c.length = BUFFER_SIZE ∧ FullUntilLine cs

/-- A full chunk without a newline leaves the question to the rest. -/
theorem completeLine_cons_full {r : Round} {chunk : List Byte} {rs : List Round}
    {cs : List (List Byte)} (h : Plain r chunk) (hno : newline ∉ chunk)
    (hfull : ¬ chunk.length < BUFFER_SIZE) :
    CompleteLine (r :: rs) (chunk :: cs) ↔ CompleteLine rs cs := by
  rw [CompleteLine, CompleteLine, recvMessages_full _ h hfull, linePiece_of_not_mem hno]
  dsimp only
  rw [List.flatten_cons, List.flatten_cons]
  refine ⟨?_, ?_⟩
  · intro hc hret
    obtain ⟨line, rest, heq, hline, hpre⟩ := hc hret
    obtain ⟨line', rfl⟩ := line_behind hno heq
    rw [List.append_assoc, List.append_cancel_left_eq] at heq
    rw [List.append_assoc, List.prefix_append_right_inj] at hpre
    exact ⟨line', rest, heq, fun hmem => hline (List.mem_append_right _ hmem), hpre⟩
  · intro hc hret
    obtain ⟨line, rest, heq, hline, hpre⟩ := hc hret
    refine ⟨chunk ++ line, rest, by rw [heq, List.append_assoc], ?_, ?_⟩
    · rw [List.mem_append, not_or]
      exact ⟨hno, hline⟩
    · rw [List.append_assoc, List.prefix_append_right_inj]
      exact hpre

/-- A call that receives text returns only with its line complete exactly if no
    short chunk comes before the newline. -/
theorem recvMessages_completeLine_iff {rounds : List Round} {chunks : List (List Byte)}
    (h : PlainRun rounds chunks) : CompleteLine rounds chunks ↔ FullUntilLine chunks := by
  induction h with
  | nil =>
    rw [FullUntilLine, iff_true]
    intro hret
    cases hret
  | @cons r chunk rs cs hplain hrest ih =>
    have hle := hplain.length_le
    by_cases hmem : newline ∈ chunk
    · -- the piece written is the line, whether or not the call goes on
      obtain ⟨line, rest, rfl, hline⟩ := List.eq_append_cons_of_mem hmem
      have hcond : FullUntilLine ((line ++ newline :: rest) :: cs) := .inl hmem
      rw [iff_true_right hcond]
      intro _
      refine ⟨line, rest ++ cs.flatten, by simp, hline, ?_⟩
      by_cases hshort : (line ++ newline :: rest).length < BUFFER_SIZE
      · rw [recvMessages_short _ hplain hshort, linePiece_append hline]
        simp
      · rw [recvMessages_full _ hplain hshort, linePiece_append hline]
        simp
    · by_cases hshort : chunk.length < BUFFER_SIZE
      · -- a short chunk without a newline: the call returns 0 with only this piece written
        have hcond : ¬ FullUntilLine (chunk :: cs) := by
          rw [FullUntilLine, not_or]
          exact ⟨hmem, fun hfull => by omega⟩
        rw [iff_false_right hcond]
        intro hc
        obtain ⟨line, rest, -, -, hpre⟩ := hc (by rw [recvMessages_short _ hplain hshort])
        rw [recvMessages_short _ hplain hshort, linePiece_of_not_mem hmem] at hpre
        exact newline_not_mem_of_prefix hmem (by simpa using hpre)
      · -- a full chunk without a newline: on to the next
        have hfull : chunk.length = BUFFER_SIZE := by omega
        rw [completeLine_cons_full hplain hmem hshort, ih, FullUntilLine]
        simp [hmem, hfull]

/-- `hello` and a newline, received as `hel` and `lo` with the newline. -/
def splitHello : List Round :=
  [⟨.chunk (.of 104 [101, 108]), none, 3⟩,
    ⟨.chunk (.of 108 [111, newline]), none, 3⟩]

/-- The same line received at once. -/
def wholeHello : List Round :=
  [⟨.chunk (.of 104 [101, 108, 108, 111, newline]), none, 6⟩]

theorem splitHello_plain : PlainRun splitHello [[104, 101, 108], [108, 111, newline]] :=
  .cons ⟨⟨_, rfl, rfl⟩, by decide, rfl⟩ (.cons ⟨⟨_, rfl, rfl⟩, by decide, rfl⟩ .nil)

theorem wholeHello_plain : PlainRun wholeHello [[104, 101, 108, 108, 111, newline]] :=
  .cons ⟨⟨_, rfl, rfl⟩, by decide, rfl⟩ .nil

/-- In two pieces the call returns 0 after `hel`; in one it writes the line. -/
theorem splitHello_cut_short :
    PlainRun splitHello [[104, 101, 108], [108, 111, newline]] ∧
      ¬ CompleteLine splitHello [[104, 101, 108], [108, 111, newline]] ∧
      recvMessages splitHello = ⟨some 0, [[104, 101, 108]], 1⟩ ∧
      PlainRun wholeHello [[104, 101, 108, 108, 111, newline]] ∧
      recvMessages wholeHello = ⟨some 0, [[104, 101, 108, 108, 111, newline]], 1⟩ := by
  have hsplit : recvMessages splitHello = ⟨some 0, [[104, 101, 108]], 1⟩ := by
    -- three bytes do not fill the buffer
    obtain ⟨hfirst, -⟩ := List.forall₂_cons.mp splitHello_plain
    exact recvMessages_short _ hfirst (by decide)
  have hwhole : recvMessages wholeHello =
      ⟨some 0, [[104, 101, 108, 108, 111, newline]], 1⟩ := by
    obtain ⟨hfirst, -⟩ := List.forall₂_cons.mp wholeHello_plain
    exact recvMessages_short _ hfirst (by decide)
  refine ⟨splitHello_plain, fun hc => ?_, hsplit, wholeHello_plain, hwhole⟩
  obtain ⟨line, rest, -, -, hpre⟩ := hc (by rw [hsplit])
  rw [hsplit] at hpre
  exact newline_not_mem_of_prefix (by decide) hpre

/-- The bytes of a line that fills the buffer, less the newline. The parser stops
    at the NUL. -/
def longText : List Byte := 97 :: 0 :: List.replicate 1021 97

theorem longText_length : longText.length = 1023 := by
  rw [longText, List.length_cons, List.length_cons, List.length_replicate]

theorem newline_not_mem_longText : newline ∉ longText := by
  intro hmem
  rw [longText, List.mem_cons, List.mem_cons] at hmem
  rcases hmem with h97 | h0 | hrep
  · exact absurd h97 (by decide)
  · exact absurd h0 (by decide)
  · exact absurd (List.eq_of_mem_replicate hrep) (by decide)

/-- The line fills the buffer once, and the rest of it comes with the next chunk. -/
def longLine : List Round :=
  [⟨.chunk ⟨longText ++ [97], by simp [longText_length, BUFFER_SIZE]⟩, none, 1024⟩,
    ⟨.chunk (.of 108 [111, newline]), none, 3⟩]

theorem newline_not_mem_longText_concat : newline ∉ longText ++ [97] := by
  rw [List.mem_append, not_or]
  exact ⟨newline_not_mem_longText, by decide⟩

theorem longLine_plain : PlainRun longLine [longText ++ [97], [108, 111, newline]] := by
  refine .cons ⟨⟨_, rfl, rfl⟩, rfl, ?_⟩ (.cons ⟨⟨_, rfl, rfl⟩, by decide, rfl⟩ .nil)
  rw [linePiece_of_not_mem newline_not_mem_longText_concat]
  simp [longText_length]

/-- The call takes both chunks, writes them and returns 0. -/
theorem longLine_written :
    recvMessages longLine = ⟨some 0, [longText ++ [97], [108, 111, newline]], 2⟩ := by
  obtain ⟨hfirst, hrest⟩ := List.forall₂_cons.mp longLine_plain
  obtain ⟨hsecond, -⟩ := List.forall₂_cons.mp hrest
  rw [longLine, recvMessages_full _ hfirst (by simp [longText_length, BUFFER_SIZE]),
    recvMessages_short _ hsecond (by decide),
    linePiece_of_not_mem newline_not_mem_longText_concat]
  rfl

theorem longLine_completeLine :
    (recvMessages longLine).ret = some 0 ∧
      CompleteLine longLine [longText ++ [97], [108, 111, newline]] := by
  refine ⟨by rw [longLine_written], (recvMessages_completeLine_iff longLine_plain).mpr (.inr ?_)⟩
  exact ⟨by simp [longText_length, BUFFER_SIZE], .inl (by decide)⟩

/-! ## Does the call return when the line is complete? -/

/-- Once the call has handled a chunk with a newline it returns 0 without
    another `recv`, and what it wrote is a prefix of the stream that ends no
    later than the first newline. -/
structure StopsAtLine (rounds : List Round) (chunks : List (List Byte)) : Prop where
  stops : ∀ pre r post, rounds = pre ++ r :: post → (recvMessages pre).ret = none →
    (∃ c : Chunk, r.recv = .chunk c ∧ newline ∈ c.val) →
    (recvMessages rounds).ret = some 0 ∧ (recvMessages rounds).recvs = pre.length + 1
  written_prefix : (recvMessages rounds).written.flatten <+: chunks.flatten
  nothing_after : ∀ line rest, chunks.flatten = line ++ newline :: rest → newline ∉ line →
    (recvMessages rounds).written.flatten <+: line ++ [newline]

/-- The first chunk with a newline, if the loop gets to it, does not fill the buffer. -/
def LineEndsShort : List (List Byte) → Prop
  | [] => True
  | c :: cs =>
    (newline ∈ c → c.length < BUFFER_SIZE) ∧
      (newline ∉ c → c.length = BUFFER_SIZE → LineEndsShort cs)

/-- A call that has taken no answer from `recv` has not returned. -/
theorem ret_of_recvs_eq_zero {rounds : List Round} (h : (recvMessages rounds).recvs = 0) :
    (recvMessages rounds).ret = none := by
  cases rounds with
  | nil => rfl
  | cons r rs =>
    exfalso
    unfold recvMessages at h
    split at h
    · cases h
    · unfold RecvRun.pass at h
      split at h <;> cases h
    · unfold RecvRun.pass at h
      split at h <;> cases h

/-- A full chunk without a newline leaves this question to the rest as well. -/
theorem stopsAtLine_cons_full {r : Round} {chunk : List Byte} {rs : List Round}
    {cs : List (List Byte)} (h : Plain r chunk) (hno : newline ∉ chunk)
    (hfull : ¬ chunk.length < BUFFER_SIZE) :
    StopsAtLine (r :: rs) (chunk :: cs) ↔ StopsAtLine rs cs := by
  have hrun := recvMessages_full rs h hfull
  rw [linePiece_of_not_mem hno] at hrun
  refine ⟨?_, ?_⟩
  · intro hst
    have hprefix := hst.written_prefix
    rw [hrun, List.flatten_cons, List.flatten_cons, List.prefix_append_right_inj] at hprefix
    refine { stops := ?_, written_prefix := hprefix, nothing_after := ?_ }
    · intro pre r' post hsplit hret hc
      -- the call is still waiting after one pass more in front
      have hpre : (recvMessages (r :: pre)).ret = none := by
        rw [recvMessages_full _ h hfull]
        exact hret
      have hstop := hst.stops (r :: pre) r' post (by rw [hsplit, List.cons_append]) hpre hc
      rw [hrun, List.length_cons] at hstop
      exact ⟨hstop.1, Nat.succ.inj hstop.2⟩
    · intro line rest heq hline
      have hbound := hst.nothing_after (chunk ++ line) rest
        (by rw [List.flatten_cons, heq, List.append_assoc])
        (by rw [List.mem_append, not_or]; exact ⟨hno, hline⟩)
      rw [hrun, List.flatten_cons, List.append_assoc, List.prefix_append_right_inj] at hbound
      exact hbound
  · intro hst
    refine { stops := ?_, written_prefix := ?_, nothing_after := ?_ }
    · intro pre r' post hsplit hret hc
      cases pre with
      | nil =>
        obtain ⟨rfl, -⟩ := List.cons.inj hsplit
        obtain ⟨c, hrecv, hmem⟩ := hc
        obtain ⟨c', hrecv', rfl⟩ := h.recv
        obtain rfl := RecvResult.chunk.inj (hrecv.symm.trans hrecv')
        exact absurd hmem hno
      | cons d pre =>
        obtain ⟨rfl, rfl⟩ := List.cons.inj hsplit
        rw [recvMessages_full _ h hfull] at hret
        obtain ⟨hzero, hrecvs⟩ := hst.stops pre r' post rfl hret hc
        rw [hrun, List.length_cons]
        exact ⟨hzero, congrArg Nat.succ hrecvs⟩
    · rw [hrun, List.flatten_cons, List.flatten_cons, List.prefix_append_right_inj]
      exact hst.written_prefix
    · intro line rest heq hline
      rw [List.flatten_cons] at heq
      obtain ⟨line', rfl⟩ := line_behind hno heq
      rw [List.append_assoc, List.append_cancel_left_eq] at heq
      rw [hrun, List.flatten_cons, List.append_assoc, List.prefix_append_right_inj]
      exact hst.nothing_after line' rest heq fun hmem => hline (List.mem_append_right _ hmem)

/-- After a short chunk the call is over. -/
theorem stopsAtLine_cons_short {r : Round} {chunk : List Byte} {rs : List Round}
    {cs : List (List Byte)} (h : Plain r chunk) (hshort : chunk.length < BUFFER_SIZE) :
    StopsAtLine (r :: rs) (chunk :: cs) := by
  have hrun := recvMessages_short rs h hshort
  refine { stops := ?_, written_prefix := ?_, nothing_after := ?_ }
  · intro pre r' post hsplit hret _
    cases pre with
    | nil =>
      rw [hrun]
      exact ⟨rfl, rfl⟩
    | cons d pre =>
      obtain ⟨rfl, rfl⟩ := List.cons.inj hsplit
      rw [recvMessages_short _ h hshort] at hret
      cases hret
  · rw [hrun, List.flatten_cons, List.flatten_cons, List.flatten_nil, List.append_nil]
    exact (List.take_prefix _ chunk).trans (List.prefix_append chunk cs.flatten)
  · intro line rest heq hline
    rw [hrun, List.flatten_cons, List.flatten_nil, List.append_nil]
    by_cases hmem : newline ∈ chunk
    · -- the piece is the line itself
      obtain ⟨line', rest', rfl, hline'⟩ := List.eq_append_cons_of_mem hmem
      rw [List.flatten_cons, List.append_assoc, List.cons_append] at heq
      have hpiece : linePiece (line' ++ newline :: rest') = line ++ [newline] := by
        rw [first_line_unique heq hline' hline, linePiece_append hline]
      exact hpiece ▸ List.prefix_refl _
    · -- the piece is the whole chunk, and the line goes on behind it
      rw [List.flatten_cons] at heq
      obtain ⟨line', rfl⟩ := line_behind hmem heq
      rw [linePiece_of_not_mem hmem, List.append_assoc]
      exact List.prefix_append _ _

/-- The call stops at the first newline exactly if the chunk that brings it is
    not full. -/
theorem recvMessages_stopsAtLine_iff {rounds : List Round} {chunks : List (List Byte)}
    (h : PlainRun rounds chunks) : StopsAtLine rounds chunks ↔ LineEndsShort chunks := by
  induction h with
  | nil =>
    rw [LineEndsShort, iff_true]
    exact
      { stops := fun pre r post hsplit => absurd hsplit (by simp)
        written_prefix := List.prefix_refl _
        nothing_after := fun line rest heq => absurd heq (by simp) }
  | @cons r chunk rs cs hplain hrest ih =>
    have hle := hplain.length_le
    by_cases hshort : chunk.length < BUFFER_SIZE
    · rw [iff_true_left (stopsAtLine_cons_short hplain hshort), LineEndsShort]
      exact ⟨fun _ => hshort, fun _ hfull => by omega⟩
    · by_cases hmem : newline ∈ chunk
      · have hcond : ¬ LineEndsShort (chunk :: cs) := fun hc => hshort (hc.1 hmem)
        rw [iff_false_right hcond]
        intro hst
        -- the chunk is full, so the pass is followed by another `recv`
        obtain ⟨c, hrecv, hchunk⟩ := hplain.recv
        obtain ⟨hret, hrecvs⟩ := hst.stops [] r rs rfl rfl ⟨c, hrecv, hchunk ▸ hmem⟩
        rw [recvMessages_full _ hplain hshort] at hret hrecvs
        dsimp only [List.length_nil] at hret hrecvs
        rw [ret_of_recvs_eq_zero (by omega)] at hret
        cases hret
      · -- a full chunk without a newline: on to the next
        have hfull : chunk.length = BUFFER_SIZE := by omega
        rw [stopsAtLine_cons_full hplain hmem hshort, ih, LineEndsShort]
        simp [hmem, hfull]

/-- The line arrives at once. -/
def fullLine : List Round :=
  [⟨.chunk ⟨longText ++ [newline], by simp [longText_length, BUFFER_SIZE]⟩, none, 1024⟩]

theorem fullLine_plain : PlainRun fullLine [longText ++ [newline]] := by
  refine .cons ⟨⟨_, rfl, rfl⟩, rfl, ?_⟩ .nil
  rw [linePiece_append newline_not_mem_longText []]
  simp [longText_length]

/-- The line is complete, but the call waits for more. -/
theorem fullLine_goes_on :
    PlainRun fullLine [longText ++ [newline]] ∧ (recvMessages fullLine).ret = none ∧
      ¬ StopsAtLine fullLine [longText ++ [newline]] := by
  have hwait : (recvMessages fullLine).ret = none := by
    obtain ⟨hfirst, -⟩ := List.forall₂_cons.mp fullLine_plain
    rw [fullLine, recvMessages_full _ hfirst (by simp [longText_length, BUFFER_SIZE])]
    rfl
  refine ⟨fullLine_plain, hwait, fun hst => ?_⟩
  obtain ⟨hret, -⟩ := hst.stops [] _ [] rfl rfl ⟨_, rfl, by simp⟩
  rw [hwait] at hret
  cases hret

theorem longLine_stopsAtLine :
    (recvMessages longLine).recvs = 2 ∧
      StopsAtLine longLine [longText ++ [97], [108, 111, newline]] := by
  refine ⟨by rw [longLine_written], (recvMessages_stopsAtLine_iff longLine_plain).mpr ?_⟩
  exact ⟨fun hmem => absurd hmem newline_not_mem_longText_concat, fun _ _ =>
    ⟨fun _ => by decide, fun hno => absurd (by decide) hno⟩⟩

end Aesd.Server
