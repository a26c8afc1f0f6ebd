/-
  Aesd.Server.Command

  `check_for_ioctl_command` of `connection_thread.c`: three scans of the
  receive buffer for `:`, `,` and `\n`, and the two numbers between them.  The
  text before the `:` is not looked at.

  The buffer is the array of `BUFFER_SIZE` bytes that `recv_messages` zeroes
  before each `recv`; the outer `none` of the answer stands for an access
  outside an array.
-/
import Aesd.Lib.CString
import Aesd.Driver.CharDev

namespace Aesd.Server

open Aesd.Lib Aesd.Lib.CString
open Aesd.Driver (Byte newline AesdSeekto)

def BUFFER_SIZE : Nat := 1024

/-- What one `recv` can deliver. -/
abbrev Chunk := { b : List Byte // 1 ≤ b.length ∧ b.length ≤ BUFFER_SIZE }

/-- The chunk that a `recv` of a stream which starts with `b` can deliver. -/
def Chunk.of (b : Byte) (rest : List Byte) : Chunk :=
  ⟨b :: rest.take (BUFFER_SIZE - 1), Nat.le_add_left 1 _,
    Nat.succ_le_succ (List.length_take_le (BUFFER_SIZE - 1) rest)⟩

/-- `recv_buffer` after a `recv` of `chunk`. -/
def recvBuffer (chunk : List Byte) : List Byte :=
  chunk ++ List.replicate (BUFFER_SIZE - chunk.length) 0

/-- `':'`. -/
def colon : Byte := 58

/-- `','`. -/
def comma : Byte := 44

/-- Lines 114 to 117 and 119 to 122: the number between the separators at
    `start` and `stop`, by way of a zeroed array of ten bytes. -/
def numberBetween (recvBuffer : List Byte) (start stop : Nat) : Option UInt32 := do
  let numSize := stop - start - 1
  -- undefined beyond ten bytes; with exactly ten there is no NUL for `atoi` to stop at
  let numStr ← strncpy (List.replicate 10 0) (recvBuffer.drop (start + 1)) numSize
  let n ← atoi numStr
  return UInt32.ofInt n

/-- `none`: out of bounds; `some none`: the return value -1. -/
def checkForIoctlCommand (recvBuffer : List Byte) : Option (Option AesdSeekto) := do
  -- each scan goes on from the separator before
  match ← strchr recvBuffer 0 colon with
  | none => return none
  | some firstNumStart =>
    match ← strchr recvBuffer firstNumStart comma with
    | none => return none
    | some firstNumEnd =>
      match ← strchr recvBuffer firstNumEnd newline with
      | none => return none
      | some secondNumEnd =>
        -- `received_size` is never consulted: the text may lie behind what was received
        let writeCmd ← numberBetween recvBuffer firstNumStart firstNumEnd
        let writeCmdOffset ← numberBetween recvBuffer firstNumEnd secondNumEnd
        return some ⟨writeCmd, writeCmdOffset⟩

/-! ## The three separators -/

/-- `bytes`, cut at the separators that the scans stop at: the first `:`, the
    `,` behind it and the newline behind that, and no NUL before them. -/
structure Delimited (bytes pre X Y rest : List Byte) : Prop where
  bytes_eq : bytes = pre ++ colon :: (X ++ comma :: (Y ++ newline :: rest))
  pre_ok : colon ∉ pre ∧ 0 ∉ pre
  first_ok : comma ∉ X ∧ 0 ∉ X
  second_ok : newline ∉ Y ∧ 0 ∉ Y

section Scans

variable {bytes pre X Y rest : List Byte}

theorem Delimited.bytes_eq₂ (h : Delimited bytes pre X Y rest) :
    bytes = (pre ++ colon :: X) ++ comma :: (Y ++ newline :: rest) := by
  rw [h.bytes_eq, List.append_assoc, List.cons_append]

theorem Delimited.colon_scan (h : Delimited bytes pre X Y rest) :
    strchr bytes 0 colon = some (some pre.length) := by
  have hscan := strchr_append [] h.pre_ok.1 h.pre_ok.2 (X ++ comma :: (Y ++ newline :: rest))
  rw [List.nil_append, ← h.bytes_eq, List.length_nil, Nat.zero_add] at hscan
  exact hscan

theorem Delimited.comma_scan (h : Delimited bytes pre X Y rest) :
    strchr bytes pre.length comma = some (some (pre.length + X.length + 1)) := by
  rw [h.bytes_eq]
  exact strchr_behind pre (by decide) (by decide) h.first_ok.1 h.first_ok.2 _

theorem Delimited.newline_scan (h : Delimited bytes pre X Y rest) :
    strchr bytes (pre.length + X.length + 1) newline =
      some (some (pre.length + X.length + 1 + Y.length + 1)) := by
  have hscan := strchr_behind (pre ++ colon :: X) (c := newline) (d := comma) (by decide)
    (by decide) h.second_ok.1 h.second_ok.2 rest
  rw [← h.bytes_eq₂, List.length_append, List.length_cons] at hscan
  exact hscan

/-- Where the separators are found, the answer is that of the two numbers. -/
theorem Delimited.check_eq (h : Delimited bytes pre X Y rest) :
    checkForIoctlCommand bytes =
      (numberBetween bytes pre.length (pre.length + X.length + 1)).bind fun writeCmd =>
        (numberBetween bytes (pre.length + X.length + 1)
          (pre.length + X.length + 1 + Y.length + 1)).map fun writeCmdOffset =>
            some ⟨writeCmd, writeCmdOffset⟩ := by
  unfold checkForIoctlCommand
  simp only [h.colon_scan, h.comma_scan, h.newline_scan, Option.bind_eq_bind, Option.bind_some]
  congr 1
  funext writeCmd
  rw [Option.map_eq_bind]
  rfl

end Scans

/-! ## The text between two separators -/

/-- What `strncpy` leaves in the zeroed array, for a text that fits. -/
theorem numStr_eq (pre rest : List Byte) {t : List Byte} (c d : Byte) (h0 : 0 ∉ t)
    (hfit : t.length ≤ 10) :
    strncpy (List.replicate 10 0) ((pre ++ c :: (t ++ d :: rest)).drop (pre.length + 1))
      t.length = some (t ++ List.replicate (10 - t.length) 0) := by
  have hdrop : (pre ++ c :: (t ++ d :: rest)).drop (pre.length + 1) = t ++ d :: rest := by
    rw [List.drop_append, List.drop_of_length_le (by omega), Nat.add_sub_cancel_left,
      List.nil_append]
    rfl
  have hlen : t.length ≤ (List.replicate 10 (0 : Byte)).length := by
    rw [List.length_replicate]
    exact hfit
  rw [hdrop, strncpy_append hlen h0, List.drop_replicate]

/-- The number between two separators, for a text that fits. -/
theorem numberBetween_eq (pre rest : List Byte) {t : List Byte} (c d : Byte) (h0 : 0 ∉ t)
    (hfit : t.length ≤ 10) :
    numberBetween (pre ++ c :: (t ++ d :: rest)) pre.length (pre.length + t.length + 1) =
      (atoi (t ++ List.replicate (10 - t.length) 0)).map UInt32.ofInt := by
  have hsize : pre.length + t.length + 1 - pre.length - 1 = t.length := by omega
  unfold numberBetween
  simp only [hsize, numStr_eq pre rest c d h0 hfit, Option.bind_eq_bind, Option.bind_some]
  rw [Option.map_eq_bind]
  rfl

/-- A longer text overruns the array. -/
theorem numberBetween_too_long (bytes : List Byte) {start n : Nat} (hlong : 10 < n) :
    numberBetween bytes start (start + n + 1) = none := by
  have hsize : start + n + 1 - start - 1 = n := by omega
  have hover : (List.replicate 10 (0 : Byte)).length < n := by
    rw [List.length_replicate]
    exact hlong
  unfold numberBetween
  simp only [hsize, strncpy_too_long hover, Option.bind_eq_bind, Option.bind_none]

/-- The text between two separators is read back as a number. -/
theorem numberBetween_numeral (pre rest : List Byte) {ds : List Byte} (c d : Byte)
    (hds : Numeral 9 ds) :
    numberBetween (pre ++ c :: (ds ++ d :: rest)) pre.length (pre.length + ds.length + 1) =
      some (UInt32.ofNat (decimal ds)) := by
  have h9 := hds.length_le
  -- the copy leaves at least one NUL of the array in place
  have hzero : List.replicate (10 - ds.length) (0 : Byte) =
      0 :: List.replicate (9 - ds.length) 0 := by
    rw [show 10 - ds.length = 9 - ds.length + 1 by omega, List.replicate_succ]
  have hlt := hds.decimal_lt
  -- nine digits fit `int` and `uint32_t`
  have hfits : ((decimal ds : Int) % 2 ^ 32).toNat = decimal ds := by
    rw [Int.emod_eq_of_lt (by omega) (by omega), Int.toNat_natCast]
  rw [numberBetween_eq pre rest c d (hds.not_mem (by decide)) (by omega), hzero,
    hds.atoi_append (by decide), Option.map_some, UInt32.ofInt, hfits]

/-! ## A well-formed command -/

/-- `AESDCHAR_IOCSEEKTO`. -/
def commandName : List Byte :=
  [65, 69, 83, 68, 67, 72, 65, 82, 95, 73, 79, 67, 83, 69, 69, 75, 84, 79]

/-- `AESDCHAR_IOCSEEKTO:X,Y` and a newline. -/
def seekCommand (X Y : List Byte) : List Byte :=
  commandName ++ colon :: (X ++ comma :: (Y ++ [newline]))

/-- A command is cut at its own separators, whatever comes behind it. -/
theorem delimited_seekCommand {n : Nat} {X Y : List Byte} (hX : Numeral n X) (hY : Numeral n Y)
    (rest : List Byte) : Delimited (seekCommand X Y ++ rest) commandName X Y rest :=
  { bytes_eq := by simp [seekCommand]
    pre_ok := by decide
    first_ok := ⟨hX.not_mem (by decide), hX.not_mem (by decide)⟩
    second_ok := ⟨hY.not_mem (by decide), hY.not_mem (by decide)⟩ }

/-- Two numbers that fit the arrays are read. -/
theorem Delimited.check_numerals {bytes pre X Y rest : List Byte}
    (h : Delimited bytes pre X Y rest) (hX : Numeral 9 X) (hY : Numeral 9 Y) :
    checkForIoctlCommand bytes =
      some (some ⟨UInt32.ofNat (decimal X), UInt32.ofNat (decimal Y)⟩) := by
  have hfirst := numberBetween_numeral pre (Y ++ newline :: rest) colon comma hX
  have hsecond := numberBetween_numeral (pre ++ colon :: X) rest comma newline hY
  rw [← h.bytes_eq] at hfirst
  rw [← h.bytes_eq₂, List.length_append, List.length_cons, ← Nat.add_assoc] at hsecond
  rw [h.check_eq, hfirst, hsecond]
  rfl

/-- The parser reads a well-formed command. -/
theorem checkForIoctlCommand_seekCommand {X Y : List Byte} (hX : Numeral 9 X) (hY : Numeral 9 Y) :
    checkForIoctlCommand (recvBuffer (seekCommand X Y)) =
      some (some ⟨UInt32.ofNat (decimal X), UInt32.ofNat (decimal Y)⟩) :=
  (delimited_seekCommand hX hY _).check_numerals hX hY

end Aesd.Server
