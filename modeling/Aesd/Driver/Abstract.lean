/-
  Aesd.Driver.Abstract

  What the device is for: a journal of newline-terminated entries of which the
  last ten can be read back.  No ring, no pointers, no heap; a call is a total
  function of the journal and of what the call meets (`CallEnv`).

  The element type is arbitrary, so that the same device can also be run on
  bytes that carry the name of their writer.
-/
import Aesd.Lib.Journal
import Aesd.Driver.CharDev

namespace Aesd.Driver

open Aesd.Lib

variable {α : Type _}

/-! ## The journal as the device sees it -/

/-- The entries that can still be read. -/
def committed (J : Journal α) : List (List α) :=
  J.entries.rtake AESDCHAR_MAX_WRITE_OPERATIONS_SUPPORTED

/-- The entries that cannot be read any more. -/
def evicted (J : Journal α) : List (List α) :=
  J.entries.rdrop AESDCHAR_MAX_WRITE_OPERATIONS_SUPPORTED

/-- The readable bytes. -/
def content (J : Journal α) : List α := (committed J).flatten

/-- Everything committed is what was evicted, then what can be read. -/
theorem evicted_append_content (J : Journal α) :
    (evicted J).flatten ++ content J = J.entries.flatten := by
  rw [content, ← List.flatten_append, evicted, committed, rdrop_append_rtake]

/-! ## The operations -/

/-- The write goes through: no signal, memory granted, every byte copied. -/
def writeOk (K : Kernel) (env : CallEnv) (J : Journal α) (b : List α) : Bool :=
  !env.interrupted && K.grants env (J.pending.length + b.length) &&
    decide (min env.uncopied b.length = 0)

/-- Return value of a write. -/
def absWriteRet (K : Kernel) (env : CallEnv) (J : Journal α) (b : List α) : Int :=
  if env.interrupted then -EINTR
  else if K.grants env (J.pending.length + b.length) = false then -ENOMEM
  else if min env.uncopied b.length ≠ 0 then (min env.uncopied b.length : Nat)
  else b.length

/-- Journal after a write. -/
def absWriteNext (isEnd : α → Bool) (K : Kernel) (env : CallEnv) (J : Journal α) (b : List α) :
    Journal α :=
  if writeOk K env J b then J.append isEnd b else J

/-- The part of the readable bytes that one read can see from position `p`:
    the rest of the entry that holds `p`, and nothing past the end. -/
def visible (J : Journal α) (p : Nat) : List α :=
  match locate ((committed J).map List.length) p with
  | none => []
  | some (i, d) => ((committed J)[i]?.getD []).drop d

/-- A read of at most `count` bytes. -/
def absRead (env : CallEnv) (J : Journal α) (count : Nat) (fPos : Int) : ReadResult α :=
  if env.interrupted then ⟨-EINTR, [], fPos⟩
  else
    let bytes := (visible J fPos.toNat).take count
    let left := min env.uncopied bytes.length
    if left ≠ 0 then ⟨toInt left, bytes.take (bytes.length - left), fPos⟩
    else ⟨bytes.length, bytes, fPos + bytes.length⟩

/-- The position asked for by `lseek`. -/
def absLlseekTarget (J : Journal α) (fPos offset whence : Int) : Option Int :=
  if whence = SEEK_SET then some offset
  else if whence = SEEK_CUR then some (toLoff (fPos + offset))
  else if whence = SEEK_END then some (toLoff ((content J).length + offset))
  else none

def absLlseek (env : CallEnv) (J : Journal α) (fPos offset whence : Int) : SeekResult :=
  if env.interrupted then ⟨-EINVAL, fPos⟩
  else
    match absLlseekTarget J fPos (toLoff offset) whence with
    | none => ⟨-EINVAL, fPos⟩
    | some newpos => if newpos < 0 then ⟨-EINVAL, fPos⟩ else ⟨newpos, newpos⟩

/-- The position of byte `o` of the `w`-th readable entry. -/
def absSeekto (J : Journal α) (w o : Nat) : Option Nat :=
  match (committed J)[w]? with
  | none => none
  | some e => if e.length ≤ o then none else some (((committed J).take w).flatten.length + o)

def absIoctl (env : CallEnv) (J : Journal α) (fPos : Int) (cmd : UInt32) (arg : AesdSeekto) :
    SeekResult :=
  if env.interrupted then ⟨-EINVAL, fPos⟩
  else if cmd = AESDCHAR_IOCSEEKTO ∧ min env.uncopied sizeofSeekto = 0 then
    match absSeekto J arg.writeCmd.toNat arg.writeCmdOffset.toNat with
    | none => ⟨-EINVAL, fPos⟩
    | some newpos => ⟨newpos, newpos⟩
  else ⟨-EINVAL, fPos⟩

/-! ## Facts about the abstract device -/

theorem committed_length (J : Journal α) : (committed J).length = min 10 J.entries.length :=
  length_rtake ..

theorem mem_entries_of_mem_committed {J : Journal α} {e : List α} (h : e ∈ committed J) :
    e ∈ J.entries :=
  mem_of_mem_rtake h

theorem visible_of_locate {J : Journal α} {p : Nat} {f : Nat × Nat} {t : List α}
    (h : locate ((committed J).map List.length) p = some f) (ht : (committed J)[f.1]? = some t) :
    visible J p = t.drop f.2 := by
  rw [visible, h]
  simp [ht]

/-- A read whose user copy is complete. -/
theorem absRead_of_copied {env : CallEnv} {J : Journal α} (count : Nat) (fPos : Int)
    (hint : env.interrupted = false)
    (hcopy : min env.uncopied ((visible J fPos.toNat).take count).length = 0) :
    absRead env J count fPos =
      ⟨((visible J fPos.toNat).take count).length, (visible J fPos.toNat).take count,
        fPos + ((visible J fPos.toNat).take count).length⟩ := by
  rw [absRead, if_neg (by simp [hint])]
  dsimp only
  rw [if_neg (fun h => h hcopy)]

/-- What can be seen from `p` on starts the readable bytes from `p` on. -/
theorem visible_append (J : Journal α) (p : Nat) :
    ∃ later, (content J).drop p = visible J p ++ later := by
  unfold visible
  cases h : locate ((committed J).map List.length) p with
  | none =>
    refine ⟨[], ?_⟩
    rw [locate_eq_none_iff, ← List.length_flatten] at h
    rw [List.append_nil, content]
    exact List.drop_eq_nil_of_le h
  | some r =>
    obtain ⟨seg, hseg, -, hdrop⟩ := flatten_drop_of_locate h
    exact ⟨_, by simpa only [hseg, Option.getD_some, content] using hdrop⟩

/-- Nothing is visible exactly past the end. -/
theorem visible_eq_nil_iff (J : Journal α) (p : Nat) :
    visible J p = [] ↔ (content J).length ≤ p := by
  unfold visible
  rw [content, List.length_flatten, ← locate_eq_none_iff]
  cases h : locate ((committed J).map List.length) p with
  | none => simp
  | some r =>
    obtain ⟨seg, hseg, hd, -⟩ := flatten_drop_of_locate h
    simp only [hseg, Option.getD_some, List.drop_eq_nil_iff, reduceCtorEq, iff_false, Nat.not_le]
    exact hd

end Aesd.Driver
