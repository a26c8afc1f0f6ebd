/-
  Aesd.Driver.WriteRuns

  What the device record and its buffers look like after any sequence of
  `aesd_write` calls, in terms of the concrete fields: the walk of the ring
  from `out_offs`, the pending entry, the offsets and the `full` flag.

  `DeviceHolds` is the picture; `RepAt.deviceHolds` reads it off the
  representation, and the run theorem puts the two together.
-/
import Aesd.Lib.Run
import Aesd.Driver.Refinement

namespace Aesd.Driver

open Aesd.Lib

/-! ## Reading the concrete state -/

/-- The bytes of an entry; a NULL entry has none. -/
def entryBytes (heap : Heap Byte) (e : AesdBufferEntry) : Option (List Byte) :=
  match e.buffptr with
  -- a zeroed entry has no bytes; a size without a buffer is no text
  | none => if e.size = 0 then some [] else none
  | some p => heap.load p 0 e.size

/-- The bytes of `n` entries of the ring from slot `index` on, with wrap-around. -/
def walkRing (s : DriverState) : Nat → Nat → Option (List (List Byte))
  | 0, _ => some []
  | n + 1, index => do
    let e ← s.device.circularBuffer.entry[index]?
    let t ← entryBytes s.heap e
    -- the slot behind the last is slot 0
    let ts ← walkRing s n (if AESDCHAR_MAX_WRITE_OPERATIONS_SUPPORTED ≤ index + 1 then 0
      else index + 1)
    return t :: ts

/-- The texts of all entries in the ring, oldest first. -/
def committedTexts (s : DriverState) : Option (List (List Byte)) :=
  walkRing s s.device.circularBuffer.numEntries.toNat s.device.circularBuffer.outOffs

/-- The text of `current_entry`. -/
def pendingText (s : DriverState) : Option (List Byte) :=
  entryBytes s.heap s.device.currentEntry

/-- The device holds the last ten of the committed entries `L`, and the pending text `P`. -/
structure DeviceHolds (s : DriverState) (L : List (List Byte)) (P : List Byte) : Prop where
  ring : walkRing s (min 10 L.length) s.device.circularBuffer.outOffs = some (L.rtake 10)
  lines : ∀ e ∈ L.rtake 10, e ≠ [] ∧ e.getLast? = some newline
  current : pendingText s = some P
  pending_open : P.getLast? ≠ some newline
  inOffs_lt : s.device.circularBuffer.inOffs < 10
  outOffs_lt : s.device.circularBuffer.outOffs < 10
  not_full : s.device.circularBuffer.full = false →
    s.device.circularBuffer.outOffs = 0 ∧ s.device.circularBuffer.inOffs = L.length ∧
      ∀ i, s.device.circularBuffer.inOffs ≤ i → i < 10 →
        s.device.circularBuffer.entry[i]?.map (·.buffptr) = some none
  full_iff : s.device.circularBuffer.full = true ↔ 10 ≤ L.length
  full_offs : s.device.circularBuffer.full = true →
    s.device.circularBuffer.outOffs = s.device.circularBuffer.inOffs
  numEntries_eq : s.device.circularBuffer.numEntries = (min 10 L.length : Nat)

theorem ends_isNewline_iff (t : List Byte) :
    Journal.ends isNewline t = true ↔ t.getLast? = some newline := by
  unfold Journal.ends
  cases t.getLast? with
  | none => simp
  | some x => simp [isNewline]

/-! ## From the representation to the picture -/

section Picture

variable {K : Kernel} {s : DriverState} {J : Journal Byte}
variable {es : List AesdBufferEntry} {ws : List (Ptr × List Byte)}

/-- The walk of `n` slots from entry `j` of the window reads those entries. -/
theorem RepAt.walkRing_eq (h : RepAt K s J es ws) :
    ∀ n j, j + n ≤ (committed J).length →
      walkRing s n ((s.device.circularBuffer.outOffs + j) % 10) =
        some (((committed J).drop j).take n) := by
  intro n
  induction n with
  | zero =>
    intro j hj
    rfl
  | succ n ih =>
    intro j hj
    have hget := List.getElem?_eq_getElem (l := committed J) (i := j) (by omega)
    obtain ⟨p, hentry, hstart⟩ := h.slot hget
    -- the buffer of the entry holds its text, and the entry its length
    have hload : entryBytes s.heap (ownedEntry (p, (committed J)[j])) = some (committed J)[j] := by
      rw [entryBytes, ownedEntry]
      dsimp only
      rw [hstart.load (by omega), List.drop_zero, List.take_length]
    have hnext : (if 10 ≤ (s.device.circularBuffer.outOffs + j) % 10 + 1 then 0
        else (s.device.circularBuffer.outOffs + j) % 10 + 1) =
          (s.device.circularBuffer.outOffs + (j + 1)) % 10 := by
      split <;> omega
    rw [List.drop_eq_getElem_cons (by omega), List.take_succ_cons, walkRing]
    simp only [hentry, hload, hnext, ih (j + 1) (by omega), Option.bind_eq_bind, Option.bind_some]
    rfl

/-- The pending entry reads as the pending text. -/
theorem RepAt.current_eq (h : RepAt K s J es ws) :
    pendingText s = some J.pending := by
  have hsize := h.pending.size_eq
  unfold pendingText entryBytes
  cases hc : s.device.currentEntry.buffptr with
  | none =>
    have hP := h.pending.null hc
    rw [hP] at hsize ⊢
    exact if_pos hsize
  | some p =>
    have hmem : (p, J.pending) ∈ curOwner s.device.currentEntry J.pending ++ ws := by
      rw [curOwner, hc]
      simp
    have hstart : s.heap.StartsWith p J.pending := h.owned.startsWith _ hmem
    dsimp only
    rw [hsize, hstart.load (by omega), List.drop_zero, List.take_length]

theorem RepAt.committedTexts_eq (h : RepAt K s J es ws) :
    committedTexts s = some (committed J) := by
  have hwalk := h.walkRing_eq (committed J).length 0 (by omega)
  rw [Nat.add_zero, Nat.mod_eq_of_lt h.added.outOffs_lt, List.drop_zero, List.take_length] at hwalk
  rw [committedTexts, h.numEntries_eq, Int.toNat_natCast, hwalk]

/-- What can be read off a state that stands for `J`. -/
theorem Rep.texts (hR : Rep K s J) :
    committedTexts s = some (committed J) ∧ pendingText s = some J.pending ∧
      s.device.deviceMutex = false := by
  obtain ⟨es, ws, h⟩ := hR
  exact ⟨h.committedTexts_eq, h.current_eq, h.unlocked⟩

theorem RepAt.deviceHolds (h : RepAt K s J es ws) :
    DeviceHolds s J.entries J.pending := by
  have hlen := committed_length J
  have hin := h.added.inOffs_eq
  have hout := h.added.outOffs_eq
  have hfull := h.added.full_eq
  rw [h.length_eq] at hin hout hfull
  rw [Ring.first] at hout
  refine
    { ring := ?_, lines := ?_, current := h.current_eq, pending_open := ?_,
      inOffs_lt := h.added.inOffs_lt, outOffs_lt := h.added.outOffs_lt, not_full := ?_,
      full_iff := ?_, full_offs := ?_, numEntries_eq := ?_ }
  · have hwalk := h.committedTexts_eq
    rw [committedTexts, h.numEntries_eq, Int.toNat_natCast, hlen] at hwalk
    exact hwalk
  · intro e he
    have hends := h.wellFormed.entries_end e (mem_of_mem_rtake he)
    exact ⟨Journal.ne_nil_of_ends hends, (ends_isNewline_iff e).mp hends⟩
  · rw [Ne, ← ends_isNewline_iff, h.wellFormed.pending_open]
    exact Bool.false_ne_true
  · intro hf
    -- never full so far: entry `i` sits in slot `i` and the other slots are zero
    rw [hfull, decide_eq_false_iff_not] at hf
    rw [if_neg hf] at hout
    refine ⟨hout, by omega, fun i hi hi10 => ?_⟩
    rw [h.added.slots.rest i (by rw [h.length_eq]; omega) hi10]
    rfl
  · rw [hfull, decide_eq_true_eq]
  · intro hf
    rw [hfull, decide_eq_true_eq] at hf
    rw [hout, hin, if_pos hf]
  · rw [h.numEntries_eq, hlen]

end Picture

/-! ## Runs of writes -/

/-- One call of `aesd_write`. -/
structure WriteCall where
  buf : UserBuf
  env : CallEnv

/-- The call by the code of the driver. -/
def writeStep (K : Kernel) (s : DriverState) (w : WriteCall) : Option (Int × DriverState) :=
  aesdWrite K w.env s w.buf.val

/-- The call on the journal: a successful write appends, a failed one changes nothing. -/
def absWriteStep (K : Kernel) (J : Journal Byte) (w : WriteCall) : Int × Journal Byte :=
  (absWriteRet K w.env J w.buf.val, absWriteNext isNewline K w.env J w.buf.val)

/-- The call has a byte, or meets a non-empty pending entry. -/
def HasLastByte (J : Journal Byte) (w : WriteCall) : Prop :=
  1 ≤ w.buf.val.length ∨ J.pending ≠ []

instance (J : Journal Byte) (w : WriteCall) : Decidable (HasLastByte J w) :=
  inferInstanceAs (Decidable (_ ∨ _))

/-- The journal after the calls `ws` on an empty one. -/
def journalAfter (K : Kernel) (ws : List WriteCall) : Journal Byte :=
  (absRun (absWriteStep K) .empty ws).2

/-- One call keeps the representation. -/
theorem writeStep_refines {K : Kernel} {s : DriverState} {J : Journal Byte} (w : WriteCall)
    (hR : Rep K s J) (hw : HasLastByte J w) :
    ∃ s', writeStep K s w = some ((absWriteStep K J w).1, s') ∧
      Rep K s' (absWriteStep K J w).2 := by
  have hno : ¬ NoLastByte K w.env J w.buf.val := by
    rintro ⟨-, hb, hP⟩
    rcases hw with hlen | hne
    · rw [hb] at hlen
      exact absurd hlen (by decide)
    · exact hne hP
  exact aesdWrite_refines w.env hR w.buf.property hno

/-- After any sequence of writes, failing ones included, the calls have returned
    what they do on the journal, and the device holds the last ten committed
    entries and the pending text of the journal. -/
theorem aesdWrite_run_refines (K : Kernel) (ws : List WriteCall)
    (hws : Allowed (absWriteStep K) HasLastByte .empty ws) :
    ∃ s, run (writeStep K) aesdInitModule ws =
        some ((absRun (absWriteStep K) .empty ws).1, s) ∧
      DeviceHolds s (journalAfter K ws).entries (journalAfter K ws).pending := by
  obtain ⟨s, hrun, es, wins, h⟩ :=
    run_total (fun _ _ w hR hw => writeStep_refines w hR hw) (rep_init K) hws
  exact ⟨s, hrun, h.deviceHolds⟩

/-- Two writes that make one line, with an interrupted one between them, and an
    empty write into the pending `a`. -/
def lineInPieces : List WriteCall :=
  [⟨vfsBuf [97], .calm⟩, ⟨vfsBuf [98], ⟨true, false, 0⟩⟩, ⟨vfsBuf [], .calm⟩,
    ⟨vfsBuf [newline], .calm⟩, ⟨vfsBuf [99], .calm⟩]

theorem lineInPieces_refines :
    ∃ s, run (writeStep .page) aesdInitModule lineInPieces = some ([1, -EINTR, 0, 1, 1], s) ∧
      DeviceHolds s [[97, newline]] [99] :=
  aesdWrite_run_refines .page lineInPieces (by simp only [lineInPieces, Allowed]; decide)

end Aesd.Driver
