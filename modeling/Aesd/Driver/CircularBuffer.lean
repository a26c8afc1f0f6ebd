/-
  Aesd.Driver.CircularBuffer

  `aesd-circular-buffer.c`: the ring of the last ten entries and the search
  for a position in it.

  The two walks of the C code never count the entries.  The search keeps a
  `size_t` displacement from `out_offs` that it resets to minus `out_offs`
  at the end of the array, and stops when the displacement is back at 0.
  `findLoop_eq` shows that after `j` slots the displacement is `walkDisp`,
  that it always addresses slot `(out_offs + j) % 10`, and that the answer is
  `locate` on the sizes of the window.
-/
import Aesd.Lib.Ring
import Aesd.Driver.Kernel

namespace Aesd.Driver

open Aesd.Lib

/-- Slots of the ring. -/
abbrev AESDCHAR_MAX_WRITE_OPERATIONS_SUPPORTED : Nat := 10

/-- `struct aesd_buffer_entry`; a NULL `buffptr` is `none`. -/
structure AesdBufferEntry where
  buffptr : Option Ptr
  size : Nat
  deriving DecidableEq, Repr

/-- What `memset(.., 0, ..)` leaves in an entry. -/
def AesdBufferEntry.zero : AesdBufferEntry := ⟨none, 0⟩

/-- `struct aesd_circular_buffer`. -/
structure AesdCircularBuffer where
  entry : Vector AesdBufferEntry AESDCHAR_MAX_WRITE_OPERATIONS_SUPPORTED
  inOffs : Nat
  outOffs : Nat
  full : Bool
  deriving DecidableEq, Repr

/-! ## The functions of the source -/

/-- `aesd_circular_buffer_init`: all zero. -/
def aesdCircularBufferInit : AesdCircularBuffer :=
  { entry := Vector.replicate _ .zero, inOffs := 0, outOffs := 0, full := false }

/-- `aesd_circular_buffer_add_entry`. `none`: `in_offs` is outside the array. -/
def aesdCircularBufferAddEntry (buffer : AesdCircularBuffer) (addEntry : AesdBufferEntry) :
    Option AesdCircularBuffer :=
  if h : buffer.inOffs < AESDCHAR_MAX_WRITE_OPERATIONS_SUPPORTED then
    let entry := buffer.entry.set buffer.inOffs addEntry h
    -- `in_offs` is a `uint8_t`, raised first and tested afterwards
    let inOffs := (buffer.inOffs + 1) % 2 ^ 8
    let wraps := decide (AESDCHAR_MAX_WRITE_OPERATIONS_SUPPORTED ≤ inOffs)
    let full := if wraps then true else buffer.full
    let inOffs := if wraps then 0 else inOffs
    some { entry, inOffs, outOffs := if full then inOffs else buffer.outOffs, full }
  else none

/-- The `do`-`while` loop of the search, `fuel` passes at most. The answer is
    the index of the entry found with `*entry_offset_byte_rtn`, or `some none`
    for NULL. `none`: an index outside the array, or no pass left. -/
def findLoop (buffer : AesdCircularBuffer) : Nat → Nat → Nat → Option (Option (Nat × Nat))
  | 0, _, _ => none
  | fuel + 1, remainingOffset, currentOutOffsOffset =>
    match buffer.entry[(buffer.outOffs + currentOutOffsOffset) % 2 ^ 64]? with
    | none => none
    | some e =>
      -- a slot that was never filled: the entries end here
      if e.buffptr = none then some none
      else if e.size ≤ remainingOffset then
        -- not in this entry: go to the next slot, by a displacement that wraps as
        -- `size_t` does
        let next := (currentOutOffsOffset + 1) % 2 ^ 64
        let next :=
          if AESDCHAR_MAX_WRITE_OPERATIONS_SUPPORTED ≤ (buffer.outOffs + next) % 2 ^ 64 then
            toSizeT (-1 * buffer.outOffs)
          else next
        -- the loop condition: back at the start
        if next = 0 then some none
        else findLoop buffer fuel (remainingOffset - e.size) next
      else some (some ((buffer.outOffs + currentOutOffsOffset) % 2 ^ 64, remainingOffset))

/-- `aesd_circular_buffer_find_entry_offset_for_fpos`. One pass a slot is enough. -/
def aesdCircularBufferFindEntryOffsetForFpos (buffer : AesdCircularBuffer) (charOffset : Nat) :
    Option (Option (Nat × Nat)) :=
  findLoop buffer AESDCHAR_MAX_WRITE_OPERATIONS_SUPPORTED charOffset 0

/-- `AESD_CIRCULAR_BUFFER_FOREACH`: `body` on every slot in the order of the
    array, filled or not. -/
def aesdCircularBufferForeach {σ : Type _} (buffer : AesdCircularBuffer)
    (body : σ → AesdBufferEntry → Option σ) (x : σ) : Option σ :=
  buffer.entry.toList.foldlM body x

/-- The `num_entries` computed, in the same words, by `aesd_llseek` and by
    `aesd_unlocked_ioctl`. -/
def AesdCircularBuffer.numEntries (buffer : AesdCircularBuffer) : Int :=
  if buffer.full then AESDCHAR_MAX_WRITE_OPERATIONS_SUPPORTED
  else
    let n := (buffer.inOffs : Int) - buffer.outOffs
    if n < 0 then n + AESDCHAR_MAX_WRITE_OPERATIONS_SUPPORTED else n

/-! ## The ring after any number of additions -/

/-- The buffer after the entries `es` were added to an empty one, oldest first. -/
structure AesdCircularBuffer.Added (buffer : AesdCircularBuffer) (es : List AesdBufferEntry) :
    Prop where
  slots : Ring.Holds .zero buffer.entry es
  inOffs_eq : buffer.inOffs = es.length % 10
  outOffs_eq : buffer.outOffs = Ring.first 10 es.length
  full_eq : buffer.full = decide (10 ≤ es.length)

namespace AesdCircularBuffer

variable {buffer : AesdCircularBuffer} {es : List AesdBufferEntry}

theorem added_init : aesdCircularBufferInit.Added [] :=
  { slots := Ring.holds_nil AesdBufferEntry.zero
    inOffs_eq := rfl
    outOffs_eq := rfl
    full_eq := rfl }

theorem Added.outOffs_lt (h : buffer.Added es) : buffer.outOffs < 10 := by
  rw [h.outOffs_eq]
  exact Ring.first_lt (by decide) _

theorem Added.inOffs_lt (h : buffer.Added es) : buffer.inOffs < 10 := by
  rw [h.inOffs_eq]
  exact Nat.mod_lt _ (by decide)

/-- Adding an entry is a push. -/
theorem Added.addEntry (h : buffer.Added es) (e : AesdBufferEntry) :
    ∃ buffer', aesdCircularBufferAddEntry buffer e = some buffer' ∧ buffer'.Added (es ++ [e]) := by
  have hin := h.inOffs_eq
  have hlt : buffer.inOffs < AESDCHAR_MAX_WRITE_OPERATIONS_SUPPORTED := h.inOffs_lt
  have hslots := h.slots.push (Nat.mod_lt es.length (by decide)) e
  have hlen : (es ++ [e]).length = es.length + 1 := by simp
  refine ⟨_, by rw [aesdCircularBufferAddEntry, dif_pos hlt], ?_⟩
  -- the test of the C code, in terms of the number of entries added so far
  have hwraps : 10 ≤ (buffer.inOffs + 1) % 2 ^ 8 ↔ es.length % 10 = 9 := by omega
  constructor
  · simpa only [hin] using hslots
  · simp only [hwraps, decide_eq_true_eq, hlen]
    split <;> omega
  · simp only [hwraps, decide_eq_true_eq, hlen, h.full_eq, h.outOffs_eq, Ring.first]
    by_cases h9 : es.length % 10 = 9
    · simp only [h9, if_true]
      split <;> omega
    · by_cases hfull : 10 ≤ es.length
      · simp only [h9, hfull, decide_true, if_true, if_false]
        rw [if_pos (by omega)]
        omega
      · simp only [h9, hfull, decide_false, if_false, Bool.false_eq_true]
        rw [if_neg (by omega)]
  · simp only [hwraps, decide_eq_true_eq, hlen, h.full_eq]
    by_cases h9 : es.length % 10 = 9
    · rw [if_pos h9, eq_comm, decide_eq_true_eq]
      omega
    · rw [if_neg h9]
      exact decide_eq_decide.mpr (by omega)

/-- `num_entries` counts the window. -/
theorem Added.numEntries_eq (h : buffer.Added es) : buffer.numEntries = (es.rtake 10).length := by
  rw [length_rtake, numEntries, h.full_eq, h.inOffs_eq, h.outOffs_eq, Ring.first]
  by_cases hfull : 10 ≤ es.length
  · simp only [hfull, decide_true, if_true, AESDCHAR_MAX_WRITE_OPERATIONS_SUPPORTED]
    omega
  · simp only [hfull, decide_false, if_false, Bool.false_eq_true]
    rw [if_neg (by omega)]
    omega

/-! ## The position search -/

/-- The displacement after `j` slots of the walk from `out_offs`: it has
    passed the end of the array once `outOffs + j` has. -/
def walkDisp (outOffs j : Nat) : Nat := if outOffs + j < 10 then j else 2 ^ 64 + j - 10

theorem walkDisp_index {outOffs j : Nat} (ho : outOffs < 10) (hj : j < 10) :
    (outOffs + walkDisp outOffs j) % 2 ^ 64 = (outOffs + j) % 10 := by
  unfold walkDisp
  split <;> omega

/-- The increment of the loop, with its reset at the end of the array, moves
    the walk by one slot and gives 0 exactly after the tenth. -/
theorem walkDisp_next {outOffs j : Nat} (ho : outOffs < 10) (hj : j < 10) :
    (if 10 ≤ (outOffs + (walkDisp outOffs j + 1) % 2 ^ 64) % 2 ^ 64 then
        toSizeT (-1 * (outOffs : Int))
      else (walkDisp outOffs j + 1) % 2 ^ 64) =
      if j = 9 then 0 else walkDisp outOffs (j + 1) := by
  unfold walkDisp toSizeT
  split <;> split <;> split <;> try omega
  all_goals split <;> omega

theorem walkDisp_ne_zero {outOffs j : Nat} (h0 : 0 < j) : walkDisp outOffs j ≠ 0 := by
  unfold walkDisp
  split <;> omega

/-- From the `j`-th slot on, the loop searches the rest of the window. -/
theorem Added.findLoop_eq (h : buffer.Added es) (hptr : ∀ e ∈ es.rtake 10, e.buffptr ≠ none) :
    ∀ fuel j r, j < 10 → 10 - j ≤ fuel → j ≤ (es.rtake 10).length →
      findLoop buffer fuel r (walkDisp buffer.outOffs j) =
        some ((locate (((es.rtake 10).drop j).map (·.size)) r).map fun f =>
          ((buffer.outOffs + (j + f.1)) % 10, f.2)) := by
  intro fuel
  -- by induction on the passes left; `j` counts the slots behind us
  induction fuel with
  | zero =>
    intro j r hj hfuel
    omega
  | succ fuel ih =>
    intro j r hj hfuel hjlen
    have hidx := walkDisp_index h.outOffs_lt hj
    rw [findLoop, hidx]
    rcases Nat.lt_or_ge j (es.rtake 10).length with hlt | hge
    · have hget : (es.rtake 10)[j]? = some (es.rtake 10)[j] := List.getElem?_eq_getElem hlt
      have hslot : buffer.entry[(buffer.outOffs + j) % 10]? = some (es.rtake 10)[j] := by
        rw [h.outOffs_eq]
        exact h.slots.walk hget
      have hne := hptr _ (List.getElem_mem hlt)
      rw [List.drop_eq_getElem_cons hlt, List.map_cons]
      simp only [hslot, if_neg hne]
      by_cases hr : (es.rtake 10)[j].size ≤ r
      · rw [if_pos hr, walkDisp_next h.outOffs_lt hj, locate_cons_of_le hr]
        by_cases h9 : j = 9
        · -- the tenth slot was the last of a full ring: the displacement is 0
          have hdrop : (es.rtake 10).drop (j + 1) = [] := by
            apply List.drop_eq_nil_of_le
            rw [length_rtake]
            omega
          rw [if_pos h9, if_pos rfl, hdrop]
          rfl
        · -- go on with the next slot, of a shorter window
          rw [if_neg h9, if_neg (walkDisp_ne_zero (by omega)),
            ih (j + 1) _ (by omega) (by omega) hlt, Option.map_map]
          congr 2
          funext f
          simp only [Function.comp]
          congr 2
          omega
      · rw [if_neg hr, locate_cons_of_lt (by omega)]
        rfl
    · -- past the last entry of a ring that never filled up: a NULL slot
      have hlen : es.length ≤ j := by
        rw [length_rtake] at hge
        omega
      have hslot : buffer.entry[(buffer.outOffs + j) % 10]? = some .zero := by
        rw [h.outOffs_eq]
        exact h.slots.walk_rest hlen hj
      rw [hslot, List.drop_eq_nil_of_le hge]
      rfl

/-- The search is defined for every offset and finds what `locate` finds in
    the window. -/
theorem Added.find_eq (h : buffer.Added es) (hptr : ∀ e ∈ es.rtake 10, e.buffptr ≠ none)
    (charOffset : Nat) :
    aesdCircularBufferFindEntryOffsetForFpos buffer charOffset =
      some ((locate ((es.rtake 10).map (·.size)) charOffset).map fun f =>
        ((buffer.outOffs + f.1) % 10, f.2)) := by
  have hdisp : walkDisp buffer.outOffs 0 = 0 := by
    rw [walkDisp, if_pos (by simpa using h.outOffs_lt)]
  have hloop := h.findLoop_eq hptr 10 0 charOffset (by omega) (by omega) (by omega)
  rw [hdisp] at hloop
  simpa [aesdCircularBufferFindEntryOffsetForFpos] using hloop

/-- Slot `(out_offs + j) % 10` holds entry `j` of the window. -/
theorem Added.entry_eq (h : buffer.Added es) {j : Nat} {e : AesdBufferEntry}
    (hj : (es.rtake 10)[j]? = some e) :
    buffer.entry[(buffer.outOffs + j) % 10]? = some e := by
  rw [h.outOffs_eq]
  exact h.slots.walk hj

end AesdCircularBuffer

end Aesd.Driver
