/-
  Aesd.Driver.Bounds

  The accesses of one `aesd_write` to its buffer: the size it allocates, the
  two copies into it, and the byte that the newline test looks at.

  The last one is at `current_entry.size - 1`, which is in the buffer as soon
  as there is a byte, new or pending.  An empty write on an empty pending
  entry gets a zero-size buffer from `kmalloc` and then reads in front of it.
-/
import Aesd.Driver.System

namespace Aesd.Driver

open Aesd.Lib

/-- The `kmalloc` argument of the write, as `size_t`. -/
def DriverState.allocSize (s : DriverState) (count : Nat) : Nat :=
  (s.device.currentEntry.size + count) % 2 ^ 64

/-- The index of the newline test, once the new bytes are counted. -/
def DriverState.lastIndex (s : DriverState) (count : Nat) : Nat :=
  toSizeT ((s.allocSize count : Int) - 1)

/-- A write that gets its memory stays inside it. -/
structure WritesInside (K : Kernel) (env : CallEnv) (s : DriverState) (buf : List Byte) :
    Prop where
  no_wrap : s.device.currentEntry.size + buf.length < 2 ^ 64
  copies_fit : s.device.currentEntry.size + buf.length ≤ s.allocSize buf.length
  last_inside : s.lastIndex buf.length < s.allocSize buf.length
  no_access_fails : aesdWrite K env s buf ≠ none

/-- With a byte to look at, the index does not wrap. -/
theorem lastIndex_lt {s : DriverState} {count : Nat} (hpos : s.allocSize count ≠ 0) :
    s.lastIndex count < s.allocSize count := by
  have hlt : s.allocSize count < 2 ^ 64 := Nat.mod_lt _ (by decide)
  rw [DriverState.lastIndex, toSizeT_of_lt (by omega) (by omega)]
  omega

/-- The size that `kmalloc` granted is the true sum. -/
theorem Rep.allocSize_eq {K : Kernel} {s : DriverState} {J : Journal Byte} (hR : Rep K s J)
    {count : Nat} (hcount : count ≤ MAX_RW_COUNT) :
    s.allocSize count = J.pending.length + count := by
  obtain ⟨es, ws, h⟩ := hR
  have hsmall := h.pending_small
  have hK := K.kmallocMax_lt
  rw [MAX_RW_COUNT] at hcount
  rw [DriverState.allocSize, h.pending.size_eq, Nat.mod_eq_of_lt (by omega)]

theorem Rep.size_eq {K : Kernel} {s : DriverState} {J : Journal Byte} (hR : Rep K s J) :
    s.device.currentEntry.size = J.pending.length := by
  obtain ⟨es, ws, h⟩ := hR
  exact h.pending.size_eq

/-- After any run, a write that gets the lock and its memory stays inside its
    buffer exactly if it brings a byte or meets a pending one. -/
theorem aesdWrite_inside_iff {K : Kernel} {calls : List Call} {outs : List Answer} {s : System}
    {env : CallEnv} {buf : UserBuf} (hrun : run (step K) .init calls = some (outs, s))
    (hlock : env.interrupted = false)
    (halloc : K.grants env (s.driver.allocSize buf.val.length) = true) :
    WritesInside K env s.driver buf.val ↔
      1 ≤ buf.val.length ∨ s.driver.device.currentEntry.size ≠ 0 := by
  obtain ⟨-, -, hrep⟩ := run_refines hrun
  have hsize := hrep.driver.size_eq
  have hsum := hrep.driver.allocSize_eq buf.property
  have hlt : s.driver.allocSize buf.val.length < 2 ^ 64 := Nat.mod_lt _ (by decide)
  refine ⟨?_, ?_⟩
  · intro h
    -- no byte at all: the write goes through to a test it cannot make
    by_contra hnone
    rw [not_or] at hnone
    have hbuf : buf.val = [] := List.length_eq_zero_iff.mp (by omega)
    have hpending : (absAfter K calls).journal.pending = [] :=
      List.length_eq_zero_iff.mp (by omega)
    rw [hsum] at halloc
    have hok : writeOk K env (absAfter K calls).journal buf.val = true := by
      rw [writeOk, hlock, halloc, hbuf]
      simp
    exact h.no_access_fails (aesdWrite_undefined hrep.driver ⟨hok, hbuf, hpending⟩)
  · intro hbyte
    have hdef : ¬ NoLastByte K env (absAfter K calls).journal buf.val := by
      rintro ⟨-, hbuf, hpending⟩
      rw [hpending] at hsize
      rw [hbuf] at hbyte
      simp only [List.length_nil] at hbyte hsize
      omega
    obtain ⟨s', hwrite, -⟩ := aesdWrite_refines env hrep.driver buf.property hdef
    exact {
      no_wrap := by omega
      copies_fit := by omega
      last_inside := lastIndex_lt (by omega)
      no_access_fails := by rw [hwrite]; exact Option.some_ne_none _ }

/-- A one-byte write on the fresh device. -/
theorem firstByte_inside : WritesInside .page .calm System.init.driver [97] := by
  have hlock : CallEnv.calm.interrupted = false := rfl
  have halloc : Kernel.page.grants .calm
      (System.init.driver.allocSize (vfsBuf [97]).val.length) = true := by decide
  have hone : 1 ≤ (vfsBuf [97]).val.length := by decide
  exact (aesdWrite_inside_iff (run_nil System.init) hlock halloc).mpr (.inl hone)

/-- An empty write on the fresh device gets its zero bytes, and reads outside them. -/
theorem emptyWrite_outside :
    run (step .page) .init [] = some ([], .init) ∧
      Kernel.page.grants .calm (System.init.driver.allocSize 0) = true ∧
      aesdWrite .page .calm System.init.driver [] = none ∧
      ¬ System.init.driver.lastIndex 0 < System.init.driver.allocSize 0 ∧
      ¬ WritesInside .page .calm System.init.driver [] := by
  have hno : NoLastByte .page .calm (Journal.empty : Journal Byte) [] :=
    ⟨by decide, rfl, rfl⟩
  have hnone : aesdWrite .page .calm System.init.driver [] = none :=
    aesdWrite_undefined (rep_init .page) hno
  exact ⟨rfl, by decide, hnone, by decide, fun h => h.no_access_fails hnone⟩

end Aesd.Driver
