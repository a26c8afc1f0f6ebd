/-
  Aesd.Driver.Kernel

  What the driver takes from the kernel: bytes, C integer conversions, error
  numbers, and the outcomes a call may meet (`CallEnv`).

  The kernel's own code is not part of the repository.  Its only fixed datum
  is the size limit of `kmalloc`, a parameter (`Kernel`); everything else that
  it decides is an argument of the single call.
-/
import Mathlib.Algebra.Order.Ring.Nat
import Mathlib.Algebra.Ring.Int.Defs
import Aesd.Lib.Heap

namespace Aesd.Driver

/-- A `char`. -/
abbrev Byte := UInt8

/-- `'\n'`. -/
def newline : Byte := 10

/-- The test of `aesd_write` on the last byte. -/
def isNewline (b : Byte) : Bool := b == newline

/-! ## Error numbers and limits -/

def EINTR : Int := 4
def ENOMEM : Int := 12
def EINVAL : Int := 22

/-- `INT_MAX & PAGE_MASK`: the VFS cuts every read and write down to this. -/
def MAX_RW_COUNT : Nat := 2 ^ 31 - 4096

/-- A count that the VFS passes on. -/
abbrev RwCount := { n : Nat // n ≤ MAX_RW_COUNT }

/-- A user buffer that the VFS passes on. -/
abbrev UserBuf := { b : List Byte // b.length ≤ MAX_RW_COUNT }

/-- The cut of a count. -/
def vfsCount (n : Nat) : RwCount := ⟨min n MAX_RW_COUNT, Nat.min_le_right n MAX_RW_COUNT⟩

/-- The cut of a buffer. -/
def vfsBuf (bytes : List Byte) : UserBuf :=
  ⟨bytes.take MAX_RW_COUNT, List.length_take_le MAX_RW_COUNT bytes⟩

@[simp] theorem val_vfsBuf_eq_nil_iff (bytes : List Byte) :
    (vfsBuf bytes).val = [] ↔ bytes = [] := by
  have hpos : MAX_RW_COUNT ≠ 0 := by decide
  simp [vfsBuf, hpos]

/-! ## Conversions between C integer types -/

/-- To `size_t` (64 bits). -/
def toSizeT (x : Int) : Nat := (x % 2 ^ 64).toNat

/-- To `loff_t` or `long` (64 bits, signed). -/
def toLoff (x : Int) : Int := x.bmod (2 ^ 64)

/-- To `int` (32 bits, signed). -/
def toInt (x : Int) : Int := x.bmod (2 ^ 32)

theorem toSizeT_of_lt {x : Int} (h0 : 0 ≤ x) (h : x < 2 ^ 64) : toSizeT x = x.toNat := by
  rw [toSizeT, Int.emod_eq_of_lt h0 h]

theorem toLoff_of_lt {x : Int} (h0 : -2 ^ 63 ≤ x) (h : x < 2 ^ 63) : toLoff x = x := by
  unfold toLoff
  exact Int.bmod_eq_of_le (by omega) (by omega)

theorem toInt_of_lt {x : Int} (h0 : -2 ^ 31 ≤ x) (h : x < 2 ^ 31) : toInt x = x := by
  unfold toInt
  exact Int.bmod_eq_of_le (by omega) (by omega)

@[simp] theorem toInt_zero : toInt 0 = 0 :=
  toInt_of_lt (by omega) (by omega)

/-- A count below 4 GiB is not 0 as an `int` unless it is 0. -/
theorem toInt_eq_zero_iff {n : Nat} (h : n < 2 ^ 32) : toInt (n : Int) = 0 ↔ n = 0 := by
  unfold toInt
  rw [Int.bmod_eq_emod]
  split <;> omega

/-! ## The kernel around one call -/

/-- The kernel the module is loaded into. `kmalloc` serves at least a page and
    less than 4 GiB. -/
structure Kernel where
  kmallocMax : Nat
  page_le : 4096 ≤ kmallocMax
  kmallocMax_lt : kmallocMax < 2 ^ 32

/-- The smallest one. -/
def Kernel.page : Kernel := ⟨4096, by decide, by decide⟩

/-- What one call may meet: a signal while it waits for the mutex, `kmalloc`
    out of memory, and a user buffer of which the last `uncopied` bytes (at
    most all of them) cannot be copied. -/
structure CallEnv where
  interrupted : Bool
  outOfMemory : Bool
  uncopied : Nat
  deriving DecidableEq, Repr

/-- Nothing goes wrong. -/
def CallEnv.calm : CallEnv := ⟨false, false, 0⟩

/-- `kmalloc` of `n` bytes succeeds. -/
def Kernel.grants (K : Kernel) (env : CallEnv) (n : Nat) : Bool :=
  !env.outOfMemory && decide (n ≤ K.kmallocMax)

theorem Kernel.le_of_grants {K : Kernel} {env : CallEnv} {n : Nat}
    (h : K.grants env n = true) : n ≤ K.kmallocMax := by
  simp only [Kernel.grants, Bool.and_eq_true, decide_eq_true_eq] at h
  exact h.2

end Aesd.Driver
