/-
  Aesd.Lib.CString

  The string functions of the C library on arrays of bytes.  A function that
  would touch a byte outside the array it is given answers `none`; a null
  pointer as a result is the inner `none` of `strchr`.
-/
import Mathlib.Data.List.Basic
import Mathlib.Data.List.TakeWhile
import Mathlib.Algebra.Order.Ring.Nat
import Mathlib.Algebra.Ring.Int.Defs

namespace Aesd.Lib

namespace CString

/-! ## `strchr` -/

/-- The scan of `strchr`, which has reached index `i`. -/
def strchrFrom (c : UInt8) : List UInt8 → Nat → Option (Option Nat)
  | [], _ => none
  | b :: bs, i =>
    if b = c then some (some i) else if b = 0 then some none else strchrFrom c bs (i + 1)

/-- `strchr(mem + i, c)`, with the index of the match in `mem`. -/
def strchr (mem : List UInt8) (i : Nat) (c : UInt8) : Option (Option Nat) :=
  strchrFrom c (mem.drop i) i

theorem strchrFrom_append {c : UInt8} {t : List UInt8} (hc : c ∉ t) (h0 : 0 ∉ t)
    (rest : List UInt8) (i : Nat) :
    strchrFrom c (t ++ c :: rest) i = some (some (i + t.length)) := by
  induction t generalizing i with
  | nil => rw [List.nil_append, strchrFrom, if_pos rfl, List.length_nil, Nat.add_zero]
  | cons b t ih =>
    rw [List.mem_cons, not_or] at hc h0
    rw [List.cons_append, strchrFrom, if_neg (Ne.symm hc.1), if_neg (Ne.symm h0.1),
      ih hc.2 h0.2, List.length_cons]
    congr 2
    omega

theorem strchrFrom_nul {c : UInt8} {t : List UInt8} (hc : c ∉ t) (h0 : 0 ∉ t) (hne : c ≠ 0)
    (rest : List UInt8) (i : Nat) : strchrFrom c (t ++ 0 :: rest) i = some none := by
  induction t generalizing i with
  | nil => rw [List.nil_append, strchrFrom, if_neg (Ne.symm hne), if_pos rfl]
  | cons b t ih =>
    rw [List.mem_cons, not_or] at hc h0
    rw [List.cons_append, strchrFrom, if_neg (Ne.symm hc.1), if_neg (Ne.symm h0.1), ih hc.2 h0.2]

theorem strchrFrom_of_not_mem {c : UInt8} {t : List UInt8} (hc : c ∉ t) (h0 : 0 ∉ t) (i : Nat) :
    strchrFrom c t i = none := by
  induction t generalizing i with
  | nil => rfl
  | cons b t ih =>
    rw [List.mem_cons, not_or] at hc h0
    rw [strchrFrom, if_neg (Ne.symm hc.1), if_neg (Ne.symm h0.1), ih hc.2 h0.2]

/-- What a scan can meet: the byte it looks for, a NUL before it, or neither. -/
theorem scan_cases (c : UInt8) (bs : List UInt8) :
    (∃ t rest, bs = t ++ c :: rest ∧ c ∉ t ∧ 0 ∉ t) ∨
      (∃ t rest, bs = t ++ 0 :: rest ∧ c ∉ t ∧ 0 ∉ t) ∨ c ∉ bs ∧ 0 ∉ bs := by
  induction bs with
  | nil => simp
  | cons b bs ih =>
    by_cases hc : b = c
    · exact .inl ⟨[], bs, by rw [hc, List.nil_append], by simp, by simp⟩
    · by_cases h0 : b = 0
      · exact .inr (.inl ⟨[], bs, by rw [h0, List.nil_append], by simp, by simp⟩)
      · -- neither: the scan goes on
        have hcons : ∀ {x : UInt8} {t : List UInt8}, b ≠ x → x ∉ t → x ∉ b :: t := by
          intro x t hx ht
          rw [List.mem_cons, not_or]
          exact ⟨Ne.symm hx, ht⟩
        rcases ih with ⟨t, rest, rfl, hct, h0t⟩ | ⟨t, rest, rfl, hct, h0t⟩ | ⟨hct, h0t⟩
        · exact .inl ⟨b :: t, rest, rfl, hcons hc hct, hcons h0 h0t⟩
        · exact .inr (.inl ⟨b :: t, rest, rfl, hcons hc hct, hcons h0 h0t⟩)
        · exact .inr (.inr ⟨hcons hc hct, hcons h0 h0t⟩)

/-- The scan stops at the first `c` if it meets no NUL before. -/
theorem strchr_append (pre : List UInt8) {c : UInt8} {t : List UInt8} (hc : c ∉ t) (h0 : 0 ∉ t)
    (rest : List UInt8) :
    strchr (pre ++ (t ++ c :: rest)) pre.length c = some (some (pre.length + t.length)) := by
  rw [strchr, List.drop_left, strchrFrom_append hc h0]

/-- A scan from the start of `suf` either finds `c` before any NUL, or says so,
    or leaves the array where `suf` has no NUL. -/
theorem strchr_cases (pre suf : List UInt8) {c : UInt8} (hne : c ≠ 0) :
    (∃ t rest, suf = t ++ c :: rest ∧ c ∉ t ∧ 0 ∉ t) ∨
      strchr (pre ++ suf) pre.length c = if 0 ∈ suf then some none else none := by
  rcases scan_cases c suf with hfound | ⟨t, rest, rfl, hc, h0⟩ | ⟨hc, h0⟩
  · exact .inl hfound
  · right
    rw [strchr, List.drop_left, strchrFrom_nul hc h0 hne, if_pos (by simp)]
  · right
    rw [strchr, List.drop_left, strchrFrom_of_not_mem hc h0, if_neg h0]

/-- A scan that starts at another byte `d` and finds `c` behind it. -/
theorem strchr_behind (pre : List UInt8) {c d : UInt8} (hd : d ≠ c) (hd0 : d ≠ 0)
    {t : List UInt8} (hc : c ∉ t) (h0 : 0 ∉ t) (rest : List UInt8) :
    strchr (pre ++ d :: (t ++ c :: rest)) pre.length c =
      some (some (pre.length + t.length + 1)) := by
  have hc' : c ∉ d :: t := by
    rw [List.mem_cons, not_or]
    exact ⟨Ne.symm hd, hc⟩
  have h0' : (0 : UInt8) ∉ d :: t := by
    rw [List.mem_cons, not_or]
    exact ⟨Ne.symm hd0, h0⟩
  have hscan := strchr_append pre hc' h0' rest
  rw [List.cons_append, List.length_cons] at hscan
  exact hscan

theorem strchr_cases_behind (pre suf : List UInt8) {c d : UInt8} (hne : c ≠ 0) (hd : d ≠ c)
    (hd0 : d ≠ 0) :
    (∃ t rest, suf = t ++ c :: rest ∧ c ∉ t ∧ 0 ∉ t) ∨
      strchr (pre ++ d :: suf) pre.length c = if 0 ∈ suf then some none else none := by
  rcases strchr_cases pre (d :: suf) hne with ⟨t, rest, ht, hc, h0⟩ | hmiss
  · left
    cases t with
    | nil =>
      rw [List.nil_append, List.cons.injEq] at ht
      exact absurd ht.1 hd
    | cons b t =>
      rw [List.cons_append, List.cons.injEq] at ht
      rw [List.mem_cons, not_or] at hc h0
      exact ⟨t, rest, ht.2, hc.2, h0.2⟩
  · right
    rw [hmiss]
    simp [Ne.symm hd0]

/-! ## `strncpy` -/

/-- The `n` bytes that `strncpy` stores: the string, padded with NULs. -/
def strncpyBytes : Nat → List UInt8 → Option (List UInt8)
  | 0, _ => some []
  -- the source ends without a NUL
  | _ + 1, [] => none
  | n + 1, b :: bs =>
    -- behind the NUL of the source only NULs are stored
    if b = 0 then some (List.replicate (n + 1) 0) else (strncpyBytes n bs).map (b :: ·)

/-- `strncpy(dst, src, n)`: the destination array afterwards. -/
def strncpy (dst src : List UInt8) (n : Nat) : Option (List UInt8) :=
  if dst.length < n then none else (strncpyBytes n src).map (· ++ dst.drop n)

theorem strncpyBytes_append {t : List UInt8} (h0 : 0 ∉ t) (rest : List UInt8) :
    strncpyBytes t.length (t ++ rest) = some t := by
  induction t with
  | nil => rfl
  | cons b t ih =>
    rw [List.mem_cons, not_or] at h0
    rw [List.length_cons, List.cons_append, strncpyBytes, if_neg (Ne.symm h0.1), ih h0.2,
      Option.map_some]

/-- A copy of exactly the bytes of a string that fits. -/
theorem strncpy_append {dst t : List UInt8} (hfit : t.length ≤ dst.length) (h0 : 0 ∉ t)
    (rest : List UInt8) : strncpy dst (t ++ rest) t.length = some (t ++ dst.drop t.length) := by
  rw [strncpy, if_neg (Nat.not_lt.mpr hfit), strncpyBytes_append h0, Option.map_some]

theorem strncpy_too_long {dst : List UInt8} {n : Nat} (h : dst.length < n) (src : List UInt8) :
    strncpy dst src n = none := by
  rw [strncpy, if_pos h]

/-! ## `atoi` -/

def isspace (b : UInt8) : Bool := b == 32 || (9 ≤ b && b ≤ 13)

def isdigit (b : UInt8) : Bool := 48 ≤ b && b ≤ 57

def digitValue (b : UInt8) : Nat := b.toNat - 48

/-- The digits that `atoi` reads, behind the value `acc` of those before. -/
def atoiDigits : Nat → List UInt8 → Option Nat
  | _, [] => none
  | acc, b :: bs => if isdigit b then atoiDigits (acc * 10 + digitValue b) bs else some acc

/-- `atoi` on a string whose value fits `int`: blanks, a sign, digits. -/
def atoi (s : List UInt8) : Option Int :=
  match s.dropWhile isspace with
  | [] => none
  | b :: bs =>
    -- `-`, `+` or no sign
    if b = 45 then (atoiDigits 0 bs).map fun n : Nat => -(n : Int)
    else if b = 43 then (atoiDigits 0 bs).map fun n : Nat => (n : Int)
    else (atoiDigits 0 (b :: bs)).map fun n : Nat => (n : Int)

/-- The value of a decimal numeral, leading zeros allowed. -/
def decimal (ds : List UInt8) : Nat := ds.foldl (fun acc b => acc * 10 + digitValue b) 0

/-- A decimal numeral of 1 to `n` digits. -/
structure Numeral (n : Nat) (ds : List UInt8) : Prop where
  digits : ∀ b ∈ ds, isdigit b = true
  ne_nil : ds ≠ []
  length_le : ds.length ≤ n

theorem atoiDigits_append {ds : List UInt8} (hds : ∀ b ∈ ds, isdigit b = true) {b : UInt8}
    (hb : isdigit b = false) (rest : List UInt8) (acc : Nat) :
    atoiDigits acc (ds ++ b :: rest) =
      some (ds.foldl (fun acc b => acc * 10 + digitValue b) acc) := by
  induction ds generalizing acc with
  | nil => rw [List.nil_append, atoiDigits, if_neg (by simp [hb]), List.foldl_nil]
  | cons d ds ih =>
    rw [List.cons_append, atoiDigits, if_pos (hds d List.mem_cons_self),
      ih fun x hx => hds x (List.mem_cons_of_mem _ hx), List.foldl_cons]

theorem isdigit_iff (b : UInt8) : isdigit b = true ↔ 48 ≤ b.toNat ∧ b.toNat ≤ 57 := by
  simp [isdigit, UInt8.le_iff_toNat_le]

/-- A byte that is no digit does not occur in a numeral. -/
theorem Numeral.not_mem {n : Nat} {ds : List UInt8} (h : Numeral n ds) {b : UInt8}
    (hb : isdigit b = false) : b ∉ ds := by
  intro hmem
  rw [h.digits b hmem] at hb
  cases hb

/-- `atoi` stops inside a string that has a NUL. -/
theorem atoiDigits_of_mem_zero {s : List UInt8} (h0 : 0 ∈ s) (acc : Nat) :
    atoiDigits acc s ≠ none := by
  induction s generalizing acc with
  | nil => cases h0
  | cons b s ih =>
    rw [atoiDigits]
    split
    · rename_i hb
      -- a digit is no NUL
      have hne : (0 : UInt8) ≠ b := by
        rintro rfl
        exact absurd hb (by decide)
      exact ih (List.mem_of_ne_of_mem hne h0) _
    · exact Option.some_ne_none _

theorem atoi_of_mem_zero {s : List UInt8} (h0 : 0 ∈ s) : atoi s ≠ none := by
  have hdrop : 0 ∈ s.dropWhile isspace := by
    rw [← List.takeWhile_append_dropWhile (p := isspace) (l := s), List.mem_append] at h0
    apply h0.resolve_left
    intro hmem
    exact absurd (List.mem_takeWhile_imp hmem) (by decide)
  unfold atoi
  cases hs : s.dropWhile isspace with
  | nil =>
    rw [hs] at hdrop
    cases hdrop
  | cons b bs =>
    rw [hs] at hdrop
    dsimp only
    split
    · rename_i hb
      rw [Ne, Option.map_eq_none_iff]
      exact atoiDigits_of_mem_zero (List.mem_of_ne_of_mem (by rw [hb]; decide) hdrop) 0
    · split
      · rename_i hb
        rw [Ne, Option.map_eq_none_iff]
        exact atoiDigits_of_mem_zero (List.mem_of_ne_of_mem (by rw [hb]; decide) hdrop) 0
      · rw [Ne, Option.map_eq_none_iff]
        exact atoiDigits_of_mem_zero hdrop 0

/-- A numeral starts with neither a blank nor a sign. -/
theorem Numeral.atoi_eq {n : Nat} {ds : List UInt8} (h : Numeral n ds) (rest : List UInt8) :
    atoi (ds ++ rest) = (atoiDigits 0 (ds ++ rest)).map fun n : Nat => (n : Int) := by
  obtain ⟨d, ds', rfl⟩ := List.exists_cons_of_ne_nil h.ne_nil
  have hd := (isdigit_iff d).mp (h.digits d List.mem_cons_self)
  have hspace : isspace d = false := by
    simp only [isspace, Bool.or_eq_false_iff, Bool.and_eq_false_iff, beq_eq_false_iff_ne,
      decide_eq_false_iff_not, UInt8.le_iff_toNat_le, Ne, ← UInt8.toNat_inj]
    have h13 : (13 : UInt8).toNat = 13 := rfl
    have h32 : (32 : UInt8).toNat = 32 := rfl
    omega
  have hminus : d ≠ 45 := by
    rintro rfl
    exact absurd hd (by decide)
  have hplus : d ≠ 43 := by
    rintro rfl
    exact absurd hd (by decide)
  rw [atoi, List.cons_append, List.dropWhile_cons_of_neg (by simp [hspace])]
  dsimp only
  rw [if_neg hminus, if_neg hplus]

/-- `atoi` reads a numeral that is followed by something else. -/
theorem Numeral.atoi_append {n : Nat} {ds : List UInt8} (h : Numeral n ds) {b : UInt8}
    (hb : isdigit b = false) (rest : List UInt8) :
    atoi (ds ++ b :: rest) = some (decimal ds : Int) := by
  rw [h.atoi_eq, atoiDigits_append h.digits hb, Option.map_some, decimal]

theorem atoiDigits_of_digits {ds : List UInt8} (hds : ∀ b ∈ ds, isdigit b = true) (acc : Nat) :
    atoiDigits acc ds = none := by
  induction ds generalizing acc with
  | nil => rfl
  | cons d ds ih =>
    rw [atoiDigits, if_pos (hds d List.mem_cons_self)]
    exact ih (fun x hx => hds x (List.mem_cons_of_mem _ hx)) _

/-- `atoi` runs off the end of an array that holds nothing but a numeral. -/
theorem Numeral.atoi_eq_none {n : Nat} {ds : List UInt8} (h : Numeral n ds) : atoi ds = none := by
  have heq := h.atoi_eq []
  rw [List.append_nil, atoiDigits_of_digits h.digits] at heq
  exact heq

theorem foldl_decimal_lt {ds : List UInt8} (hds : ∀ b ∈ ds, isdigit b = true) (acc : Nat) :
    ds.foldl (fun acc b => acc * 10 + digitValue b) acc < (acc + 1) * 10 ^ ds.length := by
  induction ds generalizing acc with
  | nil => simp
  | cons d ds ih =>
    have hd := (isdigit_iff d).mp (hds d List.mem_cons_self)
    have hrest := ih (fun x hx => hds x (List.mem_cons_of_mem _ hx)) (acc * 10 + digitValue d)
    -- one digit, at most 9, behind `acc`
    have hstep : acc * 10 + digitValue d + 1 ≤ (acc + 1) * 10 := by
      rw [digitValue]
      omega
    have hmul := Nat.mul_le_mul_right (10 ^ ds.length) hstep
    rw [List.foldl_cons, List.length_cons, Nat.pow_succ, Nat.mul_comm (10 ^ ds.length) 10,
      ← Nat.mul_assoc]
    omega

/-- A numeral of `n` digits stays below `10 ^ n`. -/
theorem Numeral.decimal_lt {n : Nat} {ds : List UInt8} (h : Numeral n ds) :
    decimal ds < 10 ^ n := by
  have hlt := foldl_decimal_lt h.digits 0
  have hpow := Nat.pow_le_pow_right (n := 10) (by decide) h.length_le
  rw [decimal]
  omega

end CString

end Aesd.Lib
