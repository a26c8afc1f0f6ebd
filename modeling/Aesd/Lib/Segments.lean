/-
  Aesd.Lib.Segments

  A stream kept as a list of segments: the window of its last `n` segments
  (`List.rtake`), and the segment that holds a given offset of the
  concatenation (`locate`).

  `locate` only looks at the sizes, so one search serves every payload type;
  `flatten_drop_of_locate` brings the answer back to the payload.
-/
import Mathlib.Data.List.DropRight
import Mathlib.Algebra.BigOperators.Group.List.Basic
import Mathlib.Algebra.Order.Ring.Nat
import Mathlib.Algebra.Ring.Int.Defs

namespace Aesd.Lib

variable {α β : Type _}

/-! ## The window of the last `n` elements -/

theorem length_rtake (l : List α) (n : Nat) : (l.rtake n).length = min n l.length := by
  simp only [List.rtake, List.length_drop]
  omega

theorem rtake_of_length_le {l : List α} {n : Nat} (h : l.length ≤ n) : l.rtake n = l := by
  rw [List.rtake, Nat.sub_eq_zero_of_le h, List.drop_zero]

theorem map_rtake (f : α → β) (l : List α) (n : Nat) : (l.rtake n).map f = (l.map f).rtake n := by
  simp only [List.rtake, List.map_drop, List.length_map]

theorem mem_of_mem_rtake {l : List α} {n : Nat} {x : α} (h : x ∈ l.rtake n) : x ∈ l :=
  List.mem_of_mem_drop h

/-- What left the window, followed by the window, is the whole list. -/
theorem rdrop_append_rtake (l : List α) (n : Nat) : l.rdrop n ++ l.rtake n = l :=
  List.take_append_drop _ l

/-- Pushing one element only needs the old window. -/
theorem rtake_append_singleton (l : List α) (n : Nat) (x : α) :
    (l ++ [x]).rtake n = (l.rtake n ++ [x]).rtake n := by
  cases n with
  | zero => simp
  | succ n =>
    rw [List.rtake_concat_succ, List.rtake_concat_succ]
    congr 1
    simp only [List.rtake, List.drop_drop, List.length_drop]
    congr 1
    omega

/-- Pushing onto a full window drops its oldest element. -/
theorem rtake_append_singleton_of_full {l : List α} {n : Nat} (h : l.length = n + 1) (x : α) :
    (l ++ [x]).rtake (n + 1) = l.tail ++ [x] := by
  rw [List.rtake_concat_succ, List.rtake, h, Nat.add_sub_cancel_left, List.drop_one]

/-- Pushing onto a window with room keeps every element. -/
theorem rtake_append_singleton_of_room {l : List α} {n : Nat} (h : l.length < n) (x : α) :
    (l ++ [x]).rtake n = l ++ [x] :=
  rtake_of_length_le (by rw [List.length_append, List.length_singleton]; omega)

theorem getElem?_rtake (l : List α) (n j : Nat) :
    (l.rtake n)[j]? = l[l.length - n + j]? := by
  rw [List.rtake, List.getElem?_drop]

/-! ## Lengths of concatenations -/

theorem length_flatten_le {l : List (List α)} {n : Nat} (h : ∀ x ∈ l, x.length ≤ n) :
    l.flatten.length ≤ l.length * n := by
  induction l with
  | nil => simp
  | cons x l ih =>
    have hx := h x List.mem_cons_self
    have hl := ih fun y hy => h y (List.mem_cons_of_mem _ hy)
    rw [List.flatten_cons, List.length_append, List.length_cons, Nat.succ_mul]
    omega

/-! ## The segment that holds an offset -/

/-- Segment number and offset inside it of byte `p` of a stream cut into
    segments of the sizes `ss`. -/
def locate : List Nat → Nat → Option (Nat × Nat)
  | [], _ => none
  | s :: ss, p => if p < s then some (0, p) else (locate ss (p - s)).map fun r => (r.1 + 1, r.2)

theorem locate_cons_of_lt {s p : Nat} {ss : List Nat} (h : p < s) :
    locate (s :: ss) p = some (0, p) := by
  rw [locate, if_pos h]

theorem locate_cons_of_le {s p : Nat} {ss : List Nat} (h : s ≤ p) :
    locate (s :: ss) p = (locate ss (p - s)).map fun r => (r.1 + 1, r.2) := by
  rw [locate, if_neg (by omega)]

/-- `locate` answers `(i, d)` exactly when `p` is `d` bytes into segment `i`. -/
theorem locate_eq_some_iff {ss : List Nat} {p i d : Nat} :
    locate ss p = some (i, d) ↔
      ∃ h : i < ss.length, (ss.take i).sum + d = p ∧ d < ss[i] := by
  induction ss generalizing p i with
  | nil => simp [locate]
  | cons s ss ih =>
    rcases Nat.lt_or_ge p s with hp | hp
    · -- `p` is in the first segment
      rw [locate_cons_of_lt hp]
      cases i with
      | zero =>
        simp only [Option.some.injEq, Prod.mk.injEq, true_and, List.length_cons, Nat.zero_lt_succ,
          List.take_zero, List.sum_nil, Nat.zero_add, List.getElem_cons_zero, exists_true_left]
        omega
      | succ i =>
        simp only [Option.some.injEq, Prod.mk.injEq, List.take_succ_cons, List.sum_cons]
        refine ⟨?_, ?_⟩
        · intro h
          omega
        · rintro ⟨-, h, -⟩
          omega
    · -- `p` is behind it: search the rest for `p - s`
      rw [locate_cons_of_le hp]
      cases i with
      | zero =>
        simp only [Option.map_eq_some_iff, Prod.mk.injEq, List.take_zero, List.sum_nil,
          Nat.zero_add, List.getElem_cons_zero]
        refine ⟨?_, ?_⟩
        · rintro ⟨r, -, h, -⟩
          omega
        · rintro ⟨-, h, h'⟩
          omega
      | succ i =>
        have hmap : (locate ss (p - s)).map (fun r => (r.1 + 1, r.2)) = some (i + 1, d) ↔
            locate ss (p - s) = some (i, d) := by
          simp only [Option.map_eq_some_iff, Prod.mk.injEq, Nat.add_right_cancel_iff]
          refine ⟨?_, ?_⟩
          · rintro ⟨⟨a, b⟩, h, rfl, rfl⟩
            exact h
          · intro h
            exact ⟨(i, d), h, rfl, rfl⟩
        rw [hmap, ih]
        simp only [List.length_cons, Nat.add_lt_add_iff_right, List.take_succ_cons, List.sum_cons,
          List.getElem_cons_succ]
        refine ⟨?_, ?_⟩
        · rintro ⟨h, h1, h2⟩
          exact ⟨h, by omega, h2⟩
        · rintro ⟨h, h1, h2⟩
          exact ⟨h, by omega, h2⟩

/-- The search fails exactly past the end of the stream. -/
theorem locate_eq_none_iff {ss : List Nat} {p : Nat} : locate ss p = none ↔ ss.sum ≤ p := by
  induction ss generalizing p with
  | nil => simp [locate]
  | cons s ss ih =>
    rcases Nat.lt_or_ge p s with hp | hp
    · rw [locate_cons_of_lt hp]
      simp only [reduceCtorEq, List.sum_cons, false_iff]
      omega
    · rw [locate_cons_of_le hp, Option.map_eq_none_iff, ih, List.sum_cons]
      omega

/-- The stream from offset `p` on: the rest of the segment found, then the
    segments after it. -/
theorem flatten_drop_of_locate {segs : List (List α)} {p i d : Nat}
    (h : locate (segs.map List.length) p = some (i, d)) :
    ∃ seg, segs[i]? = some seg ∧ d < seg.length ∧
      segs.flatten.drop p = seg.drop d ++ (segs.drop (i + 1)).flatten := by
  obtain ⟨hi, hp, hd⟩ := locate_eq_some_iff.mp h
  rw [List.length_map] at hi
  rw [List.getElem_map] at hd
  refine ⟨segs[i], List.getElem?_eq_getElem hi, hd, ?_⟩
  have hlen : (segs.take i).flatten.length = ((segs.map List.length).take i).sum := by
    rw [List.length_flatten, List.map_take]
  have hsplit :
      segs.flatten = (segs.take i).flatten ++ (segs[i] ++ (segs.drop (i + 1)).flatten) := by
    conv_lhs => rw [← List.take_append_drop i segs, List.drop_eq_getElem_cons hi]
    rw [List.flatten_append, List.flatten_cons]
  rw [hsplit, ← hp, ← hlen, List.drop_append, List.drop_of_length_le (by omega), List.nil_append,
    Nat.add_sub_cancel_left, List.drop_append_of_le_length (by omega)]

end Aesd.Lib
