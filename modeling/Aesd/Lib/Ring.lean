/-
  Aesd.Lib.Ring

  A ring of `N` slots that is written at `n % N` for the `n`-th push.  The
  invariant ties every slot to the list of all pushes: slot `k % N` holds the
  `k`-th one as long as it is among the last `N`, and a slot never written
  holds the blank.

  Reading starts at `Ring.first`: slot 0 until the ring has filled up once,
  the next slot to be overwritten from then on.
-/
import Mathlib.Data.Nat.ModEq
import Aesd.Lib.Segments

namespace Aesd.Lib.Ring

variable {α : Type _} {N : Nat}

/-- The slot of the oldest element after `n` pushes. -/
def first (N n : Nat) : Nat := if N ≤ n then n % N else 0

/-- `v` holds the last `N` elements of `es`, and blanks where nothing was pushed yet. -/
structure Holds (blank : α) (v : Vector α N) (es : List α) : Prop where
  slot : ∀ k x, es[k]? = some x → es.length ≤ k + N → v[k % N]? = some x
  rest : ∀ i, es.length ≤ i → i < N → v[i]? = some blank

theorem first_lt (hN : 0 < N) (n : Nat) : first N n < N := by
  unfold first
  split
  · exact Nat.mod_lt n hN
  · exact hN

theorem holds_nil (blank : α) : Holds blank (Vector.replicate N blank) [] :=
  { slot := fun k x h => by simp at h
    rest := fun i _ hi => by rw [Vector.getElem?_replicate, if_pos hi] }

/-- Distinct pushes less than `N` apart use distinct slots. -/
theorem mod_ne_of_lt_of_lt_add {j k : Nat} (hjk : j < k) (hk : k < j + N) : j % N ≠ k % N := by
  intro heq
  have hdvd : N ∣ k - j := (Nat.modEq_iff_dvd' (Nat.le_of_lt hjk)).mp heq
  have hle : N ≤ k - j := Nat.le_of_dvd (by omega) hdvd
  omega

/-- A push writes one slot and shifts the window by one. -/
theorem Holds.push {blank : α} {v : Vector α N} {es : List α} (h : Holds blank v es)
    (hn : es.length % N < N) (x : α) :
    Holds blank (v.set (es.length % N) x hn) (es ++ [x]) where
  slot := by
    intro k y hk hlen
    rw [List.length_append, List.length_singleton] at hlen
    rw [Vector.getElem?_set]
    rcases Nat.lt_trichotomy k es.length with hlt | heq | hgt
    · -- an older push, in another slot
      rw [if_neg (mod_ne_of_lt_of_lt_add hlt (by omega)).symm]
      rw [List.getElem?_append_left hlt] at hk
      exact h.slot k y hk (by omega)
    · -- the new one
      rw [heq, List.getElem?_append_right (Nat.le_refl _), Nat.sub_self] at hk
      rw [heq, if_pos rfl]
      simpa using hk
    · rw [List.getElem?_eq_none (by rw [List.length_append, List.length_singleton]; omega)] at hk
      cases hk
  rest := by
    intro i hi hiN
    rw [List.length_append, List.length_singleton] at hi
    -- slot `i` is still blank, so the ring has not wrapped and the push goes before it
    have hmod : es.length % N = es.length := Nat.mod_eq_of_lt (by omega)
    rw [Vector.getElem?_set, if_neg (by omega)]
    exact h.rest i (by omega) hiN

/-- Walking `j` slots from the first one, with wrap-around, meets the `j`-th
    element of the window. -/
theorem Holds.walk {blank : α} {v : Vector α N} {es : List α} (h : Holds blank v es)
    {j : Nat} {x : α} (hj : (es.rtake N)[j]? = some x) :
    v[(first N es.length + j) % N]? = some x := by
  have hjlen : j < min N es.length := by
    have hlt := (List.getElem?_eq_some_iff.mp hj).1
    rwa [length_rtake] at hlt
  rw [getElem?_rtake] at hj
  unfold first
  by_cases hfull : N ≤ es.length
  · have hidx : (es.length % N + j) % N = (es.length - N + j) % N := by
      rw [Nat.mod_add_mod]
      have hsum : es.length + j = (es.length - N + j) + N := by omega
      rw [hsum, Nat.add_mod_right]
    rw [if_pos hfull, hidx]
    exact h.slot _ x hj (by omega)
  · rw [if_neg hfull, Nat.zero_add]
    rw [Nat.sub_eq_zero_of_le (by omega), Nat.zero_add] at hj
    exact h.slot j x hj (by omega)

/-- Past the elements pushed so far the walk meets a blank. -/
theorem Holds.walk_rest {blank : α} {v : Vector α N} {es : List α} (h : Holds blank v es)
    {j : Nat} (hlen : es.length ≤ j) (hj : j < N) :
    v[(first N es.length + j) % N]? = some blank := by
  rw [first, if_neg (by omega), Nat.zero_add, Nat.mod_eq_of_lt hj]
  exact h.rest j hlen hj

/-- The slot of the next push holds the oldest element once the ring is full. -/
theorem Holds.oldest {blank : α} {v : Vector α N} {es : List α} (h : Holds blank v es)
    (hN : 0 < N) (hfull : N ≤ es.length) {x : α} (hx : (es.rtake N)[0]? = some x) :
    v[es.length % N]? = some x := by
  have hw := h.walk hx
  rwa [first, if_pos hfull, Nat.add_zero, Nat.mod_eq_of_lt (Nat.mod_lt _ hN)] at hw

end Aesd.Lib.Ring
