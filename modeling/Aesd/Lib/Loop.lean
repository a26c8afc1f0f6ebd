/-
  Aesd.Lib.Loop

  A loop that decides in its body whether to go on, such as a `do`-`while`
  loop with `return`s inside.  `passes` runs it and keeps the state at the
  beginning of every pass, so that what a loop touches on its way can be
  spoken about and not only its result.

  A loop without a counter is given one in the proof: an invariant `P j s` on
  the number of passes made (`Course`), which bounds them, and from which
  `Course.ends`, `Course.states` and `Course.leaves` follow.
-/
import Mathlib.Data.List.Basic

namespace Aesd.Lib

variable {σ ρ : Type _}

/-- How one pass through the body ends. -/
inductive Pass (σ ρ : Type _) where
  | again (s : σ)
  | leave (r : ρ)

/-- At most `fuel` passes from `s`: the states the passes begin in, and what
    the loop is left with. `none`: a pass is undefined, or there is none left. -/
def passes (body : σ → Option (Pass σ ρ)) : Nat → σ → Option (List σ × ρ)
  | 0, _ => none
  | fuel + 1, s =>
    match body s with
    | none => none
    | some (.leave r) => some ([s], r)
    | some (.again s') => (passes body fuel s').map fun x => (s :: x.1, x.2)

variable {body : σ → Option (Pass σ ρ)} {s s' : σ} {r : ρ} {fuel : Nat}

theorem passes_of_leave (h : body s = some (.leave r)) :
    passes body (fuel + 1) s = some ([s], r) := by
  rw [passes, h]

theorem passes_of_again (h : body s = some (.again s')) :
    passes body (fuel + 1) s = (passes body fuel s').map fun x => (s :: x.1, x.2) := by
  rw [passes, h]

/-- A run of the loop, by its first pass. -/
theorem passes_succ_eq_some {x : List σ × ρ} :
    passes body (fuel + 1) s = some x ↔
      (∃ r, body s = some (.leave r) ∧ x = ([s], r)) ∨
      ∃ s' y, body s = some (.again s') ∧ passes body fuel s' = some y ∧ x = (s :: y.1, y.2) := by
  rw [passes]
  cases hb : body s with
  | none => simp
  | some p =>
    cases p with
    | leave r =>
      refine ⟨fun h => Or.inl ⟨r, rfl, (Option.some.inj h).symm⟩, ?_⟩
      rintro (⟨r', hr, rfl⟩ | ⟨s', y, hs, -⟩)
      · cases hr
        rfl
      · cases hs
    | again t =>
      refine ⟨?_, ?_⟩
      · intro h
        obtain ⟨y, hy, rfl⟩ := Option.map_eq_some_iff.mp h
        exact Or.inr ⟨t, y, rfl, hy, rfl⟩
      · rintro (⟨r, hr, -⟩ | ⟨s', y, hs, hy, rfl⟩)
        · cases hr
        · cases hs
          exact Option.map_eq_some_iff.mpr ⟨y, hy, rfl⟩

/-- The result does not depend on how many passes are allowed. -/
theorem passes_mono {fuel' : Nat} {x : List σ × ρ} (h : passes body fuel s = some x)
    (hle : fuel ≤ fuel') : passes body fuel' s = some x := by
  induction fuel generalizing s fuel' x with
  | zero => cases h
  | succ fuel ih =>
    obtain ⟨fuel', rfl⟩ : ∃ n, fuel' = n + 1 := ⟨fuel' - 1, by omega⟩
    rw [passes_succ_eq_some] at h ⊢
    rcases h with hleave | ⟨s', y, hb, hy, hx⟩
    · exact Or.inl hleave
    · exact Or.inr ⟨s', y, hb, ih hy (by omega), hx⟩

/-- One of the passes leaves the loop. -/
theorem passes_leaves {ss : List σ} (h : passes body fuel s = some (ss, r)) :
    ∃ (i : Nat) (t : σ), ss[i]? = some t ∧ body t = some (.leave r) := by
  induction fuel generalizing s ss with
  | zero => cases h
  | succ fuel ih =>
    rw [passes_succ_eq_some] at h
    rcases h with ⟨r', hb, heq⟩ | ⟨s', y, -, hy, heq⟩
    · cases heq
      exact ⟨0, s, rfl, hb⟩
    · cases heq
      obtain ⟨i, t, ht, hleave⟩ := ih hy
      exact ⟨i + 1, t, ht, hleave⟩

/-- `P j s` holds of the state in which pass number `j` begins, there are fewer
    than `n` of them, and each is defined. -/
structure Course (body : σ → Option (Pass σ ρ)) (n : Nat) (P : Nat → σ → Prop) : Prop where
  lt : ∀ j s, P j s → j < n
  defined : ∀ j s, P j s → ∃ p, body s = some p
  next : ∀ j s s', P j s → body s = some (.again s') → P (j + 1) s'

namespace Course

variable {n j : Nat} {P : Nat → σ → Prop}

/-- The loop ends within `n` passes. -/
theorem ends (c : Course body n P) (h : P j s) (hfuel : n ≤ j + fuel) :
    ∃ x, passes body fuel s = some x := by
  -- by induction on the passes left; the counter of `P` stays below `n`
  induction fuel generalizing j s with
  | zero =>
    have hlt := c.lt j s h
    omega
  | succ fuel ih =>
    obtain ⟨p, hp⟩ := c.defined j s h
    cases p with
    | leave r => exact ⟨_, passes_of_leave hp⟩
    | again s' =>
      obtain ⟨x, hx⟩ := ih (c.next j s s' h hp) (by omega)
      exact ⟨_, by rw [passes_of_again hp, hx]; rfl⟩

/-- Every pass begins in a state of the course. -/
theorem states (c : Course body n P) {ss : List σ} (hrun : passes body fuel s = some (ss, r))
    (h : P j s) {i : Nat} {t : σ} (ht : ss[i]? = some t) : P (j + i) t := by
  induction fuel generalizing s j i ss with
  | zero => cases hrun
  | succ fuel ih =>
    rw [passes_succ_eq_some] at hrun
    rcases hrun with ⟨r', -, heq⟩ | ⟨s', y, hb, hy, heq⟩
    · cases heq
      cases i with
      | zero =>
        cases ht
        exact h
      | succ i => cases ht
    · cases heq
      cases i with
      | zero =>
        cases ht
        exact h
      | succ i =>
        have hP := ih hy (c.next j s s' h hb) ht
        rwa [Nat.add_right_comm] at hP

/-- The loop is left from a state of the course. -/
theorem leaves (c : Course body n P) {ss : List σ} (hrun : passes body fuel s = some (ss, r))
    (h : P j s) : ∃ i t, ss[i]? = some t ∧ P (j + i) t ∧ body t = some (.leave r) := by
  obtain ⟨i, t, ht, hleave⟩ := passes_leaves hrun
  exact ⟨i, t, ht, c.states hrun h ht, hleave⟩

/-- There are at most `n` passes. -/
theorem length_le (c : Course body n P) {ss : List σ} (hrun : passes body fuel s = some (ss, r))
    (h : P 0 s) : ss.length ≤ n := by
  apply Nat.le_of_not_lt
  intro hlt
  have hP := c.states hrun h (List.getElem?_eq_getElem hlt)
  have hcount := c.lt _ _ hP
  omega

end Course

end Aesd.Lib
