/-
  Aesd.Lib.Handles

  A table of numbers, each of which names a resource or is free, and claims of
  parties that take a number for a resource.  The claims are `Right` if every
  claimed number names the resource it is claimed for; they stay so as long as
  a new resource gets a free number and a number is given back only together
  with every claim to its resource.
-/
import Mathlib.Logic.Function.Basic

namespace Aesd.Lib.Handles

variable {ν δ : Type _} {table : ν → Option δ} {claims claims' : δ → ν → Prop}

/-- Every number that is claimed for a resource names it. -/
def Right (table : ν → Option δ) (claims : δ → ν → Prop) : Prop :=
  ∀ d n, claims d n → table n = some d

/-- Claims may be dropped. -/
theorem Right.mono (h : Right table claims) (hsub : ∀ d n, claims' d n → claims d n) :
    Right table claims' :=
  fun d n hd => h d n (hsub d n hd)

variable [DecidableEq ν] {d : δ} {n : ν}

/-- A free number is handed out for `d`. -/
theorem Right.open (h : Right table claims) (hfree : table n = none)
    (hclaims : ∀ d' n', claims' d' n' → claims d' n' ∨ d' = d ∧ n' = n) :
    Right (Function.update table n (some d)) claims' := by
  intro d' n' hd'
  rcases hclaims d' n' hd' with hd' | ⟨rfl, rfl⟩
  · have hne : n' ≠ n := by
      rintro rfl
      exact absurd (hfree.symm.trans (h d' n' hd')) (by simp)
    rw [Function.update_of_ne hne, h d' n' hd']
  · exact Function.update_self ..

/-- The number of `d` is given back, and nobody claims one for `d` any more. -/
theorem Right.close (h : Right table claims) (hd : claims d n)
    (hclaims : ∀ d' n', claims' d' n' → claims d' n' ∧ d' ≠ d) :
    Right (Function.update table n none) claims' := by
  intro d' n' hd'
  obtain ⟨hold, hother⟩ := hclaims d' n' hd'
  have hne : n' ≠ n := by
    rintro rfl
    exact hother (Option.some.inj ((h d' n' hold).symm.trans (h d n' hd)))
  rw [Function.update_of_ne hne, h d' n' hold]

end Aesd.Lib.Handles
