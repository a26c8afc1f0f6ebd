/-
  Aesd.Lib.Logged

  A program with a log.  `logged sel act` does what `act` does and keeps, next
  to the shared state, what each thread did, as far as `sel` selects it by its
  output.  A run of the program is a run of the logged one (`run_logged`), in
  which an invariant may speak of what the threads have done so far.
-/
import Aesd.Lib.Monitor

namespace Aesd.Lib.Monitor

variable {τ σ ω ε ο : Type _} [DecidableEq τ]

/-- The events of thread `t` in a run, with their outputs. -/
def doneBy (t : τ) (xs : List (τ × ε)) (os : List (τ × ο)) : List (ε × ο) :=
  (xs.zip os).filterMap fun z => if z.1.1 = t then some (z.1.2, z.2.2) else none

/-- What has been selected of a step of thread `u` on event `e` with output `o`. -/
def note (sel : ο → Bool) (log : τ → List (ε × ο)) (u : τ) (e : ε) (o : ο) : τ → List (ε × ο) :=
  if sel o then Function.update log u (log u ++ [(e, o)]) else log

/-- The program `act` with a log of the selected steps of each thread. -/
def logged (sel : ο → Bool) (act : Program τ σ ω ε ο) :
    Program τ (σ × (τ → List (ε × ο))) ω ε ο := fun t r w e =>
  (act t r.1 w e).map fun m => ⟨m.lock, m.out, (m.shared, note sel r.2 t e m.out), m.own⟩

/-- A state with a log. -/
def State.withLog (s : State τ σ ω) (log : τ → List (ε × ο)) :
    State τ (σ × (τ → List (ε × ο))) ω :=
  ⟨s.owner, (s.shared, log), s.locals⟩

variable {sel : ο → Bool} {act : Program τ σ ω ε ο}

/-- What a step of the logged program is. -/
theorem logged_eq_some {t : τ} {r : σ × (τ → List (ε × ο))} {w : ω} {e : ε}
    {m : Move (σ × (τ → List (ε × ο))) ω ο} (h : logged sel act t r w e = some m) :
    ∃ m₀, act t r.1 w e = some m₀ ∧
      m = ⟨m₀.lock, m₀.out, (m₀.shared, note sel r.2 t e m₀.out), m₀.own⟩ := by
  obtain ⟨m₀, hact, heq⟩ := Option.map_eq_some_iff.mp h
  exact ⟨m₀, hact, heq.symm⟩

/-- A log gets no entry for a step that is not selected, nor for one of another thread. -/
theorem note_of_not {log : τ → List (ε × ο)} {u : τ} {e : ε} {o : ο} (h : sel o = false) :
    note sel log u e o = log := if_neg (by simp [h])

theorem note_of_ne {log : τ → List (ε × ο)} {t u : τ} {e : ε} {o : ο} (h : t ≠ u) :
    note sel log u e o t = log t := by
  rw [note]
  split
  · exact Function.update_of_ne h ..
  · rfl

theorem note_self {log : τ → List (ε × ο)} {u : τ} {e : ε} {o : ο} (h : sel o = true) :
    note sel log u e o u = log u ++ [(e, o)] := by
  rw [note, if_pos h, Function.update_self]

/-- A step is one of the logged program. -/
theorem step_logged {s s' : State τ σ ω} {x : τ × ε} {o : τ × ο}
    (h : step act s x = some (o, s')) (log : τ → List (ε × ο)) :
    step (logged sel act) (s.withLog log) x =
      some (o, s'.withLog (note sel log x.1 x.2 o.2)) := by
  obtain ⟨t, e⟩ := x
  unfold step at h
  dsimp only at h
  cases hact : act t s.shared (s.locals t) e with
  | none =>
    rw [hact] at h
    cases h
  | some m =>
    rw [hact] at h
    obtain ⟨owner, howner, heq⟩ := Option.map_eq_some_iff.mp h
    obtain ⟨rfl, rfl⟩ := Prod.mk.inj heq
    have hlogged : logged sel act t (s.withLog log).shared ((s.withLog log).locals t) e =
        some ⟨m.lock, m.out, (m.shared, note sel log t e m.out), m.own⟩ := by
      rw [logged, State.withLog]
      dsimp only
      rw [hact, Option.map_some]
    unfold step
    dsimp only
    rw [hlogged]
    dsimp only
    rw [show (s.withLog log).owner = s.owner from rfl, howner, Option.map_some]
    rfl

/-- A run is one of the logged program, and the log is that of the events. -/
theorem run_logged (sel : ο → Bool) {s s' : State τ σ ω} {xs : List (τ × ε)} {os : List (τ × ο)}
    (hr : run (step act) s xs = some (os, s')) (log : τ → List (ε × ο)) :
    ∃ log', run (step (logged sel act)) (s.withLog log) xs = some (os, s'.withLog log') ∧
      ∀ t, log' t = log t ++ (doneBy t xs os).filter (fun z => sel z.2) := by
  induction xs generalizing s os log with
  | nil =>
    obtain ⟨rfl, rfl⟩ := Prod.mk.inj (Option.some.inj hr)
    exact ⟨log, rfl, fun t => by simp [doneBy]⟩
  | cons x xs ih =>
    obtain ⟨o, s₁, os', h, hr', rfl⟩ := run_cons_eq_some.mp hr
    obtain ⟨log', hrun, hlog⟩ := ih hr' (note sel log x.1 x.2 o.2)
    refine ⟨log', run_cons_eq_some.mpr ⟨o, _, os', step_logged h log, hrun, rfl⟩, fun t => ?_⟩
    rw [hlog t]
    by_cases ht : x.1 = t
    · subst ht
      cases hsel : sel o.2 with
      | true => simp [doneBy, note_self hsel, hsel]
      | false => simp [doneBy, note_of_not hsel, hsel]
    · rw [note_of_ne (Ne.symm ht)]
      simp [doneBy, ht]

/-- A condition on the steps of a run, in the logged run. -/
theorem meets_logged {ok : τ → σ → ω → ε → Prop} {s s' : State τ σ ω} {xs : List (τ × ε)}
    {os : List (τ × ο)} (hr : run (step act) s xs = some (os, s'))
    (hok : Meets (step act) (sysOk ok) s xs) (log : τ → List (ε × ο)) :
    Meets (step (logged sel act)) (sysOk fun t r w e => ok t r.1 w e) (s.withLog log) xs := by
  induction xs generalizing s os log with
  | nil => trivial
  | cons x xs ih =>
    obtain ⟨o, s₁, os', h, hr', rfl⟩ := run_cons_eq_some.mp hr
    obtain ⟨hone, hrest⟩ := (meets_cons h).mp hok
    exact (meets_cons (step_logged h log)).mpr ⟨hone, ih hr' hrest _⟩

end Aesd.Lib.Monitor
