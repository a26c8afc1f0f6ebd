/-
  Aesd.Lib.Run

  Runs of a machine given by a partial step function: `step s e` is `none`
  when the machine cannot take event `e` in state `s` (the event is not
  enabled, or the step has no defined result).

  The rules for whole runs: `run_inv`, `run_inv_of_meets`, `run_inv_outputs` and
  `run_out` (what one step keeps, or puts out, a run does), `run_count_le` (a
  measure bounds the number of steps), `meets_iff_measure` (a measure tells
  whether a condition was met all the way), `run_total` (a simulation that is
  never stuck makes the run defined) and `run_congr` (two machines in lockstep
  give the same outputs).
-/
import Mathlib.Data.List.Basic

namespace Aesd.Lib

variable {σ τ ε ο : Type _}

/-- All events in order, with the outputs. -/
def run (step : σ → ε → Option (ο × σ)) : σ → List ε → Option (List ο × σ)
  | s, [] => some ([], s)
  | s, e :: es =>
    match step s e with
    | none => none
    | some (o, s') => (run step s' es).map fun r => (o :: r.1, r.2)

variable {step : σ → ε → Option (ο × σ)}

@[simp] theorem run_nil (s : σ) : run step s [] = some ([], s) := rfl

theorem run_cons (s : σ) (e : ε) (es : List ε) : run step s (e :: es) =
    match step s e with
    | none => none
    | some (o, s') => (run step s' es).map fun r => (o :: r.1, r.2) := rfl

theorem run_cons_eq_some {s t : σ} {e : ε} {es : List ε} {os : List ο} :
    run step s (e :: es) = some (os, t) ↔
      ∃ o s' os', step s e = some (o, s') ∧ run step s' es = some (os', t) ∧ os = o :: os' := by
  rw [run_cons]
  cases h : step s e with
  | none =>
    refine ⟨nofun, ?_⟩
    rintro ⟨o, s', os', h', -⟩
    cases h'
  | some r =>
    obtain ⟨o, s'⟩ := r
    refine ⟨?_, ?_⟩
    · intro hr
      obtain ⟨⟨os', t'⟩, hr', heq⟩ := Option.map_eq_some_iff.mp hr
      obtain ⟨rfl, rfl⟩ := Prod.mk.inj heq
      exact ⟨o, s', os', rfl, hr', rfl⟩
    · rintro ⟨o', s'', os', heq, hr, rfl⟩
      obtain ⟨rfl, rfl⟩ := Prod.mk.inj (Option.some.inj heq)
      exact Option.map_eq_some_iff.mpr ⟨(os', t), hr, rfl⟩

theorem run_append_eq_some {s t : σ} {es fs : List ε} {os : List ο} :
    run step s (es ++ fs) = some (os, t) ↔
      ∃ m os₁ os₂, run step s es = some (os₁, m) ∧ run step m fs = some (os₂, t) ∧
        os = os₁ ++ os₂ := by
  induction es generalizing s os with
  | nil =>
    refine ⟨?_, ?_⟩
    · intro h
      exact ⟨s, [], os, rfl, h, rfl⟩
    · rintro ⟨m, os₁, os₂, h, hr, rfl⟩
      obtain ⟨rfl, rfl⟩ := Prod.mk.inj (Option.some.inj h)
      exact hr
  | cons e es ih =>
    rw [List.cons_append, run_cons_eq_some]
    refine ⟨?_, ?_⟩
    · rintro ⟨o, s', os', h, hr, rfl⟩
      obtain ⟨m, os₁, os₂, h₁, h₂, rfl⟩ := ih.mp hr
      exact ⟨m, o :: os₁, os₂, run_cons_eq_some.mpr ⟨o, s', os₁, h, h₁, rfl⟩, h₂, rfl⟩
    · rintro ⟨m, os₁, os₂, h₁, h₂, rfl⟩
      obtain ⟨o, s', os', h, hr, rfl⟩ := run_cons_eq_some.mp h₁
      exact ⟨o, s', os' ++ os₂, h, ih.mpr ⟨m, os', os₂, hr, h₂, rfl⟩, rfl⟩

/-- What every step keeps, every run keeps. -/
theorem run_inv {I : σ → Prop} (hstep : ∀ s e o s', I s → step s e = some (o, s') → I s')
    {s t : σ} {es : List ε} {os : List ο} (hs : I s) (hr : run step s es = some (os, t)) : I t := by
  induction es generalizing s os with
  | nil =>
    obtain ⟨rfl, rfl⟩ := Prod.mk.inj (Option.some.inj hr)
    exact hs
  | cons e es ih =>
    obtain ⟨o, s', os', h, hr', rfl⟩ := run_cons_eq_some.mp hr
    exact ih (hstep s e o s' hs h) hr'

/-- What every step's output satisfies, under an invariant, every output of a run does. -/
theorem run_out {I : σ → Prop} {Q : ο → Prop}
    (hstep : ∀ s e o s', I s → step s e = some (o, s') → I s' ∧ Q o)
    {s t : σ} {es : List ε} {os : List ο} (hs : I s) (hr : run step s es = some (os, t)) :
    ∀ o ∈ os, Q o := by
  induction es generalizing s os with
  | nil =>
    obtain ⟨rfl, rfl⟩ := Prod.mk.inj (Option.some.inj hr)
    simp
  | cons e es ih =>
    obtain ⟨o, s', os', h, hr', rfl⟩ := run_cons_eq_some.mp hr
    obtain ⟨hs', ho⟩ := hstep s e o s' hs h
    intro o' hmem
    rcases List.mem_cons.mp hmem with rfl | hmem
    · exact ho
    · exact ih hs' hr' o' hmem

/-- What every step keeps of the state and the outputs so far, every run keeps. -/
theorem run_inv_outputs {I : List ο → σ → Prop}
    (hstep : ∀ os s e o s', I os s → step s e = some (o, s') → I (os ++ [o]) s')
    {s t : σ} {es : List ε} {before os : List ο} (hs : I before s)
    (hr : run step s es = some (os, t)) : I (before ++ os) t := by
  induction es generalizing s before os with
  | nil =>
    obtain ⟨rfl, rfl⟩ := Prod.mk.inj (Option.some.inj hr)
    rw [List.append_nil]
    exact hs
  | cons e es ih =>
    obtain ⟨o, s', os', h, hr', rfl⟩ := run_cons_eq_some.mp hr
    have hone := hstep before s e o s' hs h
    rw [List.append_cons]
    exact ih hone hr'

theorem run_singleton {s t : σ} {e : ε} {o : ο} (h : step s e = some (o, t)) :
    run step s [e] = some ([o], t) :=
  run_cons_eq_some.mpr ⟨o, t, [], h, rfl, rfl⟩

/-- A run and one step more. -/
theorem run_snoc {s m t : σ} {es : List ε} {os : List ο} {e : ε} {o : ο}
    (hr : run step s es = some (os, m)) (h : step m e = some (o, t)) :
    run step s (es ++ [e]) = some (os ++ [o], t) :=
  run_append_eq_some.mpr ⟨m, os, [o], hr, run_singleton h, rfl⟩

/-- Every event of the run meets the condition `ok` in the state it is taken in. -/
def Meets (step : σ → ε → Option (ο × σ)) (ok : σ → ε → Prop) : σ → List ε → Prop
  | _, [] => True
  | s, e :: es => ok s e ∧
    match step s e with
    | none => True
    | some r => Meets step ok r.2 es

instance decidableMeets (step : σ → ε → Option (ο × σ)) (ok : σ → ε → Prop)
    [∀ s e, Decidable (ok s e)] : ∀ (es : List ε) (s : σ), Decidable (Meets step ok s es)
  | [], _ => isTrue trivial
  | e :: es, s =>
    match hstep : step s e with
    | none => decidable_of_iff (ok s e) (by simp [Meets, hstep])
    | some r =>
      have := decidableMeets step ok es r.2
      decidable_of_iff (ok s e ∧ Meets step ok r.2 es) (by simp [Meets, hstep])

theorem meets_cons {ok : σ → ε → Prop} {s s' : σ} {e : ε} {o : ο} {es : List ε}
    (h : step s e = some (o, s')) :
    Meets step ok s (e :: es) ↔ ok s e ∧ Meets step ok s' es := by
  rw [Meets, h]

/-- A condition on the events alone. -/
theorem meets_of_forall {ok : ε → Prop} {es : List ε} (h : ∀ e ∈ es, ok e) (s : σ) :
    Meets step (fun _ e => ok e) s es := by
  induction es generalizing s with
  | nil => trivial
  | cons e es ih =>
    rw [List.forall_mem_cons] at h
    rw [Meets]
    refine ⟨h.1, ?_⟩
    split
    · trivial
    · exact ih h.2 _

/-- A condition met in two parts. -/
theorem meets_append {ok : σ → ε → Prop} {s m : σ} {es fs : List ε} {os : List ο}
    (hr : run step s es = some (os, m)) :
    Meets step ok s (es ++ fs) ↔ Meets step ok s es ∧ Meets step ok m fs := by
  induction es generalizing s os with
  | nil =>
    obtain ⟨rfl, rfl⟩ := Prod.mk.inj (Option.some.inj hr)
    exact (iff_of_eq (true_and _)).symm
  | cons e es ih =>
    obtain ⟨o, s', os', h, hr', rfl⟩ := run_cons_eq_some.mp hr
    rw [List.cons_append, meets_cons h, meets_cons h, ih hr', and_assoc]

/-- If the steps that miss the condition are those that raise a measure, which none
    lowers, the runs that meet it are those that leave the measure as it was. -/
theorem meets_iff_measure {ok : σ → ε → Prop} [∀ s e, Decidable (ok s e)] {μ : σ → Nat}
    (hstep : ∀ s e o s', step s e = some (o, s') → μ s' = μ s + if ok s e then 0 else 1)
    {s t : σ} {es : List ε} {os : List ο} (hr : run step s es = some (os, t)) :
    (Meets step ok s es ↔ μ t = μ s) ∧ μ s ≤ μ t := by
  induction es generalizing s os with
  | nil =>
    obtain ⟨rfl, rfl⟩ := Prod.mk.inj (Option.some.inj hr)
    exact ⟨iff_of_true trivial rfl, Nat.le_refl _⟩
  | cons e es ih =>
    obtain ⟨o, s', os', h, hr', rfl⟩ := run_cons_eq_some.mp hr
    obtain ⟨hiff, hle⟩ := ih hr'
    have hμ := hstep s e o s' h
    rw [meets_cons h, hiff]
    by_cases hok : ok s e
    · rw [if_pos hok] at hμ
      exact ⟨by simp [hok, hμ], by omega⟩
    · rw [if_neg hok] at hμ
      refine ⟨iff_of_false (fun hmeets => hok hmeets.1) ?_, ?_⟩
      · omega
      · omega

/-- What every step that meets the condition keeps, every run of such steps keeps. -/
theorem run_inv_of_meets {I : σ → Prop} {ok : σ → ε → Prop}
    (hstep : ∀ s e o s', I s → ok s e → step s e = some (o, s') → I s')
    {s t : σ} {es : List ε} {os : List ο} (hs : I s) (hr : run step s es = some (os, t))
    (hok : Meets step ok s es) : I t := by
  induction es generalizing s os with
  | nil =>
    obtain ⟨rfl, rfl⟩ := Prod.mk.inj (Option.some.inj hr)
    exact hs
  | cons e es ih =>
    obtain ⟨o, s', os', h, hr', rfl⟩ := run_cons_eq_some.mp hr
    obtain ⟨hone, hrest⟩ := (meets_cons h).mp hok
    exact ih (hstep s e o s' hs hone h) hr' hrest

/-- What every step that meets the condition keeps of the state and of the events and outputs
    so far, every run of such steps keeps. -/
theorem run_inv_trace_of_meets {I : List ε → List ο → σ → Prop} {ok : σ → ε → Prop}
    (hstep : ∀ es os s e o s', I es os s → ok s e → step s e = some (o, s') →
      I (es ++ [e]) (os ++ [o]) s')
    {s t : σ} {past es : List ε} {before os : List ο} (hs : I past before s)
    (hr : run step s es = some (os, t)) (hok : Meets step ok s es) :
    I (past ++ es) (before ++ os) t := by
  induction es generalizing s past before os with
  | nil =>
    obtain ⟨rfl, rfl⟩ := Prod.mk.inj (Option.some.inj hr)
    rw [List.append_nil, List.append_nil]
    exact hs
  | cons e es ih =>
    obtain ⟨o, s', os', h, hr', rfl⟩ := run_cons_eq_some.mp hr
    obtain ⟨hone, hrest⟩ := (meets_cons h).mp hok
    have hnext := hstep past before s e o s' hs hone h
    rw [List.append_cons past, List.append_cons before]
    exact ih hnext hr' hrest

/-- The same, of every run. -/
theorem run_inv_trace {I : List ε → List ο → σ → Prop}
    (hstep : ∀ es os s e o s', I es os s → step s e = some (o, s') → I (es ++ [e]) (os ++ [o]) s')
    {s t : σ} {past es : List ε} {before os : List ο} (hs : I past before s)
    (hr : run step s es = some (os, t)) : I (past ++ es) (before ++ os) t :=
  run_inv_trace_of_meets (fun es os s e o s' h _ => hstep es os s e o s' h) hs hr
    (meets_of_forall (fun _ _ => trivial) s)

/-- A measure that every step of the selected kind lowers, and no step raises,
    bounds the number of such steps. -/
theorem run_count_le {I : σ → Prop} {ok : σ → ε → Prop} {μ : σ → Nat} {sel : ε → Bool}
    (hstep : ∀ s e o s', I s → ok s e → step s e = some (o, s') →
      I s' ∧ μ s' + (if sel e then 1 else 0) ≤ μ s)
    {s t : σ} {es : List ε} {os : List ο} (hs : I s) (hr : run step s es = some (os, t))
    (hok : Meets step ok s es) : μ t + es.countP sel ≤ μ s := by
  induction es generalizing s os with
  | nil =>
    obtain ⟨rfl, rfl⟩ := Prod.mk.inj (Option.some.inj hr)
    exact Nat.le_refl _
  | cons e es ih =>
    obtain ⟨o, s', os', h, hr', rfl⟩ := run_cons_eq_some.mp hr
    obtain ⟨hone, hmeets⟩ := (meets_cons h).mp hok
    obtain ⟨hs', hle⟩ := hstep s e o s' hs hone h
    have hrest := ih hs' hr' hmeets
    rw [List.countP_cons]
    omega

/-- The abstract run: a total machine folded over the events. -/
def absRun (astep : τ → ε → ο × τ) : τ → List ε → List ο × τ
  | a, [] => ([], a)
  | a, e :: es => ((astep a e).1 :: (absRun astep (astep a e).2 es).1,
      (absRun astep (astep a e).2 es).2)

/-- The events are all allowed (`ok`) in the abstract states they meet. -/
def Allowed (astep : τ → ε → ο × τ) (ok : τ → ε → Prop) : τ → List ε → Prop
  | _, [] => True
  | a, e :: es => ok a e ∧ Allowed astep ok (astep a e).2 es

/-- A machine that follows a total abstract one wherever `ok` allows the event
    has a defined run, with the abstract outputs, that ends in step. -/
theorem run_total {R : σ → τ → Prop} {astep : τ → ε → ο × τ} {ok : τ → ε → Prop}
    (hstep : ∀ s a e, R s a → ok a e →
      ∃ s', step s e = some ((astep a e).1, s') ∧ R s' (astep a e).2)
    {s : σ} {a : τ} {es : List ε} (hR : R s a) (hok : Allowed astep ok a es) :
    ∃ t, run step s es = some ((absRun astep a es).1, t) ∧ R t (absRun astep a es).2 := by
  induction es generalizing s a with
  | nil => exact ⟨s, rfl, hR⟩
  | cons e es ih =>
    obtain ⟨s', h, hR'⟩ := hstep s a e hR hok.1
    obtain ⟨t, hr, hRt⟩ := ih hR' hok.2
    exact ⟨t, run_cons_eq_some.mpr ⟨_, s', _, h, hr, rfl⟩, hRt⟩

/-- If moreover the machine is stuck wherever `ok` forbids the event, every
    defined run is such a run. -/
theorem run_lockstep {R : σ → τ → Prop} {astep : τ → ε → ο × τ} {ok : τ → ε → Prop}
    (hstep : ∀ s a e, R s a → ok a e →
      ∃ s', step s e = some ((astep a e).1, s') ∧ R s' (astep a e).2)
    (hstuck : ∀ s a e, R s a → ¬ ok a e → step s e = none)
    {s t : σ} {a : τ} {es : List ε} {os : List ο} (hR : R s a) (hr : run step s es = some (os, t)) :
    Allowed astep ok a es ∧ os = (absRun astep a es).1 ∧ R t (absRun astep a es).2 := by
  induction es generalizing s a os with
  | nil =>
    obtain ⟨rfl, rfl⟩ := Prod.mk.inj (Option.some.inj hr)
    exact ⟨trivial, rfl, hR⟩
  | cons e es ih =>
    obtain ⟨o, s', os', h, hr', rfl⟩ := run_cons_eq_some.mp hr
    -- where the event is forbidden the machine would be stuck, but it has stepped
    by_cases hok : ok a e
    · obtain ⟨s'', h', hR'⟩ := hstep s a e hR hok
      obtain ⟨rfl, rfl⟩ := Prod.mk.inj (Option.some.inj (h.symm.trans h'))
      obtain ⟨hall, hos, hRt⟩ := ih hR' hr'
      exact ⟨⟨hok, hall⟩, congrArg _ hos, hRt⟩
    · rw [hstuck s a e hR hok] at h
      cases h

/-- An abstract run in two parts. -/
theorem absRun_append {astep : τ → ε → ο × τ} (a : τ) (es fs : List ε) :
    (absRun astep a (es ++ fs)).2 = (absRun astep (absRun astep a es).2 fs).2 := by
  induction es generalizing a with
  | nil => rfl
  | cons e es ih => exact ih (astep a e).2

/-- `Allowed`, event by event. -/
theorem allowed_iff_forall {astep : τ → ε → ο × τ} {ok : τ → ε → Prop} {a : τ} {es : List ε} :
    Allowed astep ok a es ↔
      ∀ pre e post, pre ++ e :: post = es → ok (absRun astep a pre).2 e := by
  induction es generalizing a with
  | nil =>
    refine ⟨?_, ?_⟩
    · intro _ pre e post h
      cases pre <;> cases h
    · intro _
      trivial
  | cons e es ih =>
    refine ⟨?_, ?_⟩
    · rintro ⟨hok, hall⟩ pre e' post h
      cases pre with
      | nil =>
        obtain ⟨rfl, rfl⟩ := List.cons.inj h
        exact hok
      | cons d pre =>
        obtain ⟨rfl, rfl⟩ := List.cons.inj h
        exact ih.mp hall pre e' post rfl
    · intro h
      exact ⟨h [] e es rfl, ih.mpr fun pre e' post heq => h (e :: pre) e' post (congrArg _ heq)⟩

theorem allowed_append {astep : τ → ε → ο × τ} {ok : τ → ε → Prop} {a : τ} {es fs : List ε} :
    Allowed astep ok a (es ++ fs) ↔
      Allowed astep ok a es ∧ Allowed astep ok (absRun astep a es).2 fs := by
  induction es generalizing a with
  | nil => simp [Allowed, absRun]
  | cons e es ih => simp only [List.cons_append, Allowed, ih, absRun, and_assoc]

/-- Two states that every event treats alike give the same outputs for ever. -/
theorem run_congr {R : σ → σ → Prop}
    (hstep : ∀ s t e, R s t →
      (step s e = none ∧ step t e = none) ∨
        ∃ o s' t', step s e = some (o, s') ∧ step t e = some (o, t') ∧ R s' t')
    {s t : σ} (hR : R s t) (es : List ε) :
    (run step s es).map Prod.fst = (run step t es).map Prod.fst := by
  induction es generalizing s t with
  | nil => rfl
  | cons e es ih =>
    rcases hstep s t e hR with ⟨hs, ht⟩ | ⟨o, s', t', hs, ht, hR'⟩
    · simp only [run, hs, ht]
    · have hih := ih hR'
      simp only [run, hs, ht, Option.map_map]
      cases h₁ : run step s' es <;> cases h₂ : run step t' es <;> simp_all

end Aesd.Lib
