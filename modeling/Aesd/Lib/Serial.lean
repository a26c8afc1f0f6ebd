/-
  Aesd.Lib.Serial

  Serializability of programs that keep to one lock.  A program is
  `Disciplined` if a thread that does not own the lock neither reads nor
  changes the shared state.  Then whatever such a thread does while another
  owns the lock it could as well have done before that one took it, and every
  run is, for each thread and in its end, a run in which nobody else moves
  between an acquisition and its release (`Disciplined.serializable`).

  The proof is an induction on the run from its end: the serial run ends with
  the session of the owner, if there is one, and a step of another thread is
  put in before that session (`Serially.outside`).
-/
import Aesd.Lib.Monitor

namespace Aesd.Lib.Monitor

variable {τ σ ω ε ο : Type _} [DecidableEq τ]

/-- A thread is `In` the lock or `Out` of it by its local state alone, and out of
    the lock the shared state is nothing to it. -/
structure Disciplined (act : Program τ σ ω ε ο) (Out In : ω → Prop) : Prop where
  acquire : ∀ t r w e m, Out w → act t r w e = some m → m.lock = .acquire → In m.own
  inside : ∀ t r w e m, In w → act t r w e = some m → m.lock = .keep → In m.own
  release : ∀ t r w e m, In w → act t r w e = some m → m.lock = .release → Out m.own
  outside : ∀ t r w e m, Out w → act t r w e = some m → m.lock = .keep →
    m.shared = r ∧ Out m.own ∧ ∀ r', act t r' w e = some { m with shared := r' }

/-- The owner of the lock is in it, every other thread out of it. -/
structure Placed (Out In : ω → Prop) (s : State τ σ ω) : Prop where
  owner : ∀ t, s.owner = some t → In (s.locals t)
  others : ∀ t, s.owner ≠ some t → Out (s.locals t)

/-- While the lock is taken only its owner moves. -/
def Alone (s : State τ σ ω) (x : τ × ε) : Prop := ∀ t, s.owner = some t → x.1 = t

/-- The events, or the outputs, of one thread. -/
def ofThread {β : Type _} (t : τ) (xs : List (τ × β)) : List (τ × β) :=
  xs.filter fun x => decide (x.1 = t)

/-! ## Projections to a thread -/

section OfThread

variable {β : Type _} {t u : τ} {xs ys : List (τ × β)}

theorem ofThread_append : ofThread t (xs ++ ys) = ofThread t xs ++ ofThread t ys :=
  List.filter_append ..

theorem ofThread_eq_nil (h : ∀ x ∈ xs, x.1 = u) (hne : u ≠ t) : ofThread t xs = [] := by
  rw [ofThread, List.filter_eq_nil_iff]
  intro x hx
  rw [h x hx]
  simpa using hne

/-- A step of `u` may change places with steps of another thread. -/
theorem ofThread_swap {b : β} (h : ∀ x ∈ ys, x.1 = u) {v : τ} (hne : u ≠ v) :
    ofThread t (xs ++ [(v, b)] ++ ys) = ofThread t (xs ++ ys) ++ ofThread t [(v, b)] := by
  simp only [ofThread_append, List.append_assoc]
  by_cases ht : u = t
  · -- then the step is not one of `t`
    subst ht
    have hnil : ofThread u [(v, b)] = [] :=
      ofThread_eq_nil (by simp) hne.symm
    rw [hnil, List.nil_append, List.append_nil]
  · rw [ofThread_eq_nil h ht, List.append_nil, List.nil_append]

end OfThread

variable {act : Program τ σ ω ε ο} {Out In : ω → Prop}

/-! ## Steps of one thread and the others -/

/-- A step sees of the local states only the one of its thread. -/
theorem step_frame {s s' : State τ σ ω} {x : τ × ε} {o : τ × ο} {u : τ} (v : ω)
    (h : step act s x = some (o, s')) (hne : x.1 ≠ u) :
    step act { s with locals := Function.update s.locals u v } x =
      some (o, { s' with locals := Function.update s'.locals u v }) := by
  obtain ⟨t, e⟩ := x
  unfold step at h ⊢
  dsimp only at h hne ⊢
  rw [Function.update_of_ne hne]
  cases hact : act t s.shared (s.locals t) e with
  | none =>
    rw [hact] at h
    cases h
  | some m =>
    rw [hact] at h
    obtain ⟨owner, howner, heq⟩ := Option.map_eq_some_iff.mp h
    obtain ⟨rfl, rfl⟩ := Prod.mk.inj heq
    dsimp only
    rw [howner, Option.map_some, Function.update_comm hne.symm]

/-- Nor does a run of other threads. -/
theorem run_frame {s s' : State τ σ ω} {xs : List (τ × ε)} {os : List (τ × ο)} {u : τ} (v : ω)
    (hr : run (step act) s xs = some (os, s')) (hne : ∀ x ∈ xs, x.1 ≠ u) :
    run (step act) { s with locals := Function.update s.locals u v } xs =
      some (os, { s' with locals := Function.update s'.locals u v }) := by
  induction xs generalizing s os with
  | nil =>
    obtain ⟨rfl, rfl⟩ := Prod.mk.inj (Option.some.inj hr)
    rfl
  | cons x xs ih =>
    rw [List.forall_mem_cons] at hne
    obtain ⟨o, s₁, os', h, hr', rfl⟩ := run_cons_eq_some.mp hr
    exact run_cons_eq_some.mpr ⟨o, _, os', step_frame v h hne.1, ih hr' hne.2, rfl⟩

/-- A run of other threads leaves a thread where it was. -/
theorem locals_of_run {s s' : State τ σ ω} {xs : List (τ × ε)} {os : List (τ × ο)} {u : τ}
    (hr : run (step act) s xs = some (os, s')) (hne : ∀ x ∈ xs, x.1 ≠ u) :
    s'.locals u = s.locals u := by
  induction xs generalizing s os with
  | nil =>
    obtain ⟨rfl, rfl⟩ := Prod.mk.inj (Option.some.inj hr)
    rfl
  | cons x xs ih =>
    rw [List.forall_mem_cons] at hne
    obtain ⟨o, s₁, os', h, hr', rfl⟩ := run_cons_eq_some.mp hr
    obtain ⟨m, -, -, -, hlocals, -⟩ := step_cases h
    rw [ih hr' hne.2, hlocals, Function.update_of_ne hne.1.symm]

/-- The outputs of a run carry the threads of its events. -/
theorem outputs_of_run {s s' : State τ σ ω} {xs : List (τ × ε)} {os : List (τ × ο)} {t : τ}
    (hr : run (step act) s xs = some (os, s')) (hall : ∀ x ∈ xs, x.1 = t) :
    ∀ o ∈ os, o.1 = t := by
  induction xs generalizing s os with
  | nil =>
    obtain ⟨rfl, rfl⟩ := Prod.mk.inj (Option.some.inj hr)
    simp
  | cons x xs ih =>
    rw [List.forall_mem_cons] at hall
    obtain ⟨o, s₁, os', h, hr', rfl⟩ := run_cons_eq_some.mp hr
    obtain ⟨m, -, rfl, -⟩ := step_cases h
    exact List.forall_mem_cons.mpr ⟨hall.1, ih hr' hall.2⟩

/-- The steps of the owner alone are serial whatever the others' local states. -/
theorem meets_frame {s : State τ σ ω} {xs : List (τ × ε)} {u : τ} (v : ω)
    {os : List (τ × ο)} {s' : State τ σ ω} (hr : run (step act) s xs = some (os, s'))
    (hne : ∀ x ∈ xs, x.1 ≠ u) (h : Meets (step act) Alone s xs) :
    Meets (step act) Alone { s with locals := Function.update s.locals u v } xs := by
  induction xs generalizing s os with
  | nil => trivial
  | cons x xs ih =>
    rw [List.forall_mem_cons] at hne
    obtain ⟨o, s₁, os', hx, hr', rfl⟩ := run_cons_eq_some.mp hr
    obtain ⟨hone, hrest⟩ := (meets_cons hx).mp h
    exact (meets_cons (step_frame v hx hne.1)).mpr ⟨hone, ih hr' hne.2 hrest⟩

theorem Disciplined.placed_step (D : Disciplined act Out In) {s s' : State τ σ ω} {x : τ × ε}
    {o : τ × ο} (hs : Placed Out In s) (h : step act s x = some (o, s')) : Placed Out In s' := by
  obtain ⟨t, e⟩ := x
  obtain ⟨m, hact, -, -, hlocals, hlock⟩ := step_cases h
  have hself : s'.locals t = m.own := by rw [hlocals, Function.update_self]
  have hother : ∀ u, u ≠ t → s'.locals u = s.locals u := by
    intro u hu
    rw [hlocals, Function.update_of_ne hu]
  rcases hlock with ⟨hlk, howner⟩ | ⟨hlk, hfree, howner⟩ | ⟨hlk, hown, howner⟩
  · refine ⟨fun u hu => ?_, fun u hu => ?_⟩
    · rw [howner] at hu
      by_cases hut : u = t
      · subst hut
        rw [hself]
        exact D.inside u _ _ e m (hs.owner u hu) hact hlk
      · rw [hother u hut]
        exact hs.owner u hu
    · rw [howner] at hu
      by_cases hut : u = t
      · subst hut
        rw [hself]
        exact (D.outside u _ _ e m (hs.others u hu) hact hlk).2.1
      · rw [hother u hut]
        exact hs.others u hu
  · have hnone : ∀ u, s.owner ≠ some u := fun u => by simp [hfree]
    refine ⟨fun u hu => ?_, fun u hu => ?_⟩
    · obtain rfl : t = u := Option.some.inj (howner.symm.trans hu)
      rw [hself]
      exact D.acquire t _ _ e m (hs.others t (hnone t)) hact hlk
    · have hut : u ≠ t := fun heq => hu (heq ▸ howner)
      rw [hother u hut]
      exact hs.others u (hnone u)
  · refine ⟨fun u hu => ?_, fun u _ => ?_⟩
    · rw [howner] at hu
      cases hu
    · by_cases hut : u = t
      · subst hut
        rw [hself]
        exact D.release u _ _ e m (hs.owner u hown) hact hlk
      · rw [hother u hut]
        exact hs.others u fun heq => hut (Option.some.inj (hown.symm.trans heq)).symm

/-! ## Serial runs -/

/-- A run from `s` to `s'` with the events `xs` and the outputs `os` has been put in
    order: the serial run `ys` up to where the lock was last free, and the session
    `zs` of the owner since. -/
structure Serially (act : Program τ σ ω ε ο) (s : State τ σ ω) (xs : List (τ × ε))
    (os : List (τ × ο)) (s' m : State τ σ ω) (ys zs : List (τ × ε)) (ps qs : List (τ × ο)) :
    Prop where
  past : run (step act) s ys = some (ps, m)
  session : run (step act) m zs = some (qs, s')
  serial : Meets (step act) Alone s ys
  alone : Meets (step act) Alone m zs
  free : m.owner = none
  owned : ∀ x ∈ zs, s'.owner = some x.1
  events : ∀ t, ofThread t (ys ++ zs) = ofThread t xs
  outputs : ∀ t, ofThread t (ps ++ qs) = ofThread t os

namespace Serially

variable {s s' m n : State τ σ ω} {xs ys zs : List (τ × ε)} {os ps qs : List (τ × ο)} {t : τ}
  {e : ε} {o : τ × ο}

/-- The two parts are one serial run. -/
theorem joined (h : Serially act s xs os s' m ys zs ps qs) :
    run (step act) s (ys ++ zs) = some (ps ++ qs, s') ∧ Meets (step act) Alone s (ys ++ zs) :=
  ⟨run_append_eq_some.mpr ⟨m, ps, qs, h.past, h.session, rfl⟩,
    (meets_append h.past).mpr ⟨h.serial, h.alone⟩⟩

/-- With the lock free there is no session. -/
theorem eq_of_free (h : Serially act s xs os s' m ys zs ps qs) (hfree : s'.owner = none) :
    zs = [] ∧ qs = [] ∧ m = s' := by
  cases zs with
  | nil =>
    obtain ⟨rfl, rfl⟩ := Prod.mk.inj (Option.some.inj h.session)
    exact ⟨rfl, rfl, rfl⟩
  | cons x zs =>
    have hown := h.owned x List.mem_cons_self
    rw [hfree] at hown
    cases hown

/-- A step taken last, after which the lock is free: the session is over. -/
theorem ends (h : Serially act s xs os s' m ys zs ps qs) (hx : step act s' (t, e) = some (o, n))
    (hmine : Alone s' (t, e)) (hfree : n.owner = none) :
    Serially act s (xs ++ [(t, e)]) (os ++ [o]) n n (ys ++ zs ++ [(t, e)]) [] (ps ++ qs ++ [o])
      [] := by
  obtain ⟨hrun, hserial⟩ := h.joined
  have hlast : Meets (step act) Alone s' [(t, e)] := (meets_cons hx).mpr ⟨hmine, trivial⟩
  refine ⟨run_snoc hrun hx, rfl, (meets_append hrun).mpr ⟨hserial, hlast⟩, trivial, hfree,
    ?_, ?_, ?_⟩
  · simp
  · intro u
    rw [List.append_nil, ofThread_append, h.events u, ofThread_append]
  · intro u
    rw [List.append_nil, ofThread_append, h.outputs u, ofThread_append]

/-- A step taken last by the thread that owns the lock after it: the session goes on. -/
theorem goes_on (h : Serially act s xs os s' m ys zs ps qs) (hx : step act s' (t, e) = some (o, n))
    (hmine : Alone s' (t, e)) (hall : ∀ x ∈ zs, x.1 = t) (hown : n.owner = some t) :
    Serially act s (xs ++ [(t, e)]) (os ++ [o]) n m ys (zs ++ [(t, e)]) ps (qs ++ [o]) := by
  have hlast : Meets (step act) Alone s' [(t, e)] := (meets_cons hx).mpr ⟨hmine, trivial⟩
  refine ⟨h.past, run_snoc h.session hx, h.serial, (meets_append h.session).mpr ⟨h.alone, hlast⟩,
    h.free, ?_, ?_, ?_⟩
  · intro x hmem
    rcases List.mem_append.mp hmem with hmem | hmem
    · rw [hown, hall x hmem]
    · rw [hown, List.mem_singleton.mp hmem]
  · intro u
    rw [← List.append_assoc, ofThread_append, h.events u, ofThread_append]
  · intro u
    rw [← List.append_assoc, ofThread_append, h.outputs u, ofThread_append]

/-- A step of another thread goes before the session. -/
theorem outside (h : Serially act s xs os s' m ys zs ps qs) {u : τ} {own : ω}
    (hu : s'.owner = some u) (hne : u ≠ t) (ho : o.1 = t)
    (hx : step act m (t, e) = some (o, { m with locals := Function.update m.locals t own })) :
    Serially act s (xs ++ [(t, e)]) (os ++ [o])
      { s' with locals := Function.update s'.locals t own }
      { m with locals := Function.update m.locals t own } (ys ++ [(t, e)]) zs (ps ++ [o]) qs := by
  have hall : ∀ x ∈ zs, x.1 = u := fun x hmem =>
    (Option.some.inj (hu.symm.trans (h.owned x hmem))).symm
  have hothers : ∀ x ∈ zs, x.1 ≠ t := fun x hmem heq => hne ((hall x hmem).symm.trans heq)
  have hone : Meets (step act) Alone m [(t, e)] :=
    (meets_cons hx).mpr ⟨fun v hv => absurd (h.free.symm.trans hv) (by simp), trivial⟩
  refine ⟨run_snoc h.past hx, run_frame own h.session hothers,
    (meets_append h.past).mpr ⟨h.serial, hone⟩, meets_frame own h.session hothers h.alone, h.free,
    h.owned, ?_, ?_⟩
  · intro v
    rw [ofThread_swap hall hne, h.events v, ofThread_append]
  · intro v
    obtain ⟨t', out⟩ := o
    obtain rfl : t' = t := ho
    rw [ofThread_swap (outputs_of_run h.session hall) hne, h.outputs v, ofThread_append]

end Serially

/-- One more step can always be put in order. -/
theorem Disciplined.serially_step (D : Disciplined act Out In) {s s' n m : State τ σ ω}
    {xs ys zs : List (τ × ε)} {os ps qs : List (τ × ο)} {x : τ × ε} {o : τ × ο}
    (hplaced : Placed Out In s') (h : Serially act s xs os s' m ys zs ps qs)
    (hx : step act s' x = some (o, n)) :
    ∃ m' ys' zs' ps' qs', Serially act s (xs ++ [x]) (os ++ [o]) n m' ys' zs' ps' qs' := by
  obtain ⟨t, e⟩ := x
  obtain ⟨mv, hact, rfl, hshared, hlocals, hlock⟩ := step_cases hx
  cases hs' : s'.owner with
  | none =>
    obtain ⟨rfl, rfl, rfl⟩ := h.eq_of_free hs'
    have hmine : Alone m (t, e) := fun u hu => absurd (hs'.symm.trans hu) (by simp)
    rcases hlock with ⟨-, howner⟩ | ⟨-, -, howner⟩ | ⟨-, hown, -⟩
    · exact ⟨_, _, _, _, _, h.ends hx hmine (howner.trans hs')⟩
    · exact ⟨_, _, _, _, _, h.goes_on hx hmine (by simp) howner⟩
    · rw [hs'] at hown
      cases hown
  | some u =>
    by_cases hut : u = t
    · subst hut
      have hmine : Alone s' (u, e) := fun v hv => Option.some.inj (hs'.symm.trans hv)
      have hall : ∀ x ∈ zs, x.1 = u := fun x hmem =>
        (Option.some.inj (hs'.symm.trans (h.owned x hmem))).symm
      rcases hlock with ⟨-, howner⟩ | ⟨-, hfree, -⟩ | ⟨-, -, howner⟩
      · exact ⟨_, _, _, _, _, h.goes_on hx hmine hall (howner.trans hs')⟩
      · rw [hs'] at hfree
        cases hfree
      · exact ⟨_, _, _, _, _, h.ends hx hmine howner⟩
    · have hnot : s'.owner ≠ some t := fun heq => hut (Option.some.inj (hs'.symm.trans heq))
      rcases hlock with ⟨hlk, howner⟩ | ⟨-, hfree, -⟩ | ⟨-, hown, -⟩
      · obtain ⟨hsame, -, hany⟩ := D.outside t _ _ e mv (hplaced.others t hnot) hact hlk
        -- `t` has not moved since the session began, and makes the same step there
        have hthen : s'.locals t = m.locals t := locals_of_run h.session fun x hmem heq =>
          hnot (heq ▸ h.owned x hmem)
        have hbefore : step act m (t, e) =
            some ((t, mv.out), { m with locals := Function.update m.locals t mv.own }) := by
          rw [hthen] at hany
          exact step_eq (hany m.shared) (by rw [hlk]; rfl)
        have hn : n = { s' with locals := Function.update s'.locals t mv.own } := by
          obtain ⟨owner, shared, locals⟩ := n
          dsimp only at hshared hlocals howner
          rw [hshared, hlocals, howner, hsame]
        rw [hn]
        exact ⟨_, _, _, _, _, h.outside hs' hut rfl hbefore⟩
      · rw [hs'] at hfree
        cases hfree
      · exact absurd hown hnot

/-- Every run of a disciplined program from a free lock ends where a serial run
    ends in which every thread has the same events and the same outputs. -/
theorem Disciplined.serializable (D : Disciplined act Out In) {s s' : State τ σ ω}
    {xs : List (τ × ε)} {os : List (τ × ο)} (hplaced : Placed Out In s) (hfree : s.owner = none)
    (hr : run (step act) s xs = some (os, s')) :
    ∃ ys ps, run (step act) s ys = some (ps, s') ∧ Meets (step act) Alone s ys ∧
      ∀ t, ofThread t ys = ofThread t xs ∧ ofThread t ps = ofThread t os := by
  have hstart : Serially act s [] [] s s [] [] [] [] :=
    ⟨rfl, rfl, trivial, trivial, hfree, by simp, fun _ => rfl, fun _ => rfl⟩
  obtain ⟨-, m, ys, zs, ps, qs, h⟩ := run_inv_trace
    (I := fun xs os s' => Placed Out In s' ∧
      ∃ m ys zs ps qs, Serially act s xs os s' m ys zs ps qs)
    (fun _ _ _ _ _ _ ⟨hp, _, _, _, _, _, h⟩ hx =>
      ⟨D.placed_step hp hx, D.serially_step hp h hx⟩)
    ⟨hplaced, s, [], [], [], [], hstart⟩ hr
  obtain ⟨hrun, hserial⟩ := h.joined
  exact ⟨_, _, hrun, hserial, fun t => ⟨h.events t, h.outputs t⟩⟩

end Aesd.Lib.Monitor
