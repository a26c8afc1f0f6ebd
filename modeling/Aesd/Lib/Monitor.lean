/-
  Aesd.Lib.Monitor

  Threads that share a state behind one lock.  Each thread has a local state;
  a program says what a thread does next in its local state and the shared
  one, and whether that takes or gives back the lock.  Threads step in any
  order.

  The rule of the library (`Protocol.inv_run`) is the one of a monitor: what
  holds of the shared state whenever the lock is free (`Free`), what the
  holder may assume meanwhile (`Hold`), and what every other thread keeps
  (`Idle`), each checked against the steps of single threads, hold in every
  state of every run.  `Protocol.count_le` bounds the steps of each thread,
  and `Inv.progress` says when no thread is stuck.
-/
import Mathlib.Logic.Function.Basic
import Aesd.Lib.Run

namespace Aesd.Lib

variable {τ σ ω ε ο : Type _} [DecidableEq τ]

namespace Monitor

/-- What a step does to the lock. -/
inductive LockOp where
  | keep
  | acquire
  | release
  deriving DecidableEq, Repr

/-- One step of a thread: its effect on the lock, its output, and the new
    shared and local state. -/
structure Move (σ ω ο : Type _) where
  lock : LockOp
  out : ο
  shared : σ
  own : ω

/-- What thread `t` does on event `e`; `none` if it cannot. -/
abbrev Program (τ σ ω ε ο : Type _) := τ → σ → ω → ε → Option (Move σ ω ο)

structure State (τ σ ω : Type _) where
  owner : Option τ
  shared : σ
  locals : τ → ω

/-- The owner after the lock operation of thread `t`; a taken lock cannot be
    acquired, and only its owner may release it. -/
def ownerAfter (owner : Option τ) (t : τ) : LockOp → Option (Option τ)
  | .keep => some owner
  | .acquire => if owner = none then some (some t) else none
  | .release => if owner = some t then some none else none

/-- One step of the thread named in the event. -/
def step (act : Program τ σ ω ε ο) (s : State τ σ ω) (x : τ × ε) :
    Option ((τ × ο) × State τ σ ω) :=
  match act x.1 s.shared (s.locals x.1) x.2 with
  | none => none
  | some m =>
    (ownerAfter s.owner x.1 m.lock).map fun owner =>
      ((x.1, m.out), ⟨owner, m.shared, Function.update s.locals x.1 m.own⟩)

variable {act : Program τ σ ω ε ο}

/-- Everything a step can be. -/
theorem step_cases {s s' : State τ σ ω} {t : τ} {e : ε} {o : τ × ο}
    (h : step act s (t, e) = some (o, s')) :
    ∃ m, act t s.shared (s.locals t) e = some m ∧ o = (t, m.out) ∧ s'.shared = m.shared ∧
      s'.locals = Function.update s.locals t m.own ∧
      ((m.lock = .keep ∧ s'.owner = s.owner) ∨
        (m.lock = .acquire ∧ s.owner = none ∧ s'.owner = some t) ∨
        (m.lock = .release ∧ s.owner = some t ∧ s'.owner = none)) := by
  unfold step at h
  cases hact : act t s.shared (s.locals t) e with
  | none =>
    rw [hact] at h
    cases h
  | some m =>
    rw [hact] at h
    obtain ⟨owner, howner, heq⟩ := Option.map_eq_some_iff.mp h
    obtain ⟨rfl, rfl⟩ := Prod.mk.inj heq
    refine ⟨m, rfl, rfl, rfl, rfl, ?_⟩
    cases hlock : m.lock with
    | keep =>
      rw [hlock, ownerAfter] at howner
      exact .inl ⟨rfl, (Option.some.inj howner).symm⟩
    | acquire =>
      rw [hlock, ownerAfter] at howner
      by_cases hfree : s.owner = none
      · rw [if_pos hfree] at howner
        exact .inr (.inl ⟨rfl, hfree, (Option.some.inj howner).symm⟩)
      · rw [if_neg hfree] at howner
        cases howner
    | release =>
      rw [hlock, ownerAfter] at howner
      by_cases hown : s.owner = some t
      · rw [if_pos hown] at howner
        exact .inr (.inr ⟨rfl, hown, (Option.some.inj howner).symm⟩)
      · rw [if_neg hown] at howner
        cases howner

/-- The three ways to have an owner afterwards. -/
theorem ownerAfter_eq {owner owner' : Option τ} {t : τ} {lock : LockOp}
    (h : (lock = .keep ∧ owner' = owner) ∨ (lock = .acquire ∧ owner = none ∧ owner' = some t) ∨
      (lock = .release ∧ owner = some t ∧ owner' = none)) :
    ownerAfter owner t lock = some owner' := by
  rcases h with ⟨rfl, rfl⟩ | ⟨rfl, hfree, rfl⟩ | ⟨rfl, hown, rfl⟩
  · rfl
  · exact if_pos hfree
  · exact if_pos hown

/-- A step from its move and what that does to the lock. -/
theorem step_eq {s : State τ σ ω} {t : τ} {e : ε} {m : Move σ ω ο} {owner : Option τ}
    (hact : act t s.shared (s.locals t) e = some m)
    (howner : ownerAfter s.owner t m.lock = some owner) :
    step act s (t, e) =
      some ((t, m.out), ⟨owner, m.shared, Function.update s.locals t m.own⟩) := by
  unfold step
  dsimp only
  rw [hact]
  dsimp only
  rw [howner, Option.map_some]

/-- A thread that can move can step, unless the move acquires a taken lock or
    releases the lock of another. -/
theorem step_isSome {s : State τ σ ω} {t : τ} {e : ε} {m : Move σ ω ο}
    (hact : act t s.shared (s.locals t) e = some m) (hacq : m.lock = .acquire → s.owner = none)
    (hrel : m.lock = .release → s.owner = some t) : (step act s (t, e)).isSome = true := by
  unfold step
  rw [hact]
  cases hlock : m.lock with
  | keep => simp [ownerAfter, hlock]
  | acquire => simp [ownerAfter, hlock, hacq hlock]
  | release => simp [ownerAfter, hlock, hrel hlock]

/-- The obligations of the threads, for the steps allowed by `ok`. -/
structure Protocol (act : Program τ σ ω ε ο) (ok : τ → σ → ω → ε → Prop) (Free : σ → Prop)
    (Hold Idle : τ → σ → ω → Prop) : Prop where
  acquire : ∀ t r w e m, Free r → Idle t r w → ok t r w e → act t r w e = some m →
    m.lock = .acquire → Hold t m.shared m.own
  hold : ∀ t r w e m, Hold t r w → ok t r w e → act t r w e = some m →
    m.lock = .keep → Hold t m.shared m.own
  release : ∀ t r w e m, Hold t r w → ok t r w e → act t r w e = some m →
    m.lock = .release → Free m.shared ∧ Idle t m.shared m.own
  idle : ∀ t r w e m, Idle t r w → ok t r w e → act t r w e = some m →
    m.lock = .keep → m.shared = r ∧ Idle t r m.own
  stable : ∀ t r w e m u v, u ≠ t → Idle u r v → (Hold t r w ∨ Free r ∧ Idle t r w) →
    ok t r w e → act t r w e = some m → Idle u m.shared v

/-- The invariant of the whole: `Idle` for every thread that does not own the
    lock, `Hold` for its owner, `Free` if there is none. -/
structure Inv (Free : σ → Prop) (Hold Idle : τ → σ → ω → Prop) (s : State τ σ ω) : Prop where
  idle : ∀ t, s.owner ≠ some t → Idle t s.shared (s.locals t)
  free : s.owner = none → Free s.shared
  hold : ∀ t, s.owner = some t → Hold t s.shared (s.locals t)

variable {ok : τ → σ → ω → ε → Prop} {Free : σ → Prop} {Hold Idle : τ → σ → ω → Prop}

/-- The condition on single threads, as one on system steps. -/
def sysOk (ok : τ → σ → ω → ε → Prop) (s : State τ σ ω) (x : τ × ε) : Prop :=
  ok x.1 s.shared (s.locals x.1) x.2

/-- Every allowed step of every thread keeps the invariant. -/
theorem Protocol.inv_step (P : Protocol act ok Free Hold Idle) {s s' : State τ σ ω} {x : τ × ε}
    {o : τ × ο} (hs : Inv Free Hold Idle s) (hok : sysOk ok s x)
    (h : step act s x = some (o, s')) : Inv Free Hold Idle s' := by
  obtain ⟨t, e⟩ := x
  obtain ⟨owner', shared', locals'⟩ := s'
  obtain ⟨m, hact, -, hshared, hlocals, hlock⟩ := step_cases h
  dsimp only at hshared hlocals hlock
  subst hshared hlocals
  have hself : Function.update s.locals t m.own t = m.own := Function.update_self ..
  have hother : ∀ u, u ≠ t → Function.update s.locals t m.own u = s.locals u :=
    fun u hu => Function.update_of_ne hu ..
  -- the threads other than `t` that do not own the lock, before and after
  have hstable : ∀ u, u ≠ t → s.owner ≠ some u →
      (Hold t s.shared (s.locals t) ∨ Free s.shared ∧ Idle t s.shared (s.locals t)) →
      Idle u m.shared (Function.update s.locals t m.own u) := by
    intro u hu hown hpre
    rw [hother u hu]
    exact P.stable t _ _ e m u _ hu (hs.idle u hown) hpre hok hact
  rcases hlock with ⟨hlk, rfl⟩ | ⟨hlk, hfree, rfl⟩ | ⟨hlk, hown, rfl⟩
  · by_cases hown : s.owner = some t
    · have hhold := hs.hold t hown
      refine ⟨fun u hu => ?_, fun hnone => ?_, fun u hu => ?_⟩
      · have hne : u ≠ t := fun heq => hu (heq ▸ hown)
        exact hstable u hne hu (.inl hhold)
      · rw [hown] at hnone
        cases hnone
      · obtain rfl : t = u := Option.some.inj (hown.symm.trans hu)
        dsimp only
        rw [hself]
        exact P.hold t _ _ e m hhold hok hact hlk
    · -- a thread outside the lock leaves the shared state alone
      obtain ⟨hsame, hidle⟩ := P.idle t _ _ e m (hs.idle t hown) hok hact hlk
      rw [hsame]
      refine ⟨fun u hu => ?_, hs.free, fun u hu => ?_⟩
      · by_cases hne : u = t
        · subst hne
          dsimp only
          rw [hself]
          exact hidle
        · dsimp only
          rw [hother u hne]
          exact hs.idle u hu
      · have hne : u ≠ t := fun heq => hown (heq ▸ hu)
        dsimp only
        rw [hother u hne]
        exact hs.hold u hu
  · have hne : s.owner ≠ some t := by
      rw [hfree]
      exact fun heq => Option.some_ne_none t heq.symm
    have hidle := hs.idle t hne
    refine ⟨fun u hu => ?_, fun hnone => ?_, fun u hu => ?_⟩
    · have hut : u ≠ t := fun heq => hu (congrArg some heq.symm)
      -- the lock was free, so `u` was idle
      refine hstable u hut ?_ (.inr ⟨hs.free hfree, hidle⟩)
      rw [hfree]
      exact fun heq => Option.some_ne_none u heq.symm
    · cases hnone
    · -- `t` itself is the new owner
      obtain rfl : t = u := Option.some.inj hu
      dsimp only
      rw [hself]
      exact P.acquire t _ _ e m (hs.free hfree) hidle hok hact hlk
  · have hhold := hs.hold t hown
    obtain ⟨hfree, hidle⟩ := P.release t _ _ e m hhold hok hact hlk
    refine ⟨fun u _ => ?_, fun _ => hfree, fun u hu => ?_⟩
    · by_cases hut : u = t
      · subst hut
        dsimp only
        rw [hself]
        exact hidle
      · refine hstable u hut ?_ (.inl hhold)
        rw [hown]
        exact fun heq => hut (Option.some.inj heq).symm
    · cases hu

/-- Every run of allowed steps keeps the invariant. -/
theorem Protocol.inv_run (P : Protocol act ok Free Hold Idle) {s s' : State τ σ ω}
    {xs : List (τ × ε)} {os : List (τ × ο)} (hs : Inv Free Hold Idle s)
    (hr : run (step act) s xs = some (os, s')) (hok : Meets (step act) (sysOk ok) s xs) :
    Inv Free Hold Idle s' :=
  run_inv_of_meets (fun _ _ _ _ hi hx h => P.inv_step hi hx h) hs hr hok

/-- If the owner of the lock can always move, and thread `t` can move outside the
    lock until it is done, then `t` or the owner can step until `t` is done. -/
theorem Inv.progress {t : τ} {s : State τ σ ω} (hs : Inv Free Hold Idle s) (Done : ω → Prop)
    (hhold : ∀ u r w, Hold u r w → ∃ e m, ok u r w e ∧ act u r w e = some m ∧ m.lock ≠ .acquire)
    (hidle : ∀ r w, Idle t r w → ¬ Done w →
      ∃ e m, ok t r w e ∧ act t r w e = some m ∧ m.lock ≠ .release)
    (hdone : ¬ Done (s.locals t)) :
    ∃ x : τ × ε, (x.1 = t ∨ s.owner = some x.1) ∧ sysOk ok s x ∧ (step act s x).isSome = true := by
  cases howner : s.owner with
  | some u =>
    obtain ⟨e, m, hok, hact, hlock⟩ := hhold u _ _ (hs.hold u howner)
    exact ⟨(u, e), .inr rfl, hok, step_isSome hact (fun h => absurd h hlock) fun _ => howner⟩
  | none =>
    have hne : s.owner ≠ some t := by
      rw [howner]
      exact fun heq => Option.some_ne_none t heq.symm
    obtain ⟨e, m, hok, hact, hlock⟩ := hidle _ _ (hs.idle t hne) hdone
    exact ⟨(t, e), .inl rfl, hok, step_isSome hact (fun _ => howner) fun h => absurd h hlock⟩

/-- A measure of one thread that its own steps lower, and that does not look at
    the shared state while the thread is outside the lock, bounds its steps. -/
theorem Protocol.count_le (P : Protocol act ok Free Hold Idle) {t : τ} {μ : σ → ω → Nat}
    (hown : ∀ r w e m, (Hold t r w ∨ Idle t r w) → ok t r w e → act t r w e = some m →
      μ m.shared m.own + 1 ≤ μ r w)
    (hother : ∀ r w r', Idle t r w → μ r' w = μ r w)
    {s s' : State τ σ ω} {xs : List (τ × ε)} {os : List (τ × ο)} (hs : Inv Free Hold Idle s)
    (hr : run (step act) s xs = some (os, s')) (hok : Meets (step act) (sysOk ok) s xs) :
    μ s'.shared (s'.locals t) + xs.countP (fun x => decide (x.1 = t)) ≤
      μ s.shared (s.locals t) := by
  refine run_count_le (I := Inv Free Hold Idle) (μ := fun s => μ s.shared (s.locals t))
    ?_ hs hr hok
  rintro s ⟨v, e⟩ o s' hs hone hstep
  refine ⟨P.inv_step hs hone hstep, ?_⟩
  obtain ⟨m, hact, -, hshared, hlocals, hlock⟩ := step_cases hstep
  dsimp only
  rw [hshared, hlocals]
  by_cases hv : v = t
  · subst hv
    rw [Function.update_self, if_pos (decide_eq_true rfl)]
    by_cases howner : s.owner = some v
    · exact hown _ _ e m (.inl (hs.hold v howner)) hone hact
    · exact hown _ _ e m (.inr (hs.idle v howner)) hone hact
  · -- a step of another thread `v`
    rw [Function.update_of_ne (Ne.symm hv), if_neg (by simpa using hv), Nat.add_zero]
    by_cases howner : s.owner = some t
    · -- the owner is `t`, so the step of `v` is one outside the lock
      have hne : s.owner ≠ some v := by
        rw [howner]
        exact fun heq => hv (Option.some.inj heq).symm
      rcases hlock with ⟨hlk, -⟩ | ⟨-, hfree, -⟩ | ⟨-, hmine, -⟩
      · obtain ⟨hsame, -⟩ := P.idle v _ _ e m (hs.idle v hne) hone hact hlk
        exact Nat.le_of_eq (by rw [hsame])
      · rw [howner] at hfree
        cases hfree
      · exact absurd hmine hne
    · -- `t` is outside the lock, where the shared state does not count
      exact Nat.le_of_eq (hother _ _ _ (hs.idle t howner))

end Monitor

end Aesd.Lib
