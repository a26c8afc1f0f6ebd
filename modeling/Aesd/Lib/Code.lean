/-
  Aesd.Lib.Code

  Code in atomic statements, and threads that run it one statement at a time.
  A statement is a partial function on the shared state; what comes next may
  depend on its result.  `Code.exec` runs code from its first statement to its
  last without interruption.

  Code is `Guarded` if it takes the lock before it touches anything, keeps it
  while it does, and does nothing behind the release.  Threads that call
  guarded methods at will are linearizable (`linearizable`): the calls, in the
  order in which they were completed, with the answers they were given, are a
  run of the machine whose single step is the whole method.
-/
import Aesd.Lib.Monitor

namespace Aesd.Lib

open Monitor (LockOp Move Program)

/-- Code on a state `σ` with a result `ρ`. -/
inductive Code (σ ρ : Type) : Type 1 where
  | ret (r : ρ)
  | stmt {β : Type} (lock : LockOp) (f : σ → Option (β × σ)) (next : β → Code σ ρ)

namespace Code

variable {σ α β ρ : Type}

/-- One code after the other. -/
def andThen : Code σ α → (α → Code σ ρ) → Code σ ρ
  | .ret a, k => k a
  | .stmt lock f next, k => .stmt lock f fun b => (next b).andThen k

instance : Monad (Code σ) where
  pure := .ret
  bind := .andThen

/-- All statements, one after the other. -/
def exec : Code σ ρ → σ → Option (ρ × σ)
  | .ret r, s => some (r, s)
  | .stmt _ f next, s =>
    match f s with
    | none => none
    | some (b, s') => (next b).exec s'

/-- A statement that leaves the lock alone. -/
def keep (f : σ → Option (β × σ)) : Code σ β := .stmt .keep f .ret

/-- A statement that only reads. -/
def read (f : σ → Option β) : Code σ β := .keep fun s => (f s).map (·, s)

/-- A statement that only writes. -/
def modify (f : σ → Option σ) : Code σ Unit := .keep fun s => (f s).map ((), ·)

def acquire (f : σ → Option (β × σ)) : Code σ β := .stmt .acquire f .ret

def release (f : σ → Option (β × σ)) : Code σ β := .stmt .release f .ret

/-! ## Execution -/

@[simp] theorem exec_pure (r : ρ) (s : σ) : (pure r : Code σ ρ).exec s = some (r, s) := rfl

theorem exec_bind (c : Code σ α) (k : α → Code σ ρ) (s : σ) :
    (c >>= k).exec s = (c.exec s).bind fun x => (k x.1).exec x.2 := by
  show (c.andThen k).exec s = _
  induction c generalizing s with
  | ret a => rfl
  | stmt lock f next ih =>
    simp only [andThen, exec]
    cases f s with
    | none => rfl
    | some x => exact ih x.1 x.2

@[simp] theorem exec_keep (f : σ → Option (β × σ)) (s : σ) : (keep f).exec s = f s := by
  rw [keep, exec]
  cases f s <;> rfl

@[simp] theorem exec_read (f : σ → Option β) (s : σ) : (read f).exec s = (f s).map (·, s) :=
  exec_keep ..

@[simp] theorem exec_modify (f : σ → Option σ) (s : σ) :
    (modify f).exec s = (f s).map ((), ·) :=
  exec_keep ..

@[simp] theorem exec_acquire (f : σ → Option (β × σ)) (s : σ) : (acquire f).exec s = f s := by
  rw [acquire, exec]
  cases f s <;> rfl

@[simp] theorem exec_release (f : σ → Option (β × σ)) (s : σ) : (release f).exec s = f s := by
  rw [release, exec]
  cases f s <;> rfl

/-! ## The discipline of the lock -/

/-- The code neither takes nor gives back the lock. -/
inductive Plain : Code σ ρ → Prop
  | ret (r : ρ) : Plain (.ret r)
  | keep {γ : Type} {f : σ → Option (γ × σ)} {next : γ → Code σ ρ} (h : ∀ b, Plain (next b)) :
    Plain (.stmt .keep f next)

/-- The code, run by a thread that owns the lock (`true`) or does not, takes it first, gives
    it back last, and does nothing without it. -/
inductive Guarded : Bool → Code σ ρ → Prop
  | ret (r : ρ) : Guarded false (.ret r)
  | acquire {γ : Type} {f : σ → Option (γ × σ)} {next : γ → Code σ ρ}
    (h : ∀ b, Guarded true (next b)) : Guarded false (.stmt .acquire f next)
  | keep {γ : Type} {f : σ → Option (γ × σ)} {next : γ → Code σ ρ}
    (h : ∀ b, Guarded true (next b)) : Guarded true (.stmt .keep f next)
  | release {γ : Type} {f : σ → Option (γ × σ)} {next : γ → Code σ ρ}
    (h : ∀ b, ∃ r, next b = .ret r) : Guarded true (.stmt .release f next)

theorem plain_keep (f : σ → Option (β × σ)) : Plain (keep f) := .keep fun b => .ret b

theorem plain_read (f : σ → Option β) : Plain (read f) := plain_keep _

theorem plain_modify (f : σ → Option σ) : Plain (modify f) := plain_keep _

theorem plain_pure (r : ρ) : Plain (pure r : Code σ ρ) := .ret r

theorem Plain.bind {c : Code σ α} {k : α → Code σ ρ} (hc : Plain c) (hk : ∀ a, Plain (k a)) :
    Plain (c >>= k) := by
  show Plain (c.andThen k)
  induction hc with
  | ret a => exact hk a
  | keep h ih => exact .keep ih

/-- Plain code in front of code that owns the lock. -/
theorem Plain.guarded {c : Code σ α} {k : α → Code σ ρ} (hc : Plain c)
    (hk : ∀ a, Guarded true (k a)) : Guarded true (c >>= k) := by
  show Guarded true (c.andThen k)
  induction hc with
  | ret a => exact hk a
  | keep h ih => exact .keep ih

/-- The lock is taken first. -/
theorem guarded_acquire (f : σ → Option (β × σ)) {k : β → Code σ ρ} (hk : ∀ b, Guarded true (k b)) :
    Guarded false (acquire f >>= k) := .acquire hk

/-- The lock is given back, and the result returned. -/
theorem guarded_release (f : σ → Option (β × σ)) (r : ρ) :
    Guarded true (release f >>= fun _ => pure r) := .release fun _ => ⟨r, rfl⟩

end Code

/-! ## Threads that call methods -/

/-- A thread begins a call, or goes on with the one it is in. -/
inductive CallEvent (κ : Type) where
  | call (c : κ)
  | go

section Threads

variable {τ σ κ β ρ : Type}

/-- A thread: its call and the code left of it, if it is in one. -/
abbrev Caller (σ κ ρ : Type) := Option (κ × Code σ ρ)

/-- What a thread has completed, and what is left of its call. -/
def settle (c : κ) : Code σ ρ → Option (κ × ρ) × Caller σ κ ρ
  | .ret r => (some (c, r), none)
  | .stmt lock f next => (none, some (c, .stmt lock f next))

/-- Threads that call methods; a step puts out the call it completes with its answer. -/
def callers (code : κ → Code σ ρ) : Program τ σ (Caller σ κ ρ) (CallEvent κ) (Option (κ × ρ)) :=
  fun _ s w e =>
    match w, e with
    | none, .call c => some ⟨.keep, (settle c (code c)).1, s, (settle c (code c)).2⟩
    | some (c, .stmt lock f next), .go =>
      (f s).map fun x => ⟨lock, (settle c (next x.1)).1, x.2, (settle c (next x.1)).2⟩
    | _, _ => none

/-- The whole method in one step. -/
def atomically (code : κ → Code σ ρ) (s : σ) (c : κ) : Option (ρ × σ) := (code c).exec s

/-- Everything a thread can do. -/
inductive CallerActs (code : κ → Code σ ρ) (s : σ) :
    Caller σ κ ρ → CallEvent κ → Move σ (Caller σ κ ρ) (Option (κ × ρ)) → Prop where
  | call (c : κ) : CallerActs code s none (.call c)
      ⟨.keep, (settle c (code c)).1, s, (settle c (code c)).2⟩
  | stmt {β : Type} (c : κ) {lock : LockOp} {f : σ → Option (β × σ)} {next : β → Code σ ρ} {b : β}
    {s' : σ} (hf : f s = some (b, s')) : CallerActs code s (some (c, .stmt lock f next)) .go
      ⟨lock, (settle c (next b)).1, s', (settle c (next b)).2⟩

theorem callers_cases {code : κ → Code σ ρ} {t : τ} {s : σ} {w : Caller σ κ ρ} {e : CallEvent κ}
    {m : Move σ (Caller σ κ ρ) (Option (κ × ρ))} (h : callers code t s w e = some m) :
    CallerActs code s w e m := by
  unfold callers at h
  split at h
  case h_1 c => cases h; exact .call c
  case h_2 =>
    obtain ⟨⟨b, s'⟩, hf, rfl⟩ := Option.map_eq_some_iff.mp h
    exact .stmt _ hf
  case h_3 => cases h

theorem callers_go (code : κ → Code σ ρ) (t : τ) {s s' : σ} (c : κ) (lock : LockOp)
    {f : σ → Option (β × σ)} (next : β → Code σ ρ) {b : β} (hf : f s = some (b, s')) :
    callers code t s (some (c, .stmt lock f next)) .go =
      some ⟨lock, (settle c (next b)).1, s', (settle c (next b)).2⟩ := by
  rw [callers, hf]
  rfl

theorem settle_ret (c : κ) (r : ρ) : settle (σ := σ) c (.ret r) = (some (c, r), none) := rfl

theorem settle_guarded (c : κ) {code : Code σ ρ} (h : Code.Guarded true code) :
    settle c code = (none, some (c, code)) := by
  cases h <;> rfl

/-- A thread that does not own the lock is in no call, or at the first statement of one. -/
def Waits (code : κ → Code σ ρ) (w : Caller σ κ ρ) : Prop :=
  w = none ∨ ∃ c, w = some (c, code c) ∧ ∀ r, code c ≠ .ret r

/-- The owner is in a call, and what is left of it makes of the state what the whole call
    makes of `s₀`. -/
def Completes (code : κ → Code σ ρ) (s₀ s : σ) (w : Caller σ κ ρ) : Prop :=
  ∃ c rest, w = some (c, rest) ∧ Code.Guarded true rest ∧ rest.exec s = atomically code s₀ c

/-- The state is `s₁`, but for what the owner of the lock has done of its call. -/
structure Settled (code : κ → Code σ ρ) (s₁ : σ) (s : Monitor.State τ σ (Caller σ κ ρ)) : Prop where
  waits : ∀ t, s.owner ≠ some t → Waits code (s.locals t)
  free : s.owner = none → s.shared = s₁
  owner : ∀ t, s.owner = some t → Completes code s₁ s.shared (s.locals t)

/-- Nobody is in a call. -/
theorem settled_start (code : κ → Code σ ρ) (s₀ : σ) :
    Settled code s₀ (⟨none, s₀, fun _ => none⟩ : Monitor.State τ σ (Caller σ κ ρ)) :=
  { waits := fun _ _ => .inl rfl
    free := fun _ => rfl
    owner := fun _ hown => by cases hown }

/-- The calls completed in a run. -/
def completed (os : List (τ × Option (κ × ρ))) : List (κ × ρ) := os.filterMap Prod.snd

/-- They make a run of whole methods from `s₀` to `s₁`. -/
def InLine (code : κ → Code σ ρ) (s₀ s₁ : σ) (done : List (κ × ρ)) : Prop :=
  run (atomically code) s₀ (done.map Prod.fst) = some (done.map Prod.snd, s₁)

variable {code : κ → Code σ ρ} {s₀ s₁ : σ} {os : List (τ × Option (κ × ρ))}
  {s s' : Monitor.State τ σ (Caller σ κ ρ)} {t : τ} {w : Caller σ κ ρ}

theorem completed_concat (o : τ × Option (κ × ρ)) :
    completed (os ++ [o]) = completed os ++ o.2.toList := by
  rw [completed, completed, List.filterMap_append]
  cases h : o.2 <;> simp [h]

theorem completed_singleton (o : τ × Option (κ × ρ)) : completed [o] = o.2.toList := by
  have hconcat : completed ([] ++ [o]) = [] ++ o.2.toList := completed_concat o
  exact hconcat

@[simp] theorem completed_append (os os' : List (τ × Option (κ × ρ))) :
    completed (os ++ os') = completed os ++ completed os' :=
  List.filterMap_append ..

/-- One more call in line. -/
theorem InLine.concat {done : List (κ × ρ)} (h : InLine code s₀ s₁ done) {c : κ} {r : ρ} {s₂ : σ}
    (hc : atomically code s₁ c = some (r, s₂)) : InLine code s₀ s₂ (done ++ [(c, r)]) := by
  rw [InLine, List.map_append, List.map_append]
  exact run_snoc h hc

variable [DecidableEq τ]

/-- A thread without the lock may change its own place. -/
theorem Settled.outside (h : Settled code s₁ s) (hnot : s.owner ≠ some t) (hw : Waits code w) :
    Settled code s₁ ⟨s.owner, s.shared, Function.update s.locals t w⟩ := by
  refine ⟨fun u hu => ?_, h.free, fun u hu => ?_⟩
  · by_cases hut : u = t
    · rw [hut]
      dsimp only
      rw [Function.update_self]
      exact hw
    · dsimp only
      rw [Function.update_of_ne hut]
      exact h.waits u hu
  · have hut : u ≠ t := fun heq => hnot (heq ▸ hu)
    dsimp only
    rw [Function.update_of_ne hut]
    exact h.owner u hu

/-- A thread that has the lock, or takes it while it is free, is in the middle of its call. -/
theorem Settled.inside (h : Settled code s₁ s) (hall : ∀ u, u ≠ t → s.owner ≠ some u) {r : σ}
    (hw : Completes code s₁ r w) :
    Settled code s₁ ⟨some t, r, Function.update s.locals t w⟩ := by
  refine ⟨fun u hu => ?_, fun hnone => ?_, fun u hu => ?_⟩
  · have hut : u ≠ t := fun heq => hu (heq ▸ rfl)
    dsimp only
    rw [Function.update_of_ne hut]
    exact h.waits u (hall u hut)
  · cases hnone
  · obtain rfl : t = u := Option.some.inj hu
    dsimp only
    rw [Function.update_self]
    exact hw

/-- With the release its call is over. -/
theorem Settled.released (h : Settled code s₁ s) (hown : s.owner = some t) (r : σ) :
    Settled code r ⟨none, r, Function.update s.locals t none⟩ := by
  refine ⟨fun u _ => ?_, fun _ => rfl, fun u hu => ?_⟩
  · by_cases hut : u = t
    · rw [hut]
      dsimp only
      rw [Function.update_self]
      exact .inl rfl
    · dsimp only
      rw [Function.update_of_ne hut]
      exact h.waits u fun heq => hut (Option.some.inj (hown.symm.trans heq)).symm
  · cases hu

/-- One step of a thread keeps the calls in line. -/
theorem linear_step (hguard : ∀ c, Code.Guarded false (code c))
    {done : List (κ × ρ)} (hline : InLine code s₀ s₁ done) (h : Settled code s₁ s)
    {x : τ × CallEvent κ} {o : τ × Option (κ × ρ)}
    (hx : Monitor.step (callers code) s x = some (o, s')) :
    ∃ s₂, InLine code s₀ s₂ (done ++ o.2.toList) ∧ Settled code s₂ s' := by
  obtain ⟨t, e⟩ := x
  obtain ⟨owner', shared', locals'⟩ := s'
  obtain ⟨⟨lock, out, shared, own⟩, hact, rfl, hshared, hlocals, hlock⟩ := Monitor.step_cases hx
  dsimp only at hshared hlocals hlock
  subst hshared hlocals
  generalize hw : s.locals t = w at hact
  cases callers_cases hact with
  | call c =>
    obtain rfl : owner' = s.owner := by simpa using hlock
    have hnot : s.owner ≠ some t := by
      intro hown
      obtain ⟨c', rest, heq, -⟩ := h.owner t hown
      rw [hw] at heq
      cases heq
    cases hc : code c with
    | ret r =>
      -- the call is over at once
      have hatomic : atomically code s₁ c = some (r, s₁) := by
        rw [atomically, hc]
        rfl
      exact ⟨s₁, hline.concat hatomic, h.outside hnot (.inl rfl)⟩
    | stmt lock f next =>
      have hwaits : Waits code (settle c (code c)).2 := by
        rw [hc]
        exact .inr ⟨c, by rw [hc]; rfl, fun r hr => by rw [hc] at hr; cases hr⟩
      rw [hc] at hwaits
      exact ⟨s₁, by simpa [settle] using hline, h.outside hnot hwaits⟩
  | @stmt β c lock f next b s' hf =>
    have hexec : (Code.stmt lock f next).exec s.shared = (next b).exec shared' := by
      rw [Code.exec, hf]
    rcases hlock with ⟨rfl, rfl⟩ | ⟨rfl, hfree, rfl⟩ | ⟨rfl, hown, rfl⟩
    · by_cases hown : s.owner = some t
      · -- a statement under the lock
        obtain ⟨c', rest, heq, hrest, hcall⟩ := h.owner t hown
        rw [hw] at heq
        obtain ⟨rfl, rfl⟩ := Prod.mk.inj (Option.some.inj heq)
        cases hrest with
        | keep hnext =>
          rw [settle_guarded c (hnext b), hown]
          have hall : ∀ u, u ≠ t → s.owner ≠ some u := fun u hut heq =>
            hut (Option.some.inj (hown.symm.trans heq)).symm
          exact ⟨s₁, by simpa using hline,
            h.inside hall ⟨c, _, rfl, hnext b, hexec.symm.trans hcall⟩⟩
      · -- without it, the first statement would have to take it
        obtain hnone | ⟨c', heq, -⟩ := h.waits t hown
        · rw [hw] at hnone
          cases hnone
        · rw [hw] at heq
          obtain ⟨rfl, hcode⟩ := Prod.mk.inj (Option.some.inj heq)
          have hg := hguard c
          rw [← hcode] at hg
          cases hg
    · have hnot : ∀ u, s.owner ≠ some u := fun u => by simp [hfree]
      obtain hnone | ⟨c', heq, -⟩ := h.waits t (hnot t)
      · rw [hw] at hnone
        cases hnone
      · rw [hw] at heq
        obtain ⟨rfl, hcode⟩ := Prod.mk.inj (Option.some.inj heq)
        have hg := hguard c
        rw [← hcode] at hg
        cases hg with
        | acquire hnext =>
          -- the call begins on the state that the calls before it have left
          rw [h.free hfree, hcode] at hexec
          rw [settle_guarded c (hnext b)]
          exact ⟨s₁, by simpa using hline,
            h.inside (fun u _ => hnot u) ⟨c, _, rfl, hnext b, hexec.symm⟩⟩
    · obtain ⟨c', rest, heq, hrest, hcall⟩ := h.owner t hown
      rw [hw] at heq
      obtain ⟨rfl, rfl⟩ := Prod.mk.inj (Option.some.inj heq)
      cases hrest with
      | release hnext =>
        obtain ⟨r, hr⟩ := hnext b
        rw [hexec, hr] at hcall
        rw [hr, settle_ret]
        exact ⟨shared', hline.concat hcall.symm, h.released hown shared'⟩

/-- Threads that call guarded methods, in any interleaving of their statements.  The calls
    completed, in the order of their completion, are a run of whole methods, with the same
    answers; with the lock free the state is where that run ends. -/
theorem linearizable (hguard : ∀ c, Code.Guarded false (code c)) {xs : List (τ × CallEvent κ)}
    (h : Settled code s₀ s) (hr : run (Monitor.step (callers code)) s xs = some (os, s')) :
    ∃ s₁, InLine code s₀ s₁ (completed os) ∧ Settled code s₁ s' := by
  have hstart : ∃ s₁, InLine code s₀ s₁ (completed ([] : List (τ × Option (κ × ρ)))) ∧
      Settled code s₁ s := ⟨s₀, rfl, h⟩
  refine run_inv_outputs (I := fun os s => ∃ s₁, InLine code s₀ s₁ (completed os) ∧
    Settled code s₁ s) ?_ hstart hr
  rintro os s x o s' ⟨s₁, hline, hs⟩ hx
  rw [completed_concat]
  exact linear_step hguard hline hs hx

/-- If every call that is under way has a result on the state that the completed ones
    have left, a thread in a call, or the owner of the lock, can take its next statement. -/
theorem Settled.progress (hguard : ∀ c, Code.Guarded false (code c)) (h : Settled code s₁ s)
    (hdef : ∀ u c rest, s.locals u = some (c, rest) → (atomically code s₁ c).isSome = true)
    (hbusy : s.locals t ≠ none) :
    ∃ u, (u = t ∨ s.owner = some u) ∧
      (Monitor.step (callers code) s (u, .go)).isSome = true := by
  -- the next statement has a result if the whole rest has one
  have hstmt : ∀ {β : Type} {lock : LockOp} {f : σ → Option (β × σ)} {next : β → Code σ ρ} {r : σ},
      ((Code.stmt lock f next).exec r).isSome = true → ∃ b r', f r = some (b, r') := by
    intro β lock f next r hsome
    cases hf : f r with
    | none =>
      rw [Code.exec, hf] at hsome
      cases hsome
    | some x => exact ⟨x.1, x.2, rfl⟩
  cases howner : s.owner with
  | some u =>
    obtain ⟨c, rest, heq, hrest, hcall⟩ := h.owner u howner
    have hsome := hdef u c rest heq
    rw [← hcall] at hsome
    refine ⟨u, .inr rfl, ?_⟩
    cases hrest with
    | @keep β f next hnext =>
      obtain ⟨b, r', hf⟩ := hstmt hsome
      have hact := callers_go code u c .keep next hf
      rw [← heq] at hact
      exact Monitor.step_isSome hact LockOp.noConfusion LockOp.noConfusion
    | @release β f next hnext =>
      obtain ⟨b, r', hf⟩ := hstmt hsome
      have hact := callers_go code u c .release next hf
      rw [← heq] at hact
      exact Monitor.step_isSome hact LockOp.noConfusion fun _ => howner
  | none =>
    have hnot : s.owner ≠ some t := by simp [howner]
    obtain hnone | ⟨c, heq, hret⟩ := h.waits t hnot
    · exact absurd hnone hbusy
    · have hsome := hdef t c (code c) heq
      rw [atomically, ← h.free howner] at hsome
      refine ⟨t, .inl rfl, ?_⟩
      have hg := hguard c
      generalize hcode : code c = rest at hg hsome heq hret
      cases hg with
      | ret r => exact absurd rfl (hret r)
      | @acquire β f next hnext =>
        obtain ⟨b, r', hf⟩ := hstmt hsome
        have hact := callers_go code t c .acquire next hf
        rw [← heq] at hact
        exact Monitor.step_isSome hact (fun _ => howner) LockOp.noConfusion

/-- The owner of the lock completes its call by its own statements, and the lock is free again,
    if the call has a result at all. -/
theorem Settled.finishes (h : Settled code s₁ s) (hown : s.owner = some t)
    (hdef : ∀ c rest, s.locals t = some (c, rest) → (atomically code s₁ c).isSome = true) :
    ∃ n os s', run (Monitor.step (callers code)) s (List.replicate n (t, .go)) = some (os, s') ∧
      s'.owner = none := by
  obtain ⟨c, rest, heq, hrest, hcall⟩ := h.owner t hown
  have hsome := hdef c rest heq
  rw [← hcall] at hsome
  clear hcall hdef h
  -- by induction on the code that is left
  induction rest generalizing s with
  | ret r => cases hrest
  | stmt lock f next ih =>
    cases hf : f s.shared with
    | none =>
      rw [Code.exec, hf] at hsome
      cases hsome
    | some x =>
      obtain ⟨b, r'⟩ := x
      have hact := callers_go code t c lock next hf
      rw [← heq] at hact
      rw [Code.exec, hf] at hsome
      have hleft : ((next b).exec r').isSome = true := hsome
      cases hrest with
      | keep hnext =>
        rw [settle_guarded c (hnext b)] at hact
        have hkeep : Monitor.ownerAfter s.owner t .keep = some (some t) := congrArg some hown
        have hstep := Monitor.step_eq hact hkeep
        obtain ⟨n, os, s', hr, hfree⟩ :=
          ih b (s := ⟨some t, r', Function.update s.locals t (some (c, next b))⟩) rfl
            (Function.update_self ..) (hnext b) hleft
        exact ⟨n + 1, _, s', run_cons_eq_some.mpr ⟨_, _, os, hstep, hr, rfl⟩, hfree⟩
      | release hnext =>
        obtain ⟨r, hret⟩ := hnext b
        rw [hret, settle_ret] at hact
        have hrelease : Monitor.ownerAfter s.owner t .release = some none := if_pos hown
        have hstep := Monitor.step_eq hact hrelease
        exact ⟨1, _, _, run_singleton hstep, rfl⟩

/-- The calls under way have all been made. -/
theorem calls_of_run {P : κ → Prop} {xs : List (τ × CallEvent κ)}
    (hcalls : ∀ x ∈ xs, ∀ c, x.2 = .call c → P c)
    (hs : ∀ u c rest, s.locals u = some (c, rest) → P c)
    (hr : run (Monitor.step (callers code)) s xs = some (os, s')) :
    ∀ u c rest, s'.locals u = some (c, rest) → P c := by
  refine run_inv_of_meets (I := fun s => ∀ u c rest, s.locals u = some (c, rest) → P c) ?_ hs hr
    (meets_of_forall hcalls s)
  rintro s ⟨t, e⟩ o s' hs hcall hx u c rest heq
  obtain ⟨m, hact, -, -, hlocals, -⟩ := Monitor.step_cases hx
  rw [hlocals] at heq
  by_cases hut : u = t
  · rw [hut, Function.update_self] at heq
    generalize hw : s.locals t = w at hact
    have hsettle : ∀ c' (code' : Code σ ρ), (settle c' code').2 = some (c, rest) → c' = c := by
      intro c' code' h
      cases code' with
      | ret r => cases h
      | stmt lock f next => exact (Prod.mk.inj (Option.some.inj h)).1
    cases callers_cases hact with
    | call c' => exact hsettle c' _ heq ▸ hcall c' rfl
    | stmt c' hf => exact hsettle c' _ heq ▸ hs t c' _ hw
  · rw [Function.update_of_ne hut] at heq
    exact hs u c rest heq

end Threads

end Aesd.Lib
