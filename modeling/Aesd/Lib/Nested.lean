/-
  Aesd.Lib.Nested

  A program whose steps call code behind a lock of its own: threads under one
  lock, and something among the things they share that has methods and a second
  lock.  `Calls` says which events are calls, of which code, and what a thread
  makes of the answer.  `Nested` is the machine in which a call takes a step for
  every statement of the method, and other threads go on meanwhile.

  If threads call only inside the first lock, the machine does what the program
  does in which a call is one step: every run of it is one of the program
  (`Nested.run_whole`), event by event as they are completed, and every run of
  the program is one of it (`Nested.run_of_whole`).
-/
import Aesd.Lib.Code
import Aesd.Lib.Serial

namespace Aesd.Lib

open Monitor (Move Program Disciplined Placed ownerAfter)

section Definitions

variable (τ σ ω ε ο : Type _) (S ρ : Type)

/-- The part of the shared state that has the methods, and the calls: `call t w e` is the code
    that thread `t` calls on `e`, and its move on the answer. -/
structure Calls where
  get : σ → S
  set : σ → S → σ
  call : τ → ω → ε → Option (Code S ρ × (ρ → σ → Move σ ω ο))

/-- A thread in a call: the event, the code that is left, and the move on the answer. -/
structure Suspended where
  event : ε
  left : Code S ρ
  after : ρ → σ → Move σ ω ο

/-- The threads under the first lock, who has the second, and the calls under way. -/
structure Nested where
  outer : Monitor.State τ σ ω
  holder : Option τ
  calls : τ → Option (Suspended σ ω ε ο S ρ)

/-- A thread meets an event, or goes on with its call. -/
inductive NestedEvent where
  | meet (e : ε)
  | go

end Definitions

variable {τ σ ω ε ο : Type _} {S ρ : Type}

namespace Nested

/-- The events completed in a run, with their outputs. -/
def completed (os : List (Option ((τ × ε) × (τ × ο)))) : List ((τ × ε) × (τ × ο)) :=
  os.filterMap id

theorem completed_append (os os' : List (Option ((τ × ε) × (τ × ο)))) :
    completed (os ++ os') = completed os ++ completed os' :=
  List.filterMap_append ..

/-- No call is under way. -/
def idle (b : Monitor.State τ σ ω) : Nested τ σ ω ε ο S ρ := ⟨b, none, fun _ => none⟩

variable [DecidableEq τ]

/-- One step of one thread; it puts out the event that it completes, if it does, with its
    output. -/
def step (C : Calls τ σ ω ε ο S ρ) (act : Program τ σ ω ε ο) (s : Nested τ σ ω ε ο S ρ)
    (x : τ × NestedEvent ε) : Option (Option ((τ × ε) × (τ × ο)) × Nested τ σ ω ε ο S ρ) :=
  match s.calls x.1, x.2 with
  | none, .meet e =>
    match C.call x.1 (s.outer.locals x.1) e with
    | none => (Monitor.step act s.outer (x.1, e)).map fun y =>
        (some ((x.1, e), y.1), { s with outer := y.2 })
    | some (code, after) =>
      some (none, { s with calls := Function.update s.calls x.1 (some ⟨e, code, after⟩) })
  | some ⟨e, .stmt lock f next, after⟩, .go =>
    match f (C.get s.outer.shared), ownerAfter s.holder x.1 lock with
    | some (b, cur), some holder =>
      some (none,
        { outer := { s.outer with shared := C.set s.outer.shared cur }
          holder := holder
          calls := Function.update s.calls x.1 (some ⟨e, next b, after⟩) })
    | _, _ => none
  | some ⟨e, .ret r, after⟩, .go =>
    let m := after r s.outer.shared
    (ownerAfter s.outer.owner x.1 m.lock).map fun owner =>
      (some ((x.1, e), (x.1, m.out)),
        { s with
          outer := ⟨owner, m.shared, Function.update s.outer.locals x.1 m.own⟩
          calls := Function.update s.calls x.1 none })
  | _, _ => none

/-- Everything a thread can do. -/
inductive Acts (C : Calls τ σ ω ε ο S ρ) (act : Program τ σ ω ε ο) (s : Nested τ σ ω ε ο S ρ)
    (t : τ) : NestedEvent ε → Option ((τ × ε) × (τ × ο)) → Nested τ σ ω ε ο S ρ → Prop
  | meets {e : ε} {out : τ × ο} {b' : Monitor.State τ σ ω} (hfree : s.calls t = none)
    (hcall : C.call t (s.outer.locals t) e = none)
    (hstep : Monitor.step act s.outer (t, e) = some (out, b')) :
    Acts C act s t (.meet e) (some ((t, e), out)) { s with outer := b' }
  | calls {e : ε} {code : Code S ρ} {after : ρ → σ → Move σ ω ο} (hfree : s.calls t = none)
    (hcall : C.call t (s.outer.locals t) e = some (code, after)) :
    Acts C act s t (.meet e) none
      { s with calls := Function.update s.calls t (some ⟨e, code, after⟩) }
  | stmt {e : ε} {β : Type} {lock : Monitor.LockOp} {f : S → Option (β × S)} {next : β → Code S ρ}
    {after : ρ → σ → Move σ ω ο} {b : β} {cur : S} {holder : Option τ}
    (hbusy : s.calls t = some ⟨e, .stmt lock f next, after⟩)
    (hf : f (C.get s.outer.shared) = some (b, cur))
    (hholder : ownerAfter s.holder t lock = some holder) :
    Acts C act s t .go none
      { outer := { s.outer with shared := C.set s.outer.shared cur }
        holder := holder
        calls := Function.update s.calls t (some ⟨e, next b, after⟩) }
  | returns {e : ε} {r : ρ} {after : ρ → σ → Move σ ω ο} {owner : Option τ}
    (hbusy : s.calls t = some ⟨e, .ret r, after⟩)
    (howner : ownerAfter s.outer.owner t (after r s.outer.shared).lock = some owner) :
    Acts C act s t .go (some ((t, e), (t, (after r s.outer.shared).out)))
      { s with
        outer := ⟨owner, (after r s.outer.shared).shared,
          Function.update s.outer.locals t (after r s.outer.shared).own⟩
        calls := Function.update s.calls t none }

theorem step_cases {C : Calls τ σ ω ε ο S ρ} {act : Program τ σ ω ε ο}
    {s s' : Nested τ σ ω ε ο S ρ} {t : τ} {ev : NestedEvent ε}
    {o : Option ((τ × ε) × (τ × ο))} (h : Nested.step C act s (t, ev) = some (o, s')) :
    Acts C act s t ev o s' := by
  unfold Nested.step at h
  dsimp only at h
  split at h
  case h_1 e hfree =>
    split at h
    case h_1 hcall =>
      obtain ⟨⟨out, b'⟩, hstep, heq⟩ := Option.map_eq_some_iff.mp h
      cases heq
      exact .meets hfree hcall hstep
    case h_2 hcall =>
      cases h
      exact .calls hfree hcall
  case h_2 hbusy =>
    split at h
    case h_1 hf hholder =>
      cases h
      exact .stmt hbusy hf hholder
    case h_2 => cases h
  case h_3 hbusy =>
    obtain ⟨owner, howner, heq⟩ := Option.map_eq_some_iff.mp h
    cases heq
    exact .returns hbusy howner
  case h_4 => cases h

theorem step_eq (C : Calls τ σ ω ε ο S ρ) (act : Program τ σ ω ε ο)
    {s s' : Nested τ σ ω ε ο S ρ} {t : τ} {ev : NestedEvent ε}
    {o : Option ((τ × ε) × (τ × ο))} (h : Acts C act s t ev o s') :
    Nested.step C act s (t, ev) = some (o, s') := by
  unfold Nested.step
  cases h with
  | meets hfree hcall hstep => simp only [hfree, hcall, hstep, Option.map_some]
  | calls hfree hcall => simp only [hfree, hcall]
  | stmt hbusy hf hholder => simp only [hbusy, hf, hholder]
  | returns hbusy howner => simp only [hbusy, howner, Option.map_some]

end Nested

/-- The calls are those of the program, which makes each in one step, and a thread makes none
    outside the first lock; the methods are guarded by the second. -/
structure Calls.Of (C : Calls τ σ ω ε ο S ρ) (act : Program τ σ ω ε ο) (Out : ω → Prop) :
    Prop where
  get_set : ∀ r s, C.get (C.set r s) = s
  set_set : ∀ r s s', C.set (C.set r s) s' = C.set r s'
  set_get : ∀ r, C.set r (C.get r) = r
  guarded : ∀ t w e code after, C.call t w e = some (code, after) → Code.Guarded false code
  inside : ∀ t w e code after, C.call t w e = some (code, after) → ¬ Out w
  whole : ∀ t r w e code after, C.call t w e = some (code, after) →
    act t r w e = (code.exec (C.get r)).map fun x => after x.1 (C.set r x.2)

namespace Nested

variable {C : Calls τ σ ω ε ο S ρ} {act : Program τ σ ω ε ο} {Out In : ω → Prop}
  {s s' : Nested τ σ ω ε ο S ρ} {b b' : Monitor.State τ σ ω} {t : τ}

/-! ## From the machine to the program -/

/-- What the holder of the second lock has left of its code, if it is thread `t` or nobody. -/
def Held (t : τ) (holder : Option τ) (left : Code S ρ) : Prop :=
  (holder = none ∧ Code.Guarded false left) ∨ (holder = some t ∧ Code.Guarded true left)

/-- At its return a call has given it back. -/
theorem Held.free {holder : Option τ} {r : ρ} (h : Held t holder (.ret r : Code S ρ)) :
    holder = none := by
  obtain ⟨hfree, -⟩ | ⟨-, hguard⟩ := h
  · exact hfree
  · cases hguard

variable [DecidableEq τ]

/-- A statement takes the second lock or has it. -/
theorem Held.next {holder holder' : Option τ} {β : Type} {lock : Monitor.LockOp}
    {f : S → Option (β × S)} {next : β → Code S ρ} (h : Held t holder (.stmt lock f next))
    (hholder : ownerAfter holder t lock = some holder') (b : β) : Held t holder' (next b) := by
  obtain ⟨rfl, hguard⟩ | ⟨rfl, hguard⟩ := h
  · cases hguard with
    | acquire hnext =>
      cases hholder
      exact .inr ⟨rfl, hnext b⟩
  · cases hguard with
    | keep hnext =>
      cases hholder
      exact .inr ⟨rfl, hnext b⟩
    | release hnext =>
      obtain ⟨r, hret⟩ := hnext b
      rw [ownerAfter, if_pos rfl] at hholder
      cases hholder
      rw [hret]
      exact .inl ⟨rfl, .ret r⟩

/-- And can be executed, as far as the lock goes. -/
theorem Held.defined {holder : Option τ} {β : Type} {lock : Monitor.LockOp}
    {f : S → Option (β × S)} {next : β → Code S ρ} (h : Held t holder (.stmt lock f next)) :
    ∃ holder', ownerAfter holder t lock = some holder' := by
  obtain ⟨rfl, hguard⟩ | ⟨rfl, hguard⟩ := h
  · cases hguard with
    | acquire hnext => exact ⟨some t, rfl⟩
  · cases hguard with
    | keep hnext => exact ⟨some t, rfl⟩
    | release hnext => exact ⟨none, if_pos rfl⟩

/-- One call under way. -/
def only (t : τ) (p : Suspended σ ω ε ο S ρ) : τ → Option (Suspended σ ω ε ο S ρ) :=
  Function.update (fun _ => none) t (some p)

section Only

variable {p q : Suspended σ ω ε ο S ρ} {u : τ}

@[simp] theorem only_self : only t p t = some p := Function.update_self ..

theorem only_of_ne (h : u ≠ t) : only t p u = none := by rw [only, Function.update_of_ne h]

@[simp] theorem update_only : Function.update (only t p) t (some q) = only t q :=
  Function.update_idem ..

@[simp] theorem clear_only : Function.update (only t p) t none = fun _ => none := by
  rw [only, Function.update_idem, Function.update_eq_self]

theorem eq_of_only (h : only t p u = some q) : u = t ∧ q = p := by
  by_cases hut : u = t
  · rw [hut, only_self] at h
    exact ⟨hut, (Option.some.inj h).symm⟩
  · rw [only_of_ne hut] at h
    cases h

end Only

/-- The program is where the machine is, but for the statements that have been executed of the
    one call that can be under way: the call of the owner of the first lock. -/
inductive Matches (C : Calls τ σ ω ε ο S ρ) (Out In : ω → Prop) :
    Nested τ σ ω ε ο S ρ → Monitor.State τ σ ω → Prop
  | idle {b : Monitor.State τ σ ω} (hplaced : Placed Out In b) : Matches C Out In (idle b) b
  | busy {b : Monitor.State τ σ ω} {t : τ} {e : ε} {code left : Code S ρ}
    {after : ρ → σ → Move σ ω ο} {holder : Option τ} {cur : S} (hplaced : Placed Out In b)
    (howner : b.owner = some t) (hcall : C.call t (b.locals t) e = some (code, after))
    (hleft : left.exec cur = code.exec (C.get b.shared)) (hheld : Held t holder left) :
    Matches C Out In
      ⟨{ b with shared := C.set b.shared cur }, holder, only t ⟨e, left, after⟩⟩ b

/-- Only the shared state of the machine can be ahead, and only while the owner of the first lock
    is in a call; the second lock is its as well, or free. -/
theorem Matches.agrees (h : Matches C Out In s b) :
    b.owner = s.outer.owner ∧ b.locals = s.outer.locals ∧
      (∀ t, s.holder = some t → s.calls t ≠ none) ∧
      (∀ t, s.calls t ≠ none → b.owner = some t) ∧
      ((∀ t, s.calls t = none) → s = Nested.idle b) := by
  cases h with
  | idle => exact ⟨rfl, rfl, nofun, fun t hbusy => absurd rfl hbusy, fun _ => rfl⟩
  | @busy _ u _ _ _ _ _ _ _ howner _ _ hheld =>
    refine ⟨rfl, rfl, fun t ht => ?_, fun t hbusy => ?_, fun hidle => ?_⟩
    · obtain ⟨hfree, -⟩ | ⟨hown, -⟩ := hheld
      · rw [hfree] at ht
        cases ht
      · rw [hown] at ht
        cases ht
        exact fun hnone => by simp at hnone
    · by_cases htu : t = u
      · rw [htu, howner]
      · exact absurd (only_of_ne htu) hbusy
    · exact absurd (hidle u) (by simp)

/-- A step outside the first lock does not see what its owner has done of its call. -/
theorem step_outside (D : Disciplined act Out In) (hplaced : Placed Out In b) {u : τ}
    (howner : b.owner = some u) (hne : t ≠ u) {r : σ} {e : ε} {o : τ × ο}
    (h : Monitor.step act { b with shared := r } (t, e) = some (o, b')) :
    ∃ own, b' = ⟨b.owner, r, Function.update b.locals t own⟩ ∧
      Monitor.step act b (t, e) =
        some (o, ⟨b.owner, b.shared, Function.update b.locals t own⟩) := by
  obtain ⟨owner', shared', locals'⟩ := b'
  obtain ⟨m, hact, rfl, hshared, hlocals, hlock⟩ := Monitor.step_cases h
  dsimp only at hact hshared hlocals hlock
  subst hshared hlocals
  have hout : Out (b.locals t) := hplaced.others t fun heq =>
    hne (Option.some.inj (heq.symm.trans howner))
  rcases hlock with ⟨hkeep, rfl⟩ | ⟨-, hfree, -⟩ | ⟨-, hown, -⟩
  · obtain ⟨hsame, -, hany⟩ := D.outside t _ _ _ _ hout hact hkeep
    refine ⟨m.own, by rw [hsame], ?_⟩
    have hkeep' : ownerAfter b.owner t m.lock = some b.owner := by
      rw [hkeep]
      rfl
    exact Monitor.step_eq (hany b.shared) hkeep'
  · rw [howner] at hfree
    cases hfree
  · exact absurd (Option.some.inj (hown.symm.trans howner)) hne

/-- What a step of the machine comes to in the program: nothing, or the event that it
    completes. -/
theorem Matches.step (D : Disciplined act Out In) (L : C.Of act Out) (h : Matches C Out In s b)
    {x : τ × NestedEvent ε} {o : Option ((τ × ε) × (τ × ο))}
    (hx : Nested.step C act s x = some (o, s')) :
    (o = none ∧ Matches C Out In s' b) ∨
      ∃ y out b', o = some (y, out) ∧ Monitor.step act b y = some (out, b') ∧
        Matches C Out In s' b' := by
  obtain ⟨t, ev⟩ := x
  have hacts := step_cases hx
  cases h with
  | idle hplaced =>
    cases hacts with
    | meets hfree hcall hstep =>
      exact .inr ⟨_, _, _, rfl, hstep, .idle (D.placed_step hplaced hstep)⟩
    | @calls e code after hfree hcall =>
      -- only the owner of the first lock calls
      have howner : b.owner = some t := by
        by_contra hnot
        exact L.inside t _ e code after hcall (hplaced.others t hnot)
      have hbusy := Matches.busy (C := C) hplaced howner hcall rfl
        (.inl ⟨rfl, L.guarded t _ e code after hcall⟩)
      rw [L.set_get] at hbusy
      exact .inl ⟨rfl, hbusy⟩
    | stmt hbusy => cases hbusy
    | returns hbusy => cases hbusy
  | @busy _ u e code left after holder cur hplaced howner hcall hleft hheld =>
    by_cases hut : t = u
    · subst hut
      cases hacts with
      | meets hfree => exact absurd hfree (by simp)
      | calls hfree => exact absurd hfree (by simp)
      | @stmt _ β lock f next _ r cur' holder' hbusy hf hholder =>
        cases (eq_of_only hbusy).2
        dsimp only at hf hholder ⊢
        rw [L.get_set] at hf
        have hexec : (next r).exec cur' = code.exec (C.get b.shared) := by
          rw [← hleft, Code.exec, hf]
        rw [L.set_set, update_only]
        exact .inl ⟨rfl, .busy hplaced howner hcall hexec (hheld.next hholder r)⟩
      | @returns _ r _ owner hbusy hown =>
        cases (eq_of_only hbusy).2
        dsimp only at hown ⊢
        have hact : act t b.shared (b.locals t) e = some (after r (C.set b.shared cur)) := by
          rw [L.whole t _ _ e code after hcall, ← hleft]
          rfl
        have hstep := Monitor.step_eq hact hown
        refine .inr ⟨_, _, _, rfl, hstep, ?_⟩
        rw [hheld.free, clear_only]
        exact .idle (D.placed_step hplaced hstep)
    · cases hacts with
      | meets hfree hcall' hstep =>
        obtain ⟨own, rfl, hstep'⟩ := step_outside D hplaced howner hut hstep
        have hsame : C.call u (Function.update b.locals t own u) e = some (code, after) := by
          rw [Function.update_of_ne (Ne.symm hut)]
          exact hcall
        exact .inr ⟨_, _, _, rfl, hstep',
          .busy (D.placed_step hplaced hstep') howner hsame hleft hheld⟩
      | @calls e' code' after' hfree hcall' =>
        have hout : Out (b.locals t) := hplaced.others t fun heq =>
          hut (Option.some.inj (heq.symm.trans howner))
        exact absurd hout (L.inside t _ e' code' after' hcall')
      | stmt hbusy => exact absurd (eq_of_only hbusy).1 hut
      | returns hbusy => exact absurd (eq_of_only hbusy).1 hut

/-- Every run of the machine is one of the program: the events that it completes, in that order,
    with the same outputs. -/
theorem run_whole (D : Disciplined act Out In) (L : C.Of act Out) (h : Matches C Out In s b)
    {xs : List (τ × NestedEvent ε)} {os : List (Option ((τ × ε) × (τ × ο)))}
    (hr : run (Nested.step C act) s xs = some (os, s')) :
    ∃ b', run (Monitor.step act) b ((completed os).map Prod.fst) =
      some ((completed os).map Prod.snd, b') ∧ Matches C Out In s' b' := by
  have hstart : ∃ b', run (Monitor.step act) b
      ((completed ([] : List (Option ((τ × ε) × (τ × ο))))).map Prod.fst) =
        some (([] : List ((τ × ε) × (τ × ο))).map Prod.snd, b') ∧ Matches C Out In s b' :=
    ⟨b, rfl, h⟩
  refine run_inv_outputs (I := fun os s => ∃ b', run (Monitor.step act) b
    ((completed os).map Prod.fst) = some ((completed os).map Prod.snd, b') ∧
      Matches C Out In s b') ?_ hstart hr
  rintro os s x o s' ⟨b', hrun, hs⟩ hx
  rw [completed_append, List.map_append, List.map_append]
  obtain ⟨rfl, hs'⟩ | ⟨y, out, b'', rfl, hstep, hs'⟩ := hs.step D L hx
  · exact ⟨b', by simpa [completed] using hrun, hs'⟩
  · exact ⟨b'', run_snoc hrun hstep, hs'⟩

/-! ## And back -/

/-- A thread in a call executes what is left of it. -/
theorem run_left (L : C.Of act Out) {left : Code S ρ} {e : ε} {after : ρ → σ → Move σ ω ο}
    {r : ρ} {cur : S} (hbusy : s.calls t = some ⟨e, left, after⟩) (hheld : Held t s.holder left)
    (hexec : left.exec (C.get s.outer.shared) = some (r, cur)) :
    ∃ n, run (Nested.step C act) s (List.replicate n (t, .go)) =
      some (List.replicate n none,
        { outer := { s.outer with shared := C.set s.outer.shared cur }
          holder := none
          calls := Function.update s.calls t (some ⟨e, .ret r, after⟩) }) := by
  -- by induction on the code that is left
  induction left generalizing s with
  | ret r' =>
    obtain ⟨rfl, rfl⟩ := Prod.mk.inj (Option.some.inj hexec)
    refine ⟨0, ?_⟩
    rw [L.set_get, ← hbusy, Function.update_eq_self, ← hheld.free]
    rfl
  | stmt lock f next ih =>
    cases hf : f (C.get s.outer.shared) with
    | none =>
      rw [Code.exec, hf] at hexec
      cases hexec
    | some x =>
      obtain ⟨b, cur'⟩ := x
      rw [Code.exec, hf] at hexec
      obtain ⟨holder', hholder⟩ := hheld.defined
      have hstep := step_eq C act (.stmt hbusy hf hholder)
      have hexec' : (next b).exec (C.get (C.set s.outer.shared cur')) = some (r, cur) := by
        rw [L.get_set]
        exact hexec
      obtain ⟨n, hrest⟩ := ih b
        (s := { outer := { s.outer with shared := C.set s.outer.shared cur' }
                holder := holder'
                calls := Function.update s.calls t (some ⟨e, next b, after⟩) })
        (Function.update_self ..) (hheld.next hholder b) hexec'
      refine ⟨n + 1, run_cons_eq_some.mpr ⟨none, _, _, hstep, ?_, rfl⟩⟩
      rw [hrest]
      dsimp only
      rw [L.set_set, Function.update_idem]

/-- Whatever has been executed of the call: if the program can make it in one step, the thread
    completes it by steps of its own, and the machine gets where the program gets. -/
theorem run_call (L : C.Of act Out) {e : ε} {code left : Code S ρ} {after : ρ → σ → Move σ ω ο}
    {holder : Option τ} {cur : S} {out : τ × ο}
    (hcall : C.call t (b.locals t) e = some (code, after))
    (hleft : left.exec cur = code.exec (C.get b.shared)) (hheld : Held t holder left)
    (h : Monitor.step act b (t, e) = some (out, b')) :
    ∃ n, run (Nested.step C act)
      ⟨{ b with shared := C.set b.shared cur }, holder, only t ⟨e, left, after⟩⟩
      (List.replicate (n + 1) (t, .go)) =
        some (List.replicate n none ++ [some ((t, e), out)], idle b') := by
  unfold Monitor.step at h
  dsimp only at h
  rw [L.whole t b.shared (b.locals t) e code after hcall, ← hleft] at h
  cases hexec : left.exec cur with
  | none =>
    rw [hexec] at h
    cases h
  | some x =>
    obtain ⟨r, cur'⟩ := x
    rw [hexec, Option.map_some] at h
    obtain ⟨owner, howner, heq⟩ := Option.map_eq_some_iff.mp h
    obtain ⟨rfl, rfl⟩ := Prod.mk.inj heq
    rw [← L.get_set b.shared cur] at hexec
    -- the statements, and the return
    obtain ⟨n, hrun⟩ := run_left L
      (s := ⟨{ b with shared := C.set b.shared cur }, holder, only t ⟨e, left, after⟩⟩)
      only_self hheld hexec
    have hreturns := step_eq C act (.returns
      (s := ⟨{ b with shared := C.set b.shared cur' }, none, only t ⟨e, .ret r, after⟩⟩)
      only_self howner)
    dsimp only at hrun
    rw [L.set_set, update_only] at hrun
    rw [clear_only] at hreturns
    refine ⟨n, ?_⟩
    rw [List.replicate_succ']
    exact run_snoc hrun hreturns

/-- What is one step of the program is some steps of the machine. -/
theorem run_of_step (L : C.Of act Out) {y : τ × ε} {out : τ × ο}
    (h : Monitor.step act b y = some (out, b')) :
    ∃ xs os, run (Nested.step C act) (idle b) xs = some (os, idle b') ∧
      completed os = [(y, out)] := by
  obtain ⟨t, e⟩ := y
  cases hcall : C.call t (b.locals t) e with
  | none =>
    have hstep := step_eq C act (.meets (s := idle b) rfl hcall h)
    exact ⟨_, _, run_singleton hstep, rfl⟩
  | some k =>
    obtain ⟨code, after⟩ := k
    have hcalls := step_eq C act (.calls (s := idle b) rfl hcall)
    obtain ⟨n, hrun⟩ := run_call L hcall rfl (.inl ⟨rfl, L.guarded t _ e code after hcall⟩) h
    rw [L.set_get] at hrun
    refine ⟨_, _, run_cons_eq_some.mpr ⟨none, _, _, hcalls, hrun, rfl⟩, ?_⟩
    simp [completed]

/-- Every run of the program is one of the machine. -/
theorem run_of_whole (L : C.Of act Out) {ys : List (τ × ε)} {outs : List (τ × ο)}
    (hr : run (Monitor.step act) b ys = some (outs, b')) :
    ∃ xs os, run (Nested.step C act) (idle b) xs = some (os, idle b') ∧
      (completed os).map Prod.fst = ys ∧ (completed os).map Prod.snd = outs := by
  induction ys generalizing b outs with
  | nil =>
    obtain ⟨rfl, rfl⟩ := Prod.mk.inj (Option.some.inj hr)
    exact ⟨[], [], rfl, rfl, rfl⟩
  | cons y ys ih =>
    obtain ⟨out, b₁, outs', hone, hrest, rfl⟩ := run_cons_eq_some.mp hr
    obtain ⟨xs₁, os₁, hrun₁, hdone₁⟩ := run_of_step L hone
    obtain ⟨xs₂, os₂, hrun₂, hys, houts⟩ := ih hrest
    refine ⟨xs₁ ++ xs₂, os₁ ++ os₂,
      run_append_eq_some.mpr ⟨_, os₁, os₂, hrun₁, hrun₂, rfl⟩, ?_, ?_⟩
    · rw [completed_append, hdone₁, List.map_append, hys]
      rfl
    · rw [completed_append, hdone₁, List.map_append, houts]
      rfl

/-! ## Nothing is stuck -/

theorem Matches.placed (h : Matches C Out In s b) : Placed Out In b := by
  cases h with
  | idle hplaced => exact hplaced
  | busy hplaced => exact hplaced

/-- A thread in a call has the first lock and made the call. -/
theorem Matches.call_of (h : Matches C Out In s b) {p : Suspended σ ω ε ο S ρ}
    (hbusy : s.calls t = some p) :
    b.owner = some t ∧ ∃ code, C.call t (b.locals t) p.event = some (code, p.after) := by
  cases h with
  | idle => cases hbusy
  | busy hplaced howner hcall hleft hheld =>
    obtain ⟨rfl, rfl⟩ := eq_of_only hbusy
    exact ⟨howner, _, hcall⟩

/-- A thread in a call completes it, if the program can make it on what the others have left. -/
theorem Matches.finishes (L : C.Of act Out) (h : Matches C Out In s b)
    {p : Suspended σ ω ε ο S ρ} (hbusy : s.calls t = some p)
    (hdef : (Monitor.step act b (t, p.event)).isSome = true) :
    ∃ n os b', run (Nested.step C act) s (List.replicate (n + 1) (t, .go)) =
      some (os, Nested.idle b') := by
  cases h with
  | idle => cases hbusy
  | @busy _ u e code left after holder cur hplaced howner hcall hleft hheld =>
    obtain ⟨rfl, rfl⟩ := eq_of_only hbusy
    obtain ⟨⟨out, b'⟩, hstep⟩ := Option.isSome_iff_exists.mp hdef
    obtain ⟨n, hrun⟩ := run_call L hcall hleft hheld hstep
    exact ⟨n, _, b', hrun⟩

/-- Where the program can go on and no call is under way, the machine can. -/
theorem idle_isSome {e : ε} (h : (Monitor.step act b (t, e)).isSome = true) :
    (Nested.step C act (idle b) (t, .meet e)).isSome = true := by
  cases hcall : C.call t (b.locals t) e with
  | none =>
    obtain ⟨⟨out, b'⟩, hstep⟩ := Option.isSome_iff_exists.mp h
    rw [step_eq C act (.meets (s := idle b) rfl hcall hstep)]
    rfl
  | some k =>
    rw [step_eq C act (.calls (s := idle b) rfl hcall)]
    rfl

end Nested

end Aesd.Lib
