/-
  Aesd.Lib.Copies

  Methods that are handed a copy of their cell.  Whoever calls one loads the
  cell before the method takes the lock, and stores the copy after the method
  has given the lock back.  Two such calls that overlap on one cell can lose
  the change of one of them.

  If at any time each cell has at most one call under way, nobody can tell the
  copies from the cells: the calls are linearizable (`copies_linearizable`), in
  the sense of histories in which each call takes effect at one moment between
  its beginning and its answer.
-/
import Aesd.Lib.Cells

namespace Aesd.Lib

open Monitor (LockOp)

/-! ## Histories -/

/-- A call is made, takes effect, and is answered. -/
inductive Moment (κ ρ : Type) where
  | call (c : κ)
  | effect (c : κ) (r : ρ)
  | answer (c : κ) (r : ρ)

/-- Where a thread is between two moments. -/
inductive Phase (κ ρ : Type) where
  | idle
  | called (c : κ)
  | done (c : κ) (r : ρ)

section Histories

variable {τ σ κ ρ : Type}

/-- A call takes effect once, after it is made and before it is answered. -/
inductive Phase.Next : Phase κ ρ → Moment κ ρ → Phase κ ρ → Prop
  | call (c : κ) : Next .idle (.call c) (.called c)
  | effect (c : κ) (r : ρ) : Next (.called c) (.effect c r) (.done c r)
  | answer (c : κ) (r : ρ) : Next (.done c r) (.answer c r) .idle

/-- Some moments of one thread. -/
inductive Phase.Path : Phase κ ρ → List (Moment κ ρ) → Phase κ ρ → Prop
  | nil (p : Phase κ ρ) : Path p [] p
  | cons {p q r : Phase κ ρ} {m : Moment κ ρ} {ms : List (Moment κ ρ)} (hm : p.Next m q)
    (hms : Path q ms r) : Path p (m :: ms) r

theorem Phase.Path.append {p q r : Phase κ ρ} {ms ns : List (Moment κ ρ)} (hms : p.Path ms q)
    (hns : q.Path ns r) : p.Path (ms ++ ns) r := by
  induction hms with
  | nil => exact hns
  | cons hm _ ih => exact .cons hm (ih hns)

/-- The calls that take effect, in that order. -/
def effects (h : List (τ × Moment κ ρ)) : List (κ × ρ) :=
  h.filterMap fun x =>
    match x.2 with
    | .effect c r => some (c, r)
    | _ => none

/-- What can be seen of a history: the calls and their answers. -/
def observed (h : List (τ × Moment κ ρ)) : List (τ × Moment κ ρ) :=
  h.filter fun x =>
    match x.2 with
    | .effect _ _ => false
    | _ => true

@[simp] theorem effects_append (h h' : List (τ × Moment κ ρ)) :
    effects (h ++ h') = effects h ++ effects h' := List.filterMap_append ..

@[simp] theorem observed_append (h h' : List (τ × Moment κ ρ)) :
    observed (h ++ h') = observed h ++ observed h' := List.filter_append ..

/-- What can be seen of one step of a thread: the call it makes and the answer it gets. -/
def moments (x : τ × CallEvent κ) (o : τ × Option (κ × ρ)) : List (τ × Moment κ ρ) :=
  (match x.2 with
    | .call c => [(x.1, .call c)]
    | .go => []) ++
  match o.2 with
  | some (c, r) => [(o.1, .answer c r)]
  | none => []

/-- The calls and answers of a run. -/
def history (xs : List (τ × CallEvent κ)) (os : List (τ × Option (κ × ρ))) :
    List (τ × Moment κ ρ) :=
  (List.zipWith moments xs os).flatten

theorem history_concat {xs : List (τ × CallEvent κ)} {os : List (τ × Option (κ × ρ))}
    (hlen : xs.length = os.length) (x : τ × CallEvent κ) (o : τ × Option (κ × ρ)) :
    history (xs ++ [x]) (os ++ [o]) = history xs os ++ moments x o := by
  rw [history, List.zipWith_append hlen, List.flatten_append, history]
  simp

variable [DecidableEq τ]

/-- Each thread makes one call after the other, and every call takes effect at one moment
    between its beginning and its answer. -/
inductive Orderly : List (τ × Moment κ ρ) → (τ → Phase κ ρ) → Prop
  | nil : Orderly [] fun _ => .idle
  | concat {h : List (τ × Moment κ ρ)} {ph : τ → Phase κ ρ} {t : τ} {m : Moment κ ρ}
    {p : Phase κ ρ} (hh : Orderly h ph) (hm : (ph t).Next m p) :
    Orderly (h ++ [(t, m)]) (Function.update ph t p)

/-- Some moments more of one thread. -/
theorem Orderly.append {h : List (τ × Moment κ ρ)} {ph : τ → Phase κ ρ} (hh : Orderly h ph)
    {t : τ} {ms : List (Moment κ ρ)} {p : Phase κ ρ} (hms : (ph t).Path ms p) :
    Orderly (h ++ ms.map (t, ·)) (Function.update ph t p) := by
  generalize hq : ph t = q at hms
  induction hms generalizing h ph with
  | nil q =>
    rw [← hq, Function.update_eq_self, List.map_nil, List.append_nil]
    exact hh
  | @cons p q r m ms hm _ ih =>
    subst hq
    have hrest := ih (hh.concat hm) (Function.update_self ..)
    rw [Function.update_idem] at hrest
    rw [List.map_cons, List.append_cons]
    exact hrest

end Histories

/-! ## Threads whose methods are given copies -/

/-- Methods on cells, some of which are given a copy of theirs. -/
structure Methods (σ δ ι α κ ρ : Type) [DecidableEq ι] extends Cells σ δ ι α where
  code : κ → Code σ ρ
  on : κ → ι
  copies : κ → Bool
  back : ρ → Bool
  touches : ∀ c, (code c).Local toCells (on c) (fun r => copies c = true → back r = true) false

section Copies

variable {τ σ δ ι α κ ρ : Type} [DecidableEq ι]

/-- What is called: the method, or the method on a copy. -/
def Methods.outer (M : Methods σ δ ι α κ ρ) (c : κ) : Code σ ρ :=
  if M.copies c then (M.code c).copied M.toCells (M.on c) M.back else M.code c

/-- What is left of a call on a copy with the value `a`, with `code` left of the method. -/
def Methods.copying (M : Methods σ δ ι α κ ρ) (c : κ) (code : Code σ ρ) (a : α) : Code σ ρ :=
  code.onCopy M.toCells (M.on c) a >>= Code.copyOut M.toCells (M.on c) M.back

/-- What is left when only the copy has to be stored. -/
def Methods.storing (M : Methods σ δ ι α κ ρ) (c : κ) (r : ρ) (a : α) : Code σ ρ := do
  Code.modify fun k => some (M.set k (M.on c) a)
  return r

theorem Methods.copying_stmt (M : Methods σ δ ι α κ ρ) (c : κ) {β : Type} (lock : LockOp)
    (f : σ → Option (β × σ)) (next : β → Code σ ρ) (a : α) :
    M.copying c (.stmt lock f next) a =
      .stmt lock
        (fun s => (f (M.set s (M.on c) a)).map fun x =>
          ((x.1, M.cell x.2 (M.on c)), M.set x.2 (M.on c) (M.cell s (M.on c))))
        fun x => M.copying c (next x.1) x.2 :=
  rfl

/-- The call is on a cell that no call under way is on. -/
def Alone (on : κ → ι) (s : Monitor.State τ σ (Caller σ κ ρ)) (x : τ × CallEvent κ) : Prop :=
  ∀ c, x.2 = .call c → ∀ u d code, s.locals u = some (d, code) → on d ≠ on c

variable (M : Methods σ δ ι α κ ρ)

/-- How far a thread is in its call, with the copies (`k`) and without them (`s`): the cell of
    the call without copies has what the copy has. -/
inductive Stage (k s : σ) : Caller σ κ ρ → Caller σ κ ρ → Phase κ ρ → Prop
  | idle : Stage k s none none .idle
  | entered (c : κ) (hc : M.copies c = true) (hsame : M.cell s (M.on c) = M.cell k (M.on c)) :
    Stage k s (some (c, (M.code c).copied M.toCells (M.on c) M.back)) none (.called c)
  | inside (c : κ) {w : Bool} {code : Code σ ρ}
    (hcode : code.Local M.toCells (M.on c) (fun r => M.back r = true) w)
    (hret : ∀ r, code ≠ .ret r)
    (hsame : w = false → M.cell s (M.on c) = M.cell k (M.on c)) :
    Stage k s (some (c, M.copying c code (M.cell s (M.on c)))) (some (c, code)) (.called c)
  | leaving (c : κ) (r : ρ) :
    Stage k s (some (c, M.storing c r (M.cell s (M.on c)))) none (.done c r)
  | direct (c : κ) {w : Bool} {code : Code σ ρ}
    (hcode : code.Local M.toCells (M.on c) (fun _ => True) w) (hret : ∀ r, code ≠ .ret r)
    (hsame : M.cell s (M.on c) = M.cell k (M.on c)) :
    Stage k s (some (c, code)) (some (c, code)) (.called c)

/-- The threads with copies do what the threads without them do. -/
structure Follows (k s : Monitor.State τ σ (Caller σ κ ρ)) (ph : τ → Phase κ ρ) : Prop where
  owner_eq : k.owner = s.owner
  rest_eq : M.rest k.shared = M.rest s.shared
  stage : ∀ t, Stage M k.shared s.shared (k.locals t) (s.locals t) (ph t)
  others : ∀ i, (∀ t c code, k.locals t = some (c, code) → M.on c ≠ i) →
    M.cell s.shared i = M.cell k.shared i
  apart : ∀ t u c d code code', k.locals t = some (c, code) → k.locals u = some (d, code') →
    M.on c = M.on d → t = u

variable {M}

/-- A stage depends on the cell of its call only. -/
theorem Stage.congr {k s k' s' : σ} {w v : Caller σ κ ρ} {p : Phase κ ρ} (h : Stage M k s w v p)
    (hk : ∀ c code, w = some (c, code) → M.cell k' (M.on c) = M.cell k (M.on c))
    (hs : ∀ c code, w = some (c, code) → M.cell s' (M.on c) = M.cell s (M.on c)) :
    Stage M k' s' w v p := by
  cases h with
  | idle => exact .idle
  | entered c hc hsame => exact .entered c hc ((hs c _ rfl).trans (hsame.trans (hk c _ rfl).symm))
  | inside c hcode hret hsame =>
    rw [← hs c _ rfl]
    exact .inside c hcode hret fun hw =>
      (hs c _ rfl).trans ((hsame hw).trans (hk c _ rfl).symm)
  | leaving c r =>
    rw [← hs c _ rfl]
    exact .leaving c r
  | direct c hcode hret hsame =>
    exact .direct c hcode hret ((hs c _ rfl).trans (hsame.trans (hk c _ rfl).symm))

theorem settle_call {c : κ} {code : Code σ ρ} (d : κ) (code' : Code σ ρ)
    (h : (settle c code).2 = some (d, code')) : d = c := by
  cases code with
  | ret r => cases h
  | stmt lock f next => exact (Prod.mk.inj (Option.some.inj h)).1.symm

/-- A method on a copy, at its next statement or at its end. -/
theorem Stage.arrive_copy (t : τ) (c : κ) {w : Bool} {code : Code σ ρ} {k s : σ}
    (hcode : code.Local M.toCells (M.on c) (fun r => M.back r = true) w)
    (hsame : w = false → M.cell s (M.on c) = M.cell k (M.on c)) {left : Code σ ρ}
    (hleft : left = M.copying c code (M.cell s (M.on c))) :
    ∃ ms p, Phase.Path (.called c) ms p ∧
      effects (ms.map (t, ·)) = (settle c code).1.toList ∧
      observed (ms.map (t, ·)) = moments (t, .go) (t, (settle c left).1) ∧
      Stage M k s (settle c left).2 (settle c code).2 p ∧
      ((settle c left).2 = none → M.cell s (M.on c) = M.cell k (M.on c)) := by
  cases code with
  | ret r =>
    cases hcode with
    | ret r hr =>
      by_cases hback : M.back r = true
      · obtain rfl : left = M.storing c r (M.cell s (M.on c)) := hleft.trans (if_pos hback)
        exact ⟨[.effect c r], .done c r, .cons (.effect c r) (.nil _), rfl, rfl, .leaving c r,
          fun h => by cases h⟩
      · obtain rfl : left = .ret r := hleft.trans (if_neg hback)
        have hw : w = false := Bool.eq_false_iff.mpr fun hw => hback (hr hw)
        exact ⟨[.effect c r, .answer c r], .idle,
          .cons (.effect c r) (.cons (.answer c r) (.nil _)), rfl, rfl, .idle, fun _ => hsame hw⟩
  | stmt lock f next =>
    subst hleft
    exact ⟨[], .called c, .nil _, rfl, rfl, .inside c hcode (fun r h => by cases h) hsame,
      fun h => by cases h⟩

/-- A method on its cell, at its next statement or at its end. -/
theorem Stage.arrive_direct (t : τ) (c : κ) {w : Bool} {code : Code σ ρ} {k s : σ}
    (hcode : code.Local M.toCells (M.on c) (fun _ => True) w)
    (hsame : M.cell s (M.on c) = M.cell k (M.on c)) :
    ∃ ms p, Phase.Path (.called c) ms p ∧
      effects (ms.map (t, ·)) = (settle c code).1.toList ∧
      observed (ms.map (t, ·)) = moments (t, .go) (t, (settle c code).1) ∧
      Stage M k s (settle c code).2 (settle c code).2 p := by
  cases code with
  | ret r =>
    exact ⟨[.effect c r, .answer c r], .idle, .cons (.effect c r) (.cons (.answer c r) (.nil _)),
      rfl, rfl, .idle⟩
  | stmt lock f next =>
    exact ⟨[], .called c, .nil _, rfl, rfl, .direct c hcode (fun r h => by cases h) hsame⟩

/-- Nobody is in a call. -/
theorem follows_start (s₀ : σ) :
    Follows M ⟨none, s₀, fun _ => none⟩ (⟨none, s₀, fun _ => none⟩ : Monitor.State τ σ _)
      fun _ => .idle :=
  { owner_eq := rfl
    rest_eq := rfl
    stage := fun _ => .idle
    others := fun _ _ => rfl
    apart := fun _ _ _ _ _ _ h => by cases h }

/-- With nobody in a call the two states are the same. -/
theorem Follows.shared_eq {k s : Monitor.State τ σ (Caller σ κ ρ)} {ph : τ → Phase κ ρ}
    (h : Follows M k s ph) (hidle : ∀ t, k.locals t = none) : k.shared = s.shared := by
  refine M.ext h.rest_eq fun i => (h.others i fun t c code heq => ?_).symm
  rw [hidle t] at heq
  cases heq

theorem Follows.idle {k s : Monitor.State τ σ (Caller σ κ ρ)} {ph : τ → Phase κ ρ}
    (h : Follows M k s ph) (hidle : ∀ t, k.locals t = none) (t : τ) : s.locals t = none := by
  have hstage := h.stage t
  rw [hidle t] at hstage
  generalize s.locals t = v at hstage
  generalize ph t = p at hstage
  cases hstage
  rfl

/-- The call a thread is in is the only one on its cell. -/
theorem Follows.mine {k : Monitor.State τ σ (Caller σ κ ρ)} {t : τ} {c : κ} {code : Code σ ρ}
    (hw : k.locals t = some (c, code)) (d : κ) (code' : Code σ ρ)
    (hd : k.locals t = some (d, code')) : M.on d = M.on c := by
  rw [hw] at hd
  cases hd
  rfl

theorem Follows.alone {k s : Monitor.State τ σ (Caller σ κ ρ)} {ph : τ → Phase κ ρ} {t : τ} {c : κ}
    (h : Follows M k s ph) {code : Code σ ρ} (hw : k.locals t = some (c, code))
    (u : τ) (d : κ) (code' : Code σ ρ) (hut : u ≠ t) (hd : k.locals u = some (d, code')) :
    M.on d ≠ M.on c :=
  fun hon => hut (h.apart u t d c code' code hd hw hon)

variable [DecidableEq τ]

/-- A thread alone on its cell takes a step. -/
theorem Follows.update {k s : Monitor.State τ σ (Caller σ κ ρ)} {ph : τ → Phase κ ρ}
    (h : Follows M k s ph) {t : τ} {i : ι}
    (hmine : ∀ c code, k.locals t = some (c, code) → M.on c = i)
    (halone : ∀ u c code, u ≠ t → k.locals u = some (c, code) → M.on c ≠ i)
    (owner : Option τ) {r q : σ} {w v : Caller σ κ ρ} {p : Phase κ ρ}
    (hrest : M.rest r = M.rest q) (hr : ∀ j, j ≠ i → M.cell r j = M.cell k.shared j)
    (hq : ∀ j, j ≠ i → M.cell q j = M.cell s.shared j) (hstage : Stage M r q w v p)
    (hw : ∀ c code, w = some (c, code) → M.on c = i) (hidle : w = none → M.cell q i = M.cell r i) :
    Follows M ⟨owner, r, Function.update k.locals t w⟩ ⟨owner, q, Function.update s.locals t v⟩
      (Function.update ph t p) := by
  refine ⟨rfl, hrest, fun u => ?_, fun j hj => ?_, fun u u' c d code code' hu hu' hon => ?_⟩
  · dsimp only
    by_cases hut : u = t
    · rw [hut, Function.update_self, Function.update_self, Function.update_self]
      exact hstage
    · rw [Function.update_of_ne hut, Function.update_of_ne hut, Function.update_of_ne hut]
      exact (h.stage u).congr (fun c code heq => hr _ (halone u c code hut heq))
        fun c code heq => hq _ (halone u c code hut heq)
  · dsimp only at hj ⊢
    by_cases hji : j = i
    · rw [hji]
      apply hidle
      cases hwt : w with
      | none => rfl
      | some x =>
        obtain ⟨c, code⟩ := x
        refine absurd ((hw c code hwt).trans hji.symm) (hj t c code ?_)
        rw [Function.update_self]
        exact hwt
    · rw [hr j hji, hq j hji]
      refine h.others j fun u c code heq => ?_
      by_cases hut : u = t
      · rw [hut] at heq
        rw [hmine c code heq]
        exact Ne.symm hji
      · refine hj u c code ?_
        rw [Function.update_of_ne hut]
        exact heq
  · dsimp only at hu hu'
    by_cases hut : u = t
    · by_cases hut' : u' = t
      · exact hut.trans hut'.symm
      · rw [hut, Function.update_self] at hu
        rw [Function.update_of_ne hut'] at hu'
        exact absurd (hon.symm.trans (hw c code hu)) (halone u' d code' hut' hu')
    · rw [Function.update_of_ne hut] at hu
      by_cases hut' : u' = t
      · rw [hut', Function.update_self] at hu'
        exact absurd (hon.trans (hw d code' hu')) (halone u c code hut hu)
      · rw [Function.update_of_ne hut'] at hu'
        exact h.apart u u' c d code code' hu hu' hon

/-- A step of a thread with copies that the threads without them match: by no step at all, or
    by one that gives the answer when the call takes effect. -/
def Matched (s : Monitor.State τ σ (Caller σ κ ρ)) (ph : τ → Phase κ ρ) (x : τ × CallEvent κ)
    (o : τ × Option (κ × ρ)) (k' : Monitor.State τ σ (Caller σ κ ρ)) : Prop :=
  ∃ ms p ys os s', (ph x.1).Path ms p ∧ observed (ms.map (x.1, ·)) = moments x o ∧
    run (Monitor.step (callers M.code)) s ys = some (os, s') ∧
    completed os = effects (ms.map (x.1, ·)) ∧ Follows M k' s' (Function.update ph x.1 p)

section Steps

variable {k s : Monitor.State τ σ (Caller σ κ ρ)} {ph : τ → Phase κ ρ} {t : τ} {c : κ}

theorem settle_on {code : Code σ ρ} (d : κ) (code' : Code σ ρ)
    (h : (settle c code).2 = some (d, code')) : M.on d = M.on c :=
  congrArg M.on (settle_call d code' h)

/-- A thread without copies that begins its call. -/
theorem run_call (hv : s.locals t = none) :
    run (Monitor.step (callers M.code)) s [(t, .call c)] =
      some ([(t, (settle c (M.code c)).1)],
        ⟨s.owner, s.shared, Function.update s.locals t (settle c (M.code c)).2⟩) := by
  have hcall : callers M.code t s.shared (s.locals t) (.call c) =
      some ⟨.keep, (settle c (M.code c)).1, s.shared, (settle c (M.code c)).2⟩ := by
    rw [hv]
    rfl
  exact run_singleton (Monitor.step_eq hcall rfl)

/-- A call that will be given a copy has not begun without copies; any other has. -/
theorem matched_call (h : Follows M k s ph) (hw : k.locals t = none) (hv : s.locals t = none)
    (hp : ph t = .idle) (halone : Alone M.on k (t, .call c)) :
    Matched (M := M) s ph (t, .call c) (t, (settle c (M.outer c)).1)
      ⟨s.owner, k.shared, Function.update k.locals t (settle c (M.outer c)).2⟩ := by
  have hfree : ∀ u d code, u ≠ t → k.locals u = some (d, code) → M.on d ≠ M.on c :=
    fun u d code _ => halone c rfl u d code
  have hnone : ∀ d code, k.locals t = some (d, code) → M.on d = M.on c := by
    intro d code hd
    rw [hw] at hd
    cases hd
  have hsame := h.others (M.on c) (halone c rfl)
  by_cases hc : M.copies c = true
  · have houter : M.outer c = (M.code c).copied M.toCells (M.on c) M.back := if_pos hc
    rw [houter]
    have hnext := h.update hnone hfree s.owner h.rest_eq (fun _ _ => rfl) (fun _ _ => rfl)
      (.entered c hc hsame) (fun d code heq => by cases heq; rfl) (fun heq => by cases heq)
    rw [← hv, Function.update_eq_self] at hnext
    have hpath : (ph t).Path [.call c] (.called c) := hp ▸ .cons (.call c) (.nil _)
    refine ⟨[.call c], .called c, [], [], s, hpath, rfl, rfl, rfl, hnext⟩
  · have houter : M.outer c = M.code c := if_neg hc
    rw [houter]
    have hlocal := (M.touches c).mono (Q := fun _ => True) fun _ _ => trivial
    obtain ⟨ms, p, hpath, heff, hseen, hnew⟩ := Stage.arrive_direct t c hlocal hsame
    have hpath' : (ph t).Path (.call c :: ms) p := hp ▸ .cons (.call c) hpath
    refine ⟨.call c :: ms, p, [(t, .call c)], _, _, hpath',
      congrArg ((t, Moment.call c) :: ·) hseen, run_call hv,
      (completed_singleton _).trans heff.symm,
      h.update hnone hfree s.owner h.rest_eq (fun _ _ => rfl) (fun _ _ => rfl) hnew settle_on
        fun _ => hsame⟩

/-- The copy is taken; without copies the call begins here. -/
theorem matched_entered (h : Follows M k s ph)
    (hw : k.locals t = some (c, (M.code c).copied M.toCells (M.on c) M.back))
    (hv : s.locals t = none) (hp : ph t = .called c) (hc : M.copies c = true)
    (hsame : M.cell s.shared (M.on c) = M.cell k.shared (M.on c)) :
    let left := M.copying c (M.code c) (M.cell k.shared (M.on c))
    Matched (M := M) s ph (t, .go) (t, (settle c left).1)
      ⟨s.owner, k.shared, Function.update k.locals t (settle c left).2⟩ := by
  intro left
  have hlocal := (M.touches c).mono fun r hr => hr hc
  obtain ⟨ms, p, hpath, heff, hseen, hnew, hnone⟩ := Stage.arrive_copy t c hlocal (fun _ => hsame)
    (congrArg (M.copying c (M.code c)) hsame.symm)
  have hpath' : (ph t).Path ms p := hp ▸ hpath
  refine ⟨ms, p, [(t, .call c)], _, _, hpath', hseen, run_call hv,
    (completed_singleton _).trans heff.symm,
    h.update (Follows.mine hw) (h.alone hw) s.owner h.rest_eq (fun _ _ => rfl) (fun _ _ => rfl)
      hnew settle_on hnone⟩

/-- A statement on the copy. -/
theorem matched_inside (h : Follows M k s ph) {w : Bool} {β : Type} {lock : LockOp}
    {f : σ → Option (β × σ)} {next : β → Code σ ρ}
    (hw : k.locals t = some (c, M.copying c (.stmt lock f next) (M.cell s.shared (M.on c))))
    (hv : s.locals t = some (c, .stmt lock f next)) (hp : ph t = .called c)
    (hlocal : (Code.stmt lock f next).Local M.toCells (M.on c) (fun r => M.back r = true) w)
    (hsame : w = false → M.cell s.shared (M.on c) = M.cell k.shared (M.on c)) {b : β} {r : σ}
    (hf : f (M.set k.shared (M.on c) (M.cell s.shared (M.on c))) = some (b, r))
    {owner : Option τ} (howner : Monitor.ownerAfter s.owner t lock = some owner) :
    let left := M.copying c (next b) (M.cell r (M.on c))
    Matched (M := M) s ph (t, .go) (t, (settle c left).1)
      ⟨owner, M.set r (M.on c) (M.cell k.shared (M.on c)),
        Function.update k.locals t (settle c left).2⟩ := by
  intro left
  obtain ⟨d, a, w', hdo, hlocal', hw'⟩ := hlocal.stmt hf
  -- the copy has what the cell has without copies, so the statement does the same there
  have hs := hdo s.shared (h.rest_eq.symm.trans (M.rest_set ..).symm) (by simp)
  obtain ⟨-, rfl⟩ := Prod.mk.inj (Option.some.inj (hf.symm.trans (hdo _ rfl rfl)))
  have hput : M.set (M.make d (Function.update (M.cell (M.set k.shared (M.on c)
      (M.cell s.shared (M.on c)))) (M.on c) a)) (M.on c) (M.cell k.shared (M.on c)) =
        M.make d (M.cell k.shared) := by simp [Cells.set]
  have hcopy : M.cell (M.make d (Function.update (M.cell (M.set k.shared (M.on c)
      (M.cell s.shared (M.on c)))) (M.on c) a)) (M.on c) =
        M.cell (M.make d (Function.update (M.cell s.shared) (M.on c) a)) (M.on c) := by simp
  have hsame' : w' = false →
      M.cell (M.make d (Function.update (M.cell s.shared) (M.on c) a)) (M.on c) =
        M.cell (M.make d (M.cell k.shared)) (M.on c) := by
    intro hclean
    obtain ⟨hbefore, ha⟩ := hw' hclean
    simpa [ha] using hsame hbefore
  obtain ⟨ms, p, hpath, heff, hseen, hnew, hnone⟩ := Stage.arrive_copy t c hlocal' hsame'
    (congrArg (M.copying c (next b)) hcopy)
  have hgo := callers_go M.code t c lock next hs
  rw [← hv] at hgo
  rw [hput]
  have hpath' : (ph t).Path ms p := hp ▸ hpath
  refine ⟨ms, p, [(t, .go)], _, _, hpath', hseen, run_singleton (Monitor.step_eq hgo howner),
    (completed_singleton _).trans heff.symm,
    h.update (Follows.mine hw) (h.alone hw) owner ?_ ?_ ?_ hnew settle_on hnone⟩
  · rw [M.rest_make, M.rest_make]
  · intro j _
    rw [M.cell_make]
  · intro j hj
    rw [M.cell_make, Function.update_of_ne hj]

/-- The copy is stored; without copies nothing is left to do. -/
theorem matched_leaving (h : Follows M k s ph) {r : ρ}
    (hw : k.locals t = some (c, M.storing c r (M.cell s.shared (M.on c))))
    (hv : s.locals t = none) (hp : ph t = .done c r) :
    Matched (M := M) s ph (t, .go) (t, some (c, r))
      ⟨s.owner, M.set k.shared (M.on c) (M.cell s.shared (M.on c)),
        Function.update k.locals t none⟩ := by
  have hstay : Function.update s.locals t none = s.locals := by
    rw [← hv, Function.update_eq_self]
  have hnext := h.update (Follows.mine hw) (h.alone hw) s.owner
    (r := M.set k.shared (M.on c) (M.cell s.shared (M.on c)))
    ((M.rest_set ..).trans h.rest_eq) (fun j hj => by rw [M.cell_set, Function.update_of_ne hj])
    (fun _ _ => rfl) .idle (fun d code heq => by cases heq)
    (fun _ => by rw [M.cell_set, Function.update_self])
  rw [hstay] at hnext
  have hpath : (ph t).Path [.answer c r] .idle := hp ▸ .cons (.answer c r) (.nil _)
  refine ⟨[.answer c r], .idle, [], [], s, hpath, rfl, rfl, rfl, hnext⟩

/-- A statement on the cell itself. -/
theorem matched_direct (h : Follows M k s ph) {w : Bool} {β : Type} {lock : LockOp}
    {f : σ → Option (β × σ)} {next : β → Code σ ρ}
    (hw : k.locals t = some (c, .stmt lock f next))
    (hv : s.locals t = some (c, .stmt lock f next)) (hp : ph t = .called c)
    (hlocal : (Code.stmt lock f next).Local M.toCells (M.on c) (fun _ => True) w)
    (hsame : M.cell s.shared (M.on c) = M.cell k.shared (M.on c)) {b : β} {r : σ}
    (hf : f k.shared = some (b, r)) {owner : Option τ}
    (howner : Monitor.ownerAfter s.owner t lock = some owner) :
    Matched (M := M) s ph (t, .go) (t, (settle c (next b)).1)
      ⟨owner, r, Function.update k.locals t (settle c (next b)).2⟩ := by
  obtain ⟨d, a, w', hdo, hlocal', -⟩ := hlocal.stmt hf
  have hs := hdo s.shared h.rest_eq.symm hsame
  obtain ⟨-, rfl⟩ := Prod.mk.inj (Option.some.inj (hf.symm.trans (hdo _ rfl rfl)))
  have hsame' : M.cell (M.make d (Function.update (M.cell s.shared) (M.on c) a)) (M.on c) =
      M.cell (M.make d (Function.update (M.cell k.shared) (M.on c) a)) (M.on c) := by simp
  obtain ⟨ms, p, hpath, heff, hseen, hnew⟩ := Stage.arrive_direct t c hlocal' hsame'
  have hgo := callers_go M.code t c lock next hs
  rw [← hv] at hgo
  have hpath' : (ph t).Path ms p := hp ▸ hpath
  refine ⟨ms, p, [(t, .go)], _, _, hpath', hseen, run_singleton (Monitor.step_eq hgo howner),
    (completed_singleton _).trans heff.symm,
    h.update (Follows.mine hw) (h.alone hw) owner ?_ ?_ ?_ hnew settle_on fun _ => hsame'⟩
  · rw [M.rest_make, M.rest_make]
  · intro j hj
    rw [M.cell_make, Function.update_of_ne hj]
  · intro j hj
    rw [M.cell_make, Function.update_of_ne hj]

/-- Every step of a thread with copies is matched, if it makes its calls on cells that no call
    under way is on. -/
theorem follows_step (h : Follows M k s ph) {k' : Monitor.State τ σ (Caller σ κ ρ)}
    {x : τ × CallEvent κ} {o : τ × Option (κ × ρ)} (halone : Alone M.on k x)
    (hx : Monitor.step (callers M.outer) k x = some (o, k')) : Matched (M := M) s ph x o k' := by
  obtain ⟨t, e⟩ := x
  obtain ⟨owner', shared', locals'⟩ := k'
  obtain ⟨⟨lock, out, shared, own⟩, hact, rfl, hshared, hlocals, hlock⟩ := Monitor.step_cases hx
  dsimp only at hshared hlocals hlock
  subst hshared hlocals
  have howner : Monitor.ownerAfter s.owner t lock = some owner' :=
    Monitor.ownerAfter_eq (h.owner_eq ▸ hlock)
  have hstage := h.stage t
  generalize hw : k.locals t = w at hact hstage
  generalize hv : s.locals t = v at hstage
  generalize hp : ph t = p at hstage
  cases callers_cases hact with
  | call c =>
    cases hstage
    obtain rfl : owner' = s.owner := (Option.some.inj howner).symm
    exact matched_call h hw hv hp halone
  | @stmt β c lock f next b s' hf =>
    generalize hcode : Code.stmt lock f next = code at hw hstage
    cases hstage with
    | entered _ hc hsame =>
      rw [Code.copied_eq] at hcode
      cases hcode
      cases hf
      obtain rfl : owner' = s.owner := (Option.some.inj howner).symm
      exact matched_entered h hw hv hp hc hsame
    | @inside _ w code hlocal hret hsame =>
      cases code with
      | ret r => exact absurd rfl (hret r)
      | stmt lock f₀ next₀ =>
        rw [Methods.copying_stmt] at hcode
        cases hcode
        obtain ⟨⟨b, r⟩, hf₀, heq⟩ := Option.map_eq_some_iff.mp hf
        cases heq
        exact matched_inside h hw hv hp hlocal hsame hf₀ howner
    | leaving _ r =>
      cases hcode
      cases hf
      obtain rfl : owner' = s.owner := (Option.some.inj howner).symm
      exact matched_leaving h hw hv hp
    | direct _ hlocal hret hsame =>
      subst hcode
      exact matched_direct h hw hv hp hlocal hsame hf howner

end Steps

/-- A run of threads with copies, its history, and a run without copies that matches it. -/
def MatchedRun (M : Methods σ δ ι α κ ρ) (s₀ : σ) (xs : List (τ × CallEvent κ))
    (os : List (τ × Option (κ × ρ))) (k : Monitor.State τ σ (Caller σ κ ρ)) : Prop :=
  xs.length = os.length ∧ ∃ h ph ys os' s, Orderly h ph ∧ observed h = history xs os ∧
    run (Monitor.step (callers M.code)) ⟨none, s₀, fun _ => none⟩ ys = some (os', s) ∧
    completed os' = effects h ∧ Follows M k s ph

theorem MatchedRun.concat {s₀ : σ} {xs : List (τ × CallEvent κ)} {os : List (τ × Option (κ × ρ))}
    {k k' : Monitor.State τ σ (Caller σ κ ρ)} (hrun : MatchedRun M s₀ xs os k)
    {x : τ × CallEvent κ} {o : τ × Option (κ × ρ)} (halone : Alone M.on k x)
    (hx : Monitor.step (callers M.outer) k x = some (o, k')) :
    MatchedRun M s₀ (xs ++ [x]) (os ++ [o]) k' := by
  obtain ⟨hlen, h, ph, ys, os', s, horderly, hseen, hrun, hdone, hfollows⟩ := hrun
  obtain ⟨ms, p, ys', os'', s', hpath, hseen', hrun', hdone', hfollows'⟩ :=
    follows_step hfollows halone hx
  refine ⟨by simp [hlen], h ++ ms.map (x.1, ·), _, ys ++ ys', os' ++ os'', s',
    horderly.append hpath, ?_, run_append_eq_some.mpr ⟨s, os', os'', hrun, hrun', rfl⟩, ?_,
    hfollows'⟩
  · rw [observed_append, hseen, hseen', history_concat hlen]
  · rw [completed_append, hdone, hdone', effects_append]

/-- Threads that call methods on cells, some of them through copies, in any interleaving of
    their statements, with one call at a time on each cell.  Their calls take effect one by
    one, each at a moment between its beginning and its answer, as a run of whole methods on
    the cells themselves; with nobody in a call the state is where that run ends. -/
theorem copies_linearizable (hguard : ∀ c, Code.Guarded false (M.code c)) {s₀ : σ}
    {xs : List (τ × CallEvent κ)} {os : List (τ × Option (κ × ρ))}
    {k : Monitor.State τ σ (Caller σ κ ρ)}
    (hr : run (Monitor.step (callers M.outer)) ⟨none, s₀, fun _ => none⟩ xs = some (os, k))
    (hone : Meets (Monitor.step (callers M.outer)) (Alone M.on) ⟨none, s₀, fun _ => none⟩ xs) :
    ∃ h ph s₁, Orderly h ph ∧ observed h = history xs os ∧ InLine M.code s₀ s₁ (effects h) ∧
      ((∀ t, k.locals t = none) → k.shared = s₁) := by
  have hstart : MatchedRun (τ := τ) M s₀ [] [] ⟨none, s₀, fun _ => none⟩ :=
    ⟨rfl, [], _, [], [], _, .nil, rfl, rfl, rfl, follows_start s₀⟩
  obtain ⟨-, h, ph, ys, os', s, horderly, hseen, hrun, hdone, hfollows⟩ :=
    run_inv_trace_of_meets (I := MatchedRun M s₀) (fun _ _ _ _ _ _ hrun halone hx =>
      hrun.concat halone hx) hstart hr hone
  obtain ⟨s₁, hline, hsettled⟩ := linearizable hguard (settled_start _ _) hrun
  rw [hdone] at hline
  refine ⟨h, ph, s₁, horderly, hseen, hline, fun hidle => ?_⟩
  rw [hfollows.shared_eq hidle]
  refine hsettled.free ?_
  cases howner : s.owner with
  | none => rfl
  | some t =>
    obtain ⟨c, rest, heq, -⟩ := hsettled.owner t howner
    rw [hfollows.idle hidle t] at heq
    cases heq

end Copies

end Aesd.Lib
