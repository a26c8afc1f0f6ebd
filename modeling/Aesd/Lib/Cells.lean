/-
  Aesd.Lib.Cells

  Code on a state with cells besides what the lock protects.  `Code.Local` code
  touches one cell only.  `Code.copied` runs it on a copy: the cell is loaded
  first, the code works on the copy, and the copy is stored at the end.  Without
  interruption that is the same (`exec_copied`).
-/
import Aesd.Lib.Code

namespace Aesd.Lib

open Monitor (LockOp)

/-! ## Cells -/

/-- A state made of cells and of the rest. -/
structure Cells (σ δ ι α : Type) where
  rest : σ → δ
  cell : σ → ι → α
  make : δ → (ι → α) → σ
  rest_make : ∀ d m, rest (make d m) = d
  cell_make : ∀ d m, cell (make d m) = m
  make_eta : ∀ s, make (rest s) (cell s) = s

namespace Cells

variable {σ δ ι α : Type} (V : Cells σ δ ι α)

attribute [simp] rest_make cell_make make_eta

/-- Two states with the same rest and the same cells. -/
theorem ext {s s' : σ} (hrest : V.rest s = V.rest s') (hcell : ∀ i, V.cell s i = V.cell s' i) :
    s = s' := by
  rw [← V.make_eta s, ← V.make_eta s', hrest, funext hcell]

variable [DecidableEq ι]

/-- Another value in the cell `i`. -/
def set (s : σ) (i : ι) (a : α) : σ := V.make (V.rest s) (Function.update (V.cell s) i a)

@[simp] theorem rest_set (s : σ) (i : ι) (a : α) : V.rest (V.set s i a) = V.rest s :=
  V.rest_make ..

@[simp] theorem cell_set (s : σ) (i : ι) (a : α) :
    V.cell (V.set s i a) = Function.update (V.cell s) i a :=
  V.cell_make ..

@[simp] theorem set_set (s : σ) (i : ι) (a b : α) : V.set (V.set s i a) i b = V.set s i b := by
  simp [set]

@[simp] theorem set_cell (s : σ) (i : ι) : V.set s i (V.cell s i) = s := by
  simp [set]

end Cells

/-! ## Code on a copy -/

namespace Code

section Local

variable {σ δ ι α β ρ : Type} [DecidableEq ι] (V : Cells σ δ ι α) (i : ι)

/-- The code touches no cell but `i`, and once it has written that (`true`) gives only
    answers in `P`. -/
inductive Local (P : ρ → Prop) : Bool → Code σ ρ → Prop
  | ret {w : Bool} (r : ρ) (hr : w = true → P r) : Local P w (.ret r)
  | look {w : Bool} {lock : LockOp} {γ : Type} {f : σ → Option (γ × σ)} {next : γ → Code σ ρ}
    (g : δ → α → Option (γ × δ))
    (hf : ∀ s, f s = (g (V.rest s) (V.cell s i)).map fun x => (x.1, V.make x.2 (V.cell s)))
    (hnext : ∀ b, Local P w (next b)) : Local P w (.stmt lock f next)
  | put {w : Bool} {lock : LockOp} {γ : Type} {f : σ → Option (γ × σ)} {next : γ → Code σ ρ}
    (g : δ → α → Option (γ × δ × α))
    (hf : ∀ s, f s = (g (V.rest s) (V.cell s i)).map fun x =>
      (x.1, V.make x.2.1 (Function.update (V.cell s) i x.2.2)))
    (hnext : ∀ b, Local P true (next b)) : Local P w (.stmt lock f next)

variable {V i} {P : ρ → Prop}

/-- What a statement does to the rest and to its cell, wherever these are the same. -/
theorem Local.stmt {w : Bool} {lock : LockOp} {f : σ → Option (β × σ)} {next : β → Code σ ρ}
    (h : Local V i P w (.stmt lock f next)) {s s' : σ} {b : β} (hf : f s = some (b, s')) :
    ∃ d a w', (∀ u, V.rest u = V.rest s → V.cell u i = V.cell s i →
        f u = some (b, V.make d (Function.update (V.cell u) i a))) ∧
      Local V i P w' (next b) ∧ (w' = false → w = false ∧ a = V.cell s i) := by
  cases h with
  | look g hg hnext =>
    obtain ⟨⟨b', d⟩, hgs, heq⟩ := Option.map_eq_some_iff.mp ((hg s).symm.trans hf)
    obtain ⟨rfl, -⟩ := Prod.mk.inj heq
    refine ⟨d, V.cell s i, w, fun u hrest hcell => ?_, hnext b', fun hw => ⟨hw, rfl⟩⟩
    rw [hg u, hrest, hcell, hgs, ← hcell, Function.update_eq_self]
    rfl
  | put g hg hnext =>
    obtain ⟨⟨b', d, a⟩, hgs, heq⟩ := Option.map_eq_some_iff.mp ((hg s).symm.trans hf)
    obtain ⟨rfl, -⟩ := Prod.mk.inj heq
    refine ⟨d, a, true, fun u hrest hcell => ?_, hnext b', fun hw => by cases hw⟩
    rw [hg u, hrest, hcell, hgs]
    rfl

/-- Where the answer is not in `P`, the code has left its cell as it was. -/
theorem Local.keeps {w : Bool} {c : Code σ ρ} (h : Local V i P w c) {s s' : σ} {r : ρ}
    (hexec : c.exec s = some (r, s')) : P r ∨ w = false ∧ V.cell s' i = V.cell s i := by
  induction c generalizing w s with
  | ret r' =>
    obtain ⟨rfl, rfl⟩ := Prod.mk.inj (Option.some.inj hexec)
    cases h with
    | ret r hr =>
      cases w with
      | false => exact .inr ⟨rfl, rfl⟩
      | true => exact .inl (hr rfl)
  | stmt lock f next ih =>
    rw [exec] at hexec
    cases hf : f s with
    | none =>
      rw [hf] at hexec
      cases hexec
    | some x =>
      obtain ⟨b, u⟩ := x
      rw [hf] at hexec
      obtain ⟨d, a, w', hdo, hlocal, hw'⟩ := h.stmt hf
      obtain ⟨-, rfl⟩ := Prod.mk.inj (Option.some.inj ((hdo s rfl rfl).symm.trans hf))
      obtain hP | ⟨hclean, hkept⟩ := ih b hlocal hexec
      · exact .inl hP
      · obtain ⟨hbefore, ha⟩ := hw' hclean
        exact .inr ⟨hbefore, by simpa [ha] using hkept⟩

theorem Local.mono {Q : ρ → Prop} {w : Bool} {c : Code σ ρ} (h : Local V i P w c)
    (himp : ∀ r, P r → Q r) : Local V i Q w c := by
  induction h with
  | ret r hr => exact .ret r fun hw => himp r (hr hw)
  | look g hg _ ih => exact .look g hg ih
  | put g hg _ ih => exact .put g hg ih

theorem local_pure (r : ρ) : (pure r : Code σ ρ).Local V i P false := .ret r fun h => by cases h

/-- Code that never returns with its cell written, in front of other code. -/
theorem Local.bind {w : Bool} {c : Code σ β} {k : β → Code σ ρ}
    (hc : Local V i (fun _ => False) w c) (hk : ∀ b, Local V i P false (k b)) :
    Local V i P w (c >>= k) := by
  show Local V i P w (c.andThen k)
  induction hc with
  | @ret w r hr =>
    obtain rfl : w = false := Bool.eq_false_iff.mpr hr
    exact hk r
  | look g hg _ ih => exact .look g hg ih
  | put g hg _ ih => exact .put g hg ih

variable (V i)

/-- The code with `a` in place of its cell, which stays as it is.  It returns what it has
    left in the copy. -/
def onCopy : Code σ ρ → α → Code σ (ρ × α)
  | .ret r, a => .ret (r, a)
  | .stmt lock f next, a =>
    .stmt lock
      (fun s => (f (V.set s i a)).map fun x => ((x.1, V.cell x.2 i), V.set x.2 i (V.cell s i)))
      fun x => (next x.1).onCopy x.2

/-- The copy is stored, if the answer says so. -/
def copyOut (back : ρ → Bool) (x : ρ × α) : Code σ ρ :=
  if back x.1 then do
    Code.modify fun s => some (V.set s i x.2)
    return x.1
  else return x.1

/-- The cell is loaded, the code works on the copy, and the copy is stored. -/
def copied (back : ρ → Bool) (code : Code σ ρ) : Code σ ρ := do
  let a ← .read fun s => some (V.cell s i)
  let x ← code.onCopy V i a
  copyOut V i back x

theorem copied_eq (back : ρ → Bool) (code : Code σ ρ) :
    copied V i back code =
      .stmt .keep (fun s => some (V.cell s i, s)) fun a =>
        code.onCopy V i a >>= copyOut V i back :=
  rfl

theorem exec_onCopy (code : Code σ ρ) (a : α) (s : σ) :
    (code.onCopy V i a).exec s = (code.exec (V.set s i a)).map fun x =>
      ((x.1, V.cell x.2 i), V.set x.2 i (V.cell s i)) := by
  induction code generalizing a s with
  | ret r => simp [onCopy, exec]
  | stmt lock f next ih =>
    rw [onCopy, exec, exec]
    cases hf : f (V.set s i a) with
    | none => rfl
    | some x => simp [ih]

/-- Run without interruption the code does the same on a copy. -/
theorem exec_copied {P : ρ → Prop} {back : ρ → Bool} {code : Code σ ρ}
    (h : Local V i P false code) (hback : ∀ r, P r → back r = true) (s : σ) :
    (copied V i back code).exec s = code.exec s := by
  rw [copied, exec_bind, exec_read, Option.map_some, Option.bind_some, exec_bind, exec_onCopy,
    V.set_cell]
  cases hexec : code.exec s with
  | none => rfl
  | some x =>
    obtain ⟨r, s'⟩ := x
    rw [Option.map_some, Option.bind_some, copyOut]
    by_cases hr : back r = true
    · rw [if_pos hr, exec_bind, exec_modify]
      simp
    · obtain hP | ⟨-, hkept⟩ := h.keeps hexec
      · exact absurd (hback r hP) hr
      · rw [if_neg hr, ← hkept]
        simp

end Local

end Code

end Aesd.Lib
