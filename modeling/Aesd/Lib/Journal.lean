/-
  Aesd.Lib.Journal

  An append-only journal of records.  Text arrives in pieces; a piece is put
  behind the pending text, and the pending text becomes a record as soon as
  its last element ends one (`isEnd`).  Nothing is ever lost or reordered:
  `text_append`.

  The element type is arbitrary, so the same journal can carry labelled
  elements; `map_append` says that forgetting the labels commutes with
  appending.
-/
import Aesd.Lib.Segments

namespace Aesd.Lib

variable {α β : Type _}

/-- Records in the order they were completed, and the text of the next one. -/
structure Journal (α : Type _) where
  entries : List (List α)
  pending : List α
  deriving DecidableEq, Repr

namespace Journal

/-- No record and nothing pending. -/
def empty : Journal α := ⟨[], []⟩

/-- The last element of `t` ends a record. -/
def ends (isEnd : α → Bool) (t : List α) : Bool := t.getLast?.any isEnd

/-- Put the piece `b` behind the pending text, and close the record if it ends there. -/
def append (isEnd : α → Bool) (J : Journal α) (b : List α) : Journal α :=
  if ends isEnd (J.pending ++ b) then ⟨J.entries ++ [J.pending ++ b], []⟩
  else ⟨J.entries, J.pending ++ b⟩

/-- Everything ever appended. -/
def text (J : Journal α) : List α := J.entries.flatten ++ J.pending

/-- Apply `f` to every element. -/
def map (f : α → β) (J : Journal α) : Journal β := ⟨J.entries.map (List.map f), J.pending.map f⟩

variable {isEnd : α → Bool}

@[simp] theorem ends_nil : ends isEnd ([] : List α) = false := rfl

@[simp] theorem ends_append_singleton (t : List α) (x : α) : ends isEnd (t ++ [x]) = isEnd x := by
  simp [ends]

theorem ends_append_of_ne_nil (t : List α) {b : List α} (hb : b ≠ []) :
    ends isEnd (t ++ b) = ends isEnd b := by
  obtain ⟨b', x, rfl⟩ := List.eq_nil_or_concat b |>.resolve_left hb
  rw [List.concat_eq_append, ← List.append_assoc, ends_append_singleton, ends_append_singleton]

theorem ne_nil_of_ends {t : List α} (h : ends isEnd t = true) : t ≠ [] := by
  rintro rfl
  simp at h

theorem ends_map (isEnd : β → Bool) (f : α → β) (t : List α) :
    ends isEnd (t.map f) = ends (isEnd ∘ f) t := by
  simp only [ends, List.getLast?_map]
  cases t.getLast? <;> rfl

theorem append_of_ends {J : Journal α} {b : List α} (h : ends isEnd (J.pending ++ b) = true) :
    J.append isEnd b = ⟨J.entries ++ [J.pending ++ b], []⟩ := by
  rw [append, if_pos h]

theorem append_of_not_ends {J : Journal α} {b : List α} (h : ends isEnd (J.pending ++ b) = false) :
    J.append isEnd b = ⟨J.entries, J.pending ++ b⟩ := by
  rw [append, if_neg (by simp [h])]

/-- Appending neither loses nor reorders text. -/
theorem text_append (J : Journal α) (b : List α) : (J.append isEnd b).text = J.text ++ b := by
  cases h : ends isEnd (J.pending ++ b) with
  | true => simp [append_of_ends h, text]
  | false => simp [append_of_not_ends h, text]

/-- Forgetting labels commutes with appending. -/
theorem map_append (isEnd : β → Bool) (f : α → β) (J : Journal α) (b : List α) :
    (J.append (isEnd ∘ f) b).map f = (J.map f).append isEnd (b.map f) := by
  have hends : ends isEnd ((J.map f).pending ++ b.map f) = ends (isEnd ∘ f) (J.pending ++ b) := by
    rw [← ends_map, List.map_append, map]
  cases h : ends (isEnd ∘ f) (J.pending ++ b) with
  | true => rw [append_of_ends h, append_of_ends (hends.trans h)]; simp [map]
  | false => rw [append_of_not_ends h, append_of_not_ends (hends.trans h)]; simp [map]

/-! ## Well-formed journals -/

/-- Every record ends where it should, and the pending text is still open. -/
structure WellFormed (isEnd : α → Bool) (J : Journal α) : Prop where
  entries_end : ∀ e ∈ J.entries, ends isEnd e = true
  pending_open : ends isEnd J.pending = false

theorem wellFormed_empty : (empty : Journal α).WellFormed isEnd :=
  ⟨by simp [empty], rfl⟩

theorem WellFormed.append {J : Journal α} (hJ : J.WellFormed isEnd) (b : List α) :
    (J.append isEnd b).WellFormed isEnd := by
  cases h : ends isEnd (J.pending ++ b) with
  | true =>
    rw [append_of_ends h]
    refine ⟨fun e he => ?_, rfl⟩
    rcases List.mem_append.mp he with he | he
    · exact hJ.entries_end e he
    · rw [List.mem_singleton.mp he]
      exact h
  | false =>
    rw [append_of_not_ends h]
    exact ⟨hJ.entries_end, h⟩

/-! ## Journals of lines

The append rule only looks at the last element.  Records hold no other end
element as long as no piece does. -/

/-- At most the last element of the piece ends a record. -/
def LinePiece (isEnd : α → Bool) (b : List α) : Prop := ∀ x ∈ b.dropLast, isEnd x = false

/-- Every record has one end element, its last, and the pending text has none. -/
structure Lines (isEnd : α → Bool) (J : Journal α) : Prop where
  entries_line : ∀ e ∈ J.entries, e.countP isEnd = 1 ∧ ends isEnd e = true
  pending_line : ∀ x ∈ J.pending, isEnd x = false

theorem lines_empty : (empty : Journal α).Lines isEnd :=
  ⟨by simp [empty], by simp [empty]⟩

theorem Lines.append {J : Journal α} (hJ : J.Lines isEnd) {b : List α}
    (hb : LinePiece isEnd b) : (J.append isEnd b).Lines isEnd := by
  rcases List.eq_nil_or_concat b with rfl | ⟨b', x, rfl⟩
  · -- the empty piece: the pending text stays open
    have hopen : ends isEnd (J.pending ++ []) = false := by
      rw [List.append_nil]
      rcases List.eq_nil_or_concat J.pending with h | ⟨t, x, h⟩
      · rw [h, ends_nil]
      · rw [h, List.concat_eq_append, ends_append_singleton]
        exact hJ.pending_line x (by simp [h])
    rw [append_of_not_ends hopen, List.append_nil]
    exact ⟨hJ.entries_line, hJ.pending_line⟩
  · rw [List.concat_eq_append] at hb ⊢
    -- before the last element `x` of the piece nothing ends a record
    have hbody : ∀ y ∈ J.pending ++ b', isEnd y = false := by
      intro y hy
      rcases List.mem_append.mp hy with hy | hy
      · exact hJ.pending_line y hy
      · exact hb y (by rwa [List.dropLast_concat])
    have hends : ends isEnd (J.pending ++ (b' ++ [x])) = isEnd x := by
      rw [← List.append_assoc, ends_append_singleton]
    cases hx : isEnd x with
    | true =>
      rw [append_of_ends (hends.trans hx)]
      refine ⟨fun e he => ?_, by simp⟩
      rcases List.mem_append.mp he with he | he
      · exact hJ.entries_line e he
      · rw [List.mem_singleton.mp he]
        refine ⟨?_, hends.trans hx⟩
        -- `x` is the one end of the new record
        have hzero : (J.pending ++ b').countP isEnd = 0 :=
          List.countP_eq_zero.mpr fun y hy => by simp [hbody y hy]
        rw [← List.append_assoc, List.countP_append, hzero, List.countP_singleton, if_pos hx]
    | false =>
      rw [append_of_not_ends (hends.trans hx)]
      refine ⟨hJ.entries_line, fun y hy => ?_⟩
      rw [← List.append_assoc] at hy
      rcases List.mem_append.mp hy with hy | hy
      · exact hbody y hy
      · rw [List.mem_singleton.mp hy]
        exact hx

end Journal

end Aesd.Lib
