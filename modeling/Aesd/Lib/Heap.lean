/-
  Aesd.Lib.Heap

  A heap of separately allocated blocks.  A cell that was never written is
  `none`; `load` and `store` answer `none` for a dead block, an index outside
  it or an unwritten cell, and `free` answers `none` for a dead block, so
  "this access is defined" is `≠ none`.

  A block is named by the number of the allocation that made it, so a name is
  never used twice and a stale pointer is never live again.
-/
import Mathlib.Data.List.Basic
import Mathlib.Logic.Function.Basic
import Mathlib.Data.List.Nodup

namespace Aesd.Lib

variable {α : Type _}

/-- The name of a block. -/
abbrev Ptr := Nat

/-- Live blocks by name, and the first name not handed out yet. -/
structure Heap (α : Type _) where
  block : Ptr → Option (List (Option α))
  next : Ptr

namespace Heap

/-- Put `cells` (`none`: a dead block) under the name `p`. -/
def setBlock (h : Heap α) (p : Ptr) (cells : Option (List (Option α))) : Heap α :=
  { h with block := Function.update h.block p cells }

/-- No block. -/
def empty : Heap α := ⟨fun _ => none, 0⟩

/-- A new block of `n` unwritten cells. -/
def alloc (h : Heap α) (n : Nat) : Ptr × Heap α :=
  (h.next, { h.setBlock h.next (some (List.replicate n none)) with next := h.next + 1 })

/-- Give a live block back. -/
def free (h : Heap α) (p : Ptr) : Option (Heap α) :=
  (h.block p).map fun _ => h.setBlock p none

/-- The `n` cells from `off` on, all of them written. -/
def load (h : Heap α) (p : Ptr) (off n : Nat) : Option (List α) := do
  let cells ← h.block p
  if off + n ≤ cells.length then ((cells.drop off).take n).mapM id else none

/-- Write `xs` from `off` on. -/
def store (h : Heap α) (p : Ptr) (off : Nat) (xs : List α) : Option (Heap α) := do
  let cells ← h.block p
  if off + xs.length ≤ cells.length then
    some (h.setBlock p (some (cells.take off ++ xs.map some ++ cells.drop (off + xs.length))))
  else none

/-- `p` is a live block that starts with the written cells `xs`. -/
def StartsWith (h : Heap α) (p : Ptr) (xs : List α) : Prop :=
  ∃ rest, h.block p = some (xs.map some ++ rest)

/-- No block beyond the names handed out. -/
def Fresh (h : Heap α) : Prop := ∀ p, h.next ≤ p → h.block p = none

theorem fresh_empty : (empty : Heap α).Fresh := fun _ _ => rfl

theorem mapM_id_map_some (xs : List α) : (xs.map some).mapM id = some xs := by
  induction xs with
  | nil => rfl
  | cons x xs ih =>
    rw [List.map_cons, List.mapM_cons, ih]
    rfl

/-- Loading inside the written part of a block gives exactly that slice. -/
theorem StartsWith.load {h : Heap α} {p : Ptr} {xs : List α} (hp : h.StartsWith p xs)
    {off n : Nat} (hn : off + n ≤ xs.length) :
    h.load p off n = some ((xs.drop off).take n) := by
  obtain ⟨rest, hb⟩ := hp
  have hlen : off + n ≤ (xs.map some ++ rest).length := by
    rw [List.length_append, List.length_map]
    omega
  have hslice : ((xs.map some ++ rest).drop off).take n = ((xs.drop off).take n).map some := by
    rw [List.drop_append_of_le_length (by rw [List.length_map]; omega),
      List.take_append_of_le_length (by rw [List.length_drop, List.length_map]; omega),
      ← List.map_drop, ← List.map_take]
  simp only [Heap.load, hb, Option.bind_eq_bind, Option.bind_some, if_pos hlen, hslice,
    mapM_id_map_some]

/-! ## What one operation does to the blocks -/

@[simp] theorem setBlock_block_self (h : Heap α) (p : Ptr) (c : Option (List (Option α))) :
    (h.setBlock p c).block p = c := by
  simp [setBlock]

theorem setBlock_block_of_ne (h : Heap α) {p q : Ptr} (c : Option (List (Option α)))
    (hq : q ≠ p) : (h.setBlock p c).block q = h.block q := by
  simp [setBlock, hq]

/-- Changing a name already handed out keeps the others fresh. -/
theorem Fresh.setBlock {h : Heap α} (hf : h.Fresh) {p : Ptr} (hp : p < h.next)
    (c : Option (List (Option α))) : (h.setBlock p c).Fresh := by
  intro q hq
  rw [setBlock_block_of_ne h c (Nat.ne_of_gt (Nat.lt_of_lt_of_le hp hq))]
  exact hf q hq

/-- A live block has a name already handed out. -/
theorem Fresh.lt_next {h : Heap α} (hf : h.Fresh) {p : Ptr} (hp : h.block p ≠ none) :
    p < h.next :=
  Nat.lt_of_not_le fun hle => hp (hf p hle)

@[simp] theorem alloc_next (h : Heap α) (n : Nat) : (h.alloc n).2.next = h.next + 1 := rfl

theorem alloc_block_self (h : Heap α) (n : Nat) :
    (h.alloc n).2.block h.next = some (List.replicate n none) := by
  simp [alloc, setBlock]

theorem alloc_block_of_ne (h : Heap α) (n : Nat) {p : Ptr} (hp : p ≠ h.next) :
    (h.alloc n).2.block p = h.block p := by
  simp [alloc, setBlock, hp]

theorem Fresh.alloc {h : Heap α} (hf : h.Fresh) (n : Nat) : (h.alloc n).2.Fresh := by
  intro p hp
  rw [alloc_next] at hp
  rw [alloc_block_of_ne h n (Nat.ne_of_gt hp)]
  exact hf p (Nat.le_of_succ_le hp)

theorem free_eq_some {h : Heap α} {p : Ptr} (hp : h.block p ≠ none) :
    h.free p = some (h.setBlock p none) := by
  obtain ⟨b, hb⟩ := Option.ne_none_iff_exists'.mp hp
  rw [free, hb, Option.map_some]

/-- Storing behind the written cells of a block with room for it. -/
theorem store_eq {h : Heap α} {p : Ptr} (xs ys : List α) {n : Nat}
    (hb : h.block p = some (xs.map some ++ List.replicate n none)) (hys : ys.length ≤ n) :
    h.store p xs.length ys = some (h.setBlock p
      (some ((xs ++ ys).map some ++ List.replicate (n - ys.length) none))) := by
  have hlen :
      xs.length + ys.length ≤ (xs.map some ++ List.replicate n (none : Option α)).length := by
    rw [List.length_append, List.length_map, List.length_replicate]
    omega
  have htake : (xs.map some ++ List.replicate n none).take xs.length = xs.map some :=
    List.take_left' (by rw [List.length_map])
  have hdrop : (xs.map some ++ List.replicate n (none : Option α)).drop (xs.length + ys.length)
      = List.replicate (n - ys.length) none := by
    rw [List.drop_append, List.drop_of_length_le (by rw [List.length_map]; omega), List.nil_append,
      List.length_map, Nat.add_sub_cancel_left, List.drop_replicate]
  simp only [Heap.store, hb, Option.bind_eq_bind, Option.bind_some, if_pos hlen, htake, hdrop,
    List.map_append]

/-! ## Ownership

`Owned h xs` lists the live blocks of `h`, each once, with the text it starts
with.  Every operation is a rule on the list, so a proof about a program only
follows its owners. -/

/-- The live blocks are exactly the listed ones, without repetition. -/
structure Owned (h : Heap α) (xs : List (Ptr × List α)) : Prop where
  fresh : h.Fresh
  nodup : (xs.map Prod.fst).Nodup
  startsWith : ∀ x ∈ xs, h.StartsWith x.1 x.2
  live : ∀ p, h.block p ≠ none → p ∈ xs.map Prod.fst

theorem owned_empty : (empty : Heap α).Owned [] :=
  { fresh := fresh_empty
    nodup := List.nodup_nil
    startsWith := fun _ hx => absurd hx (List.not_mem_nil)
    live := fun _ hp => absurd rfl hp }

theorem StartsWith.ne_none {h : Heap α} {p : Ptr} {xs : List α} (hp : h.StartsWith p xs) :
    h.block p ≠ none := by
  obtain ⟨rest, hb⟩ := hp
  rw [hb]
  exact Option.some_ne_none _

theorem StartsWith.congr {h h' : Heap α} {p : Ptr} {xs : List α} (hp : h.StartsWith p xs)
    (heq : h'.block p = h.block p) : h'.StartsWith p xs := by
  obtain ⟨rest, hb⟩ := hp
  exact ⟨rest, heq.trans hb⟩

/-- The live blocks are those of the owners. -/
theorem Owned.block_ne_none_iff {h : Heap α} {xs : List (Ptr × List α)} (ho : h.Owned xs)
    (p : Ptr) : h.block p ≠ none ↔ p ∈ xs.map Prod.fst := by
  refine ⟨?_, ?_⟩
  · exact ho.live p
  · intro hp
    obtain ⟨x, hx, rfl⟩ := List.mem_map.mp hp
    exact (ho.startsWith x hx).ne_none

theorem Owned.perm {h : Heap α} {xs ys : List (Ptr × List α)} (ho : h.Owned xs)
    (hp : xs.Perm ys) : h.Owned ys :=
  { fresh := ho.fresh
    nodup := (hp.map _).nodup_iff.mp ho.nodup
    startsWith := fun y hy => ho.startsWith y (hp.mem_iff.mpr hy)
    live := fun p hne => (hp.map _).mem_iff.mp (ho.live p hne) }

/-- A new block joins the owners, with nothing written. -/
theorem Owned.alloc {h : Heap α} {xs : List (Ptr × List α)} (ho : h.Owned xs) (n : Nat) :
    (h.alloc n).2.Owned ((h.next, []) :: xs) := by
  -- the owners have names handed out before
  have hne : ∀ x ∈ xs, x.1 ≠ h.next := fun x hx =>
    Nat.ne_of_lt (ho.fresh.lt_next (ho.startsWith x hx).ne_none)
  refine ⟨?_, ?_, ?_, ?_⟩
  · exact ho.fresh.alloc n
  · rw [List.map_cons, List.nodup_cons]
    refine ⟨fun hmem => ?_, ho.nodup⟩
    obtain ⟨x, hx, heq⟩ := List.mem_map.mp hmem
    exact hne x hx heq
  · intro x hx
    rcases List.mem_cons.mp hx with rfl | hx
    · exact ⟨_, alloc_block_self h n⟩
    · exact (ho.startsWith x hx).congr (alloc_block_of_ne h n (hne x hx))
  · intro p hp
    by_cases heq : p = h.next
    · rw [heq]
      exact List.mem_cons_self
    · rw [alloc_block_of_ne h n heq] at hp
      exact List.mem_cons_of_mem _ (ho.live p hp)

/-- Freeing an owned block is defined and removes exactly that owner. -/
theorem Owned.free {h : Heap α} {p : Ptr} {t : List α} {xs : List (Ptr × List α)}
    (ho : h.Owned ((p, t) :: xs)) :
    h.free p = some (h.setBlock p none) ∧ (h.setBlock p none).Owned xs := by
  have hp : h.block p ≠ none := (ho.startsWith (p, t) List.mem_cons_self).ne_none
  have hnot : p ∉ xs.map Prod.fst := (List.nodup_cons.mp ho.nodup).1
  refine ⟨free_eq_some hp, ?_⟩
  refine ⟨?_, ?_, ?_, ?_⟩
  · exact ho.fresh.setBlock (ho.fresh.lt_next hp) none
  · exact (List.nodup_cons.mp ho.nodup).2
  · intro x hx
    have hne : x.1 ≠ p := fun heq => hnot (heq ▸ List.mem_map_of_mem hx)
    exact (ho.startsWith x (List.mem_cons_of_mem _ hx)).congr (setBlock_block_of_ne h none hne)
  · intro q hq
    by_cases heq : q = p
    · rw [heq, setBlock_block_self] at hq
      exact absurd rfl hq
    · rw [setBlock_block_of_ne h none heq] at hq
      exact (List.mem_cons.mp (ho.live q hq)).resolve_left heq

/-- Writing to an owned block changes that owner's text only. -/
theorem Owned.setBlock {h : Heap α} {p : Ptr} {t : List α} {xs : List (Ptr × List α)}
    (ho : h.Owned ((p, t) :: xs)) (u : List α) (rest : List (Option α)) :
    (h.setBlock p (some (u.map some ++ rest))).Owned ((p, u) :: xs) := by
  have hp : h.block p ≠ none := (ho.startsWith (p, t) List.mem_cons_self).ne_none
  have hnot : p ∉ xs.map Prod.fst := (List.nodup_cons.mp ho.nodup).1
  refine ⟨?_, ?_, ?_, ?_⟩
  · exact ho.fresh.setBlock (ho.fresh.lt_next hp) _
  · exact ho.nodup
  · intro x hx
    rcases List.mem_cons.mp hx with rfl | hx
    · exact ⟨rest, setBlock_block_self h _ _⟩
    · have hne : x.1 ≠ p := fun heq => hnot (heq ▸ List.mem_map_of_mem hx)
      exact (ho.startsWith x (List.mem_cons_of_mem _ hx)).congr (setBlock_block_of_ne h _ hne)
  · intro q hq
    by_cases heq : q = p
    · rw [heq]
      exact List.mem_cons_self
    · rw [setBlock_block_of_ne h _ heq] at hq
      exact ho.live q hq

/-- An owner may forget the end of its text. -/
theorem Owned.shorten {h : Heap α} {p : Ptr} {t u : List α} {xs : List (Ptr × List α)}
    (ho : h.Owned ((p, t ++ u) :: xs)) : h.Owned ((p, t) :: xs) := by
  refine { fresh := ho.fresh, nodup := ho.nodup, startsWith := fun x hx => ?_, live := ho.live }
  rcases List.mem_cons.mp hx with rfl | hx
  · obtain ⟨rest, hb⟩ := ho.startsWith _ List.mem_cons_self
    exact ⟨u.map some ++ rest, by rw [hb, List.map_append, List.append_assoc]⟩
  · exact ho.startsWith x (List.mem_cons_of_mem _ hx)

/-! ## Later heaps

A name is used for one block only: it is handed out, its block lives and
dies, and then it is never live again. -/

/-- `h'` is what some operations made of `h`: every name that was handed out
    before and is dead stays dead. -/
structure Later (h h' : Heap α) : Prop where
  next_le : h.next ≤ h'.next
  dead : ∀ p, p < h.next → h.block p = none → h'.block p = none

theorem Later.refl (h : Heap α) : h.Later h :=
  ⟨Nat.le_refl _, fun _ _ hp => hp⟩

theorem Later.trans {h₁ h₂ h₃ : Heap α} (h : h₁.Later h₂) (h' : h₂.Later h₃) : h₁.Later h₃ := by
  refine ⟨Nat.le_trans h.next_le h'.next_le, fun p hlt hp => ?_⟩
  exact h'.dead p (Nat.lt_of_lt_of_le hlt h.next_le) (h.dead p hlt hp)

theorem later_alloc (h : Heap α) (n : Nat) : h.Later (h.alloc n).2 := by
  refine ⟨Nat.le_succ _, fun p hlt hp => ?_⟩
  rw [alloc_block_of_ne h n (Nat.ne_of_lt hlt)]
  exact hp

/-- Changing a live block brings no dead one back. -/
theorem later_setBlock {h : Heap α} {p : Ptr} (hp : h.block p ≠ none)
    (c : Option (List (Option α))) : h.Later (h.setBlock p c) := by
  refine ⟨Nat.le_refl _, fun q _ hq => ?_⟩
  have hne : q ≠ p := fun heq => hp (heq ▸ hq)
  rw [setBlock_block_of_ne h c hne]
  exact hq

theorem later_free {h h' : Heap α} {p : Ptr} (hf : h.free p = some h') : h.Later h' := by
  rw [free, Option.map_eq_some_iff] at hf
  obtain ⟨b, hb, rfl⟩ := hf
  exact later_setBlock (by rw [hb]; exact Option.some_ne_none b) none

theorem later_store {h h' : Heap α} {p : Ptr} {off : Nat} {xs : List α}
    (hs : h.store p off xs = some h') : h.Later h' := by
  simp only [store, Option.bind_eq_bind, Option.bind_eq_some_iff] at hs
  obtain ⟨cells, hb, hs⟩ := hs
  split at hs
  · obtain rfl := Option.some.inj hs
    exact later_setBlock (by rw [hb]; exact Option.some_ne_none cells) _
  · cases hs

/-! ## Giving many blocks back -/

/-- Free the blocks `ps` in order. -/
def freeAll (h : Heap α) (ps : List Ptr) : Option (Heap α) := ps.foldlM free h

/-- Freeing distinct live blocks is defined, and they are the ones that die. -/
theorem freeAll_eq_some {h : Heap α} {ps : List Ptr} (hnodup : ps.Nodup)
    (hlive : ∀ p ∈ ps, h.block p ≠ none) :
    ∃ h', h.freeAll ps = some h' ∧ ∀ q, h'.block q = if q ∈ ps then none else h.block q := by
  induction ps generalizing h with
  | nil => exact ⟨h, rfl, fun q => by simp⟩
  | cons p ps ih =>
    obtain ⟨hp, hps⟩ := List.nodup_cons.mp hnodup
    -- freeing `p` leaves the others, which are different blocks, alive
    have hrest : ∀ q ∈ ps, (h.setBlock p none).block q ≠ none := by
      intro q hq
      have hne : q ≠ p := fun heq => hp (heq ▸ hq)
      rw [setBlock_block_of_ne h none hne]
      exact hlive q (List.mem_cons_of_mem p hq)
    obtain ⟨h', hfree, hblock⟩ := ih hps hrest
    refine ⟨h', ?_, fun q => ?_⟩
    · rw [freeAll, List.foldlM_cons, free_eq_some (hlive p List.mem_cons_self)]
      exact hfree
    · rw [hblock q]
      by_cases hq : q = p
      · simp [hq]
      · simp [hq, setBlock_block_of_ne h none hq]

end Heap

end Aesd.Lib
