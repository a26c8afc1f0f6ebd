/-
  Aesd.Lib.SList

  Singly linked lists in memory, as `SLIST` of `queue.h` keeps them: a head
  that points at the first record, and records that each hold a link to the
  next one.  A record lives at an address that its allocation picks among the
  free ones, so an address can be used again once it has been freed.

  An operation answers `none` where the C code would follow a null pointer or
  one that points at no record.  `Holds` says which records the list has, in
  order; there is one rule for each operation.
-/
import Mathlib.Data.Fintype.EquivFin
import Mathlib.Data.List.Nodup
import Mathlib.Logic.Function.Basic

namespace Aesd.Lib

universe u

variable {A α : Type u}

/-- A record: its data and its link (`none`: a null pointer). -/
structure Cell (A α : Type u) where
  data : α
  next : Option A

/-- The live records, how many they are, and the head. -/
structure SList (A α : Type u) where
  cell : A → Option (Cell A α)
  size : Nat
  first : Option A

namespace SList

/-! ## Operations -/

section Operations

variable [DecidableEq A]

/-- `SLIST_INIT`, before any record is allocated. -/
def empty : SList A α := ⟨fun _ => none, 0, none⟩

/-- Change what is at `a`. -/
def set (l : SList A α) (a : A) (c : Option (Cell A α)) : SList A α :=
  { l with cell := Function.update l.cell a c }

/-- A new record at the free address `a`; its link is not set yet. -/
def alloc (l : SList A α) (a : A) (data : α) : Option (SList A α) :=
  match l.cell a with
  | none => some { l.set a (some ⟨data, none⟩) with size := l.size + 1 }
  | some _ => none

/-- Give the record at `a` back. -/
def free (l : SList A α) (a : A) : Option (SList A α) :=
  (l.cell a).map fun _ => { l.set a none with size := l.size - 1 }

/-- The link of `a` becomes `p`. -/
def setNext (l : SList A α) (a : A) (p : Option A) : Option (SList A α) :=
  (l.cell a).map fun c => l.set a (some { c with next := p })

/-- `SLIST_INSERT_HEAD`. -/
def insertHead (l : SList A α) (a : A) : Option (SList A α) :=
  (l.setNext a l.first).map fun l' => { l' with first := some a }

/-- `SLIST_REMOVE_HEAD`. -/
def removeHead (l : SList A α) : Option (SList A α) := do
  let a ← l.first
  let c ← l.cell a
  some { l with first := c.next }

/-- `SLIST_REMOVE_AFTER`. -/
def removeAfter (l : SList A α) (a : A) : Option (SList A α) := do
  let c ← l.cell a
  let b ← c.next
  let d ← l.cell b
  l.setNext a d.next

/-- The loop of `SLIST_REMOVE`: the record whose link is `elm`, from `curelm` on. -/
def before (l : SList A α) (elm : A) : Nat → A → Option A
  | 0, _ => none
  | fuel + 1, curelm => do
    let c ← l.cell curelm
    if c.next = some elm then some curelm else
      let next ← c.next
      l.before elm fuel next

/-- `SLIST_REMOVE`.  The loop passes every live record at most once. -/
def remove (l : SList A α) (elm : A) : Option (SList A α) :=
  if l.first = some elm then l.removeHead else do
    let curelm ← l.first
    let prev ← l.before elm l.size curelm
    l.removeAfter prev

/-- The records from the link `p` on. -/
def walk (l : SList A α) : Nat → Option A → Option (List (A × α))
  | _, none => some []
  | 0, some _ => none
  | fuel + 1, some a => do
    let c ← l.cell a
    let rest ← l.walk fuel c.next
    some ((a, c.data) :: rest)

/-- The records of the list, in order. -/
def toList (l : SList A α) : Option (List (A × α)) := l.walk l.size l.first

end Operations

/-! ## Segments -/

/-- From the link `p` the records `xs` are passed, and the link `q` is reached. -/
def Seg (m : A → Option (Cell A α)) : Option A → List (A × α) → Option A → Prop
  | p, [], q => p = q
  | p, x :: xs, q => p = some x.1 ∧ ∃ next, m x.1 = some ⟨x.2, next⟩ ∧ Seg m next xs q

/-- The link that leads to `xs`. -/
def link (xs : List (A × α)) : Option A := xs.head?.map Prod.fst

@[simp] theorem link_nil : link ([] : List (A × α)) = none := rfl

@[simp] theorem link_cons (x : A × α) (xs : List (A × α)) : link (x :: xs) = some x.1 := rfl

variable {m : A → Option (Cell A α)} {p q : Option A} {x : A × α} {xs ys : List (A × α)}

theorem seg_append : Seg m p (xs ++ ys) q ↔ ∃ r, Seg m p xs r ∧ Seg m r ys q := by
  induction xs generalizing p with
  | nil => exact ⟨fun h => ⟨p, rfl, h⟩, fun ⟨_, hp, h⟩ => hp ▸ h⟩
  | cons x xs ih =>
    refine ⟨?_, ?_⟩
    · rintro ⟨hp, next, hcell, hrest⟩
      obtain ⟨r, hxs, hys⟩ := ih.mp hrest
      exact ⟨r, ⟨hp, next, hcell, hxs⟩, hys⟩
    · rintro ⟨r, ⟨hp, next, hcell, hxs⟩, hys⟩
      exact ⟨hp, next, hcell, ih.mpr ⟨r, hxs, hys⟩⟩

theorem seg_link (h : Seg m p xs none) : p = link xs := by
  cases xs with
  | nil => exact h
  | cons x xs => exact h.1

/-- Records outside the segment do not matter. -/
theorem seg_update [DecidableEq A] {a : A} {c : Option (Cell A α)} (h : Seg m p xs q)
    (ha : a ∉ xs.map Prod.fst) : Seg (Function.update m a c) p xs q := by
  induction xs generalizing p with
  | nil => exact h
  | cons x xs ih =>
    obtain ⟨hp, next, hcell, hrest⟩ := h
    rw [List.map_cons, List.mem_cons, not_or] at ha
    refine ⟨hp, next, ?_, ih hrest ha.2⟩
    rw [Function.update_of_ne (Ne.symm ha.1)]
    exact hcell

/-- A link leads to one list only. -/
theorem seg_unique (hxs : Seg m p xs none) (hys : Seg m p ys none) : xs = ys := by
  induction xs generalizing p ys with
  | nil =>
    cases ys with
    | nil => rfl
    | cons y ys => exact absurd (hxs.symm.trans hys.1) (by simp)
  | cons x xs ih =>
    obtain ⟨hp, next, hcell, hrest⟩ := hxs
    cases ys with
    | nil => exact absurd (hp.symm.trans hys) (by simp)
    | cons y ys =>
      obtain ⟨hp', next', hcell', hrest'⟩ := hys
      have haddr : x.1 = y.1 := Option.some.inj (hp.symm.trans hp')
      rw [haddr, hcell', Option.some.injEq, Cell.mk.injEq] at hcell
      obtain ⟨hdata, rfl⟩ := hcell
      rw [ih hrest hrest', Prod.ext haddr hdata.symm]

/-- A list that ends passes no record twice: it would go round for ever. -/
theorem seg_nodup (h : Seg m p xs none) : (xs.map Prod.fst).Nodup := by
  induction xs generalizing p with
  | nil => exact List.nodup_nil
  | cons x xs ih =>
    have hwhole := h
    obtain ⟨hp, next, hcell, hrest⟩ := h
    refine List.nodup_cons.mpr ⟨fun hmem => ?_, ih hrest⟩
    -- the same address, met again after `before`
    obtain ⟨y, hy, hyx⟩ := List.mem_map.mp hmem
    obtain ⟨before, after, rfl⟩ := List.append_of_mem hy
    obtain ⟨r, -, hagain⟩ := seg_append.mp hrest
    have hr : r = p := by rw [hagain.1, hyx, hp]
    rw [hr] at hagain
    have hlen := congrArg List.length (seg_unique hwhole hagain)
    simp only [List.length_cons, List.length_append] at hlen
    omega

/-- The link that leads to `x` through `z` does not lead to `x` at once. -/
theorem seg_ne {init : List (A × α)} {z : A × α} (h : Seg m p (init ++ z :: x :: ys) none) :
    p ≠ some x.1 := by
  rintro rfl
  obtain ⟨r, -, -, next, -, hx⟩ := seg_append.mp h
  have hnext := hx.1
  rw [hnext] at hx
  have hlen := congrArg List.length (seg_unique h hx)
  simp only [List.length_cons, List.length_append] at hlen
  omega

theorem seg_link_isSome (h : Seg m p (xs ++ x :: ys) none) : ∃ a, p = some a := by
  rw [seg_link h]
  cases xs with
  | nil => exact ⟨_, rfl⟩
  | cons y xs => exact ⟨_, rfl⟩

/-! ## What the list has -/

/-- The records of the list are `xs`, and no other record is live. -/
structure Holds (l : SList A α) (xs : List (A × α)) : Prop where
  seg : Seg l.cell l.first xs none
  size_eq : l.size = xs.length
  mem_of_live : ∀ a, l.cell a ≠ none → a ∈ xs.map Prod.fst

variable {l : SList A α}

theorem holds_empty : (empty : SList A α).Holds [] := ⟨rfl, rfl, fun _ h => absurd rfl h⟩

theorem Holds.nodup (h : l.Holds xs) : (xs.map Prod.fst).Nodup := seg_nodup h.seg

theorem Holds.first_eq (h : l.Holds xs) : l.first = link xs := seg_link h.seg

/-- `SLIST_FIRST`, `SLIST_NEXT` and the data of a record of the list. -/
theorem Holds.cell_eq (h : l.Holds (xs ++ x :: ys)) : l.cell x.1 = some ⟨x.2, link ys⟩ := by
  obtain ⟨r, -, -, next, hcell, hrest⟩ := seg_append.mp h.seg
  rw [hcell, seg_link hrest]

theorem walk_eq {fuel : Nat} (h : Seg l.cell p xs none) (hfuel : xs.length ≤ fuel) :
    l.walk fuel p = some xs := by
  induction xs generalizing fuel p with
  | nil =>
    obtain rfl := h
    rw [walk]
  | cons x xs ih =>
    obtain ⟨rfl, next, hcell, hrest⟩ := h
    cases fuel with
    | zero => cases hfuel
    | succ fuel =>
      have hwalk := ih hrest (Nat.le_of_succ_le_succ hfuel)
      simp only [walk, hcell, hwalk, Option.bind_eq_bind, Option.bind_some]

theorem Holds.toList_eq (h : l.Holds xs) : l.toList = some xs :=
  walk_eq h.seg (Nat.le_of_eq h.size_eq.symm)

/-- `malloc` can always find an address. -/
theorem Holds.exists_free [DecidableEq A] [Infinite A] (h : l.Holds xs) : ∃ a, l.cell a = none := by
  obtain ⟨a, ha⟩ := Infinite.exists_notMem_finset (xs.map Prod.fst).toFinset
  refine ⟨a, ?_⟩
  by_contra hlive
  exact ha (List.mem_toFinset.mpr (h.mem_of_live a hlive))

/-! ## The rules -/

section Rules

variable [DecidableEq A]

/-- A new record at the head. -/
theorem Holds.insert {a : A} (h : l.Holds xs) (hfree : l.cell a = none) (data : α) :
    ∃ l', (l.alloc a data).bind (insertHead · a) = some l' ∧ l'.Holds ((a, data) :: xs) := by
  have halloc : l.alloc a data = some { l.set a (some ⟨data, none⟩) with size := l.size + 1 } := by
    rw [alloc, hfree]
  -- the record is new to the list
  have ha : a ∉ xs.map Prod.fst := by
    intro hmem
    obtain ⟨x, hx, rfl⟩ := List.mem_map.mp hmem
    obtain ⟨before, after, rfl⟩ := List.append_of_mem hx
    rw [h.cell_eq] at hfree
    cases hfree
  refine ⟨⟨Function.update l.cell a (some ⟨data, l.first⟩), l.size + 1, some a⟩, ?_, ?_⟩
  · rw [halloc, Option.bind_some]
    simp [insertHead, setNext, set]
  · refine ⟨⟨rfl, l.first, Function.update_self .., seg_update h.seg ha⟩, ?_, fun b hb => ?_⟩
    · rw [List.length_cons, h.size_eq]
    · rw [List.map_cons, List.mem_cons, or_iff_not_imp_left]
      intro hne
      refine h.mem_of_live b fun hnone => hb ?_
      show Function.update l.cell a _ b = none
      rw [Function.update_of_ne hne, hnone]

/-- The loop stops at the record before `x`, wherever in the list that is. -/
theorem before_eq {init : List (A × α)} {z : A × α} {a : A} {fuel : Nat}
    (h : Seg l.cell (some a) (init ++ z :: x :: ys) none) (hfuel : init.length < fuel) :
    l.before x.1 fuel a = some z.1 := by
  induction init generalizing a fuel with
  | nil =>
    obtain ⟨ha, next, hcell, hrest⟩ := h
    obtain rfl := Option.some.inj ha
    obtain ⟨fuel, rfl⟩ := Nat.exists_eq_succ_of_ne_zero (Nat.ne_of_gt hfuel)
    simp only [before, hcell, Option.bind_eq_bind, Option.bind_some, if_pos hrest.1]
  | cons b init ih =>
    rw [List.cons_append] at h
    obtain ⟨ha, next, hcell, hrest⟩ := h
    obtain rfl := Option.some.inj ha
    obtain ⟨fuel, rfl⟩ := Nat.exists_eq_succ_of_ne_zero (Nat.ne_of_gt (Nat.zero_lt_of_lt hfuel))
    have hne := seg_ne hrest
    obtain ⟨a', rfl⟩ := seg_link_isSome hrest
    have hrec := ih hrest (Nat.lt_of_succ_lt_succ hfuel)
    simp only [before, hcell, Option.bind_eq_bind, Option.bind_some, if_neg hne, hrec]

/-- One record is taken out, wherever in the list it is; it stays live. -/
theorem Holds.remove (h : l.Holds (xs ++ x :: ys)) :
    ∃ l', l.remove x.1 = some l' ∧ l'.size = l.size ∧ Seg l'.cell l'.first (xs ++ ys) none ∧
      ∀ a, l'.cell a ≠ none ↔ l.cell a ≠ none := by
  have hcell := h.cell_eq
  rcases List.eq_nil_or_concat xs with rfl | ⟨init, z, rfl⟩
  · have hfirst : l.first = some x.1 := h.first_eq
    obtain ⟨-, next, hcell', hrest⟩ := h.seg
    rw [hcell, Option.some.injEq, Cell.mk.injEq] at hcell'
    refine ⟨{ l with first := link ys }, ?_, rfl, ?_, fun a => Iff.rfl⟩
    · rw [SList.remove, if_pos hfirst]
      simp only [removeHead, hfirst, hcell, Option.bind_eq_bind, Option.bind_some]
    · rw [hcell'.2]
      exact hrest
  · rw [List.concat_eq_append, List.append_assoc, List.singleton_append] at h
    have hz := h.cell_eq
    have hnodup := h.nodup
    have hseg := h.seg
    have hne := seg_ne hseg
    obtain ⟨a, hfirst⟩ := seg_link_isSome hseg
    have hlen : init.length < l.size := by
      rw [h.size_eq, List.length_append, List.length_cons]
      omega
    refine ⟨l.set z.1 (some ⟨z.2, link ys⟩), ?_, rfl, ?_, fun b => ?_⟩
    · rw [SList.remove, if_neg hne]
      rw [hfirst] at hseg
      simp only [hfirst, before_eq hseg hlen, removeAfter, hz, hcell, link_cons, setNext,
        Option.bind_eq_bind, Option.bind_some, Option.map_some]
    · -- only `z` is changed, which is neither before nor after itself
      simp only [List.map_append, List.map_cons, List.nodup_middle, List.nodup_cons,
        List.mem_append, List.mem_cons, not_or] at hnodup
      obtain ⟨⟨hinit, -, hys⟩, -⟩ := hnodup
      obtain ⟨r, hbefore, hr, next, -, -, after, hcell', hafter⟩ := seg_append.mp hseg
      rw [seg_link hafter] at hafter
      rw [List.concat_eq_append, List.append_assoc, List.singleton_append]
      exact seg_append.mpr ⟨r, seg_update hbefore hinit, hr, link ys, Function.update_self ..,
        seg_update hafter hys⟩
    · rw [set]
      by_cases hbz : b = z.1
      · rw [hbz]
        simp [hz]
      · simp [hbz]

/-- `SLIST_REMOVE`, and the record is freed. -/
theorem Holds.unlink (h : l.Holds (xs ++ x :: ys)) :
    ∃ l', (l.remove x.1).bind (free · x.1) = some l' ∧ l'.Holds (xs ++ ys) := by
  obtain ⟨l₁, hremove, hsize, hseg, hlive⟩ := h.remove
  have hx : l.cell x.1 ≠ none := by simp [h.cell_eq]
  obtain ⟨c, hc⟩ := Option.ne_none_iff_exists'.mp ((hlive x.1).mpr hx)
  have hnodup := h.nodup
  rw [List.map_append, List.map_cons, List.nodup_middle, ← List.map_append] at hnodup
  refine ⟨{ l₁.set x.1 none with size := l₁.size - 1 }, ?_, ?_, ?_, fun a ha => ?_⟩
  · rw [hremove, Option.bind_some, free, hc, Option.map_some]
  · exact seg_update hseg (List.nodup_cons.mp hnodup).1
  · show l₁.size - 1 = _
    rw [hsize, h.size_eq, List.length_append, List.length_append, List.length_cons]
    omega
  · have hne : a ≠ x.1 := by
      rintro rfl
      exact ha (Function.update_self ..)
    have hmem := h.mem_of_live a ((hlive a).mp fun hnone => ha ?_)
    · simpa [hne] using hmem
    · show Function.update l₁.cell x.1 none a = none
      rw [Function.update_of_ne hne, hnone]

/-- `SLIST_REMOVE_HEAD`, and the record is freed. -/
theorem Holds.unlinkHead (h : l.Holds (x :: xs)) :
    ∃ l', l.removeHead.bind (free · x.1) = some l' ∧ l'.Holds xs := by
  have hremove : l.remove x.1 = l.removeHead := if_pos h.first_eq
  rw [← hremove]
  have hsplit : l.Holds ([] ++ x :: xs) := h
  exact hsplit.unlink

end Rules

end SList

end Aesd.Lib
