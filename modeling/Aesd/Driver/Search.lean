/-
  Aesd.Driver.Search

  `aesd_circular_buffer_find_entry_offset_for_fpos` as a loop over its own
  variables: the slots it looks at, and the caller's cell that it writes to.

  `findLoop` keeps only the answer of the search.  Here one pass of the
  `do`-`while` is a step on `remaining_offset`, `current_out_offs_offset`,
  `char_found` and `*entry_offset_byte_rtn`, and `passes` runs it
  (`passes_findPass_eq` leads back to `findLoop`).  That the loop ends within
  ten passes and never looks at a slot twice only rests on `out_offs < 10`:
  pass `j` begins with the displacement `walkDisp`, whatever the slots hold.
-/
import Mathlib.Data.List.Nodup
import Aesd.Lib.Loop
import Aesd.Driver.CircularBuffer

namespace Aesd.Driver

open Aesd.Lib AesdCircularBuffer

/-! ## The function of the source -/

/-- The variables of the search, with the caller's cell. -/
structure FindVars where
  remainingOffset : Nat
  currentOutOffsOffset : Nat
  charFound : Bool
  entryOffsetByteRtn : Nat
  deriving DecidableEq, Repr

/-- `buffer->out_offs + current_out_offs_offset`, in `size_t`. -/
def FindVars.index (buffer : AesdCircularBuffer) (v : FindVars) : Nat :=
  (buffer.outOffs + v.currentOutOffsOffset) % 2 ^ 64

/-- Behind the entry `e`: `remaining_offset -= e.size`, `current_out_offs_offset++`,
    and the reset at the end of the array. -/
def FindVars.skip (buffer : AesdCircularBuffer) (e : AesdBufferEntry) (v : FindVars) : FindVars :=
  let v := { v with remainingOffset := v.remainingOffset - e.size }
  let v := { v with currentOutOffsOffset := (v.currentOutOffsOffset + 1) % 2 ^ 64 }
  if AESDCHAR_MAX_WRITE_OPERATIONS_SUPPORTED ≤ v.index buffer then
    { v with currentOutOffsOffset := toSizeT (-1 * buffer.outOffs) }
  else v

/-- `while (!char_found)`, and the `return` behind the loop. -/
def findTest (buffer : AesdCircularBuffer) (v : FindVars) :
    Pass FindVars (Option Nat × FindVars) :=
  if v.charFound then .leave (some (v.index buffer), v) else .again v

/-- One pass of the `do`-`while` loop. It leaves with the index of the entry
    returned, or with NULL. `none`: an index outside the array. -/
def findPass (buffer : AesdCircularBuffer) (v : FindVars) :
    Option (Pass FindVars (Option Nat × FindVars)) :=
  match buffer.entry[v.index buffer]? with
  | none => none
  | some e =>
    if e.buffptr = none then some (.leave (none, v))
    else if e.size ≤ v.remainingOffset then
      let v := v.skip buffer e
      if v.currentOutOffsOffset = 0 then some (.leave (none, v))
      else some (findTest buffer v)
    else
      let v := { v with entryOffsetByteRtn := v.remainingOffset, charFound := true }
      some (findTest buffer v)

/-- The variables before the first pass; `rtn` is in the caller's cell. -/
def FindVars.start (charOffset rtn : Nat) : FindVars :=
  { remainingOffset := charOffset
    currentOutOffsOffset := 0
    charFound := false
    entryOffsetByteRtn := rtn }

/-- What can be seen of one search: the index of the entry returned (`none` for
    NULL), the caller's cell afterwards, and the slots looked at, in order. -/
structure FindOutcome where
  ret : Option Nat
  entryOffsetByteRtn : Nat
  visited : List Nat
  deriving DecidableEq, Repr

/-- The outcome of a run of the loop. -/
def findOutcome (buffer : AesdCircularBuffer) (x : List FindVars × Option Nat × FindVars) :
    FindOutcome :=
  { ret := x.2.1
    entryOffsetByteRtn := x.2.2.entryOffsetByteRtn
    visited := x.1.map (·.index buffer) }

/-- `aesd_circular_buffer_find_entry_offset_for_fpos` with at most `fuel` passes,
    where the caller's cell holds `rtn` before the call. -/
def aesdCircularBufferFindEntryOffsetForFposWithin (fuel : Nat) (buffer : AesdCircularBuffer)
    (charOffset rtn : Nat) : Option FindOutcome :=
  (passes (findPass buffer) fuel (.start charOffset rtn)).map (findOutcome buffer)

variable {buffer : AesdCircularBuffer} {v : FindVars} {charOffset rtn fuel : Nat}

/-! ## One pass -/

section Skip

variable (buffer : AesdCircularBuffer) (e : AesdBufferEntry) (v : FindVars)

@[simp] theorem FindVars.skip_remainingOffset :
    (v.skip buffer e).remainingOffset = v.remainingOffset - e.size := by
  simp only [skip]
  split <;> rfl

@[simp] theorem FindVars.skip_currentOutOffsOffset :
    (v.skip buffer e).currentOutOffsOffset =
      if 10 ≤ (buffer.outOffs + (v.currentOutOffsOffset + 1) % 2 ^ 64) % 2 ^ 64 then
        toSizeT (-1 * (buffer.outOffs : Int))
      else (v.currentOutOffsOffset + 1) % 2 ^ 64 :=
  apply_ite FindVars.currentOutOffsOffset _ _ _

@[simp] theorem FindVars.skip_charFound : (v.skip buffer e).charFound = v.charFound := by
  simp only [skip]
  split <;> rfl

@[simp] theorem FindVars.skip_entryOffsetByteRtn :
    (v.skip buffer e).entryOffsetByteRtn = v.entryOffsetByteRtn := by
  simp only [skip]
  split <;> rfl

end Skip

/-- What a pass on the entry `e` can do before anything was found: stop at a slot
    that was never filled, stop back at the start, go on behind `e`, find the
    position in `e`. -/
inductive FindCase (buffer : AesdCircularBuffer) (e : AesdBufferEntry) (v : FindVars) :
    Pass FindVars (Option Nat × FindVars) → Prop
  | blank (hptr : e.buffptr = none) : FindCase buffer e v (.leave (none, v))
  | back (hptr : e.buffptr ≠ none) (hsize : e.size ≤ v.remainingOffset)
      (hzero : (v.skip buffer e).currentOutOffsOffset = 0) :
      FindCase buffer e v (.leave (none, v.skip buffer e))
  | next (hptr : e.buffptr ≠ none) (hsize : e.size ≤ v.remainingOffset)
      (hpos : (v.skip buffer e).currentOutOffsOffset ≠ 0) :
      FindCase buffer e v (.again (v.skip buffer e))
  | hit (hptr : e.buffptr ≠ none) (hsize : v.remainingOffset < e.size) :
      FindCase buffer e v (.leave (some (v.index buffer),
        { v with entryOffsetByteRtn := v.remainingOffset, charFound := true }))

theorem findPass_cases {e : AesdBufferEntry} (hslot : buffer.entry[v.index buffer]? = some e)
    (hfound : v.charFound = false) : ∃ p, findPass buffer v = some p ∧ FindCase buffer e v p := by
  rw [findPass, hslot]
  dsimp only
  by_cases hptr : e.buffptr = none
  · rw [if_pos hptr]
    exact ⟨_, rfl, .blank hptr⟩
  · rw [if_neg hptr]
    by_cases hsize : e.size ≤ v.remainingOffset
    · rw [if_pos hsize]
      by_cases hzero : (v.skip buffer e).currentOutOffsOffset = 0
      · rw [if_pos hzero]
        exact ⟨_, rfl, .back hptr hsize hzero⟩
      · rw [if_neg hzero, findTest, if_neg (by simp [hfound])]
        exact ⟨_, rfl, .next hptr hsize hzero⟩
    · rw [if_neg hsize]
      exact ⟨_, rfl, .hit hptr (by omega)⟩

/-! ## The course of the walk -/

/-- Pass number `j` begins `j` slots from `out_offs`, with nothing found and
    nothing written yet. -/
structure FindVars.At (buffer : AesdCircularBuffer) (rtn j : Nat) (v : FindVars) : Prop where
  lt : j < 10
  disp : v.currentOutOffsOffset = walkDisp buffer.outOffs j
  unfound : v.charFound = false
  kept : v.entryOffsetByteRtn = rtn

namespace FindVars.At

variable {j : Nat}

theorem start (ho : buffer.outOffs < 10) (charOffset : Nat) :
    (FindVars.start charOffset rtn).At buffer rtn 0 where
  lt := by decide
  disp := by rw [walkDisp, if_pos (by simpa using ho)]; rfl
  unfound := rfl
  kept := rfl

theorem index_eq (h : v.At buffer rtn j) (ho : buffer.outOffs < 10) :
    v.index buffer = (buffer.outOffs + j) % 10 := by
  rw [FindVars.index, h.disp]
  exact walkDisp_index ho h.lt

/-- The pass is on a slot of the array. -/
theorem pass (h : v.At buffer rtn j) (ho : buffer.outOffs < 10) :
    ∃ e p, findPass buffer v = some p ∧ FindCase buffer e v p := by
  have hlt : v.index buffer < AESDCHAR_MAX_WRITE_OPERATIONS_SUPPORTED := by
    rw [h.index_eq ho]
    exact Nat.mod_lt _ (by decide)
  exact ⟨_, findPass_cases (Vector.getElem?_eq_getElem hlt) h.unfound⟩

theorem pass_eq (h : v.At buffer rtn j) (ho : buffer.outOffs < 10)
    {p : Pass FindVars (Option Nat × FindVars)} (hp : findPass buffer v = some p) :
    ∃ e, FindCase buffer e v p := by
  obtain ⟨e, p', hp', hcase⟩ := h.pass ho
  obtain rfl : p' = p := Option.some.inj (hp'.symm.trans hp)
  exact ⟨e, hcase⟩

/-- The displacement after a pass that goes on. -/
theorem skip (h : v.At buffer rtn j) (ho : buffer.outOffs < 10) (e : AesdBufferEntry)
    (hpos : (v.skip buffer e).currentOutOffsOffset ≠ 0) :
    (v.skip buffer e).At buffer rtn (j + 1) := by
  rw [FindVars.skip_currentOutOffsOffset, h.disp, walkDisp_next ho h.lt] at hpos
  have h9 : j ≠ 9 := fun h9 => hpos (if_pos h9)
  have hlt := h.lt
  refine ⟨by omega, ?_, ?_, ?_⟩
  · rw [FindVars.skip_currentOutOffsOffset, h.disp, walkDisp_next ho h.lt, if_neg h9]
  · rw [FindVars.skip_charFound, h.unfound]
  · rw [FindVars.skip_entryOffsetByteRtn, h.kept]

end FindVars.At

/-- Ten passes at most, in any buffer with `out_offs` inside the array. -/
theorem find_course (ho : buffer.outOffs < 10) (rtn : Nat) :
    Course (findPass buffer) 10 (FindVars.At buffer rtn) where
  lt := fun j v h => h.lt
  defined := by
    intro j v h
    obtain ⟨e, p, hp, -⟩ := h.pass ho
    exact ⟨p, hp⟩
  next := by
    intro j v v' h hp
    obtain ⟨e, hcase⟩ := h.pass_eq ho hp
    cases hcase with
    | next hptr hsize hpos => exact h.skip ho e hpos

/-! ## What a search looks at -/

/-- Ten slots from `out_offs` on are different slots. -/
theorem slot_inj {outOffs i j : Nat} (hi : i < 10) (hj : j < 10)
    (h : (outOffs + i) % 10 = (outOffs + j) % 10) : i = j := by
  omega

/-- Ten passes are enough, and more make no difference. -/
theorem find_ends (ho : buffer.outOffs < 10) (charOffset rtn : Nat) :
    ∃ out, ∀ fuel, 10 ≤ fuel →
      aesdCircularBufferFindEntryOffsetForFposWithin fuel buffer charOffset rtn = some out := by
  have hends : ∃ x, passes (findPass buffer) 10 (.start charOffset rtn) = some x :=
    (find_course ho rtn).ends (FindVars.At.start ho charOffset) (by decide)
  obtain ⟨x, hx⟩ := hends
  refine ⟨findOutcome buffer x, ?_⟩
  intro fuel hfuel
  rw [aesdCircularBufferFindEntryOffsetForFposWithin, passes_mono hx hfuel, Option.map_some]

section Outcome

variable {out : FindOutcome}

/-- The slots looked at follow each other from `out_offs` on. -/
theorem find_visited (ho : buffer.outOffs < 10)
    (h : aesdCircularBufferFindEntryOffsetForFposWithin fuel buffer charOffset rtn = some out) :
    ∃ k ≤ 10, out.visited = (List.range k).map fun j => (buffer.outOffs + j) % 10 := by
  obtain ⟨⟨vs, r⟩, hrun, rfl⟩ := Option.map_eq_some_iff.mp h
  have hstart : (FindVars.start charOffset rtn).At buffer rtn 0 := .start ho charOffset
  refine ⟨vs.length, (find_course ho rtn).length_le hrun hstart, ?_⟩
  show vs.map (·.index buffer) = _
  apply List.ext_getElem
  · simp
  · intro j hj hj'
    have hlt : j < vs.length := by simpa using hj
    have hat := (find_course ho rtn).states hrun hstart (List.getElem?_eq_getElem hlt)
    rw [Nat.zero_add] at hat
    simpa using hat.index_eq ho

theorem visited_nodup (ho : buffer.outOffs < 10)
    (h : aesdCircularBufferFindEntryOffsetForFposWithin fuel buffer charOffset rtn = some out) :
    out.visited.Nodup := by
  obtain ⟨k, hk, hvisited⟩ := find_visited ho h
  rw [hvisited]
  apply List.Nodup.map_on _ List.nodup_range
  intro i hi j hj heq
  rw [List.mem_range] at hi hj
  exact slot_inj (by omega) (by omega) heq

theorem visited_inside (ho : buffer.outOffs < 10)
    (h : aesdCircularBufferFindEntryOffsetForFposWithin fuel buffer charOffset rtn = some out) :
    ∀ i ∈ out.visited, i < 10 := by
  obtain ⟨k, hk, hvisited⟩ := find_visited ho h
  intro i hi
  rw [hvisited, List.mem_map] at hi
  obtain ⟨j, -, rfl⟩ := hi
  exact Nat.mod_lt _ (by decide)

/-- NULL leaves the caller's cell alone; an entry returned is one looked at. -/
theorem find_left (ho : buffer.outOffs < 10)
    (h : aesdCircularBufferFindEntryOffsetForFposWithin fuel buffer charOffset rtn = some out) :
    (out.ret = none → out.entryOffsetByteRtn = rtn) ∧
      ∀ i, out.ret = some i → i ∈ out.visited := by
  obtain ⟨⟨vs, r⟩, hrun, rfl⟩ := Option.map_eq_some_iff.mp h
  obtain ⟨j, v, hv, hat, hleave⟩ :=
    (find_course ho rtn).leaves hrun (FindVars.At.start ho charOffset)
  obtain ⟨e, hcase⟩ := hat.pass_eq ho hleave
  cases hcase with
  | blank hptr =>
    refine ⟨fun _ => hat.kept, ?_⟩
    intro i hi
    cases hi
  | back hptr hsize hzero =>
    refine ⟨fun _ => ?_, ?_⟩
    · show (v.skip buffer e).entryOffsetByteRtn = rtn
      rw [FindVars.skip_entryOffsetByteRtn, hat.kept]
    · intro i hi
      cases hi
  | hit hptr hsize =>
    refine ⟨?_, ?_⟩
    · intro hnone
      cases hnone
    · intro i hi
      cases hi
      exact List.mem_map_of_mem (List.mem_of_getElem? hv)

end Outcome

/-! ## The answer -/

/-- What `findLoop` keeps of the end of a search. -/
def findAnswer (r : Option Nat × FindVars) : Option (Nat × Nat) :=
  r.1.map fun i => (i, r.2.entryOffsetByteRtn)

/-- `findLoop` is the loop without the record of its way. -/
theorem passes_findPass_eq (hfound : v.charFound = false) :
    (passes (findPass buffer) fuel v).map (fun x => findAnswer x.2) =
      findLoop buffer fuel v.remainingOffset v.currentOutOffsOffset := by
  induction fuel generalizing v with
  | zero => rfl
  | succ fuel ih =>
    rw [findLoop]
    cases hslot : buffer.entry[(buffer.outOffs + v.currentOutOffsOffset) % 2 ^ 64]? with
    | none =>
      have hpass : findPass buffer v = none := by
        rw [findPass, FindVars.index, hslot]
      rw [passes, hpass]
      rfl
    | some e =>
      obtain ⟨p, hp, hcase⟩ := findPass_cases hslot hfound
      dsimp only
      cases hcase with
      | blank hptr =>
        rw [passes_of_leave hp, if_pos hptr]
        rfl
      | back hptr hsize hzero =>
        rw [FindVars.skip_currentOutOffsOffset] at hzero
        rw [passes_of_leave hp, if_neg hptr, if_pos hsize, if_pos hzero]
        rfl
      | next hptr hsize hpos =>
        have hrest := ih (v := v.skip buffer e) (by rw [FindVars.skip_charFound, hfound])
        rw [FindVars.skip_remainingOffset, FindVars.skip_currentOutOffsOffset] at hrest
        rw [FindVars.skip_currentOutOffsOffset] at hpos
        rw [passes_of_again hp, if_neg hptr, if_pos hsize, if_neg hpos, ← hrest, Option.map_map]
        rfl
      | hit hptr hsize =>
        rw [passes_of_leave hp, if_neg hptr, if_neg (by omega)]
        rfl

/-- The answer of the whole search. -/
theorem find_within_eq (fuel : Nat) (buffer : AesdCircularBuffer) (charOffset rtn : Nat) :
    (aesdCircularBufferFindEntryOffsetForFposWithin fuel buffer charOffset rtn).map
        (fun out => out.ret.map fun i => (i, out.entryOffsetByteRtn)) =
      findLoop buffer fuel charOffset 0 := by
  have hloop : (passes (findPass buffer) fuel (.start charOffset rtn)).map
      (fun x => findAnswer x.2) = findLoop buffer fuel charOffset 0 :=
    passes_findPass_eq rfl
  rw [← hloop, aesdCircularBufferFindEntryOffsetForFposWithin, Option.map_map]
  rfl

/-! ## The search as a partition of the offsets -/

/-- What the search for `charOffset` does in a buffer with the entries `window`,
    oldest first, where entry `i` is in slot `(out_offs + i) % 10`. -/
structure PositionSearch (buffer : AesdCircularBuffer) (window : List AesdBufferEntry)
    (charOffset rtn : Nat) (out : FindOutcome) : Prop where
  once : out.visited.Nodup
  inside : ∀ i ∈ out.visited, i < AESDCHAR_MAX_WRITE_OPERATIONS_SUPPORTED
  ret_inside : ∀ i, out.ret = some i → i < AESDCHAR_MAX_WRITE_OPERATIONS_SUPPORTED
  slot : ∀ i (hi : i < window.length), buffer.entry[(buffer.outOffs + i) % 10]? = some window[i]
  found : ∀ i d (hi : i < window.length),
    (out.ret = some ((buffer.outOffs + i) % 10) ∧ out.entryOffsetByteRtn = d) ↔
      ((window.map (·.size)).take i).sum + d = charOffset ∧ d < window[i].size
  null : out.ret = none ↔ (window.map (·.size)).sum ≤ charOffset
  kept : out.ret = none → out.entryOffsetByteRtn = rtn

/-- An answer that names entries by their slots, as `locate` names them by number. -/
theorem answer_iff {window : List AesdBufferEntry} {outOffs charOffset i d : Nat}
    {out : FindOutcome} (hlen : window.length ≤ 10)
    (h : (out.ret.map fun i => (i, out.entryOffsetByteRtn)) =
      (locate (window.map (·.size)) charOffset).map fun f => ((outOffs + f.1) % 10, f.2))
    (hi : i < window.length) :
    (out.ret = some ((outOffs + i) % 10) ∧ out.entryOffsetByteRtn = d) ↔
      locate (window.map (·.size)) charOffset = some (i, d) := by
  refine ⟨?_, ?_⟩
  · rintro ⟨hret, rfl⟩
    rw [hret, Option.map_some, eq_comm, Option.map_eq_some_iff] at h
    obtain ⟨⟨i', d'⟩, hloc, heq⟩ := h
    obtain ⟨hslot, rfl⟩ := Prod.mk.inj heq
    obtain ⟨hi', -⟩ := locate_eq_some_iff.mp hloc
    rw [List.length_map] at hi'
    have hnum : i' = i := slot_inj (by omega) (by omega) hslot
    rw [hloc, hnum]
  · intro hloc
    rw [hloc, Option.map_some, Option.map_eq_some_iff] at h
    obtain ⟨s, hret, heq⟩ := h
    obtain ⟨rfl, hd⟩ := Prod.mk.inj heq
    exact ⟨hret, hd⟩

/-- Entries added to an empty buffer, one after the other. -/
theorem added_foldlM (es : List AesdBufferEntry) :
    ∃ buffer, es.foldlM aesdCircularBufferAddEntry aesdCircularBufferInit = some buffer ∧
      buffer.Added es := by
  induction es using List.reverseRecOn with
  | nil => exact ⟨_, rfl, added_init⟩
  | append_singleton es e ih =>
    obtain ⟨buffer, hbuffer, hadded⟩ := ih
    obtain ⟨buffer', hbuffer', hadded'⟩ := hadded.addEntry e
    refine ⟨buffer', ?_, hadded'⟩
    rw [List.foldlM_append, hbuffer]
    simpa using hbuffer'

/-- After any number of additions with a buffer behind them, the search for any
    offset ends within ten passes, and finds the entry and the byte in it that
    the offset falls on, or NULL behind the last byte. -/
theorem position_search_exact (es : List AesdBufferEntry) (hptr : ∀ e ∈ es, e.buffptr ≠ none)
    (charOffset rtn : Nat) :
    ∃ buffer out, es.foldlM aesdCircularBufferAddEntry aesdCircularBufferInit = some buffer ∧
      (∀ fuel, 10 ≤ fuel →
        aesdCircularBufferFindEntryOffsetForFposWithin fuel buffer charOffset rtn = some out) ∧
      PositionSearch buffer (es.rtake 10) charOffset rtn out := by
  obtain ⟨buffer, hbuffer, hadded⟩ := added_foldlM es
  have ho := hadded.outOffs_lt
  obtain ⟨out, hout⟩ := find_ends ho charOffset rtn
  have hten := hout 10 (Nat.le_refl 10)
  obtain ⟨hkept, hret⟩ := find_left ho hten
  have hwindow : ∀ e ∈ es.rtake 10, e.buffptr ≠ none := fun e he => hptr e (mem_of_mem_rtake he)
  have hlen : (es.rtake 10).length ≤ 10 := by
    rw [length_rtake]
    exact Nat.min_le_left _ _
  -- the answer, by the search that keeps nothing else
  have hanswer := hadded.find_eq hwindow charOffset
  rw [aesdCircularBufferFindEntryOffsetForFpos, ← find_within_eq 10 buffer charOffset rtn, hten,
    Option.map_some, Option.some.injEq] at hanswer
  refine ⟨buffer, out, hbuffer, hout, ?_⟩
  constructor
  · exact visited_nodup ho hten
  · exact visited_inside ho hten
  · intro i hi
    exact visited_inside ho hten i (hret i hi)
  · intro i hi
    exact hadded.entry_eq (List.getElem?_eq_getElem hi)
  · intro i d hi
    rw [answer_iff hlen hanswer hi, locate_eq_some_iff]
    simp [hi]
  · rw [← locate_eq_none_iff, ← Option.map_eq_none_iff, hanswer, Option.map_eq_none_iff]
  · exact hkept

/-- Three entries, the second of them empty. -/
def emptyBetween : List AesdBufferEntry := [⟨some 1, 2⟩, ⟨some 2, 0⟩, ⟨some 3, 1⟩]

theorem emptyBetween_searched :
    ∃ buffer out, emptyBetween.foldlM aesdCircularBufferAddEntry aesdCircularBufferInit =
        some buffer ∧
      (∀ fuel, 10 ≤ fuel →
        aesdCircularBufferFindEntryOffsetForFposWithin fuel buffer 2 7 = some out) ∧
      PositionSearch buffer (emptyBetween.rtake 10) 2 7 out :=
  position_search_exact emptyBetween (by decide) 2 7

end Aesd.Driver
