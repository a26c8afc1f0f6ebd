/-
  Aesd.Driver.Ownership

  Who owns the buffers.  A buffer belongs to a place of the device, a ring
  slot or the pending entry (`Owner`).  In every reachable state the live
  buffers are exactly those that some place points to, and no two places
  point to the same one, so unloading the module frees each of them once.

  The representation already lists the live buffers (`RepAt.owned`); what is
  shown here is that its list and the ten slots of the array are the same,
  slot by slot.
-/
import Aesd.Driver.System

namespace Aesd.Driver

open Aesd.Lib

/-! ## Owners -/

/-- A place of the device that may own a buffer. -/
inductive Owner where
  | slot (i : Fin AESDCHAR_MAX_WRITE_OPERATIONS_SUPPORTED)
  | current
  deriving DecidableEq, Repr

/-- The pointer at a place. -/
def AesdDev.buffptr (d : AesdDev) : Owner → Option Ptr
  | .slot i => d.circularBuffer.entry[i].buffptr
  | .current => d.currentEntry.buffptr

/-- The live buffers are those that a place points to, and each has one place. -/
structure BuffersOwned (s : DriverState) : Prop where
  live_iff : ∀ p, s.heap.block p ≠ none ↔ ∃ o, s.device.buffptr o = some p
  owner_unique : ∀ p o o', s.device.buffptr o = some p → s.device.buffptr o' = some p → o = o'

/-- The pointers that `aesd_cleanup_module` frees, in its order. -/
def AesdDev.freed (d : AesdDev) : List Ptr :=
  d.circularBuffer.entry.toList.filterMap (·.buffptr) ++ d.currentEntry.buffptr.toList

/-! ## The representation, slot by slot -/

section Slots

variable {K : Kernel} {s : DriverState} {J : Journal Byte}
variable {es : List AesdBufferEntry} {ws : List (Ptr × List Byte)}

/-- The pointer of the window's entry `j` is in the slot `j` steps from `out_offs`. -/
theorem RepAt.slot_of_name (h : RepAt K s J es ws) {j : Nat} {p : Ptr}
    (hp : (ws.map Prod.fst)[j]? = some p) :
    ∃ i, s.device.buffptr (.slot i) = some p := by
  rw [List.getElem?_map] at hp
  obtain ⟨w, hw, rfl⟩ := Option.map_eq_some_iff.mp hp
  have hwin : (es.rtake 10)[j]? = some (ownedEntry w) := by
    rw [h.window, List.getElem?_map, hw]
    rfl
  obtain ⟨hlt, heq⟩ := Vector.getElem?_eq_some_iff.mp (h.added.entry_eq hwin)
  refine ⟨⟨_, hlt⟩, ?_⟩
  show (s.device.circularBuffer.entry[(s.device.circularBuffer.outOffs + j) % 10]).buffptr = _
  rw [heq]
  rfl

/-- A pointer in a slot is that of an entry of the window, as many steps from `out_offs`. -/
theorem RepAt.name_of_slot (h : RepAt K s J es ws) {p : Ptr}
    {i : Fin AESDCHAR_MAX_WRITE_OPERATIONS_SUPPORTED}
    (hp : s.device.buffptr (.slot i) = some p) :
    ∃ j, (ws.map Prod.fst)[j]? = some p ∧ (s.device.circularBuffer.outOffs + j) % 10 = i := by
  have hi : i.val < 10 := i.isLt
  have hout := h.added.outOffs_lt
  obtain ⟨j, hj, hji⟩ : ∃ j, j < 10 ∧ (s.device.circularBuffer.outOffs + j) % 10 = i :=
    ⟨(i + 10 - s.device.circularBuffer.outOffs) % 10, by omega, by omega⟩
  have hget : s.device.circularBuffer.entry[i.val]? = some s.device.circularBuffer.entry[i] :=
    Vector.getElem?_eq_getElem hi
  rw [← hji] at hget
  refine ⟨j, ?_, hji⟩
  cases hw : ws[j]? with
  | some w =>
    have hwin : (es.rtake 10)[j]? = some (ownedEntry w) := by
      rw [h.window, List.getElem?_map, hw]
      rfl
    rw [h.added.entry_eq hwin] at hget
    rw [AesdDev.buffptr, ← Option.some.inj hget] at hp
    rw [List.getElem?_map, hw]
    exact hp
  | none =>
    -- behind the window every slot is as `memset` left it
    have hlen : es.length ≤ j := by
      have hle := List.getElem?_eq_none_iff.mp hw
      rw [← List.length_map ownedEntry, ← h.window, length_rtake] at hle
      omega
    rw [h.added.outOffs_eq, h.added.slots.walk_rest hlen hj] at hget
    rw [AesdDev.buffptr, ← Option.some.inj hget] at hp
    cases hp

/-- The names in the representation's list of owners. -/
theorem owners_fst (cur : AesdBufferEntry) (P : List Byte) (ws : List (Ptr × List Byte)) :
    (curOwner cur P ++ ws).map Prod.fst = cur.buffptr.toList ++ ws.map Prod.fst := by
  rw [List.map_append, curOwner]
  cases cur.buffptr <;> rfl

theorem RepAt.live_iff (h : RepAt K s J es ws) (p : Ptr) :
    s.heap.block p ≠ none ↔ ∃ o, s.device.buffptr o = some p := by
  rw [h.owned.block_ne_none_iff, owners_fst, List.mem_append, Option.mem_toList]
  refine ⟨?_, ?_⟩
  · rintro (hcur | hws)
    · exact ⟨.current, hcur⟩
    · obtain ⟨j, hj⟩ := List.getElem?_of_mem hws
      obtain ⟨i, hi⟩ := h.slot_of_name hj
      exact ⟨.slot i, hi⟩
  · rintro ⟨o, ho⟩
    cases o with
    | current => exact .inl ho
    | slot i =>
      obtain ⟨j, hj, -⟩ := h.name_of_slot ho
      exact .inr (List.mem_of_getElem? hj)

theorem RepAt.owner_unique (h : RepAt K s J es ws) (p : Ptr) (o o' : Owner)
    (ho : s.device.buffptr o = some p) (ho' : s.device.buffptr o' = some p) : o = o' := by
  -- no name is twice in the list of owners
  have hnodup := h.owned.nodup
  rw [owners_fst] at hnodup
  obtain ⟨-, hws, hdisj⟩ := List.nodup_append.mp hnodup
  have hcross : ∀ i, s.device.buffptr (.slot i) = some p →
      s.device.buffptr .current ≠ some p := by
    intro i hi hcur
    obtain ⟨j, hj, -⟩ := h.name_of_slot hi
    exact hdisj p (Option.mem_toList.mpr hcur) p (List.mem_of_getElem? hj) rfl
  cases o with
  | current =>
    cases o' with
    | current => rfl
    | slot i' => exact absurd ho (hcross i' ho')
  | slot i =>
    cases o' with
    | current => exact absurd ho' (hcross i ho)
    | slot i' =>
      obtain ⟨j, hj, hji⟩ := h.name_of_slot ho
      obtain ⟨j', hj', hji'⟩ := h.name_of_slot ho'
      have hlt := (List.getElem?_eq_some_iff.mp hj).1
      obtain rfl := (List.getElem?_inj hlt hws).mp (hj.trans hj'.symm)
      rw [Fin.ext (hji.symm.trans hji')]

end Slots

theorem Rep.buffersOwned {K : Kernel} {s : DriverState} {J : Journal Byte} (hR : Rep K s J) :
    BuffersOwned s := by
  obtain ⟨es, ws, h⟩ := hR
  exact ⟨h.live_iff, h.owner_unique⟩

/-! ## Unloading the module -/

/-- A pointer is freed exactly if some place holds it. -/
theorem AesdDev.mem_freed_iff (d : AesdDev) (p : Ptr) :
    p ∈ d.freed ↔ ∃ o, d.buffptr o = some p := by
  rw [AesdDev.freed, List.mem_append, Option.mem_toList, List.mem_filterMap]
  refine ⟨?_, ?_⟩
  · rintro (⟨e, he, hp⟩ | hcur)
    · obtain ⟨i, hi, rfl⟩ := List.getElem_of_mem he
      rw [Vector.length_toList] at hi
      exact ⟨.slot ⟨i, hi⟩, hp⟩
    · exact ⟨.current, hcur⟩
  · rintro ⟨o, ho⟩
    cases o with
    | current => exact .inr ho
    | slot i => exact .inl ⟨_, Vector.mem_toList_iff.mpr (Vector.getElem_mem i.isLt), ho⟩

/-- Where the places hold different pointers, none is freed twice. -/
theorem AesdDev.freed_nodup {d : AesdDev}
    (h : ∀ p o o', d.buffptr o = some p → d.buffptr o' = some p → o = o') : d.freed.Nodup := by
  rw [AesdDev.freed, List.nodup_append]
  refine ⟨?_, ?_, ?_⟩
  · -- two slots
    rw [List.Nodup, List.pairwise_filterMap, List.pairwise_iff_getElem]
    intro i j hi hj hij p hp q hq heq
    rw [Vector.length_toList] at hi hj
    have hsame := h p (.slot ⟨i, hi⟩) (.slot ⟨j, hj⟩) hp (heq ▸ hq)
    exact absurd (congrArg Fin.val (Owner.slot.inj hsame)) (Nat.ne_of_lt hij)
  · cases d.currentEntry.buffptr <;> simp
  · -- a slot and the pending entry
    intro p hp q hq heq
    obtain ⟨e, he, hp⟩ := List.mem_filterMap.mp hp
    obtain ⟨i, hi, rfl⟩ := List.getElem_of_mem he
    rw [Vector.length_toList] at hi
    have hcur : d.buffptr .current = some p := heq ▸ Option.mem_toList.mp hq
    cases h p (.slot ⟨i, hi⟩) .current hp hcur

/-- The loop over the slots frees their pointers in order. -/
theorem foldlM_kfree (heap : Heap Byte) (l : List AesdBufferEntry) :
    l.foldlM (fun heap entry =>
        if entry.buffptr ≠ none then kfree heap entry.buffptr else some heap) heap =
      heap.freeAll (l.filterMap (·.buffptr)) := by
  induction l generalizing heap with
  | nil => rfl
  | cons e l ih =>
    rw [List.foldlM_cons]
    cases he : e.buffptr with
    | none =>
      rw [List.filterMap_cons_none he, if_neg (by simp)]
      exact ih heap
    | some p =>
      rw [List.filterMap_cons_some he, if_pos (Option.some_ne_none p), kfree, Heap.freeAll,
        List.foldlM_cons]
      congr 1
      funext heap'
      exact ih heap'

theorem aesdCleanupModule_eq (s : DriverState) :
    aesdCleanupModule s = s.heap.freeAll s.device.freed := by
  rw [aesdCleanupModule, aesdCircularBufferForeach, foldlM_kfree, AesdDev.freed, Heap.freeAll,
    Heap.freeAll, List.foldlM_append]
  congr 1
  funext heap
  cases s.device.currentEntry.buffptr with
  | none => rfl
  | some p =>
    show heap.free p = (heap.free p).bind some
    exact (Option.bind_fun_some _).symm

/-- Unloading frees every live buffer, each once, and nothing else. -/
theorem BuffersOwned.cleanup {s : DriverState} (h : BuffersOwned s) :
    ∃ heap, aesdCleanupModule s = some heap ∧ (∀ p, heap.block p = none) ∧
      s.device.freed.Nodup ∧ ∀ p, p ∈ s.device.freed ↔ s.heap.block p ≠ none := by
  have hmem : ∀ p, p ∈ s.device.freed ↔ s.heap.block p ≠ none := fun p =>
    (s.device.mem_freed_iff p).trans (h.live_iff p).symm
  have hnodup := AesdDev.freed_nodup h.owner_unique
  obtain ⟨heap, hfree, hblock⟩ := Heap.freeAll_eq_some hnodup fun p hp => (hmem p).mp hp
  refine ⟨heap, (aesdCleanupModule_eq s).trans hfree, fun p => ?_, hnodup, hmem⟩
  rw [hblock p]
  split
  · rfl
  · exact Classical.not_not.mp fun hne => absurd ((hmem p).mpr hne) ‹_›

/-! ## A freed buffer stays freed -/

section Later

variable {K : Kernel} {env : CallEnv} {s s' : DriverState} {heap heap' : Heap Byte}

theorem kfree_later {p : Option Ptr} (h : kfree heap p = some heap') : heap.Later heap' := by
  cases p with
  | none =>
    obtain rfl := Option.some.inj h
    exact Heap.Later.refl heap
  | some p => exact Heap.later_free h

theorem moveCurrent_later {tempBuff : Ptr} {cur : AesdBufferEntry}
    (h : moveCurrent heap tempBuff cur = some heap') : heap.Later heap' := by
  unfold moveCurrent at h
  cases hc : cur.buffptr with
  | none =>
    rw [hc] at h
    obtain rfl := Option.some.inj h
    exact Heap.Later.refl heap
  | some old =>
    simp only [hc, Option.bind_eq_bind, Option.bind_eq_some_iff] at h
    obtain ⟨bytes, -, heap₁, hstore, hfree⟩ := h
    exact (Heap.later_store hstore).trans (Heap.later_free hfree)

theorem copyFromUser_later {dst : Ptr} {off left : Nat} {buf : List Byte}
    (h : copyFromUser env heap dst off buf = some (left, heap')) : heap.Later heap' := by
  simp only [copyFromUser, Option.bind_eq_bind, Option.bind_eq_some_iff, Option.pure_def] at h
  obtain ⟨heap₁, hstore, heq⟩ := h
  obtain ⟨-, rfl⟩ := Prod.mk.inj (Option.some.inj heq)
  exact Heap.later_store hstore

theorem commitCurrent_later (h : commitCurrent s = some s') : s.heap.Later s'.heap := by
  unfold commitCurrent at h
  simp only [Option.bind_eq_bind, Option.pure_def] at h
  split at h
  · -- a full ring: only the evicted buffer is freed
    simp only [Option.bind_eq_some_iff] at h
    obtain ⟨evicted, -, heap₁, hfree, buffer, -, heq⟩ := h
    obtain rfl := Option.some.inj heq
    exact kfree_later hfree
  · simp only [Option.bind_eq_some_iff] at h
    obtain ⟨heap₁, hsame, buffer, -, heq⟩ := h
    obtain rfl := Option.some.inj heq
    obtain rfl := Option.some.inj hsame
    exact Heap.Later.refl _

theorem advanceCurrent_later {tempBuff : Ptr} {count : Nat}
    (h : advanceCurrent s tempBuff count = some s') : s.heap.Later s'.heap := by
  simp only [advanceCurrent, Option.bind_eq_bind, Option.bind_eq_some_iff] at h
  obtain ⟨last, -, hlast⟩ := h
  split at hlast
  · have hcommit := commitCurrent_later hlast
    exact hcommit
  · obtain rfl := Option.some.inj hlast
    exact Heap.Later.refl _

theorem afterCopy_later {err ret : Int} {tempBuff : Ptr} {count : Nat}
    (h : afterCopy s err tempBuff count = some (ret, s')) : s.heap.Later s'.heap := by
  unfold afterCopy at h
  split at h
  · obtain ⟨-, rfl⟩ := Prod.mk.inj (Option.some.inj h)
    exact Heap.Later.refl _
  · simp only [Option.bind_eq_bind, Option.bind_eq_some_iff, Option.pure_def] at h
    obtain ⟨s₁, hadvance, heq⟩ := h
    obtain ⟨-, rfl⟩ := Prod.mk.inj (Option.some.inj heq)
    have hlater := advanceCurrent_later hadvance
    exact hlater

theorem lock_heap {err : Int} (h : mutexLockInterruptible env s = some (err, s')) :
    s'.heap = s.heap := by
  unfold mutexLockInterruptible at h
  split at h
  · obtain ⟨-, rfl⟩ := Prod.mk.inj (Option.some.inj h)
    rfl
  · split at h
    · cases h
    · obtain ⟨-, rfl⟩ := Prod.mk.inj (Option.some.inj h)
      rfl

theorem aesdWrite_later {ret : Int} {buf : List Byte}
    (h : aesdWrite K env s buf = some (ret, s')) : s.heap.Later s'.heap := by
  simp only [aesdWrite, Option.bind_eq_bind, Option.bind_eq_some_iff, Prod.exists] at h
  obtain ⟨err, s₁, hlock, h⟩ := h
  rw [← lock_heap hlock]
  split at h
  · obtain ⟨-, rfl⟩ := Prod.mk.inj (Option.some.inj h)
    exact Heap.Later.refl _
  · split at h
    · obtain ⟨-, rfl⟩ := Prod.mk.inj (Option.some.inj h)
      exact Heap.Later.refl _
    · rename_i tempBuff heap₁ halloc
      simp only [kmalloc] at halloc
      split at halloc
      · obtain ⟨rfl, rfl⟩ := Prod.mk.inj (Option.some.inj halloc)
        simp only [Option.bind_eq_some_iff, Prod.exists] at h
        obtain ⟨heap₂, hmove, left, heap₃, hcopy, hafter⟩ := h
        exact (Heap.later_alloc _ _).trans ((moveCurrent_later hmove).trans
          ((copyFromUser_later hcopy).trans (afterCopy_later hafter)))
      · cases halloc

end Later

/-- A call brings no freed buffer back: the three others leave the memory alone. -/
theorem step_later {K : Kernel} {s s' : System} {a : AbsSystem} {c : Call} {o : Answer}
    (hR : SystemRep K s a) (h : step K s c = some (o, s')) :
    s.driver.heap.Later s'.driver.heap := by
  obtain ⟨request, env⟩ := c
  cases request with
  | write f buf =>
    obtain ⟨⟨ret, t⟩, hwrite, heq⟩ := Option.map_eq_some_iff.mp h
    obtain ⟨-, rfl⟩ := Prod.mk.inj heq
    exact aesdWrite_later hwrite
  | read f count =>
    have hpos := hR.isPos f
    have hread := aesdRead_refines env hR.driver count.val hpos.1 hpos.2
    simp only [step, hR.fPos_eq, hread, Option.map_some, Option.some.injEq, Prod.mk.injEq] at h
    rw [← h.2]
    exact Heap.Later.refl _
  | llseek f offset whence =>
    have hseek := aesdLlseek_refines env hR.driver (a.fPos f) offset whence
    simp only [step, hR.fPos_eq, hseek, Option.map_some, Option.some.injEq, Prod.mk.injEq] at h
    rw [← h.2]
    exact Heap.Later.refl _
  | ioctl f cmd arg =>
    have hioctl := aesdUnlockedIoctl_refines env hR.driver (a.fPos f) cmd arg
    simp only [step, hR.fPos_eq, hioctl, Option.map_some, Option.some.injEq, Prod.mk.injEq] at h
    rw [← h.2]
    exact Heap.Later.refl _

/-- Nor does any number of them. -/
theorem run_later {K : Kernel} {calls : List Call} {outs : List Answer} {s t : System}
    {a : AbsSystem} (hR : SystemRep K s a) (hrun : run (step K) s calls = some (outs, t)) :
    s.driver.heap.Later t.driver.heap := by
  have hinv := run_inv (I := fun u => s.driver.heap.Later u.driver.heap ∧ ∃ b, SystemRep K u b)
    (fun u c o u' hu hstep => by
      obtain ⟨hlater, b, hb⟩ := hu
      obtain ⟨-, -, hb'⟩ := step_follows hb hstep
      exact ⟨hlater.trans (step_later hb hstep), _, hb'⟩)
    ⟨Heap.Later.refl _, a, hR⟩ hrun
  exact hinv.1

/-! ## Every run -/

/-- Every run of defined calls goes through, so no pointer is freed twice in
    it; it ends with every live buffer in exactly one place; a buffer freed at
    some point of it is not live at its end; and unloading the module then
    frees all that is live, each buffer once. -/
theorem run_buffers_owned {K : Kernel} {calls : List Call}
    (hall : Allowed (absStep K) (Defined K) .init calls) :
    ∃ outs s, run (step K) .init calls = some (outs, s) ∧ BuffersOwned s.driver ∧
      (∀ pre post outs' t, pre ++ post = calls → run (step K) .init pre = some (outs', t) →
        ∀ p, p < t.driver.heap.next → t.driver.heap.block p = none →
          s.driver.heap.block p = none) ∧
      ∃ heap, aesdCleanupModule s.driver = some heap ∧ (∀ p, heap.block p = none) ∧
        s.driver.device.freed.Nodup ∧
        ∀ p, p ∈ s.driver.device.freed ↔ s.driver.heap.block p ≠ none := by
  obtain ⟨s, hrun, hrep⟩ := run_defined hall
  have howned := hrep.driver.buffersOwned
  refine ⟨_, s, hrun, howned, ?_, howned.cleanup⟩
  rintro pre post outs' t rfl hpre
  obtain ⟨t', _, _, hpre', hpost, -⟩ := run_append_eq_some.mp hrun
  obtain ⟨-, rfl⟩ := Prod.mk.inj (Option.some.inj (hpre.symm.trans hpre'))
  obtain ⟨-, -, hrep'⟩ := run_refines hpre
  exact (run_later hrep' hpost).dead

/-- A line committed, a write that fails in its copy, one without memory, and a read. -/
def mixedCalls : List Call :=
  [⟨.write 0 (vfsBuf [97, newline]), .calm⟩, ⟨.write 0 (vfsBuf [98]), ⟨false, false, 1⟩⟩,
    ⟨.write 0 (vfsBuf [99]), ⟨false, true, 0⟩⟩, ⟨.read 1 (vfsCount 8), .calm⟩]

theorem mixedCalls_owned :
    ∃ outs s, run (step .page) .init mixedCalls = some (outs, s) ∧ BuffersOwned s.driver ∧
      ∃ heap, aesdCleanupModule s.driver = some heap ∧ ∀ p, heap.block p = none := by
  have hall : Allowed (absStep .page) (Defined .page) .init mixedCalls := by
    simp [mixedCalls, Allowed, Defined, NoLastByte]
  obtain ⟨outs, s, hrun, howned, -, heap, hclean, hdead, -⟩ := run_buffers_owned hall
  exact ⟨outs, s, hrun, howned, heap, hclean, hdead⟩

end Aesd.Driver
