/-
  Aesd.Driver.Refinement

  The driver refines the abstract device.  `Rep K s J` says that the driver
  state `s` stands for the journal `J`; for each file operation one theorem
  says that, from such a state, the operation is defined, answers what the
  abstract one answers, and leads to a state that stands for the abstract
  next one.  Everything later about whole runs only uses these four theorems.

  The heap is followed through its owners: the pending buffer, if there is
  one, and the buffers of the window.
-/
import Mathlib.Tactic.Ring
import Mathlib.Tactic.NormNum
import Mathlib.Data.List.Flatten
import Aesd.Driver.Abstract

namespace Aesd.Driver

open Aesd.Lib

/-! ## The representation -/

/-- The ring entry for a buffer that holds exactly `x.2`. -/
def ownedEntry (x : Ptr × List Byte) : AesdBufferEntry := ⟨some x.1, x.2.length⟩

/-- The owner of the pending buffer, if one is allocated. -/
def curOwner (cur : AesdBufferEntry) (P : List Byte) : List (Ptr × List Byte) :=
  cur.buffptr.toList.map fun p => (p, P)

/-- `cur` is the pending entry of a device whose pending text is `P`. -/
structure HoldsPending (cur : AesdBufferEntry) (P : List Byte) : Prop where
  size_eq : cur.size = P.length
  null : cur.buffptr = none → P = []

/-- `s` stands for `J`: `es` are all the entries ever added to the ring, and
    `ws` the buffers of the last ten with their bytes. -/
structure RepAt (K : Kernel) (s : DriverState) (J : Journal Byte) (es : List AesdBufferEntry)
    (ws : List (Ptr × List Byte)) : Prop where
  unlocked : s.device.deviceMutex = false
  wellFormed : J.WellFormed isNewline
  added : s.device.circularBuffer.Added es
  length_eq : es.length = J.entries.length
  window : es.rtake 10 = ws.map ownedEntry
  texts : ws.map Prod.snd = committed J
  pending : HoldsPending s.device.currentEntry J.pending
  owned : s.heap.Owned (curOwner s.device.currentEntry J.pending ++ ws)
  entries_small : ∀ e ∈ J.entries, e.length ≤ K.kmallocMax
  pending_small : J.pending.length ≤ K.kmallocMax

/-- `s` stands for `J`. -/
def Rep (K : Kernel) (s : DriverState) (J : Journal Byte) : Prop := ∃ es ws, RepAt K s J es ws

theorem holdsPending_zero : HoldsPending .zero [] := ⟨rfl, fun _ => rfl⟩

/-- A freshly loaded module stands for the empty journal. -/
theorem rep_init (K : Kernel) : Rep K aesdInitModule .empty := by
  refine ⟨[], [], ?_⟩
  exact {
    unlocked := rfl
    wellFormed := Journal.wellFormed_empty
    added := AesdCircularBuffer.added_init
    length_eq := rfl
    window := rfl
    texts := rfl
    pending := holdsPending_zero
    owned := Heap.owned_empty
    entries_small := fun _ he => absurd he List.not_mem_nil
    pending_small := Nat.zero_le _ }

variable {K : Kernel} {s : DriverState} {J : Journal Byte}
variable {es : List AesdBufferEntry} {ws : List (Ptr × List Byte)}

/-! ## The mutex -/

theorem lock_interrupted {env : CallEnv} (h : env.interrupted = true) :
    mutexLockInterruptible env s = some (-EINTR, s) := by
  rw [mutexLockInterruptible, if_pos h]

theorem lock_free {env : CallEnv} (h : env.interrupted = false)
    (hfree : s.device.deviceMutex = false) :
    mutexLockInterruptible env s =
      some (0, { s with device := { s.device with deviceMutex := true } }) := by
  rw [mutexLockInterruptible, if_neg (by simp [h]), if_neg (by simp [hfree])]

theorem unlock_lock (hfree : s.device.deviceMutex = false) :
    mutexUnlock { s with device := { s.device with deviceMutex := true } } = s := by
  rw [mutexUnlock, ← hfree]

/-! ## `aesd_write` -/

/-- Moving the pending bytes to a new buffer: the old one is gone, the new one
    holds them and has room for `n` more. -/
theorem moveCurrent_spec {heap : Heap Byte} {cur : AesdBufferEntry} {P : List Byte}
    {xs : List (Ptr × List Byte)} (n : Nat) (hP : HoldsPending cur P)
    (ho : heap.Owned (curOwner cur P ++ xs)) :
    ∃ heap', moveCurrent (heap.alloc (P.length + n)).2 heap.next cur = some heap' ∧
      heap'.Owned ((heap.next, P) :: xs) ∧
      heap'.block heap.next = some (P.map some ++ List.replicate n none) := by
  have halloc := ho.alloc (P.length + n)
  have hself := heap.alloc_block_self (P.length + n)
  cases hc : cur.buffptr with
  | none =>
    obtain rfl := hP.null hc
    rw [curOwner, hc] at halloc
    refine ⟨_, by rw [moveCurrent, hc], halloc, ?_⟩
    simpa using hself
  | some old =>
    have howner : curOwner cur P = [(old, P)] := by rw [curOwner, hc]; rfl
    rw [howner, List.singleton_append] at halloc
    -- the old buffer has an owner, and the allocator hands out nothing owned
    have hne : heap.next ≠ old := fun heq => by
      have hnodup := halloc.nodup
      simp [heq] at hnodup
    have hload : (heap.alloc (P.length + n)).2.load old 0 cur.size = some P := by
      have hstart := halloc.startsWith (old, P) (by simp)
      rw [hP.size_eq, hstart.load (by simp), List.drop_zero, List.take_length]
    have hstore := Heap.store_eq [] P hself (Nat.le_add_right _ n)
    simp only [List.length_nil, List.nil_append, Nat.add_sub_cancel_left] at hstore
    -- the new buffer now owns the text, so that the old one can be freed
    have hset := halloc.setBlock P (List.replicate n none)
    obtain ⟨hfree, hfreed⟩ := (hset.perm (List.Perm.swap _ _ _)).free
    refine ⟨_, ?_, hfreed, ?_⟩
    · rw [moveCurrent, hc]
      simp only [hload, hstore, Option.bind_eq_bind, Option.bind_some]
      exact hfree
    · rw [Heap.setBlock_block_of_ne _ _ hne, Heap.setBlock_block_self]

/-- The bytes that the kernel leaves behind the pending ones. -/
def landed (env : CallEnv) (buf : List Byte) : List Byte :=
  buf.take (buf.length - min env.uncopied buf.length) ++
    List.replicate (min env.uncopied buf.length) 0

theorem landed_length (env : CallEnv) (buf : List Byte) : (landed env buf).length = buf.length := by
  rw [landed, List.length_append, List.length_take, List.length_replicate]
  omega

theorem landed_of_copied {env : CallEnv} {buf : List Byte} (h : min env.uncopied buf.length = 0) :
    landed env buf = buf := by
  rw [landed, h, List.replicate_zero, List.append_nil, Nat.sub_zero, List.take_length]

/-- Copying the user's bytes behind the pending ones. -/
theorem copyFromUser_spec {heap : Heap Byte} {p : Ptr} {P : List Byte}
    {xs : List (Ptr × List Byte)} (env : CallEnv) (buf : List Byte)
    (ho : heap.Owned ((p, P) :: xs))
    (hb : heap.block p = some (P.map some ++ List.replicate buf.length none)) :
    ∃ heap', copyFromUser env heap p P.length buf = some (min env.uncopied buf.length, heap') ∧
      heap'.Owned ((p, P ++ landed env buf) :: xs) ∧
      heap'.block p = some ((P ++ landed env buf).map some) := by
  have hstore := Heap.store_eq P (landed env buf) hb (Nat.le_of_eq (landed_length env buf))
  have howned := ho.setBlock (P ++ landed env buf)
    (List.replicate (buf.length - (landed env buf).length) none)
  refine ⟨_, ?_, howned, ?_⟩
  · rw [landed] at hstore
    simp only [copyFromUser, Option.bind_eq_bind, hstore, Option.bind_some, landed]
    rfl
  · rw [Heap.setBlock_block_self, landed_length, Nat.sub_self, List.replicate_zero, List.append_nil]

/-- Committing the pending entry: the ring takes it over, and its oldest
    buffer is freed if it was full. -/
theorem commitCurrent_spec {x : Ptr × List Byte}
    (hadd : s.device.circularBuffer.Added es) (hwin : es.rtake 10 = ws.map ownedEntry)
    (hcur : s.device.currentEntry = ownedEntry x) (ho : s.heap.Owned (x :: ws)) :
    ∃ buffer heap,
      commitCurrent s = some
        { device := { circularBuffer := buffer, currentEntry := .zero,
                      deviceMutex := s.device.deviceMutex }, heap } ∧
      buffer.Added (es ++ [ownedEntry x]) ∧ heap.Owned ((ws ++ [x]).rtake 10) := by
  obtain ⟨buffer, hbuf, hadded⟩ := hadd.addEntry (ownedEntry x)
  have hlen : ws.length = min 10 es.length := by
    rw [← List.length_map ownedEntry, ← hwin, length_rtake]
  by_cases hfull : 10 ≤ es.length
  · obtain ⟨w, ws', rfl⟩ : ∃ w ws', ws = w :: ws' := by
      cases ws with
      | nil => simp only [List.length_nil] at hlen; omega
      | cons w ws' => exact ⟨w, ws', rfl⟩
    -- in a full ring the slot at `in_offs` holds the oldest entry of the window
    have hslot : s.device.circularBuffer.entry[s.device.circularBuffer.inOffs]?
        = some (ownedEntry w) := by
      rw [hadd.inOffs_eq]
      exact hadd.slots.oldest (by decide) hfull (by rw [hwin]; rfl)
    obtain ⟨hfree, hfreed⟩ := (ho.perm (List.Perm.swap _ _ _)).free
    refine ⟨buffer, s.heap.setBlock w.1 none, ?_, hadded, ?_⟩
    · rw [commitCurrent, hadd.full_eq, hcur]
      simp only [hfull, decide_true, if_true, hslot, ownedEntry, kfree, Option.bind_eq_bind,
        Option.bind_some, hfree]
      rw [ownedEntry] at hbuf
      rw [hbuf]
      rfl
    · rw [rtake_append_singleton_of_full (by omega), List.tail_cons]
      exact hfreed.perm (List.perm_append_singleton x ws').symm
  · -- a ring with room: nothing is freed
    refine ⟨buffer, s.heap, ?_, hadded, ?_⟩
    · rw [commitCurrent, hadd.full_eq, hcur]
      simp only [hfull, decide_false, if_false, Bool.false_eq_true, Option.bind_eq_bind,
        Option.bind_some, hbuf]
      rfl
    · rw [rtake_append_singleton_of_room (by omega)]
      exact ho.perm (List.perm_append_singleton x ws).symm

/-- The last byte, read at `size - 1`. -/
theorem last_eq_newline_iff {t : List Byte} (ht : t ≠ []) :
    (t.drop (t.length - 1)).take 1 = [newline] ↔ Journal.ends isNewline t = true := by
  obtain ⟨t', x, rfl⟩ := List.eq_nil_or_concat t |>.resolve_left ht
  have hdrop : (t' ++ [x]).drop ((t' ++ [x]).length - 1) = [x] := by
    rw [List.length_append, List.length_singleton, Nat.add_sub_cancel, List.drop_left]
  rw [List.concat_eq_append, hdrop, Journal.ends_append_singleton, isNewline, beq_iff_eq]
  simp

/-- The size of a granted request does not wrap. -/
theorem granted_size {env : CallEnv} {n : Nat} (h : K.grants env n = true) :
    n % 2 ^ 64 = n := by
  have hle := Kernel.le_of_grants h
  have hlt := K.kmallocMax_lt
  omega

theorem left_toInt {env : CallEnv} {n : Nat} (hn : n ≤ MAX_RW_COUNT) :
    toInt (min env.uncopied n : Nat) = (min env.uncopied n : Nat) := by
  rw [MAX_RW_COUNT] at hn
  exact toInt_of_lt (by omega) (by omega)

/-- A failed user copy leaves a longer buffer with the same pending text. -/
theorem RepAt.afterFault (h : RepAt K s J es ws) {p : Ptr}
    {heap : Heap Byte} {u : List Byte} (ho : heap.Owned ((p, J.pending ++ u) :: ws)) :
    RepAt K { device := { s.device with
                currentEntry := { s.device.currentEntry with buffptr := some p } }, heap }
      J es ws :=
  { unlocked := h.unlocked
    wellFormed := h.wellFormed
    added := h.added
    length_eq := h.length_eq
    window := h.window
    texts := h.texts
    pending := ⟨h.pending.size_eq, fun hnull => by cases hnull⟩
    owned := ho.shorten
    entries_small := h.entries_small
    pending_small := h.pending_small }

/-- A successful write that does not end a line. -/
theorem RepAt.afterPending (h : RepAt K s J es ws) {p : Ptr}
    {heap : Heap Byte} {b : List Byte} (ho : heap.Owned ((p, J.pending ++ b) :: ws))
    (hends : Journal.ends isNewline (J.pending ++ b) = false)
    (hsmall : (J.pending ++ b).length ≤ K.kmallocMax) :
    RepAt K { device := { s.device with currentEntry := ownedEntry (p, J.pending ++ b) }, heap }
      (J.append isNewline b) es ws := by
  rw [Journal.append_of_not_ends hends]
  exact {
    unlocked := h.unlocked
    wellFormed := ⟨h.wellFormed.entries_end, hends⟩
    added := h.added
    length_eq := h.length_eq
    window := h.window
    texts := h.texts
    pending := ⟨rfl, fun hnull => by cases hnull⟩
    owned := ho
    entries_small := h.entries_small
    pending_small := hsmall }

/-- A successful write that ends a line, after `commitCurrent`. -/
theorem RepAt.afterCommit (h : RepAt K s J es ws) {p : Ptr}
    {heap : Heap Byte} {buffer : AesdCircularBuffer} {b : List Byte}
    (hadd : buffer.Added (es ++ [ownedEntry (p, J.pending ++ b)]))
    (ho : heap.Owned ((ws ++ [(p, J.pending ++ b)]).rtake 10))
    (hends : Journal.ends isNewline (J.pending ++ b) = true)
    (hsmall : (J.pending ++ b).length ≤ K.kmallocMax) :
    RepAt K { device := { circularBuffer := buffer, currentEntry := .zero, deviceMutex := false },
              heap }
      (J.append isNewline b) (es ++ [ownedEntry (p, J.pending ++ b)])
      ((ws ++ [(p, J.pending ++ b)]).rtake 10) := by
  have hwf := h.wellFormed.append b
  rw [Journal.append_of_ends hends] at hwf ⊢
  exact {
    unlocked := rfl
    wellFormed := hwf
    added := hadd
    length_eq := by rw [List.length_append, List.length_append, h.length_eq]; rfl
    window := by
      rw [rtake_append_singleton, h.window, map_rtake, List.map_append]
      rfl
    texts := by
      rw [map_rtake, List.map_append, h.texts]
      exact (rtake_append_singleton J.entries 10 _).symm
    pending := holdsPending_zero
    owned := ho
    entries_small := by
      intro e he
      rcases List.mem_append.mp he with he | he
      · exact h.entries_small e he
      · rw [List.mem_singleton.mp he]
        exact hsmall
    pending_small := Nat.zero_le _ }

/-- Counting the new bytes: they join the pending text, or complete an entry. -/
theorem advanceCurrent_spec (h : RepAt K s J es ws) {p : Ptr}
    {heap : Heap Byte} {b : List Byte} (ho : heap.Owned ((p, J.pending ++ b) :: ws))
    (hne : J.pending ++ b ≠ []) (hsmall : (J.pending ++ b).length ≤ K.kmallocMax) :
    ∃ s', advanceCurrent
        { device := { s.device with
            currentEntry := ⟨some p, J.pending.length⟩, deviceMutex := true }, heap }
        p b.length = some s' ∧ Rep K (mutexUnlock s') (J.append isNewline b) := by
  have hK := K.kmallocMax_lt
  have hsize : (J.pending.length + b.length) % 2 ^ 64 = (J.pending ++ b).length := by
    rw [List.length_append] at hsmall ⊢
    omega
  have hload : heap.load p (toSizeT (((J.pending ++ b).length : Int) - 1)) 1 =
      some (((J.pending ++ b).drop ((J.pending ++ b).length - 1)).take 1) := by
    have hpos := List.length_pos_of_ne_nil hne
    -- the text has a last byte, so the index does not wrap
    have hindex : toSizeT (((J.pending ++ b).length : Int) - 1) = (J.pending ++ b).length - 1 := by
      rw [toSizeT_of_lt (by omega) (by omega)]
      omega
    have hstart : heap.StartsWith p (J.pending ++ b) := ho.startsWith _ List.mem_cons_self
    rw [hindex]
    exact hstart.load (by omega)
  simp only [advanceCurrent, hsize, hload, Option.bind_eq_bind, Option.bind_some]
  cases hends : Journal.ends isNewline (J.pending ++ b) with
  | true =>
    rw [if_pos ((last_eq_newline_iff hne).mpr hends)]
    obtain ⟨buffer, heap', hcommit, hadd, howned⟩ :=
      commitCurrent_spec (x := (p, J.pending ++ b))
        (s := { device := { s.device with
          currentEntry := ownedEntry (p, J.pending ++ b), deviceMutex := true }, heap })
        h.added h.window rfl ho
    exact ⟨_, hcommit, _, _, h.afterCommit hadd howned hends hsmall⟩
  | false =>
    rw [if_neg (fun hlast => by simp [(last_eq_newline_iff hne).mp hlast] at hends)]
    have hafter := h.afterPending ho hends hsmall
    refine ⟨_, rfl, es, ws, ?_⟩
    rw [mutexUnlock, ← h.unlocked]
    exact hafter

/-- The call up to the user copy. -/
theorem aesdWrite_granted (h : RepAt K s J es ws)
    {env : CallEnv} {buf : List Byte} (hint : env.interrupted = false)
    (hgr : K.grants env (J.pending.length + buf.length) = true) :
    ∃ p heap, heap.Owned ((p, J.pending ++ landed env buf) :: ws) ∧
      heap.block p = some ((J.pending ++ landed env buf).map some) ∧
      aesdWrite K env s buf = afterCopy
        { device := { s.device with
            currentEntry := ⟨some p, J.pending.length⟩, deviceMutex := true }, heap }
        (toInt (min env.uncopied buf.length : Nat)) p buf.length := by
  obtain ⟨heap₁, hmove, howned₁, hblock⟩ := moveCurrent_spec buf.length h.pending h.owned
  obtain ⟨heap₂, hcopy, howned₂, hblock₂⟩ := copyFromUser_spec env buf howned₁ hblock
  have hsize := h.pending.size_eq
  refine ⟨s.heap.next, heap₂, howned₂, hblock₂, ?_⟩
  have halloc : kmalloc K env s.heap ((s.device.currentEntry.size + buf.length) % 2 ^ 64) =
      some (s.heap.next, (s.heap.alloc (J.pending.length + buf.length)).2) := by
    rw [hsize, granted_size hgr, kmalloc, if_pos hgr]
    rfl
  rw [← hsize] at hcopy
  rw [aesdWrite, lock_free hint h.unlocked]
  simp only [Option.bind_eq_bind, Option.bind_some]
  rw [if_neg (by simp), halloc]
  dsimp only
  rw [hmove, Option.bind_some, hcopy, Option.bind_some, hsize]

/-- The write goes through and has no last byte to look at: no new bytes and
    nothing pending. -/
def NoLastByte {α : Type _} (K : Kernel) (env : CallEnv) (J : Journal α) (b : List α) : Prop :=
  writeOk K env J b = true ∧ b = [] ∧ J.pending = []

/-- `aesd_write` does what the abstract write does, unless there is no last byte. -/
theorem aesdWrite_refines (env : CallEnv)
    {buf : List Byte} (hR : Rep K s J) (hlen : buf.length ≤ MAX_RW_COUNT)
    (hne : ¬ NoLastByte K env J buf) :
    ∃ s', aesdWrite K env s buf = some (absWriteRet K env J buf, s') ∧
      Rep K s' (absWriteNext isNewline K env J buf) := by
  obtain ⟨es, ws, h⟩ := hR
  cases hint : env.interrupted with
  | true =>
    refine ⟨s, ?_, es, ws, ?_⟩
    · simp [aesdWrite, lock_interrupted hint, absWriteRet, hint, EINTR]
    · simpa [absWriteNext, writeOk, hint] using h
  | false =>
    cases hgr : K.grants env (J.pending.length + buf.length) with
    | false =>
      -- refused or not, the size asked for is the true one
      have hwrap : (J.pending.length + buf.length) % 2 ^ 64 = J.pending.length + buf.length := by
        have hP := h.pending_small
        have hK := K.kmallocMax_lt
        rw [MAX_RW_COUNT] at hlen
        omega
      refine ⟨s, ?_, es, ws, ?_⟩
      · simp only [aesdWrite, lock_free hint h.unlocked, h.pending.size_eq, hwrap, kmalloc, hgr,
          Option.bind_eq_bind, Option.bind_some, ne_eq, not_true_eq_false, if_false,
          Bool.false_eq_true, unlock_lock h.unlocked]
        simp [absWriteRet, hint, hgr]
      · simpa [absWriteNext, writeOk, hint, hgr] using h
    | true =>
      have hsmall := Kernel.le_of_grants hgr
      rw [← List.length_append] at hsmall
      obtain ⟨p, heap, howned, -, heq⟩ := aesdWrite_granted h hint hgr
      rw [heq, left_toInt hlen, afterCopy]
      by_cases hfault : min env.uncopied buf.length = 0
      · have hok : writeOk K env J buf = true := by simp [writeOk, hint, hgr, hfault]
        have hnext : absWriteNext isNewline K env J buf = J.append isNewline buf := by
          rw [absWriteNext, if_pos hok]
        have hret : absWriteRet K env J buf = buf.length := by
          simp [absWriteRet, hint, hgr, hfault]
        have ht : J.pending ++ buf ≠ [] := by
          rw [Ne, List.append_eq_nil_iff]
          exact fun hnil => hne ⟨hok, hnil.2, hnil.1⟩
        rw [landed_of_copied hfault] at howned
        obtain ⟨s', hadv, hrep⟩ := advanceCurrent_spec h howned ht hsmall
        rw [hnext, hret, if_neg (by simp [hfault]), hadv]
        exact ⟨mutexUnlock s', rfl, hrep⟩
      · have hnext : absWriteNext isNewline K env J buf = J := by
          rw [absWriteNext, if_neg (by simp [writeOk, hfault])]
        have hret : absWriteRet K env J buf = (min env.uncopied buf.length : Nat) := by
          rw [absWriteRet, if_neg (by simp [hint]), if_neg (by simp [hgr]), if_pos hfault]
        have hafter := h.afterFault howned
        rw [hnext, hret, if_pos (Int.natCast_ne_zero.mpr hfault)]
        refine ⟨_, rfl, es, ws, ?_⟩
        rw [mutexUnlock, ← h.unlocked, ← h.pending.size_eq]
        exact hafter

/-- Without a last byte, `aesd_write` reads at index `(size_t) -1`. -/
theorem aesdWrite_undefined {env : CallEnv}
    {buf : List Byte} (hR : Rep K s J) (hno : NoLastByte K env J buf) :
    aesdWrite K env s buf = none := by
  obtain ⟨es, ws, h⟩ := hR
  obtain ⟨hok, rfl, hP⟩ := hno
  simp only [writeOk, Bool.and_eq_true, Bool.not_eq_true', decide_eq_true_eq] at hok
  obtain ⟨⟨hint, hgr⟩, hcopy⟩ := hok
  obtain ⟨p, heap, -, hblock, heq⟩ := aesdWrite_granted h hint hgr
  have hload : heap.load p (toSizeT (((0 : Nat) : Int) - 1)) 1 = none := by
    -- the size is 0 and the index wraps to the last of all
    have hindex : toSizeT (((0 : Nat) : Int) - 1) = 2 ^ 64 - 1 := by decide
    rw [hP, landed_of_copied hcopy] at hblock
    rw [hindex, Heap.load, hblock]
    rfl
  have hsize : (J.pending.length + ([] : List Byte).length) % 2 ^ 64 = 0 := by rw [hP]; rfl
  rw [heq, hcopy, Int.natCast_zero, toInt_zero, afterCopy, if_neg (by simp), advanceCurrent]
  dsimp only
  rw [hsize, hload]
  rfl

/-! ## `aesd_read` -/

/-- The sizes in the ring are the lengths of the readable entries. -/
theorem RepAt.sizes_eq (h : RepAt K s J es ws) :
    (es.rtake 10).map (·.size) = (committed J).map List.length := by
  rw [h.window, ← h.texts, List.map_map, List.map_map]
  rfl

theorem RepAt.window_ptr (h : RepAt K s J es ws) :
    ∀ e ∈ es.rtake 10, e.buffptr ≠ none := by
  intro e he
  rw [h.window] at he
  obtain ⟨w, -, rfl⟩ := List.mem_map.mp he
  exact Option.some_ne_none _

/-- Entry `i` of the journal's window, as the ring and the heap hold it. -/
theorem RepAt.slot (h : RepAt K s J es ws) {i : Nat}
    {t : List Byte} (hi : (committed J)[i]? = some t) :
    ∃ p, s.device.circularBuffer.entry[(s.device.circularBuffer.outOffs + i) % 10]?
        = some (ownedEntry (p, t)) ∧ s.heap.StartsWith p t := by
  rw [← h.texts, List.getElem?_map] at hi
  obtain ⟨w, hw, rfl⟩ := Option.map_eq_some_iff.mp hi
  have hwin : (es.rtake 10)[i]? = some (ownedEntry w) := by
    rw [h.window, List.getElem?_map, hw]
    rfl
  refine ⟨w.1, h.added.entry_eq hwin, ?_⟩
  exact h.owned.startsWith w (List.mem_append_right _ (List.mem_of_getElem? hw))

/-- The test on `err` is a test on the number of bytes left. -/
theorem readRet_eq {bytes : List Byte} {left : Nat} (hlt : left < 2 ^ 32) (fPos : Int) :
    readRet (toInt left) (bytes.take (bytes.length - left)) bytes.length fPos =
      if left ≠ 0 then ⟨toInt left, bytes.take (bytes.length - left), fPos⟩
      else ⟨bytes.length, bytes, fPos + bytes.length⟩ := by
  have hzero := toInt_eq_zero_iff hlt
  rw [readRet]
  by_cases h0 : left = 0
  · rw [if_neg (fun hne => hne (hzero.mpr h0)), if_neg (fun hne => hne h0), h0, Nat.sub_zero,
      List.take_length]
  · rw [if_pos (fun heq => h0 (hzero.mp heq)), if_pos h0]

/-- `aesd_read` does what the abstract read does and changes nothing in the device. -/
theorem aesdRead_refines (env : CallEnv)
    (hR : Rep K s J) (count : Nat) {fPos : Int} (h0 : 0 ≤ fPos) (hlt : fPos < 2 ^ 63) :
    aesdRead env s count fPos = some (absRead env J count fPos, s) := by
  obtain ⟨es, ws, h⟩ := hR
  cases hint : env.interrupted with
  | true => simp [aesdRead, lock_interrupted hint, absRead, hint, EINTR]
  | false =>
    have hfind := h.added.find_eq h.window_ptr (toSizeT fPos)
    rw [toSizeT_of_lt h0 (by omega), h.sizes_eq] at hfind
    rw [aesdRead, lock_free hint h.unlocked, absRead, if_neg (by simp [hint])]
    simp only [Option.bind_eq_bind, Option.bind_some]
    rw [if_neg (by simp), toSizeT_of_lt h0 (by omega), hfind, Option.bind_some]
    cases hloc : locate ((committed J).map List.length) fPos.toNat with
    | none =>
      have hvis : visible J fPos.toNat = [] := by rw [visible, hloc]
      rw [Option.map_none, hvis]
      dsimp only
      rw [unlock_lock h.unlocked]
      simp
    | some f =>
      -- the entry found, as the journal has it and as the ring and the heap have it
      obtain ⟨t, ht, hd, -⟩ := flatten_drop_of_locate hloc
      obtain ⟨p, hentry, hstart⟩ := h.slot ht
      -- the clamp of the code is the length of what the abstract read returns
      have hnum : (if count < t.length - f.2 then count else t.length - f.2) =
          ((t.drop f.2).take count).length := by
        rw [List.length_take, List.length_drop]
        split <;> omega
      have htake :
          (t.drop f.2).take ((t.drop f.2).take count).length = (t.drop f.2).take count := by
        rw [List.length_take, ← List.take_take, List.take_length]
      have hload : s.heap.load p f.2 ((t.drop f.2).take count).length =
          some ((t.drop f.2).take count) := by
        rw [hstart.load (by rw [List.length_take, List.length_drop]; omega), htake]
      rw [Option.map_some, visible_of_locate hloc ht]
      dsimp only
      rw [hentry, Option.bind_some, ownedEntry]
      dsimp only
      rw [Option.bind_some, hnum, copyToUser, hload]
      simp only [Option.bind_eq_bind, Option.bind_some, Option.pure_def]
      have hsmall := h.entries_small t (mem_entries_of_mem_committed (List.mem_of_getElem? ht))
      have hK := K.kmallocMax_lt
      rw [readRet_eq (by rw [List.length_take, List.length_drop]; omega), unlock_lock h.unlocked]

/-! ## The counted walks -/

/-- `n` steps from entry `j` of the window add up the sizes of the entries passed. -/
theorem AesdCircularBuffer.Added.walkSizes_eq {buffer : AesdCircularBuffer}
    (h : buffer.Added es) :
    ∀ n j (sum : Int), j + n ≤ (es.rtake 10).length → 0 ≤ sum →
      sum + ((((es.rtake 10).drop j).take n).map (·.size)).sum < 2 ^ 63 →
      walkSizes buffer n ((buffer.outOffs + j) % 10) sum =
        some (sum + ((((es.rtake 10).drop j).take n).map (·.size)).sum,
          (buffer.outOffs + (j + n)) % 10) := by
  intro n
  induction n with
  | zero =>
    intro j sum hj h0 hlt
    simp [walkSizes]
  | succ n ih =>
    intro j sum hj h0 hlt
    have hget : (es.rtake 10)[j]? = some (es.rtake 10)[j] := List.getElem?_eq_getElem (by omega)
    have hslot := h.entry_eq hget
    -- the reset at the end of the array is the step modulo ten
    have hnext : (if 10 ≤ (buffer.outOffs + j) % 10 + 1 then 0
        else (buffer.outOffs + j) % 10 + 1) = (buffer.outOffs + (j + 1)) % 10 := by
      split <;> omega
    rw [List.drop_eq_getElem_cons (by omega), List.take_succ_cons, List.map_cons, List.sum_cons]
      at hlt ⊢
    rw [walkSizes, hslot]
    dsimp only
    rw [hnext, toLoff_of_lt (by omega) (by omega), ih (j + 1) _ (by omega) (by omega) (by omega)]
    congr 2
    · push_cast
      ring
    · congr 1
      omega

/-- The readable bytes are those of at most ten allocations. -/
theorem RepAt.content_le (h : RepAt K s J es ws) :
    (content J).length ≤ 10 * K.kmallocMax := by
  have hsmall : ∀ e ∈ committed J, e.length ≤ K.kmallocMax := fun e he =>
    h.entries_small e (mem_entries_of_mem_committed he)
  have hsum := length_flatten_le hsmall
  have hcount : (committed J).length ≤ 10 := by
    rw [committed_length]
    omega
  have hmul : (committed J).length * K.kmallocMax ≤ 10 * K.kmallocMax :=
    Nat.mul_le_mul_right _ hcount
  rw [content]
  omega

/-- They fit `loff_t` with room to spare. -/
theorem RepAt.content_small (h : RepAt K s J es ws) :
    (content J).length < 2 ^ 36 := by
  have hle := h.content_le
  have hK := K.kmallocMax_lt
  omega

/-- The walk of both functions over the first `n` entries of the window. -/
theorem RepAt.walkSizes_first (h : RepAt K s J es ws) {n : Nat}
    (hn : n ≤ (committed J).length) :
    walkSizes s.device.circularBuffer n s.device.circularBuffer.outOffs 0 =
      some (((((committed J).take n).flatten.length : Nat) : Int),
        (s.device.circularBuffer.outOffs + n) % 10) := by
  have hsum : (((es.rtake 10).drop 0).take n).map (·.size) =
      ((committed J).take n).map List.length := by
    rw [List.drop_zero, List.map_take, h.sizes_eq, List.map_take]
  have hlen : (es.rtake 10).length = (committed J).length := by
    rw [← List.length_map (f := (·.size)), h.sizes_eq, List.length_map]
  have hle : ((committed J).take n).flatten.length ≤ (content J).length :=
    (List.take_sublist n _).flatten.length_le
  have hsmall := h.content_small
  rw [List.length_flatten] at hle
  have hwalk := h.added.walkSizes_eq n 0 0 (by omega) (by omega) (by rw [hsum]; omega)
  rw [hsum, Nat.add_zero, Nat.mod_eq_of_lt h.added.outOffs_lt, Nat.zero_add, Int.zero_add] at hwalk
  rw [hwalk, List.length_flatten]

theorem RepAt.numEntries_eq (h : RepAt K s J es ws) :
    s.device.circularBuffer.numEntries = (committed J).length := by
  rw [h.added.numEntries_eq, ← List.length_map (f := (·.size)), h.sizes_eq, List.length_map]

/-! ## `aesd_llseek` and `aesd_unlocked_ioctl` -/

/-- `aesd_llseek` does what the abstract seek does and changes nothing in the device. -/
theorem aesdLlseek_refines (env : CallEnv)
    (hR : Rep K s J) (fPos offset whence : Int) :
    aesdLlseek env s fPos offset whence = some (absLlseek env J fPos offset whence, s) := by
  obtain ⟨es, ws, h⟩ := hR
  have htarget : ∀ off, llseekTarget s.device.circularBuffer fPos off whence =
      some (absLlseekTarget J fPos off whence) := by
    intro off
    -- `SEEK_END` walks over the whole window
    have hwalk := h.walkSizes_first (Nat.le_refl _)
    rw [List.take_length, ← content] at hwalk
    unfold llseekTarget absLlseekTarget
    by_cases hset : whence = SEEK_SET
    · rw [if_pos hset, if_pos hset]
    · by_cases hcur : whence = SEEK_CUR
      · rw [if_neg hset, if_pos hcur, if_neg hset, if_pos hcur]
      · by_cases hend : whence = SEEK_END
        · rw [if_neg hset, if_neg hcur, if_pos hend, if_neg hset, if_neg hcur, if_pos hend,
            h.numEntries_eq, Int.toNat_natCast, hwalk]
          rfl
        · rw [if_neg hset, if_neg hcur, if_neg hend, if_neg hset, if_neg hcur, if_neg hend]
  cases hint : env.interrupted with
  | true => simp [aesdLlseek, lock_interrupted hint, absLlseek, hint, EINTR]
  | false =>
    rw [aesdLlseek, lock_free hint h.unlocked, absLlseek, if_neg (by simp [hint])]
    simp only [Option.bind_eq_bind, Option.bind_some]
    rw [if_neg (by simp), htarget, Option.bind_some]
    cases absLlseekTarget J fPos (toLoff offset) whence with
    | none =>
      dsimp only
      rw [unlock_lock h.unlocked]
      rfl
    | some newpos =>
      dsimp only
      rw [unlock_lock h.unlocked]
      by_cases hneg : newpos < 0
      · rw [if_pos hneg, if_pos hneg]
        rfl
      · rw [if_neg hneg, if_neg hneg]
        rfl

/-- `aesd_unlocked_ioctl` does what the abstract one does and changes nothing
    in the device. -/
theorem aesdUnlockedIoctl_refines (env : CallEnv)
    (hR : Rep K s J) (fPos : Int) (cmd : UInt32) (arg : AesdSeekto) :
    aesdUnlockedIoctl env s fPos cmd arg = some (absIoctl env J fPos cmd arg, s) := by
  obtain ⟨es, ws, h⟩ := hR
  have htarget : seektoTarget s.device.circularBuffer arg =
      some ((absSeekto J arg.writeCmd.toNat arg.writeCmdOffset.toNat).map Nat.cast) := by
    unfold seektoTarget absSeekto
    rw [h.numEntries_eq]
    by_cases hrange : (committed J).length ≤ arg.writeCmd.toNat
    · rw [if_pos (by omega), List.getElem?_eq_none hrange]
      rfl
    · have hget := List.getElem?_eq_getElem (Nat.lt_of_not_le hrange)
      -- the entry that the walk ends at
      obtain ⟨p, hentry, -⟩ := h.slot hget
      rw [if_neg (by omega), h.walkSizes_first (by omega), hget]
      simp only [Option.bind_eq_bind, Option.bind_some, hentry, ownedEntry]
      by_cases hoff : (committed J)[arg.writeCmd.toNat].length ≤ arg.writeCmdOffset.toNat
      · rw [if_pos hoff, if_pos hoff]
        rfl
      · have hsmall := h.content_small
        have hle : ((committed J).take arg.writeCmd.toNat).flatten.length ≤ (content J).length :=
          (List.take_sublist _ _).flatten.length_le
        have ho := arg.writeCmdOffset.toNat_lt
        -- a position inside the readable bytes plus 32 bits is far from the end of `loff_t`
        rw [if_neg hoff, if_neg hoff, toLoff_of_lt (by omega) (by omega)]
        rfl
  cases hint : env.interrupted with
  | true => simp [aesdUnlockedIoctl, lock_interrupted hint, absIoctl, hint, EINTR]
  | false =>
    rw [aesdUnlockedIoctl, lock_free hint h.unlocked, absIoctl, if_neg (by simp [hint])]
    simp only [Option.bind_eq_bind, Option.bind_some]
    rw [if_neg (by simp)]
    by_cases hcmd : cmd = AESDCHAR_IOCSEEKTO
    · by_cases hcopy : min env.uncopied sizeofSeekto = 0
      · rw [if_pos hcmd, if_neg (by simp [hcopy]), if_pos ⟨hcmd, hcopy⟩, htarget, Option.bind_some]
        cases absSeekto J arg.writeCmd.toNat arg.writeCmdOffset.toNat with
        | none =>
          dsimp only [Option.map_none]
          rw [unlock_lock h.unlocked]
          rfl
        | some newpos =>
          dsimp only [Option.map_some]
          rw [unlock_lock h.unlocked]
          rfl
      · rw [if_pos hcmd, if_pos hcopy, if_neg (fun hc => hcopy hc.2), unlock_lock h.unlocked]
        rfl
    · rw [if_neg hcmd, if_neg (fun hc => hcmd hc.1), unlock_lock h.unlocked]
      rfl

end Aesd.Driver
