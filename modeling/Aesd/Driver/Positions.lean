/-
  Aesd.Driver.Positions

  Positions, three ways: `AESDCHAR_IOCSEEKTO` computes one from an entry and an
  offset, `aesd_llseek` from a base and an offset, and the position search
  takes one apart again.  The three walks over the ring are separate loops in
  the code.  Here the first and the last are shown to be inverse to each
  other, and the end that `SEEK_END` adds up to be the end that reads meet.
-/
import Aesd.Driver.System
import Aesd.Driver.WriteRuns

namespace Aesd.Driver

open Aesd.Lib

/-! ## Seek requests -/

/-- Entry `w` exists and has a byte `o`. -/
def InRange (texts : List (List Byte)) (w o : Nat) : Prop :=
  ∃ t, texts[w]? = some t ∧ o < t.length

/-- The sizes of the entries before entry `w`, and `o` bytes. -/
def entryPos (texts : List (List Byte)) (w o : Nat) : Nat :=
  ((texts.take w).map List.length).sum + o

/-- The seek request and the position search are one relation. -/
theorem absSeekto_eq_some_iff {α : Type _} {J : Journal α} {w o p : Nat} :
    absSeekto J w o = some p ↔ locate ((committed J).map List.length) p = some (w, o) := by
  rw [locate_eq_some_iff, absSeekto]
  constructor
  · intro h
    cases hw : (committed J)[w]? with
    | none => rw [hw] at h; cases h
    | some e =>
      rw [hw] at h
      dsimp only at h
      split at h
      · cases h
      · obtain ⟨hlt, rfl⟩ := List.getElem?_eq_some_iff.mp hw
        have hp := Option.some.inj h
        rw [List.length_flatten, List.map_take] at hp
        refine ⟨by rwa [List.length_map], hp, ?_⟩
        rw [List.getElem_map]
        omega
  · rintro ⟨hlt, hp, ho⟩
    rw [List.length_map] at hlt
    rw [List.getElem_map] at ho
    rw [List.getElem?_eq_getElem hlt]
    dsimp only
    rw [if_neg (by omega), List.length_flatten, List.map_take, hp]

theorem absSeekto_of_inRange {J : Journal Byte} {w o : Nat} (h : InRange (committed J) w o) :
    absSeekto J w o = some (entryPos (committed J) w o) := by
  obtain ⟨t, ht, ho⟩ := h
  rw [absSeekto, ht]
  dsimp only
  rw [if_neg (by omega), List.length_flatten, entryPos]

theorem absSeekto_of_not_inRange {J : Journal Byte} {w o : Nat}
    (h : ¬ InRange (committed J) w o) : absSeekto J w o = none := by
  rw [absSeekto]
  cases hw : (committed J)[w]? with
  | none => rfl
  | some t =>
    have ho : ¬ o < t.length := fun ho => h ⟨t, hw, ho⟩
    dsimp only
    rw [if_pos (by omega)]

section Reachable

variable {K : Kernel} {s : DriverState} {J : Journal Byte} {env : CallEnv}

/-- A seek request that reaches the walk. -/
theorem ioctl_seekto (hR : Rep K s J) (hlock : env.interrupted = false)
    (hcopy : min env.uncopied sizeofSeekto = 0) (fPos : Int) (arg : AesdSeekto) :
    aesdUnlockedIoctl env s fPos AESDCHAR_IOCSEEKTO arg =
      some (match absSeekto J arg.writeCmd.toNat arg.writeCmdOffset.toNat with
        | none => ⟨-EINVAL, fPos⟩
        | some p => ⟨p, p⟩, s) := by
  rw [aesdUnlockedIoctl_refines env hR, absIoctl, if_neg (by simp [hlock])]
  exact congrArg (fun r => some (r, s)) (if_pos ⟨rfl, hcopy⟩)

/-- It yields position `p` exactly if the search takes `p` apart into the request. -/
theorem ioctl_yields_iff (hR : Rep K s J) (hlock : env.interrupted = false)
    (hcopy : min env.uncopied sizeofSeekto = 0) (fPos : Int) (arg : AesdSeekto) (p : Nat) :
    aesdUnlockedIoctl env s fPos AESDCHAR_IOCSEEKTO arg = some (⟨p, p⟩, s) ↔
      locate ((committed J).map List.length) p =
        some (arg.writeCmd.toNat, arg.writeCmdOffset.toNat) := by
  rw [ioctl_seekto hR hlock hcopy, ← absSeekto_eq_some_iff]
  cases absSeekto J arg.writeCmd.toNat arg.writeCmdOffset.toNat with
  | none =>
    -- an error is no position
    have hneg : -EINVAL ≠ (p : Int) := by
      have hE : -EINVAL < 0 := by decide
      omega
    simp [hneg]
  | some q => simp

/-- The numbers the search finds fit the fields of a request. -/
theorem locate_fits (hR : Rep K s J) {p w o : Nat}
    (h : locate ((committed J).map List.length) p = some (w, o)) : w < 2 ^ 32 ∧ o < 2 ^ 32 := by
  obtain ⟨es, ws, hat⟩ := hR
  obtain ⟨t, ht, ho, -⟩ := flatten_drop_of_locate h
  have hcount := committed_length J
  have hw := (List.getElem?_eq_some_iff.mp ht).1
  have hsmall := hat.entries_small t (mem_entries_of_mem_committed (List.mem_of_getElem? ht))
  have hK := K.kmallocMax_lt
  omega

/-- The search, in terms of the readable texts. -/
theorem find_locate (hR : Rep K s J) (p : Nat) :
    aesdCircularBufferFindEntryOffsetForFpos s.device.circularBuffer p =
      some ((locate ((committed J).map List.length) p).map fun f =>
        ((s.device.circularBuffer.outOffs + f.1) % 10, f.2)) := by
  obtain ⟨es, ws, h⟩ := hR
  rw [h.added.find_eq h.window_ptr, h.sizes_eq]

/-- Entry `w` of the readable texts is in the slot `w` steps from `out_offs`. -/
theorem entry_of_text (hR : Rep K s J) {w : Nat} {t : List Byte}
    (ht : (committed J)[w]? = some t) :
    ∃ e, s.device.circularBuffer.entry[(s.device.circularBuffer.outOffs + w) % 10]? = some e ∧
      entryBytes s.heap e = some t := by
  obtain ⟨es, ws, h⟩ := hR
  obtain ⟨p, hentry, hstart⟩ := h.slot ht
  refine ⟨_, hentry, ?_⟩
  rw [entryBytes, ownedEntry]
  dsimp only
  rw [hstart.load (by omega), List.drop_zero, List.take_length]

end Reachable

/-- The readable entries are `texts`, and seek requests and the position search
    are inverse to each other on them. -/
structure SeekFindInverse (env : CallEnv) (s : DriverState) (texts : List (List Byte)) :
    Prop where
  texts_eq : committedTexts s = some texts
  accepts : ∀ fPos w o, InRange texts w.toNat o.toNat →
    aesdUnlockedIoctl env s fPos AESDCHAR_IOCSEEKTO ⟨w, o⟩ =
      some (⟨entryPos texts w.toNat o.toNat, entryPos texts w.toNat o.toNat⟩, s)
  finds : ∀ w o : UInt32, InRange texts w.toNat o.toNat →
    ∃ i e, aesdCircularBufferFindEntryOffsetForFpos s.device.circularBuffer
        (entryPos texts w.toNat o.toNat) = some (some (i, o.toNat)) ∧
      i = (s.device.circularBuffer.outOffs + w.toNat) % 10 ∧
      s.device.circularBuffer.entry[i]? = some e ∧ entryBytes s.heap e = texts[w.toNat]?
  refuses : ∀ fPos w o, ¬ InRange texts w.toNat o.toNat →
    aesdUnlockedIoctl env s fPos AESDCHAR_IOCSEEKTO ⟨w, o⟩ = some (⟨-EINVAL, fPos⟩, s)
  onto : ∀ fPos (p : Nat),
    aesdCircularBufferFindEntryOffsetForFpos s.device.circularBuffer p ≠ some none →
    ∃! arg, aesdUnlockedIoctl env s fPos AESDCHAR_IOCSEEKTO arg = some (⟨p, p⟩, s)

/-- In every reachable state a seek request in range returns and stores the
    position of the byte it names, and the position search leads back to that
    entry and offset; any other request is refused; and every position that
    the search finds is that of exactly one request. -/
theorem seekto_find_inverse {K : Kernel} {calls : List Call} {outs : List Answer} {s : System}
    {env : CallEnv} (hrun : run (step K) .init calls = some (outs, s))
    (hlock : env.interrupted = false) (hcopy : min env.uncopied sizeofSeekto = 0) :
    ∃ texts, SeekFindInverse env s.driver texts := by
  obtain ⟨-, -, hrep⟩ := run_refines hrun
  have hR := hrep.driver
  refine ⟨committed (absAfter K calls).journal, ?_⟩
  constructor
  · exact hR.texts.1
  · intro fPos w o hrange
    rw [ioctl_seekto hR hlock hcopy, absSeekto_of_inRange hrange]
  · intro w o hrange
    have hloc := absSeekto_eq_some_iff.mp (absSeekto_of_inRange hrange)
    obtain ⟨t, ht, -⟩ := hrange
    obtain ⟨e, hentry, hbytes⟩ := entry_of_text hR ht
    refine ⟨_, e, ?_, rfl, hentry, hbytes.trans ht.symm⟩
    rw [find_locate hR, hloc]
    rfl
  · intro fPos w o hrange
    rw [ioctl_seekto hR hlock hcopy, absSeekto_of_not_inRange hrange]
  · intro fPos p hfind
    rw [find_locate hR] at hfind
    cases hloc : locate ((committed (absAfter K calls).journal).map List.length) p with
    | none =>
      rw [hloc] at hfind
      exact absurd rfl hfind
    | some f =>
      obtain ⟨w, o⟩ := f
      obtain ⟨hw, ho⟩ := locate_fits hR hloc
      have hwnat : (UInt32.ofNat w).toNat = w := UInt32.toNat_ofNat_of_lt' hw
      have honat : (UInt32.ofNat o).toNat = o := UInt32.toNat_ofNat_of_lt' ho
      refine ⟨⟨UInt32.ofNat w, UInt32.ofNat o⟩, ?_, ?_⟩
      · show aesdUnlockedIoctl env s.driver fPos AESDCHAR_IOCSEEKTO _ = _
        rw [ioctl_yields_iff hR hlock hcopy, hwnat, honat]
        exact hloc
      · -- another request for `p` is what the search finds, too
        rintro ⟨w', o'⟩ hyields
        rw [ioctl_yields_iff hR hlock hcopy, hloc, Option.some.injEq, Prod.mk.injEq] at hyields
        rw [hyields.1, hyields.2, UInt32.ofNat_toNat, UInt32.ofNat_toNat]

/-- Two lines, as two writes. -/
def twoLines : List Call :=
  [⟨.write 0 (vfsBuf [97, newline]), .calm⟩, ⟨.write 0 (vfsBuf [98, newline]), .calm⟩]

theorem twoLines_defined :
    ∃ s, run (step .page) .init twoLines = some ((absRun (absStep .page) .init twoLines).1, s) := by
  have hall : Allowed (absStep .page) (Defined .page) .init twoLines := by
    simp [twoLines, Allowed, Defined, NoLastByte]
  obtain ⟨s, hrun, -⟩ := run_defined hall
  exact ⟨s, hrun⟩

theorem twoLines_inverse :
    ∃ outs s texts, run (step .page) .init twoLines = some (outs, s) ∧
      SeekFindInverse .calm s.driver texts := by
  obtain ⟨s, hrun⟩ := twoLines_defined
  have hlock : CallEnv.calm.interrupted = false := rfl
  obtain ⟨texts, h⟩ := seekto_find_inverse hrun hlock rfl
  exact ⟨_, s, texts, hrun, h⟩

/-! ## `lseek` -/

/-- What `lseek` counts from; `none` for a bad `whence`. -/
def seekBase (total fPos whence : Int) : Option Int :=
  if whence = SEEK_SET then some 0
  else if whence = SEEK_CUR then some fPos
  else if whence = SEEK_END then some total
  else none

/-- The mathematical sum if it is a position, `-EINVAL` otherwise. -/
def exactSeek (total fPos offset whence : Int) : SeekResult :=
  match seekBase total fPos whence with
  | none => ⟨-EINVAL, fPos⟩
  | some base =>
    if 0 ≤ base + offset ∧ base + offset < 2 ^ 63 then ⟨base + offset, base + offset⟩
    else ⟨-EINVAL, fPos⟩

/-- The sign test after the wrapped addition finds out exactly whether the sum
    is a position: a sum too large wraps to a negative number. -/
theorem wrapped_sum {base offset : Int} (hbase : 0 ≤ base) (hlt : base < 2 ^ 63)
    (hoff : -2 ^ 63 ≤ offset) (hoff' : offset < 2 ^ 63) (fPos : Int) :
    (if toLoff (base + offset) < 0 then (⟨-EINVAL, fPos⟩ : SeekResult)
      else ⟨toLoff (base + offset), toLoff (base + offset)⟩) =
    if 0 ≤ base + offset ∧ base + offset < 2 ^ 63 then ⟨base + offset, base + offset⟩
    else ⟨-EINVAL, fPos⟩ := by
  rcases Int.lt_or_le (base + offset) (2 ^ 63) with hsum | hsum
  · rw [toLoff_of_lt (by omega) hsum]
    by_cases hneg : base + offset < 0
    · rw [if_pos hneg, if_neg (by omega)]
    · rw [if_neg hneg, if_pos ⟨by omega, hsum⟩]
  · have hwrap : toLoff (base + offset) = base + offset - 2 ^ 64 := by
      rw [toLoff, Int.bmod_eq_emod]
      split <;> omega
    rw [hwrap, if_pos (by omega), if_neg (by omega)]

/-- The abstract seek is exact. -/
theorem absLlseek_eq {J : Journal Byte} {env : CallEnv} {fPos offset : Int}
    (hlock : env.interrupted = false) (hsmall : (content J).length < 2 ^ 62) (hpos : IsPos fPos)
    (hoff : -2 ^ 63 ≤ offset) (hoff' : offset < 2 ^ 63) (whence : Int) :
    absLlseek env J fPos offset whence = exactSeek (content J).length fPos offset whence := by
  obtain ⟨h0, hlt⟩ := hpos
  rw [absLlseek, if_neg (by simp [hlock]), toLoff_of_lt hoff hoff', absLlseekTarget, exactSeek,
    seekBase]
  by_cases hset : whence = SEEK_SET
  · -- no addition in the code, and base 0 here
    have hsum := wrapped_sum (Int.le_refl 0) (by omega) hoff hoff' fPos
    rw [Int.zero_add, toLoff_of_lt hoff hoff'] at hsum
    rw [if_pos hset, if_pos hset]
    dsimp only
    rw [hsum, Int.zero_add]
  · by_cases hcur : whence = SEEK_CUR
    · rw [if_neg hset, if_pos hcur, if_neg hset, if_pos hcur]
      exact wrapped_sum h0 hlt hoff hoff' fPos
    · by_cases hend : whence = SEEK_END
      · rw [if_neg hset, if_neg hcur, if_pos hend, if_neg hset, if_neg hcur, if_pos hend]
        exact wrapped_sum (by omega) (by omega) hoff hoff' fPos
      · rw [if_neg hset, if_neg hcur, if_neg hend, if_neg hset, if_neg hcur, if_neg hend]

/-! ## End of file -/

/-- A read with room for a byte returns 0 exactly where nothing is visible. -/
theorem absRead_ret_eq_zero_iff {J : Journal Byte} {env : CallEnv} {count : Nat} {fPos : Int}
    (hlock : env.interrupted = false) (hcount : 0 < count)
    (hsmall : (visible J fPos.toNat).length < 2 ^ 32) :
    (absRead env J count fPos).ret = 0 ↔ (content J).length ≤ fPos.toNat := by
  have hlen : ((visible J fPos.toNat).take count).length =
      min count (visible J fPos.toNat).length := List.length_take ..
  rw [← visible_eq_nil_iff, ← List.length_eq_zero_iff, absRead, if_neg (by simp [hlock])]
  dsimp only
  by_cases hleft : min env.uncopied ((visible J fPos.toNat).take count).length = 0
  · rw [if_neg (fun h => h hleft)]
    dsimp only
    omega
  · -- bytes left behind are never 0 as an `int`
    have hzero := toInt_eq_zero_iff
      (n := min env.uncopied ((visible J fPos.toNat).take count).length) (by omega)
    rw [if_pos hleft]
    dsimp only
    rw [hzero]
    omega

/-- What one read can see is at most one entry. -/
theorem Rep.visible_lt {K : Kernel} {s : DriverState} {J : Journal Byte} (hR : Rep K s J)
    (p : Nat) : (visible J p).length < 2 ^ 32 := by
  obtain ⟨es, ws, h⟩ := hR
  have hK := K.kmallocMax_lt
  cases hloc : locate ((committed J).map List.length) p with
  | none =>
    rw [visible, hloc, List.length_nil]
    exact Nat.pow_pos (by decide)
  | some f =>
    obtain ⟨t, ht, -, -⟩ := flatten_drop_of_locate (i := f.1) (d := f.2) hloc
    have hsmall := h.entries_small t (mem_entries_of_mem_committed (List.mem_of_getElem? ht))
    rw [visible_of_locate hloc ht, List.length_drop]
    omega

/-- In every reachable state `aesd_llseek` is exact for the total that its
    `SEEK_END` loop adds up, and that total is where reads begin to return 0. -/
theorem llseek_exact {K : Kernel} {calls : List Call} {outs : List Answer} {s : System}
    {env : CallEnv} (hrun : run (step K) .init calls = some (outs, s))
    (hlock : env.interrupted = false) :
    ∃ total index, walkSizes s.driver.device.circularBuffer
        s.driver.device.circularBuffer.numEntries.toNat
        s.driver.device.circularBuffer.outOffs 0 = some (total, index) ∧
      0 ≤ total ∧ total < 2 ^ 62 ∧
      (∀ fPos offset whence, IsPos fPos → -2 ^ 63 ≤ offset → offset < 2 ^ 63 →
        aesdLlseek env s.driver fPos offset whence =
          some (exactSeek total fPos offset whence, s.driver)) ∧
      ∀ count p, 0 < count → IsPos p →
        ((aesdRead env s.driver count p).map (·.1.ret) = some 0 ↔ total ≤ p) := by
  obtain ⟨-, -, hrep⟩ := run_refines hrun
  have hR := hrep.driver
  obtain ⟨es, ws, hat⟩ := hrep.driver
  have hsmall := hat.content_small
  have hwalk := hat.walkSizes_first (Nat.le_refl _)
  rw [List.take_length] at hwalk
  refine ⟨_, _, by rw [hat.numEntries_eq, Int.toNat_natCast]; exact hwalk, by omega, ?_, ?_, ?_⟩
  · rw [content] at hsmall
    omega
  · intro fPos offset whence hpos hoff hoff'
    rw [aesdLlseek_refines env hR, absLlseek_eq hlock (by omega) hpos hoff hoff', content]
  · intro count p hcount hpos
    rw [aesdRead_refines env hR count hpos.1 hpos.2, Option.map_some, Option.some.injEq,
      absRead_ret_eq_zero_iff hlock hcount (hR.visible_lt p.toNat), content]
    have h0 := hpos.1
    omega

/-- The two lines have four bytes: the last byte is at position 3, and reads end at 4. -/
theorem twoLines_exact :
    ∃ outs s, run (step .page) .init twoLines = some (outs, s) ∧
      aesdLlseek .calm s.driver 1 (-1) SEEK_CUR = some (⟨0, 0⟩, s.driver) ∧
      aesdLlseek .calm s.driver 1 (-1) SEEK_END = some (⟨3, 3⟩, s.driver) ∧
      aesdLlseek .calm s.driver 1 (-5) SEEK_END = some (⟨-EINVAL, 1⟩, s.driver) ∧
      ∀ count p, 0 < count → IsPos p →
        ((aesdRead .calm s.driver count p).map (·.1.ret) = some 0 ↔ 4 ≤ p) := by
  have hmap : (run (step .page) .init twoLines).map (fun x =>
      walkSizes x.2.driver.device.circularBuffer
        x.2.driver.device.circularBuffer.numEntries.toNat
        x.2.driver.device.circularBuffer.outOffs 0) = some (some (4, 2)) := by decide
  obtain ⟨⟨outs, s⟩, hrun, hwalk⟩ := Option.map_eq_some_iff.mp hmap
  have hlock : CallEnv.calm.interrupted = false := rfl
  obtain ⟨total, index, htotal, -, -, hseek, hend⟩ := llseek_exact hrun hlock
  obtain ⟨rfl, -⟩ := Prod.mk.inj (Option.some.inj (htotal.symm.trans hwalk))
  have hpos : IsPos 1 := ⟨by decide, by decide⟩
  exact ⟨outs, s, hrun, hseek 1 (-1) SEEK_CUR hpos (by decide) (by decide),
    hseek 1 (-1) SEEK_END hpos (by decide) (by decide),
    hseek 1 (-5) SEEK_END hpos (by decide) (by decide), hend⟩

end Aesd.Driver
