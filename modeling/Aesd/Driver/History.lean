/-
  Aesd.Driver.History

  What reads return, in terms of everything ever committed: the journal's
  entries make up one stream `S`, of which the first `E` bytes were evicted,
  and a read at position `p` hands out the bytes of `S` from `E + p` on, never
  more than the rest of one entry.

  `Slice` is the answer of one read and `Drains` that of a sequence of reads
  of one file, with other files in use in between.
-/
import Aesd.Driver.System

namespace Aesd.Driver

open Aesd.Lib

/-! ## One read -/

/-- `r` and `data` are the answer to a read of at most `c` bytes at position `p`
    when `J` was committed. -/
structure Slice (J : Journal Byte) (c p r : Nat) (data : List Byte) : Prop where
  length_eq : data.length = r
  bytes : data = (J.entries.flatten.drop ((evicted J).flatten.length + p)).take r
  zero_iff : r = 0 ↔ J.entries.flatten.length ≤ (evicted J).flatten.length + p
  within : r ≠ 0 → ∃ i e d, J.entries[i]? = some e ∧
    (J.entries.take i).flatten.length + d = (evicted J).flatten.length + p ∧
    d < e.length ∧ r = min c (e.length - d)

/-- Position `p` of the device is byte `E + p` of the whole stream. -/
theorem drop_history {α : Type _} (J : Journal α) (p : Nat) :
    J.entries.flatten.drop ((evicted J).flatten.length + p) = (content J).drop p := by
  rw [← evicted_append_content, List.drop_append, List.drop_of_length_le (by omega),
    List.nil_append, Nat.add_sub_cancel_left]

theorem history_length {α : Type _} (J : Journal α) :
    J.entries.flatten.length = (evicted J).flatten.length + (content J).length := by
  rw [← evicted_append_content, List.length_append]

/-- What is visible at `p` is the rest of one entry of the stream. -/
theorem visible_within {α : Type _} {J : Journal α} {p : Nat} (h : visible J p ≠ []) :
    ∃ i e d, J.entries[i]? = some e ∧
      (J.entries.take i).flatten.length + d = (evicted J).flatten.length + p ∧
      d < e.length ∧ visible J p = e.drop d := by
  cases hloc : locate ((committed J).map List.length) p with
  | none =>
    rw [visible, hloc] at h
    exact absurd rfl h
  | some r =>
    obtain ⟨e, he, hd, -⟩ := flatten_drop_of_locate hloc
    obtain ⟨-, hp, -⟩ := locate_eq_some_iff.mp hloc
    have hvis := visible_of_locate hloc he
    rw [← List.map_take, ← List.length_flatten] at hp
    -- entry `r.1` of the window is entry `k + r.1` of the stream
    have hentry : J.entries[J.entries.length - 10 + r.1]? = some e := by
      rw [← getElem?_rtake]
      exact he
    have htake : (J.entries.take (J.entries.length - 10 + r.1)).flatten.length =
        (evicted J).flatten.length + ((committed J).take r.1).flatten.length := by
      rw [List.take_add, List.flatten_append, List.length_append]
      rfl
    exact ⟨_, e, r.2, hentry, by omega, hd, hvis⟩

theorem slice_visible (J : Journal Byte) {c : Nat} (hc : 0 < c) (p : Nat) :
    Slice J c p ((visible J p).take c).length ((visible J p).take c) := by
  obtain ⟨later, hlater⟩ := visible_append J p
  have hzero : ((visible J p).take c).length = 0 ↔ (content J).length ≤ p := by
    rw [← visible_eq_nil_iff, ← List.length_eq_zero_iff, List.length_take]
    omega
  refine { length_eq := rfl, bytes := ?_, zero_iff := ?_, within := ?_ }
  · rw [drop_history, hlater, List.length_take, ← List.take_take,
      List.take_append_of_le_length (Nat.le_refl _), List.take_length]
  · rw [hzero, history_length]
    omega
  · intro hne
    -- a read that returns something sees something
    have hvis : visible J p ≠ [] := by
      intro hnil
      rw [hnil] at hne
      exact hne (by simp)
    obtain ⟨i, e, d, he, hp, hd, heq⟩ := visible_within hvis
    exact ⟨i, e, d, he, hp, hd, by rw [heq, List.length_take, List.length_drop]⟩

/-- A calm `aesd_read` hands out the right slice of the stream. -/
theorem aesdRead_slice {K : Kernel} {s : DriverState} {J : Journal Byte} (hR : Rep K s J)
    {env : CallEnv} (hint : env.interrupted = false) (hcopy : env.uncopied = 0) {c : Nat}
    (hc : 0 < c) {p : Int} (h0 : 0 ≤ p) (hlt : p < 2 ^ 63) :
    ∃ (r : Nat) (data : List Byte), aesdRead env s c p = some (⟨r, data, p + r⟩, s) ∧
      Slice J c p.toNat r data := by
  have habs : min env.uncopied ((visible J p.toNat).take c).length = 0 := by
    rw [hcopy, Nat.zero_min]
  refine ⟨_, _, ?_, slice_visible J hc p.toNat⟩
  rw [aesdRead_refines env hR c h0 hlt, absRead_of_copied _ _ hint habs]

/-! ## A sequence of reads -/

/-- A read of at least one byte that meets no failure. -/
def GoodRead (c : Call) : Prop :=
  ∃ f count, c.request = .read f count ∧ 0 < count.val ∧
    c.env.interrupted = false ∧ c.env.uncopied = 0

/-- The answers to the calls made on file `f`. -/
def answersOn (f : File) : List Call → List Answer → List Answer
  | c :: cs, o :: os => if c.request.file = f then o :: answersOn f cs os else answersOn f cs os
  | _, _ => []

/-- All the bytes the answers delivered. -/
def delivered (os : List Answer) : List Byte := (os.map (·.data)).flatten

/-- The answers `os` were given to reads that moved a file from position `p` to
    position `q` when `J` was committed. -/
structure Drains (J : Journal Byte) (p q : Nat) (os : List Answer) : Prop where
  moved : q = p + (delivered os).length
  split : J.entries.flatten.drop ((evicted J).flatten.length + p) =
    delivered os ++ J.entries.flatten.drop ((evicted J).flatten.length + q)
  whole : (∃ o ∈ os, o.ret = 0) →
    delivered os = J.entries.flatten.drop ((evicted J).flatten.length + p)
  ends : J.entries.flatten.length - ((evicted J).flatten.length + p) < os.length →
    ∃ o ∈ os, o.ret = 0

theorem drains_nil (J : Journal Byte) (p : Nat) : Drains J p p [] :=
  { moved := rfl
    split := rfl
    whole := fun ⟨_, ho, _⟩ => absurd ho List.not_mem_nil
    ends := fun hlt => absurd hlt (Nat.not_lt_zero _) }

/-- One more read in front. -/
theorem Drains.cons {J : Journal Byte} {c p q : Nat} {o : Answer} {os : List Answer}
    (hslice : Slice J c p o.data.length o.data) (hret : o.ret = o.data.length)
    (h : Drains J (p + o.data.length) q os) : Drains J p q (o :: os) := by
  have hcons : delivered (o :: os) = o.data ++ delivered os := rfl
  have hmoved := h.moved
  have hsplit : J.entries.flatten.drop ((evicted J).flatten.length + p) =
      o.data ++ J.entries.flatten.drop ((evicted J).flatten.length + (p + o.data.length)) := by
    have hrest := List.take_append_drop o.data.length
      (J.entries.flatten.drop ((evicted J).flatten.length + p))
    rw [← hslice.bytes, List.drop_drop, Nat.add_assoc] at hrest
    exact hrest.symm
  refine { moved := ?_, split := ?_, whole := ?_, ends := ?_ }
  · rw [hcons, List.length_append]
    omega
  · rw [hsplit, hcons, List.append_assoc, ← h.split]
  · rintro ⟨o', hmem, h0⟩
    rcases List.mem_cons.mp hmem with rfl | hmem
    · -- at the end of the stream nothing is left for the later reads
      have hend := hslice.zero_iff.mp (by omega)
      have hnil := List.drop_of_length_le hend
      rw [hsplit, h.split, ← List.append_assoc, ← hcons] at hnil
      rw [hsplit, h.split, ← List.append_assoc, ← hcons, hnil]
      exact (List.append_eq_nil_iff.mp hnil).1
    · rw [hsplit, hcons, h.whole ⟨o', hmem, h0⟩]
  · intro hlt
    rw [List.length_cons] at hlt
    by_cases h0 : o.ret = 0
    · exact ⟨o, List.mem_cons_self, h0⟩
    · have hinside := hslice.zero_iff.not.mp (by omega)
      obtain ⟨o', hmem, h0'⟩ := h.ends (by omega)
      exact ⟨o', List.mem_cons_of_mem _ hmem, h0'⟩

/-- No call takes a committed entry back. -/
theorem absStep_entries_grow (K : Kernel) (a : AbsSystem) (c : Call) :
    a.journal.entries <+: (absStep K a c).2.journal.entries := by
  obtain ⟨request, env⟩ := c
  cases request with
  | write f buf =>
    -- a write appends at most one entry
    show a.journal.entries <+: (absWriteNext isNewline K env a.journal buf.val).entries
    unfold absWriteNext Journal.append
    split
    · split
      · exact List.prefix_append _ _
      · exact List.prefix_refl _
    · exact List.prefix_refl _
  | read f count => exact List.prefix_refl _
  | llseek f offset whence => exact List.prefix_refl _
  | ioctl f cmd arg => exact List.prefix_refl _

theorem absRun_entries_grow (K : Kernel) (a : AbsSystem) (calls : List Call) :
    a.journal.entries <+: (absRun (absStep K) a calls).2.journal.entries := by
  induction calls generalizing a with
  | nil => exact List.prefix_refl _
  | cons c calls ih => exact (absStep_entries_grow K a c).trans (ih _)

/-- A call on another file leaves the position alone. -/
theorem absStep_fPos_of_ne (K : Kernel) (a : AbsSystem) {c : Call} {f : File}
    (hne : c.request.file ≠ f) : (absStep K a c).2.fPos f = a.fPos f := by
  obtain ⟨request, env⟩ := c
  cases request with
  | write g buf => rfl
  | read g count => exact Function.update_of_ne (Ne.symm hne) _ _
  | llseek g offset whence => exact Function.update_of_ne (Ne.symm hne) _ _
  | ioctl g cmd arg => exact Function.update_of_ne (Ne.symm hne) _ _

/-- A good read returns a slice and moves its file behind it. -/
theorem absStep_goodRead (K : Kernel) (a : AbsSystem) {c : Call} (hgood : GoodRead c) :
    ∃ count, Slice a.journal count (a.fPos c.request.file).toNat
        (absStep K a c).1.data.length (absStep K a c).1.data ∧
      (absStep K a c).1.ret = (absStep K a c).1.data.length ∧
      (absStep K a c).2.fPos c.request.file =
        a.fPos c.request.file + (absStep K a c).1.data.length := by
  obtain ⟨request, env⟩ := c
  obtain ⟨f, count, hreq, hpos, hint, hcopy⟩ := hgood
  dsimp only at hreq hint hcopy
  subst hreq
  -- the answer and the new position, in terms of what is visible
  have hread := absRead_of_copied (J := a.journal) count.val (a.fPos f) hint
    (by rw [hcopy, Nat.zero_min])
  have hans : (absStep K a ⟨.read f count, env⟩).1 =
      ⟨((visible a.journal (a.fPos f).toNat).take count.val).length,
        (visible a.journal (a.fPos f).toNat).take count.val⟩ := by
    simp only [absStep, hread]
  have hmove : (absStep K a ⟨.read f count, env⟩).2.fPos f =
      a.fPos f + ((visible a.journal (a.fPos f).toNat).take count.val).length := by
    simp only [absStep, hread, setPos, Function.update_self]
  refine ⟨count.val, ?_, ?_, ?_⟩
  · rw [hans]
    exact slice_visible a.journal hpos (a.fPos f).toNat
  · rw [hans]
  · rw [hans]
    exact hmove

/-- Good reads of `f`, mixed with calls on other files that commit nothing, walk
    through the readable bytes. -/
theorem absRun_drains {K : Kernel} {f : File} (more : List Call) {a : AbsSystem} (h0 : 0 ≤ a.fPos f)
    (hgood : ∀ c ∈ more, c.request.file = f → GoodRead c)
    (hsame : (absRun (absStep K) a more).2.journal.entries = a.journal.entries) :
    0 ≤ (absRun (absStep K) a more).2.fPos f ∧
      Drains a.journal (a.fPos f).toNat ((absRun (absStep K) a more).2.fPos f).toNat
        (answersOn f more (absRun (absStep K) a more).1) := by
  induction more generalizing a with
  | nil => exact ⟨h0, drains_nil _ _⟩
  | cons c more ih =>
    -- nothing was committed by the whole run, so nothing was by its first call
    have hfirst : (absStep K a c).2.journal.entries = a.journal.entries := by
      have hone := absStep_entries_grow K a c
      have hrest := absRun_entries_grow K (absStep K a c).2 more
      have hlen := hrest.length_le
      rw [show (absRun (absStep K) (absStep K a c).2 more).2.journal.entries = a.journal.entries
        from hsame] at hlen
      exact (hone.eq_of_length (Nat.le_antisymm hone.length_le hlen)).symm
    have hevicted : evicted (absStep K a c).2.journal = evicted a.journal := by
      rw [evicted, evicted, hfirst]
    have hgood' : ∀ d ∈ more, d.request.file = f → GoodRead d := fun d hd =>
      hgood d (List.mem_cons_of_mem _ hd)
    have hsame' : (absRun (absStep K) (absStep K a c).2 more).2.journal.entries =
        (absStep K a c).2.journal.entries := by
      rw [hfirst]
      exact hsame
    -- so what the rest of the run drains is the stream of the start
    have hdrains : ∀ {p q os}, Drains (absStep K a c).2.journal p q os →
        Drains a.journal p q os := by
      intro p q os h
      obtain ⟨hmoved, hsplit, hwhole, hends⟩ := h
      rw [hfirst, hevicted] at hsplit hwhole hends
      exact { moved := hmoved, split := hsplit, whole := hwhole, ends := hends }
    by_cases hf : c.request.file = f
    · -- a read of `f`: its slice comes first, and the rest starts behind it
      obtain ⟨count, hslice, hret, hmove⟩ := absStep_goodRead K a (hgood c List.mem_cons_self hf)
      rw [hf] at hslice hmove
      obtain ⟨hq, hrest⟩ := ih (a := (absStep K a c).2) (by omega) hgood' hsame'
      have hp : ((absStep K a c).2.fPos f).toNat =
          (a.fPos f).toNat + (absStep K a c).1.data.length := by omega
      rw [hp] at hrest
      refine ⟨hq, ?_⟩
      show Drains _ _ _ (if c.request.file = f then _ else _)
      rw [if_pos hf]
      exact (hdrains hrest).cons hslice hret
    · -- a call on another file is not seen
      have hstay := absStep_fPos_of_ne K a hf
      obtain ⟨hq, hrest⟩ := ih (a := (absStep K a c).2) (by omega) hgood' hsame'
      rw [hstay] at hrest
      refine ⟨hq, ?_⟩
      show Drains _ _ _ (if c.request.file = f then _ else _)
      rw [if_neg hf]
      exact hdrains hrest

/-! ## Reads after any run -/

/-- After any run a good read returns its slice of everything ever committed and
    moves its file by what it returned; and as long as nothing is committed,
    good reads of one file return the stream from `E + p` on, the whole of it
    once one of them returns 0, which happens after finitely many. -/
theorem aesdRead_history {K : Kernel} {calls : List Call} {outs : List Answer} {s : System}
    (hrun : run (step K) .init calls = some (outs, s)) :
    (∀ (env : CallEnv) (c : Nat) (p : Int), env.interrupted = false → env.uncopied = 0 → 0 < c →
      0 ≤ p → p < 2 ^ 63 →
      ∃ (r : Nat) (data : List Byte),
        aesdRead env s.driver c p = some (⟨r, data, p + r⟩, s.driver) ∧
        Slice (absAfter K calls).journal c p.toNat r data) ∧
    (∀ (env : CallEnv) (f : File) (c : RwCount), env.interrupted = false → env.uncopied = 0 →
      0 < c.val →
      ∃ (r : Nat) (data : List Byte),
        step K s ⟨.read f c, env⟩ =
          some (⟨r, data⟩, ⟨s.driver, setPos s.fPos f (s.fPos f + r)⟩) ∧
        Slice (absAfter K calls).journal c.val (s.fPos f).toNat r data) ∧
    (∀ (f : File) (more : List Call) (outs' : List Answer) (s' : System),
      run (step K) s more = some (outs', s') →
      (∀ c ∈ more, c.request.file = f → GoodRead c) →
      (absAfter K (calls ++ more)).journal.entries = (absAfter K calls).journal.entries →
      Drains (absAfter K calls).journal (s.fPos f).toNat (s'.fPos f).toNat
        (answersOn f more outs')) := by
  obtain ⟨-, -, hrep⟩ := run_refines hrun
  have hread : ∀ (env : CallEnv) (c : Nat) (p : Int), env.interrupted = false → env.uncopied = 0 →
      0 < c → 0 ≤ p → p < 2 ^ 63 →
      ∃ (r : Nat) (data : List Byte),
        aesdRead env s.driver c p = some (⟨r, data, p + r⟩, s.driver) ∧
        Slice (absAfter K calls).journal c p.toNat r data :=
    fun env c p hint hcopy hc h0 hlt => aesdRead_slice hrep.driver hint hcopy hc h0 hlt
  refine ⟨hread, ?_, ?_⟩
  · intro env f c hint hcopy hc
    -- a read through a file is a read at the position the file has
    have hpos := hrep.isPos f
    rw [← hrep.fPos_eq] at hpos
    obtain ⟨r, data, heq, hslice⟩ := hread env c.val (s.fPos f) hint hcopy hc hpos.1 hpos.2
    refine ⟨r, data, ?_, hslice⟩
    simp only [step, heq, Option.map_some]
  · intro f more outs' s' hmore hgood hsame
    obtain ⟨-, houts, hrep'⟩ := run_follows hrep hmore
    rw [absAfter, absRun_append] at hsame
    have hdrains := (absRun_drains more (hrep.isPos f).1 hgood hsame).2
    rw [houts, hrep.fPos_eq, hrep'.fPos_eq]
    exact hdrains

/-- One line, written through file 0. -/
def oneLine : List Call := [⟨.write 0 (vfsBuf [97, newline]), .calm⟩]

/-- File 1 reads a byte at a time, past the end, while file 0 writes the start of a line. -/
def bytewise : List Call :=
  [⟨.read 1 (vfsCount 1), .calm⟩, ⟨.write 0 (vfsBuf [98]), .calm⟩,
    ⟨.read 1 (vfsCount 1), .calm⟩, ⟨.read 1 (vfsCount 1), .calm⟩]

theorem bytewise_history :
    ∃ outs s outs' s', run (step .page) .init oneLine = some (outs, s) ∧
      run (step .page) s bytewise = some (outs', s') ∧
      Drains ⟨[[97, newline]], []⟩ (s.fPos 1).toNat (s'.fPos 1).toNat
        (answersOn 1 bytewise outs') := by
  have hall : Allowed (absStep .page) (Defined .page) .init (oneLine ++ bytewise) := by
    simp [oneLine, bytewise, Allowed, Defined, NoLastByte]
  obtain ⟨s', hrun, -⟩ := run_defined hall
  obtain ⟨s, outs, outs', hline, hreads, -⟩ := run_append_eq_some.mp hrun
  have hgood : ∀ c ∈ bytewise, c.request.file = 1 → GoodRead c := by
    intro c hc hf
    simp only [bytewise, List.mem_cons, List.not_mem_nil, or_false] at hc
    rcases hc with rfl | rfl | rfl | rfl
    · exact ⟨1, _, rfl, by decide, rfl, rfl⟩
    · exact absurd hf (by decide)
    · exact ⟨1, _, rfl, by decide, rfl, rfl⟩
    · exact ⟨1, _, rfl, by decide, rfl, rfl⟩
  exact ⟨outs, s, outs', s', hline, hreads,
    (aesdRead_history hline).2.2 1 bytewise outs' s' hreads hgood rfl⟩

end Aesd.Driver
