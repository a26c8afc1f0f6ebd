/-
  Aesd.Driver.Accounting

  Do the values returned by `aesd_write` and `aesd_read` account for the bytes
  they moved?  `Accounts` says that they do in a run: each value is negative
  or the exact number of bytes, and the sums agree with what the device holds
  and with how far the positions moved.

  On a fault of the user copy both functions return the number of bytes that
  were not copied, so `Accounts` holds of exactly the runs in which every
  user copy is complete.
-/
import Aesd.Driver.System
import Aesd.Driver.WriteRuns
import Aesd.Driver.History

namespace Aesd.Driver

open Aesd.Lib

/-! ## What is counted -/

def Request.isWrite : Request → Bool
  | .write _ _ => true
  | _ => false

def Request.readsOn (f : File) : Request → Bool
  | .read g _ => g == f
  | _ => false

/-- The request may set the position of `f` to a place of its own choice. -/
def Request.seeksOn (f : File) : Request → Bool
  | .llseek g _ _ => g == f
  | .ioctl g _ _ => g == f
  | _ => false

/-- The sum of the non-negative values returned to the selected calls. -/
def gains (sel : Request → Bool) : List Call → List Answer → Int
  | c :: cs, o :: os => (if sel c.request then max o.ret 0 else 0) + gains sel cs os
  | _, _ => 0

@[simp] theorem gains_nil (sel : Request → Bool) : gains sel [] [] = 0 := rfl

@[simp] theorem gains_cons (sel : Request → Bool) (c : Call) (cs : List Call) (o : Answer)
    (os : List Answer) : gains sel (c :: cs) (o :: os) =
      (if sel c.request then max o.ret 0 else 0) + gains sel cs os := rfl

/-- The value returned is negative, or the number of bytes delivered to the
    reader, or the number by which the text in the device grew. -/
def ExactReturn (J : Journal Byte) (c : Call) (o : Answer) (J' : Journal Byte) : Prop :=
  match c.request with
  | .read _ _ => o.ret < 0 ∨ o.ret = o.data.length
  | .write _ _ => o.ret < 0 ∨ o.ret = J'.text.length - J.text.length
  | _ => True

/-- The values returned in the run account for the bytes moved. -/
structure Accounts (K : Kernel) (calls : List Call) : Prop where
  each : ∀ pre c post outs s o s', pre ++ c :: post = calls →
    run (step K) .init pre = some (outs, s) → step K s c = some (o, s') →
    ExactReturn (absAfter K pre).journal c o (absAfter K (pre ++ [c])).journal
  writes : ∀ pre post outs s, pre ++ post = calls → run (step K) .init pre = some (outs, s) →
    ∃ texts pending, committedTexts s.driver = some texts ∧ pendingText s.driver = some pending ∧
      gains Request.isWrite pre outs =
        (evicted (absAfter K pre).journal).flatten.length + texts.flatten.length + pending.length
  reads : ∀ f pre seg post outs s outs' s', pre ++ seg ++ post = calls →
    run (step K) .init pre = some (outs, s) → run (step K) s seg = some (outs', s') →
    (∀ c ∈ seg, c.request.seeksOn f = false) →
    gains (Request.readsOn f) seg outs' = s'.fPos f - s.fPos f

/-! ## One call -/

/-- The user copy that the call reaches, if any, copies every byte. -/
def CopyComplete (K : Kernel) (a : AbsSystem) (c : Call) : Prop :=
  match c.request with
  | .read f count =>
    c.env.interrupted = true ∨
      min c.env.uncopied ((visible a.journal (a.fPos f).toNat).take count.val).length = 0
  | .write _ buf =>
    c.env.interrupted = true ∨
      K.grants c.env (a.journal.pending.length + buf.val.length) = false ∨
      min c.env.uncopied buf.val.length = 0
  | _ => True

/-- A write whose copy is complete returns what the text grew by, or is negative. -/
theorem absWrite_exact {K : Kernel} {env : CallEnv} {J : Journal Byte} {b : List Byte}
    (h : env.interrupted = true ∨ K.grants env (J.pending.length + b.length) = false ∨
      min env.uncopied b.length = 0) :
    (absWriteRet K env J b < 0 ∧ absWriteNext isNewline K env J b = J) ∨
      (absWriteRet K env J b = b.length ∧
        (absWriteNext isNewline K env J b).text.length = J.text.length + b.length) := by
  by_cases hint : env.interrupted = true
  · left
    simp [absWriteRet, absWriteNext, writeOk, hint, EINTR]
  · cases hgr : K.grants env (J.pending.length + b.length) with
    | false =>
      left
      simp [absWriteRet, absWriteNext, writeOk, hint, hgr, ENOMEM]
    | true =>
      -- neither signal nor refusal: the copy is reached, so it is complete
      have hcopy : min env.uncopied b.length = 0 := by simpa [hint, hgr] using h
      have hok : writeOk K env J b = true := by simp [writeOk, hint, hgr, hcopy]
      right
      rw [absWriteNext, if_pos hok, Journal.text_append, List.length_append]
      exact ⟨by simp [absWriteRet, hint, hgr, hcopy], rfl⟩

/-- A write whose copy is not complete returns a positive number and stores nothing. -/
theorem absWrite_fault {K : Kernel} {env : CallEnv} {J : Journal Byte} {b : List Byte}
    (hint : env.interrupted = false) (hgr : K.grants env (J.pending.length + b.length) = true)
    (hcopy : min env.uncopied b.length ≠ 0) :
    0 < absWriteRet K env J b ∧ absWriteNext isNewline K env J b = J := by
  have hret : absWriteRet K env J b = (min env.uncopied b.length : Nat) := by
    rw [absWriteRet, if_neg (by simp [hint]), if_neg (by simp [hgr]), if_pos hcopy]
  have hnext : absWriteNext isNewline K env J b = J := by
    rw [absWriteNext, if_neg (by simp [writeOk, hcopy])]
  exact ⟨by omega, hnext⟩

/-- A read whose copy is not complete returns a positive number and moves nothing. -/
theorem absRead_fault {env : CallEnv} {J : Journal Byte} {count : Nat} {p : Int}
    (hcount : count ≤ MAX_RW_COUNT) (hint : env.interrupted = false)
    (hcopy : min env.uncopied ((visible J p.toNat).take count).length ≠ 0) :
    0 < (absRead env J count p).ret ∧ (absRead env J count p).fPos = p := by
  have hlen : ((visible J p.toNat).take count).length ≤ count := by
    rw [List.length_take]
    omega
  -- the number of bytes left behind fits `int`, so it stays positive as `err`
  have hmax : MAX_RW_COUNT < 2 ^ 31 := by decide
  rw [absRead, if_neg (by simp [hint])]
  dsimp only
  rw [if_pos hcopy]
  refine ⟨?_, rfl⟩
  dsimp only
  rw [toInt_of_lt (by omega) (by omega)]
  omega

/-- What one call adds to the sum of the writes is what it adds to the text. -/
theorem absStep_writes {K : Kernel} {a : AbsSystem} {c : Call} (h : CopyComplete K a c) :
    (if c.request.isWrite then max (absStep K a c).1.ret 0 else 0) =
      ((absStep K a c).2.journal.text.length : Int) - a.journal.text.length := by
  obtain ⟨request, env⟩ := c
  cases request with
  | write f buf =>
    show max (absWriteRet K env a.journal buf.val) 0 =
      ((absWriteNext isNewline K env a.journal buf.val).text.length : Int) - a.journal.text.length
    have h' := absWrite_exact (K := K) (J := a.journal) h
    dsimp only at h'
    -- negative and nothing stored, or the length of the buffer and all of it stored
    rcases h' with ⟨hret, hnext⟩ | ⟨hret, hnext⟩
    · rw [hnext]
      omega
    · omega
  | read f count => simp [Request.isWrite, absStep]
  | llseek f offset whence => simp [Request.isWrite, absStep]
  | ioctl f cmd arg => simp [Request.isWrite, absStep]

/-- What one call adds to the sum of the reads of `f` is what it adds to its position. -/
theorem absStep_reads {K : Kernel} {a : AbsSystem} {c : Call} {f : File} (h : CopyComplete K a c)
    (hseek : c.request.seeksOn f = false) :
    (if c.request.readsOn f then max (absStep K a c).1.ret 0 else 0) =
      (absStep K a c).2.fPos f - a.fPos f := by
  obtain ⟨request, env⟩ := c
  cases request with
  | write g buf => simp [Request.readsOn, absStep]
  | read g count =>
    show (if g == f then max (absRead env a.journal count.val (a.fPos g)).ret 0 else 0) =
      Function.update a.fPos g (absRead env a.journal count.val (a.fPos g)).fPos f - a.fPos f
    by_cases hg : g = f
    · subst hg
      rw [if_pos (beq_self_eq_true g), Function.update_self]
      -- a signal gives a negative value, which counts as 0; else all was copied
      rcases h with hint | hcopy
      · have hread : absRead env a.journal count.val (a.fPos g) = ⟨-EINTR, [], a.fPos g⟩ := by
          rw [absRead, if_pos hint]
        have hneg : -EINTR < 0 := by decide
        rw [hread]
        dsimp only
        omega
      · cases hint : env.interrupted with
        | true =>
          have hneg : -EINTR < 0 := by decide
          rw [absRead, if_pos hint]
          dsimp only
          omega
        | false =>
          rw [absRead_of_copied _ _ hint hcopy]
          dsimp only
          omega
    · -- a read of another file
      rw [if_neg (by simpa using hg), Function.update_of_ne (Ne.symm hg)]
      omega
  | llseek g offset whence =>
    have hne : g ≠ f := by simpa [Request.seeksOn] using hseek
    rw [absStep_fPos_of_ne K a (c := ⟨.llseek g offset whence, env⟩) hne]
    simp [Request.readsOn]
  | ioctl g cmd arg =>
    have hne : g ≠ f := by simpa [Request.seeksOn] using hseek
    rw [absStep_fPos_of_ne K a (c := ⟨.ioctl g cmd arg, env⟩) hne]
    simp [Request.readsOn]

/-- A call whose copy is complete returns exactly what it moved. -/
theorem absStep_exact {K : Kernel} {a : AbsSystem} {c : Call} (h : CopyComplete K a c) :
    ExactReturn a.journal c (absStep K a c).1 (absStep K a c).2.journal := by
  obtain ⟨request, env⟩ := c
  cases request with
  | write f buf =>
    show absWriteRet K env a.journal buf.val < 0 ∨ absWriteRet K env a.journal buf.val =
      ((absWriteNext isNewline K env a.journal buf.val).text.length : Int) - a.journal.text.length
    have h' := absWrite_exact (K := K) (J := a.journal) h
    dsimp only at h'
    rcases h' with ⟨hret, -⟩ | ⟨hret, hnext⟩
    · exact .inl hret
    · right
      omega
  | read f count =>
    show (absRead env a.journal count.val (a.fPos f)).ret < 0 ∨
      (absRead env a.journal count.val (a.fPos f)).ret =
        (absRead env a.journal count.val (a.fPos f)).data.length
    cases hint : env.interrupted with
    | true =>
      left
      rw [absRead, if_pos hint]
      exact (by decide : -EINTR < 0)
    | false =>
      have hcopy :
          min env.uncopied ((visible a.journal (a.fPos f).toNat).take count.val).length = 0 :=
        h.resolve_left (by simp [hint])
      right
      rw [absRead_of_copied _ _ hint hcopy]
  | llseek f offset whence => trivial
  | ioctl f cmd arg => trivial

/-- A call that returns exactly what it moved, and that moves the position of its
    file by what it returned if it is a read, has a complete copy. -/
theorem copyComplete_of_exact {K : Kernel} {a : AbsSystem} {c : Call}
    (hexact : ExactReturn a.journal c (absStep K a c).1 (absStep K a c).2.journal)
    (hread : ∀ f, c.request.seeksOn f = false →
      (if c.request.readsOn f then max (absStep K a c).1.ret 0 else 0) =
        (absStep K a c).2.fPos f - a.fPos f) : CopyComplete K a c := by
  obtain ⟨request, env⟩ := c
  -- on a fault the value is positive, but nothing was stored and no position moved
  by_contra hfault
  cases request with
  | write f buf =>
    simp only [CopyComplete, not_or, Bool.not_eq_true, Bool.not_eq_false] at hfault
    obtain ⟨hint, hgr, hcopy⟩ := hfault
    obtain ⟨hret, hnext⟩ := absWrite_fault (K := K) (J := a.journal) hint hgr hcopy
    have hexact' : absWriteRet K env a.journal buf.val < 0 ∨ absWriteRet K env a.journal buf.val =
        ((absWriteNext isNewline K env a.journal buf.val).text.length : Int) -
          a.journal.text.length := hexact
    rw [hnext] at hexact'
    omega
  | read f count =>
    simp only [CopyComplete, not_or, Bool.not_eq_true] at hfault
    obtain ⟨hint, hcopy⟩ := hfault
    obtain ⟨hret, hpos⟩ := absRead_fault count.property hint hcopy
    have hmove := hread f rfl
    have hstay : (absStep K a ⟨.read f count, env⟩).2.fPos f = a.fPos f :=
      (Function.update_self ..).trans hpos
    have hsel : Request.readsOn f (.read f count) = true := beq_self_eq_true f
    have hans : (absStep K a ⟨.read f count, env⟩).1.ret =
        (absRead env a.journal count.val (a.fPos f)).ret := rfl
    rw [hstay, if_pos hsel, hans] at hmove
    omega
  | llseek f offset whence => exact hfault trivial
  | ioctl f cmd arg => exact hfault trivial

/-! ## Whole runs -/

theorem absRun_writes {K : Kernel} (calls : List Call) {a : AbsSystem}
    (h : Allowed (absStep K) (CopyComplete K) a calls) :
    gains Request.isWrite calls (absRun (absStep K) a calls).1 =
      ((absRun (absStep K) a calls).2.journal.text.length : Int) - a.journal.text.length := by
  induction calls generalizing a with
  | nil => simp [absRun]
  | cons c calls ih =>
    have hone := absStep_writes h.1
    have hrest := ih h.2
    rw [absRun, gains_cons]
    dsimp only
    omega

theorem absRun_reads {K : Kernel} {f : File} (calls : List Call) {a : AbsSystem}
    (h : Allowed (absStep K) (CopyComplete K) a calls)
    (hseek : ∀ c ∈ calls, c.request.seeksOn f = false) :
    gains (Request.readsOn f) calls (absRun (absStep K) a calls).1 =
      (absRun (absStep K) a calls).2.fPos f - a.fPos f := by
  induction calls generalizing a with
  | nil => simp [absRun]
  | cons c calls ih =>
    have hone := absStep_reads h.1 (hseek c List.mem_cons_self)
    have hrest := ih h.2 fun d hd => hseek d (List.mem_cons_of_mem _ hd)
    rw [absRun, gains_cons]
    dsimp only
    omega

/-- The text ever stored, by where it is now. -/
theorem text_length (J : Journal Byte) :
    J.text.length = (evicted J).flatten.length + (content J).length + J.pending.length := by
  rw [Journal.text, ← evicted_append_content, List.length_append, List.length_append]

/-- The values returned in a run account for the bytes moved exactly if every
    user copy in it is complete. -/
theorem accounts_iff_copyComplete {K : Kernel} {calls : List Call} {outs : List Answer}
    {s : System} (hrun : run (step K) .init calls = some (outs, s)) :
    Accounts K calls ↔ Allowed (absStep K) (CopyComplete K) .init calls := by
  refine ⟨?_, ?_⟩
  · intro hacc
    rw [allowed_iff_forall]
    intro pre c post hcalls
    -- the call in its place: before it the run of `pre`, then its own step
    rw [← hcalls] at hrun
    obtain ⟨t, outs₁, _, hpre, hrest, -⟩ := run_append_eq_some.mp hrun
    obtain ⟨o, t', _, hstep, -, -⟩ := run_cons_eq_some.mp hrest
    obtain ⟨-, -, hrep⟩ := run_refines hpre
    obtain ⟨-, rfl, hrep'⟩ := step_follows hrep hstep
    have hexact := hacc.each pre c post outs₁ t _ t' hcalls hpre hstep
    rw [absAfter, absAfter, absRun_append] at hexact
    -- the call alone is a run without seeks on `f`, unless it is a seek itself
    apply copyComplete_of_exact hexact
    intro f hseek
    have hmoved := hacc.reads f pre [c] post outs₁ t _ t' (by simpa using hcalls) hpre
      (run_cons_eq_some.mpr ⟨_, t', [], hstep, run_nil t', rfl⟩) (by simpa using hseek)
    rw [hrep.fPos_eq, hrep'.fPos_eq, gains_cons, gains_nil, Int.add_zero] at hmoved
    exact hmoved
  · intro hall
    refine { each := ?_, writes := ?_, reads := ?_ }
    · intro pre c post outs₁ t o t' hcalls hpre hstep
      obtain ⟨-, -, hrep⟩ := run_refines hpre
      obtain ⟨-, rfl, -⟩ := step_follows hrep hstep
      rw [absAfter, absAfter, absRun_append]
      exact absStep_exact (allowed_iff_forall.mp hall pre c post hcalls)
    · intro pre post outs₁ t hcalls hpre
      rw [← hcalls, allowed_append] at hall
      obtain ⟨-, rfl, hrep⟩ := run_refines hpre
      obtain ⟨htexts, hpending, -⟩ := hrep.driver.texts
      refine ⟨_, _, htexts, hpending, ?_⟩
      have hsum := absRun_writes pre hall.1
      have htext := text_length (absAfter K pre).journal
      rw [content] at htext
      -- the sums start from an empty device
      have hempty : AbsSystem.init.journal.text.length = 0 := rfl
      rw [hempty] at hsum
      rw [absAfter] at htext ⊢
      omega
    · intro f pre seg post outs₁ t outs₂ t' hcalls hpre hseg hseek
      rw [← hcalls, allowed_append, allowed_append] at hall
      obtain ⟨-, -, hrep⟩ := run_refines hpre
      obtain ⟨-, rfl, hrep'⟩ := run_follows hrep hseg
      rw [hrep.fPos_eq, hrep'.fPos_eq]
      exact absRun_reads seg hall.1.2 hseek

/-- `a` is written through file 0, and the user copy leaves its one byte behind. -/
def faultyWrite : List Call := [⟨.write 0 (vfsBuf [97]), ⟨false, false, 1⟩⟩]

/-- The write returns 1 although it stored nothing. -/
theorem faultyWrite_miscounts :
    ∃ s, run (step .page) .init faultyWrite = some ([⟨1, []⟩], s) ∧
      committedTexts s.driver = some [] ∧ pendingText s.driver = some [] ∧
      ¬ Accounts .page faultyWrite := by
  have hdef : Allowed (absStep .page) (Defined .page) .init faultyWrite := by
    simp [faultyWrite, Allowed, Defined, NoLastByte]
  obtain ⟨s, hrun, hrep⟩ := run_defined hdef
  obtain ⟨htexts, hpending, -⟩ := hrep.driver.texts
  refine ⟨s, hrun, htexts, hpending, fun hacc => ?_⟩
  obtain ⟨texts, pending, htexts', hpending', hsum⟩ :=
    hacc.writes faultyWrite [] _ s (List.append_nil _) hrun
  -- 1 on the left of the sum, an empty device on its right
  obtain rfl := Option.some.inj (htexts.symm.trans htexts')
  obtain rfl := Option.some.inj (hpending.symm.trans hpending')
  exact absurd hsum (by decide)

/-- A line written by file 0 and read back by file 1, with a signal in between. -/
def writeThenRead : List Call :=
  [⟨.write 0 (vfsBuf [97, newline]), .calm⟩, ⟨.read 1 (vfsCount 8), ⟨true, false, 0⟩⟩,
    ⟨.read 1 (vfsCount 8), .calm⟩]

theorem writeThenRead_accounts : Accounts .page writeThenRead := by
  have hdef : Allowed (absStep .page) (Defined .page) .init writeThenRead := by
    simp [writeThenRead, Allowed, Defined, NoLastByte]
  obtain ⟨s, hrun, -⟩ := run_defined hdef
  exact (accounts_iff_copyComplete hrun).mpr (by
    simp [writeThenRead, Allowed, CopyComplete, CallEnv.calm])

end Aesd.Driver
