/-
  Aesd.Driver.Failure

  A call that fails is as good as not made.  The record and the heap do change
  when `aesd_write` fails after its `kmalloc` (the pending bytes have moved to
  a larger buffer by then), but both states stand for the same journal, and
  states that stand for the same journal give the same answers for ever.
-/
import Aesd.Driver.System
import Aesd.Driver.WriteRuns

namespace Aesd.Driver

open Aesd.Lib

/-- The call hits one of the error exits: a signal at the mutex, no memory, a
    user copy that is not complete, or a request the device cannot meet. -/
def Fails (K : Kernel) (a : AbsSystem) (c : Call) : Prop :=
  match c.request with
  | .read f count =>
    c.env.interrupted = true ∨
      min c.env.uncopied ((visible a.journal (a.fPos f).toNat).take count.val).length ≠ 0
  | .write _ buf =>
    c.env.interrupted = true ∨
      K.grants c.env (a.journal.pending.length + buf.val.length) = false ∨
      min c.env.uncopied buf.val.length ≠ 0
  | .llseek f offset whence =>
    c.env.interrupted = true ∨
      ∀ newpos, absLlseekTarget a.journal (a.fPos f) (toLoff offset) whence = some newpos →
        newpos < 0
  | .ioctl _ cmd arg =>
    c.env.interrupted = true ∨ cmd ≠ AESDCHAR_IOCSEEKTO ∨ min c.env.uncopied sizeofSeekto ≠ 0 ∨
      absSeekto a.journal arg.writeCmd.toNat arg.writeCmdOffset.toNat = none

/-! ## On the abstract device -/

theorem absRead_of_fails {env : CallEnv} {J : Journal Byte} {count : Nat} {p : Int}
    (h : env.interrupted = true ∨ min env.uncopied ((visible J p.toNat).take count).length ≠ 0) :
    (absRead env J count p).fPos = p := by
  rw [absRead]
  by_cases hint : env.interrupted = true
  · rw [if_pos hint]
  · rw [if_neg hint]
    dsimp only
    rw [if_pos (h.resolve_left hint)]

theorem writeOk_of_fails {K : Kernel} {env : CallEnv} {J : Journal Byte} {b : List Byte}
    (h : env.interrupted = true ∨ K.grants env (J.pending.length + b.length) = false ∨
      min env.uncopied b.length ≠ 0) : writeOk K env J b = false := by
  rcases h with hint | hgr | hcopy
  · simp [writeOk, hint]
  · simp [writeOk, hgr]
  · simp [writeOk, hcopy]

theorem absLlseek_of_fails {env : CallEnv} {J : Journal Byte} {p offset whence : Int}
    (h : env.interrupted = true ∨
      ∀ newpos, absLlseekTarget J p (toLoff offset) whence = some newpos → newpos < 0) :
    (absLlseek env J p offset whence).fPos = p := by
  rw [absLlseek]
  by_cases hint : env.interrupted = true
  · rw [if_pos hint]
  · rw [if_neg hint]
    cases htarget : absLlseekTarget J p (toLoff offset) whence with
    | none => rfl
    | some newpos =>
      have hneg := h.resolve_left hint newpos htarget
      dsimp only
      rw [if_pos hneg]

theorem absIoctl_of_fails {env : CallEnv} {J : Journal Byte} {p : Int} {cmd : UInt32}
    {arg : AesdSeekto}
    (h : env.interrupted = true ∨ cmd ≠ AESDCHAR_IOCSEEKTO ∨ min env.uncopied sizeofSeekto ≠ 0 ∨
      absSeekto J arg.writeCmd.toNat arg.writeCmdOffset.toNat = none) :
    (absIoctl env J p cmd arg).fPos = p := by
  rw [absIoctl]
  by_cases hint : env.interrupted = true
  · rw [if_pos hint]
  · rw [if_neg hint]
    by_cases hcmd : cmd = AESDCHAR_IOCSEEKTO ∧ min env.uncopied sizeofSeekto = 0
    · -- the request itself is read: what fails is its range
      have hrange : absSeekto J arg.writeCmd.toNat arg.writeCmdOffset.toNat = none := by
        rcases h.resolve_left hint with hne | hcopy | hrange
        · exact absurd hcmd.1 hne
        · exact absurd hcmd.2 hcopy
        · exact hrange
      rw [if_pos hcmd, hrange]
    · rw [if_neg hcmd]

/-- A failing call has a result, and leaves the abstract system as it was. -/
theorem absStep_of_fails {K : Kernel} {a : AbsSystem} {c : Call} (h : Fails K a c) :
    Defined K a c ∧ (absStep K a c).2 = a := by
  obtain ⟨request, env⟩ := c
  cases request with
  | read f count =>
    refine ⟨trivial, ?_⟩
    show AbsSystem.mk a.journal
      (setPos a.fPos f (absRead env a.journal count.val (a.fPos f)).fPos) = a
    rw [absRead_of_fails h, setPos, Function.update_eq_self]
  | write f buf =>
    -- a write that fails has no last byte to look at
    have hno := writeOk_of_fails (K := K) (J := a.journal) h
    refine ⟨fun hlast => ?_, ?_⟩
    · rw [hlast.1] at hno
      cases hno
    · show AbsSystem.mk (absWriteNext isNewline K env a.journal buf.val) a.fPos = a
      rw [absWriteNext, if_neg (by simpa using hno)]
  | llseek f offset whence =>
    refine ⟨trivial, ?_⟩
    show AbsSystem.mk a.journal
      (setPos a.fPos f (absLlseek env a.journal (a.fPos f) offset whence).fPos) = a
    rw [absLlseek_of_fails h, setPos, Function.update_eq_self]
  | ioctl f cmd arg =>
    refine ⟨trivial, ?_⟩
    show AbsSystem.mk a.journal
      (setPos a.fPos f (absIoctl env a.journal (a.fPos f) cmd arg).fPos) = a
    rw [absIoctl_of_fails h, setPos, Function.update_eq_self]

/-! ## On the device -/

/-- Two systems that stand for the same abstract one answer alike for ever. -/
theorem run_of_same_rep {K : Kernel} {s t : System} {a : AbsSystem} (hs : SystemRep K s a)
    (ht : SystemRep K t a) (later : List Call) :
    (run (step K) s later).map Prod.fst = (run (step K) t later).map Prod.fst := by
  apply run_congr (R := fun s t => ∃ a, SystemRep K s a ∧ SystemRep K t a) ?_ ⟨a, hs, ht⟩
  rintro s t c ⟨a, hs, ht⟩
  by_cases hdef : Defined K a c
  · -- both answer what the abstract system answers, and stay in step with it
    obtain ⟨s', hs', hrs⟩ := step_refines c hs hdef
    obtain ⟨t', ht', hrt⟩ := step_refines c ht hdef
    exact .inr ⟨_, s', t', hs', ht', _, hrs, hrt⟩
  · exact .inl ⟨step_undefined c hs hdef, step_undefined c ht hdef⟩

/-- After any run a failing call returns, leaves every position, the committed
    entries and the pending text as they were and the mutex free, and later calls
    cannot tell that it was made. -/
theorem failed_call_unobservable {K : Kernel} {calls : List Call} {outs : List Answer} {s : System}
    (hrun : run (step K) .init calls = some (outs, s)) {c : Call}
    (hfail : Fails K (absAfter K calls) c) :
    ∃ o s', step K s c = some (o, s') ∧ s'.fPos = s.fPos ∧
      (committedTexts s.driver = some (committed (absAfter K calls).journal) ∧
        committedTexts s'.driver = committedTexts s.driver) ∧
      (pendingText s.driver = some (absAfter K calls).journal.pending ∧
        pendingText s'.driver = pendingText s.driver) ∧
      s'.driver.device.deviceMutex = false ∧
      ∀ later, (run (step K) s' later).map Prod.fst = (run (step K) s later).map Prod.fst := by
  obtain ⟨-, -, hrep⟩ := run_refines hrun
  obtain ⟨hdef, hsame⟩ := absStep_of_fails hfail
  obtain ⟨s', hstep, hrep'⟩ := step_refines c hrep hdef
  -- the state after the call stands for the same abstract state
  rw [hsame] at hrep'
  obtain ⟨htexts, hpending, -⟩ := hrep.driver.texts
  obtain ⟨htexts', hpending', hfree⟩ := hrep'.driver.texts
  refine ⟨_, s', hstep, ?_, ⟨htexts, ?_⟩, ⟨hpending, ?_⟩, hfree, run_of_same_rep hrep' hrep⟩
  · rw [hrep.fPos_eq, hrep'.fPos_eq]
  · rw [htexts, htexts']
  · rw [hpending, hpending']

/-- The pending `a` is moved to a buffer of two bytes, and `b` cannot be copied behind it. -/
theorem failed_call_unobservable_pending :
    ∃ outs s o s', run (step .page) .init [⟨.write 0 (vfsBuf [97]), .calm⟩] = some (outs, s) ∧
      step .page s ⟨.write 1 (vfsBuf [98]), ⟨false, false, 1⟩⟩ = some (o, s') ∧
      pendingText s'.driver = some [97] ∧
      ∀ later, (run (step .page) s' later).map Prod.fst =
        (run (step .page) s later).map Prod.fst := by
  have hdef : Allowed (absStep .page) (Defined .page) .init
      [⟨.write 0 (vfsBuf [97]), .calm⟩] := by simp [Allowed, Defined, NoLastByte]
  obtain ⟨s, hrun, -⟩ := run_defined hdef
  obtain ⟨o, s', hstep, -, -, ⟨hpending, hsame⟩, -, hlater⟩ :=
    failed_call_unobservable hrun (c := ⟨.write 1 (vfsBuf [98]), ⟨false, false, 1⟩⟩)
      (.inr (.inr (by decide)))
  exact ⟨_, s, o, s', hrun, hstep, hsame.trans hpending, hlater⟩

end Aesd.Driver
